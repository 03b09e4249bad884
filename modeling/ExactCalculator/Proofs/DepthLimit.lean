import ExactCalculator.Proofs.Blame.Exact

/-! The depth limit changes nothing but what it is for. Without a limit a run reads every text as far
as a run with one does, up to the first parenthesis that opens a level too many (`Path.limited`). There
the one run stops, and the other blames nothing any more that ends before it (`Course.blames_beyond`);
so the outcome with a limit can be told from the outcome without. -/
namespace ExactCalculator
set_option autoImplicit false

/-! ## The first parenthesis beyond the limit -/

/-- How many parentheses more are opened in a text than closed. -/
def balance (w : List Char) : Int := (w.count '(' : Int) - (w.count ')' : Int)

/-- Every first part of the text keeps within the limit. -/
def KeepsWithin (limit : Nat) (text : List Char) : Prop :=
  ∀ w z, text = w ++ z → balance w ≤ limit

/-- After the first part `before` of a text, the offset of the first parenthesis that opens when as
many as the limit are open. -/
def beyondLimitFrom (limit : Nat) (before : List Char) : List Char → Option Nat
  | [] => none
  | c :: cs =>
    if c = '(' ∧ balance before = limit then some (byteLength before)
    else beyondLimitFrom limit (before ++ [c]) cs

/-- The offset of the first parenthesis of a text that opens one level more than the limit. -/
def beyondLimit? (limit : Nat) (text : List Char) : Option Nat := beyondLimitFrom limit [] text

section
variable {limit : Nat} {text before cs : List Char} {c : Char} {p : Nat}

theorem balance_append (xs ys : List Char) : balance (xs ++ ys) = balance xs + balance ys := by
  simp only [balance, List.count_append, Nat.cast_add]
  omega

theorem balance_opening : balance ['('] = 1 := rfl

theorem balance_le_of_ne_opening (h : c ≠ '(') : balance [c] ≤ 0 := by
  have hcount : [c].count '(' = 0 := List.count_singleton.trans (if_neg (by simpa using h))
  rw [balance, hcount]
  omega

theorem KeepsWithin.of_append {w z : List Char} (h : KeepsWithin limit (w ++ z)) :
    KeepsWithin limit w := by
  rintro u v rfl
  exact h u (v ++ z) (by rw [List.append_assoc])

theorem keepsWithin_nil : KeepsWithin limit [] := by
  intro w z h
  obtain ⟨rfl, -⟩ := List.append_eq_nil_iff.1 h.symm
  exact Int.natCast_nonneg limit

/-- A part of a text that ends with a character is all of it or a part of what comes before. -/
theorem append_cons_eq_concat {u v w : List Char} {b : Char} (h : u ++ c :: v = w ++ [b]) :
    (u = w ∧ c = b ∧ v = []) ∨ ∃ v', u ++ c :: v' = w := by
  rcases List.eq_nil_or_concat v with rfl | ⟨v, a, rfl⟩
  · obtain ⟨hw, hchar⟩ := List.append_inj' h rfl
    exact .inl ⟨hw, List.singleton_inj.1 hchar, rfl⟩
  · rw [List.concat_eq_append, ← List.cons_append, ← List.append_assoc] at h
    exact .inr ⟨v, (List.append_inj' h rfl).1⟩

theorem KeepsWithin.concat (h : KeepsWithin limit before) (hc : balance (before ++ [c]) ≤ limit) :
    KeepsWithin limit (before ++ [c]) := by
  intro w z hsplit
  rcases List.eq_nil_or_concat z with rfl | ⟨z, b, rfl⟩
  · rw [List.append_nil] at hsplit
    rwa [← hsplit]
  · rw [List.concat_eq_append, ← List.append_assoc] at hsplit
    exact h w z (List.append_inj' hsplit rfl).1

/-- A character that is not the parenthesis in question keeps the text within the limit. -/
theorem KeepsWithin.step (h : KeepsWithin limit before) (hno : ¬(c = '(' ∧ balance before = limit)) :
    KeepsWithin limit (before ++ [c]) := by
  have hbefore : balance before ≤ limit := h before [] (List.append_nil _).symm
  refine h.concat ?_
  rw [balance_append]
  by_cases hc : c = '('
  · have hlt : balance before < limit := lt_of_le_of_ne hbefore fun heq => hno ⟨hc, heq⟩
    rw [hc, balance_opening]
    omega
  · have hle := balance_le_of_ne_opening hc
    omega

theorem keepsWithin_of_beyondLimitFrom (h : KeepsWithin limit before)
    (hnone : beyondLimitFrom limit before cs = none) : KeepsWithin limit (before ++ cs) := by
  induction cs generalizing before with
  | nil => rwa [List.append_nil]
  | cons c cs ih =>
    rw [beyondLimitFrom] at hnone
    split at hnone
    · cases hnone
    · next hno =>
      have hrest := ih (h.step hno) hnone
      rwa [List.append_assoc, List.singleton_append] at hrest

theorem exists_split_of_beyondLimitFrom (h : KeepsWithin limit before)
    (hsome : beyondLimitFrom limit before cs = some p) :
    ∃ w z, before ++ cs = w ++ '(' :: z ∧ byteLength w = p ∧ balance w = limit ∧
      KeepsWithin limit w := by
  induction cs generalizing before with
  | nil => cases hsome
  | cons c cs ih =>
    rw [beyondLimitFrom] at hsome
    split at hsome
    · next hhere =>
      obtain ⟨rfl, hbalance⟩ := hhere
      exact ⟨before, cs, rfl, Option.some.inj hsome, hbalance, h⟩
    · next hno =>
      have hrest := ih (h.step hno) hsome
      rwa [List.append_assoc, List.singleton_append] at hrest

/-- Such a parenthesis is the first one that finds the limit reached. -/
theorem exists_split_of_beyondLimit? (h : beyondLimit? limit text = some p) :
    ∃ w z, text = w ++ '(' :: z ∧ byteLength w = p ∧ balance w = limit ∧ KeepsWithin limit w :=
  exists_split_of_beyondLimitFrom keepsWithin_nil h

/-- There is no such parenthesis just when the text keeps within the limit. -/
theorem beyondLimit?_eq_none_iff : beyondLimit? limit text = none ↔ KeepsWithin limit text := by
  constructor
  · exact keepsWithin_of_beyondLimitFrom keepsWithin_nil
  · intro h
    cases hbeyond : beyondLimit? limit text with
    | none => rfl
    | some p =>
      obtain ⟨w, z, rfl, -, hbalance, -⟩ := exists_split_of_beyondLimit? hbeyond
      have hle := h (w ++ ['(']) z (by simp)
      rw [balance_append, hbalance, balance_opening] at hle
      omega

/-- Parentheses one after the other do not count together. -/
example : beyondLimit? 1 "(1)(2)((3))".toList = some 7 := by decide

end

/-! ## Moves under a limit -/

section
variable {n p : Nat} {next : Option Char} {c : Char} {m m' : Machine} {xs ys : List Question}
  {q : Progress} {r : Run} {text w u v rest : List Char} {d : Draft} {failure : Failure}

namespace Machine

theorem TakingMove.limited (move : TakingMove none c p m xs m') (h : c = '(' → m.stack.length < n) :
    TakingMove (some n) c p m xs m' := by
  cases move with
  | firstSign hphase hc => exact .firstSign hphase hc
  | firstDigit hphase hc => exact .firstDigit hphase hc
  | nextDigit hphase hc => exact .nextDigit hphase hc
  | opening hphase hc =>
    refine .opening hphase hc ?_
    rintro _ ⟨⟩
    exact h ((Symbol.ofChar_eq_iff rfl).1 hc)
  | scaling hphase hc => exact .scaling hphase hc
  | sign hphase hc => exact .sign hphase hc
  | closing hphase hstack hc hjoin => exact .closing hphase hstack hc hjoin
  | equals hphase hstack hc => exact .equals hphase hstack hc

theorem FinalMove.limited (move : FinalMove none next p m r) : FinalMove (some n) next p m r := by
  cases move with
  | refuseFactor hphase hdigit hopening => exact .refuseFactor hphase hdigit hopening
  | tooDeep _ _ hlimit => cases hlimit
  | literalFault hphase hnext hjoin => exact .literalFault hphase hnext hjoin
  | closingFault hphase hstack hnext hjoin => exact .closingFault hphase hstack hnext hjoin
  | stray hphase hnext => exact .stray hphase hnext
  | refuseEnd hphase hnext => exact .refuseEnd hphase hnext
  | accept hphase hstack hnext => exact .accept hphase hstack hnext
  | acceptComplete hphase hnext => exact .acceptComplete hphase hnext
  | refuseComplete hphase hnext => exact .refuseComplete hphase hnext

/-- A step under no limit is one under a limit, unless it opens a level too many. -/
theorem Moves.limited (moves : Moves none next p m xs q)
    (h : ∀ m', q = .more m' → next = some '(' → m.stack.length < n) :
    Moves (some n) next p m xs q := by
  induction moves with
  | silent move _ ih =>
    refine .silent move (ih ?_)
    rw [move.stack_eq]
    exact h
  | take hnext move =>
    refine .take hnext (move.limited ?_)
    rintro rfl
    exact h _ rfl hnext
  | final move => exact .final move.limited

/-- A step that opens a level too many fails under the limit. -/
theorem Moves.tooDeep (moves : Moves none (some '(') p m xs q) (hq : q = .more m')
    (h : n ≤ m.stack.length) :
    ∃ ys r, Moves (some n) (some '(') p m ys (.ended r) ∧
      r.outcome = .failure ⟨.tooDeep, .ofChar '(' p⟩ := by
  induction moves with
  | silent move _ ih =>
    rw [← move.stack_eq] at h
    obtain ⟨ys, r, hmoves, hr⟩ := ih hq h
    exact ⟨_, r, .silent move hmoves, hr⟩
  | take hnext move =>
    cases hnext
    cases move with
    | opening hphase => exact ⟨[], _, .final (.tooDeep hphase rfl rfl h), rfl⟩
    | firstSign _ hc | firstDigit _ hc | nextDigit _ hc | scaling _ hc | sign _ hc
    | closing _ _ hc | equals _ _ hc => cases hc
  | final move => cases hq

end Machine

/-! ## Courses under a limit -/

/-- The parentheses that a run has open are those of the text that it has read. -/
theorem Path.stack_eq {limit : Option Nat} (path : Path limit w xs m) :
    (m.stack.length : Int) = balance w := by
  obtain ⟨d, hstands⟩ := path.stands (List.append_nil w).symm
  have hcount := hstands.count_levels
  rw [hstands.tracks.levels.length_eq] at hcount
  rw [balance]
  omega

/-- Within the limit a run goes on as without one. -/
theorem Path.limited (path : Path none w xs m) (h : KeepsWithin n w) : Path (some n) w xs m := by
  induction path with
  | start => exact .start
  | skip path hc ih => exact .skip (ih h.of_append) hc
  | @read w xs ys m m' c path hc moves hread ih =>
    have hlimited : Machine.Moves (some n) (some c) (byteLength w) m ys (.more m') := by
      refine moves.limited ?_
      rintro _ - ⟨⟩
      have hstack := path.stack_eq
      have hle := h (w ++ ['(']) [] (List.append_nil _).symm
      rw [balance_append, balance_opening] at hle
      omega
    exact .read (ih h.of_append) hc hlimited hlimited.read_eq

theorem Course.limited (h : Course none text w rest xs m ys r) (hw : KeepsWithin n w) :
    Course (some n) text w rest xs m ys r := by
  have hlimited : Machine.Moves (some n) rest.head? (byteLength w) m ys (.ended r) :=
    h.moves.limited nofun
  exact ⟨h.text_eq, h.head, h.path.limited hw, hlimited, hlimited.read_eq⟩

/-- A path through a visible character has a step that reads it. -/
theorem Path.exists_read {limit : Option Nat} (path : Path limit (u ++ c :: v) xs m)
    (hc : isIgnored c = false) :
    ∃ xs' m₀ ys' m₁, Path limit u xs' m₀ ∧
      Machine.Moves limit (some c) (byteLength u) m₀ ys' (.more m₁) ∧ xs' ++ ys' <+: xs := by
  generalize hw : u ++ c :: v = w at path
  induction path generalizing v with
  | start => simp at hw
  | @skip w xs m b path hb ih =>
    rcases append_cons_eq_concat hw with ⟨-, rfl, -⟩ | ⟨v', hv'⟩
    · rw [hb] at hc
      cases hc
    · exact ih hv'
  | @read w xs ys m m' b path hb moves hread ih =>
    rcases append_cons_eq_concat hw with ⟨rfl, rfl, -⟩ | ⟨v', hv'⟩
    · exact ⟨xs, m, ys, m', path, moves, List.prefix_refl _⟩
    · obtain ⟨xs', m₀, ys', m₁, hu, hmoves, hprefix⟩ := ih hv'
      exact ⟨xs', m₀, ys', m₁, hu, hmoves, hprefix.trans (List.prefix_append _ _)⟩

/-- A run that reads beyond the limit has a run under the limit that fails there. -/
theorem Course.exists_tooDeep (h : Course none text w rest xs m ys r) (hw : w = u ++ '(' :: v)
    (hkeep : KeepsWithin n u) (hbalance : balance u = n) :
    ∃ xs' m' ys' r', Course (some n) text u ('(' :: (v ++ rest)) xs' m' ys' r' ∧
      r'.outcome = .failure ⟨.tooDeep, .ofChar '(' (byteLength u)⟩ := by
  have hpath := h.path
  rw [hw] at hpath
  obtain ⟨xs', m₀, ys₀, m₁, hu, hmoves, -⟩ := hpath.exists_read rfl
  have hstack := hu.stack_eq
  rw [hbalance, Nat.cast_inj] at hstack
  obtain ⟨ys', r', hmoves', hr'⟩ := hmoves.tooDeep rfl hstack.ge
  refine ⟨xs', m₀, ys', r', ⟨?_, .cons rfl _, hu.limited hkeep, hmoves', hmoves'.read_eq⟩, hr'⟩
  rw [h.text_eq, hw, List.append_assoc, List.cons_append]

/-! ## What is blamed beyond the limit -/

theorem Span.stop_of_cut? {span : Span} {u b z : List Char} (h : span.cut? text = some ⟨u, b, z⟩)
    (hb : b ≠ []) : span.stop = byteLength (u ++ b) := by
  obtain ⟨-, hstart, hlength⟩ := Span.parts_of_cut? h
  have hpos : byteLength b ≠ 0 := fun hzero => hb (byteLength_eq_zero_iff.1 hzero)
  simp only [Span.length] at hstart hlength
  rw [byteLength_append]
  omega

theorem ZeroPart.ne_nil {b : List Char} {factor : Factor} (h : ZeroPart u b factor) : b ≠ [] := by
  rintro rfl
  exact Factor.text_ne_nil h.wellFormed h.text_eq.symm

/-- What comes after a visible character and its end is not ignored reaches beyond the character. -/
theorem byteLength_lt_of_visible {a z : List Char} (h : a ++ z = u ++ c :: v)
    (hc : isIgnored c = false) (hz : visible z = []) : byteLength u < byteLength a := by
  rcases List.append_eq_append_iff.1 h with ⟨b, rfl, rfl⟩ | ⟨b, rfl, hb⟩
  · have hmem : c ∈ b ++ c :: v := by simp
    rw [visible_eq_nil_iff.1 hz c hmem] at hc
    cases hc
  · cases b with
    | nil =>
      have hmem : c ∈ z := by
        rw [List.nil_append] at hb
        simp [← hb]
      rw [visible_eq_nil_iff.1 hz c hmem] at hc
      cases hc
    | cons a b =>
      have hpos := a.utf8Size_pos
      rw [byteLength_append, byteLength_cons]
      omega

/-- A failure beyond a visible character that is read blames something that ends after it. -/
theorem Course.blames_beyond {limit : Option Nat} (h : Course limit text w rest xs m ys r)
    (hw : w = u ++ c :: v) (hc : isIgnored c = false) (hr : r.outcome = .failure failure) :
    byteLength u < failure.span.stop := by
  obtain ⟨d, cut, -, hcut, hblamed⟩ := h.blamed hr
  have hread : byteLength u < byteLength w :=
    byteLength_lt_of_visible ((List.append_nil w).trans hw) hc rfl
  cases hblamed with
  | ending => exact hread
  | char | opening => exact Nat.lt_add_right _ hread
  | @literal a b z _ _ _ _ _ _ _ hsplit hz part =>
    rw [Span.stop_of_cut? hcut part.ne_nil]
    exact byteLength_lt_of_visible (hsplit.symm.trans hw) hc hz
  | group _ hsplit _ _ part =>
    rw [Span.stop_of_cut? hcut part.ne_nil, ← hsplit, byteLength_append]
    exact Nat.lt_add_right _ hread

/-- Only after the whole expression does a parenthesis not fit. -/
theorem Draft.complete_of_read_opening (h : d.read '(' = none) :
    ∃ whole, d.point = .complete whole := by
  obtain ⟨levels, point⟩ := d
  cases point with
  | complete whole => exact ⟨whole, rfl⟩
  | expression | factor | literal | operator => cases h

/-- A character that is refused is one that the draft does not read. -/
theorem Draft.Ending.read_eq_none {limit : Option Nat} {outcome : Outcome}
    (h : d.Ending limit text w (some c) outcome)
    (houtcome : outcome = .failure ⟨.unexpectedChar c, .ofChar c (byteLength w)⟩) :
    d.read c = none := by
  cases h with
  | refused hread => exact hread c rfl
  | accepted | tooDeep | literalFault | groupFault => cases houtcome

/-- A run that ends before a parenthesis, or at it although some are open, blames nothing after it. -/
theorem Course.blames_before {z : List Char} (h : Course none text w rest xs m ys r)
    (hrest : rest = u ++ '(' :: z) (hopen : u = [] → balance w ≠ 0) :
    ∃ failure, r.outcome = .failure failure ∧ failure.span.stop ≤ byteLength (w ++ u) := by
  obtain ⟨d, hstands, hending⟩ := h.ending
  have hwu : byteLength (w ++ u) = byteLength w + byteLength u := byteLength_append w u
  cases hr : r.outcome with
  | value value =>
    rw [hr, hrest] at hending
    cases hending with
    | accepted hnext => simp at hnext
  | failure failure =>
    refine ⟨failure, rfl, ?_⟩
    rw [hr] at hending
    obtain ⟨cut, hcut, hblamed⟩ := hstands.exists_blamed h.text_eq hending
    cases hblamed with
    | ending hnil => simp [hrest] at hnil
    | @char c cs hcons =>
      rw [hcons] at hending hrest
      cases u with
      | nil =>
        -- with parentheses open the machine would have read this one
        obtain ⟨rfl, -⟩ := List.cons.inj hrest
        obtain ⟨whole, hpoint⟩ := Draft.complete_of_read_opening (hending.read_eq_none rfl)
        have hlevels := hstands.tracks.complete_levels hpoint
        have hcount := hstands.count_levels
        rw [hlevels, List.length_nil] at hcount
        exact absurd (by rw [balance]; omega) (hopen rfl)
      | cons b u =>
        obtain ⟨rfl, -⟩ := List.cons.inj hrest
        show byteLength w + c.utf8Size ≤ _
        rw [hwu, byteLength_cons]
        omega
    | opening _ hlimit => cases hlimit
    | literal _ _ _ hsplit _ part =>
      have hlength := congrArg byteLength hsplit
      rw [Span.stop_of_cut? hcut part.ne_nil, hwu]
      simp only [byteLength_append] at hlength ⊢
      omega
    | group hcons hsplit _ _ part =>
      rw [hcons] at hrest
      cases u with
      | nil => cases hrest
      | cons b u =>
        obtain ⟨rfl, -⟩ := List.cons.inj hrest
        rw [Span.stop_of_cut? hcut part.ne_nil, ← hsplit, hwu, byteLength_append, byteLength_cons,
          byteLength_cons, byteLength_nil]
        omega

end

/-! ## Runs without a limit -/

/-- The outcome of evaluating a text without a depth limit, with the stop flag down. -/
def evaluateUnlimited (text : String) : Outcome := (runWith ⟨none, .constant false⟩ text).outcome

/-- What becomes of an outcome when the parenthesis at an offset may not be opened: failures that blame
nothing after that offset stay. -/
def Outcome.unlessBeyond (outcome : Outcome) (p : Nat) : Outcome :=
  match outcome with
  | .value _ => .failure ⟨.tooDeep, .ofChar '(' p⟩
  | .failure x => if x.span.stop ≤ p then .failure x else .failure ⟨.tooDeep, .ofChar '(' p⟩

/-- A text in which no parenthesis opens a level too many has the outcome that it has without a limit.
In any other text only what ends before the first such parenthesis can be blamed as without a limit; or
else that parenthesis is nested too deeply. -/
theorem evaluate_eq_unlimited (text : String) :
    evaluate text =
      match beyondLimit? maxDepth text.toList with
      | none => evaluateUnlimited text
      | some p => (evaluateUnlimited text).unlessBeyond p := by
  obtain ⟨w, rest, xs, m, ys, r, hcourse⟩ := exists_course none text.toList
  have hunlimited : evaluateUnlimited text = r.outcome := by
    rw [evaluateUnlimited, runWith, hcourse.run, Signal.settle_quiet]
  rw [hunlimited]
  cases hbeyond : beyondLimit? maxDepth text.toList with
  | none =>
    have hkeep := beyondLimit?_eq_none_iff.1 hbeyond
    rw [hcourse.text_eq] at hkeep
    exact (hcourse.limited hkeep.of_append).evaluate_eq
  | some p =>
    obtain ⟨u, z, htext, rfl, hbalance, hkeep⟩ := exists_split_of_beyondLimit? hbeyond
    have hsplit := hcourse.text_eq.symm.trans htext
    show evaluate text = r.outcome.unlessBeyond (byteLength u)
    obtain ⟨a, rfl, hrest⟩ | ⟨v, hw⟩ :
        (∃ a, u = w ++ a ∧ rest = a ++ '(' :: z) ∨ ∃ v, w = u ++ '(' :: v := by
      rcases List.append_eq_append_iff.1 hsplit with ⟨a, hu, hrest⟩ | ⟨v, hw, hv⟩
      · exact .inl ⟨a, hu, hrest⟩
      · cases v with
        | nil => exact .inl ⟨[], by rw [hw]; simp, hv.symm⟩
        | cons b v =>
          obtain ⟨rfl, -⟩ := List.cons.inj hv
          exact .inr ⟨v, hw⟩
    · -- the run without a limit ends before the parenthesis or at it
      have hopen : a = [] → balance w ≠ 0 := by
        rintro rfl
        rw [List.append_nil] at hbalance
        rw [hbalance]
        decide
      obtain ⟨failure, hr, hstop⟩ := hcourse.blames_before hrest hopen
      rw [(hcourse.limited hkeep.of_append).evaluate_eq, hr]
      exact (if_pos hstop).symm
    · -- the run without a limit reads the parenthesis
      obtain ⟨xs', m', ys', r', hlimited, hr'⟩ := hcourse.exists_tooDeep hw hkeep hbalance
      rw [hlimited.evaluate_eq, hr']
      cases hr : r.outcome with
      | value => rfl
      | failure failure =>
        have hbeyond := hcourse.blames_beyond hw rfl hr
        exact (if_neg (Nat.not_le_of_lt hbeyond)).symm

end ExactCalculator
