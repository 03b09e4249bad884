import ExactCalculator.Proofs.Blame.ViablePrefix
import ExactCalculator.Proofs.DepthLimit
import ExactCalculator.Proofs.Machine.Alike
import ExactCalculator.Proofs.Machine.Relocation

/-! Factors next to each other are multiplied. A run that comes to the second of two such factors either
has failed before it, on both texts alike, or stands after the first of them. From there on a `*`
leads to the machine that the second factor finds without one, only that all that follows stands one byte
further on (`Tracks.run_inserted`). -/
namespace ExactCalculator
set_option autoImplicit false

/-! ## Ranges around an inserted byte -/

/-- Where the offset of a character goes when a byte is inserted at `p`. -/
def pastInsertion (p x : Nat) : Nat := if x < p then x else x + 1

/-- The range of the same characters, with a byte inserted at `p` if it is between them. What ends at
`p` does not grow. -/
def Span.inserted (p : Nat) (span : Span) : Span :=
  ⟨if span.start < p then span.start else span.start + 1,
    if span.stop ≤ p then span.stop else span.stop + 1⟩

/-- The outcome with what is blamed carried through the insertion. -/
def Outcome.inserted (p : Nat) : Outcome → Outcome
  | .value v => .value v
  | .failure x => .failure ⟨x.cause, x.span.inserted p⟩

section
variable {p x : Nat} {failure : Failure} {outcome : Outcome}

theorem pastInsertion_of_lt (h : x < p) : pastInsertion p x = x := if_pos h

theorem pastInsertion_of_le (h : p ≤ x) : pastInsertion p x = x + 1 := if_neg (Nat.not_lt_of_le h)

theorem pastInsertion_monotone (p : Nat) : Monotone (pastInsertion p) := by
  intro x y h
  unfold pastInsertion
  split <;> split <;> omega

theorem Outcome.inserted_before (hstart : failure.span.start < p) (hstop : failure.span.stop ≤ p) :
    (Outcome.failure failure).inserted p = .failure failure := by
  simp [inserted, Span.inserted, hstart, hstop]

/-- A failure that is not over before the insertion is carried through it as every offset is. -/
theorem Outcome.relocate_pastInsertion
    (h : ∀ failure, outcome = .failure failure → p < failure.span.stop) :
    outcome.relocate (pastInsertion p) = outcome.inserted p := by
  cases outcome with
  | value v => rfl
  | failure failure =>
    have hstop := h failure rfl
    have hpast : pastInsertion p failure.span.stop = failure.span.stop + 1 :=
      pastInsertion_of_le (Nat.le_of_lt hstop)
    simp only [inserted, Span.inserted, relocate, Failure.relocate, Span.relocate, hpast,
      Nat.not_le_of_lt hstop, if_false]
    rfl

theorem carriesText_pastInsertion {q : Nat} (h : p ≤ q) (text : List Char) :
    CarriesText (pastInsertion p) q text text := by
  induction text generalizing q with
  | nil => exact .nil q
  | cons c cs ih =>
    have hle : p ≤ q + c.utf8Size := Nat.le_add_right_of_le h
    refine .keep ?_ (ih hle)
    rw [pastInsertion_of_le h, pastInsertion_of_le hle]
    omega

end

/-! ## What a machine has read so far -/

theorem SumDraft.Computes.alike {sum : SumDraft} {s : PartialSum} (h : sum.Computes s) : s.Alike s := by
  cases h with
  | start sign => exact PartialSum.alike_start _
  | after sign htotal => exact PartialSum.alike_after htotal.reduced sign

theorem ProductDraft.Computes.alike {product : ProductDraft} {s : PartialProduct}
    (h : product.Computes s) : s.Alike s := by
  cases h with
  | start => exact PartialProduct.alike_start
  | after joint htotal => exact PartialProduct.alike_after htotal.reduced joint.scaling

section
variable {limit : Option Nat} {text w v rest before body : List Char} {ds : List DraftLevel}
  {stack : List Level} {d : Draft} {m m' : Machine} {e : OpenExpression} {t : OpenTerm}
  {start mark value p : Nat} {xs ys : List Question} {r : Run} {c : Char} {f : Nat → Nat}

/-- What has been read from its first visible character on begins and ends within what has been read. -/
theorem BeginsAt.within (hbegin : BeginsAt (w ++ rest) start before) (hend : EndsAt w mark)
    (hw : visible w = before ++ body) (hbody : body ≠ []) : start < mark ∧ mark ≤ byteLength w := by
  obtain ⟨u, b, z, rfl, rfl, rfl, -, hb, -⟩ := exists_part hbegin hend hw hbody
  have hpos : byteLength b ≠ 0 := by
    intro hzero
    rw [byteLength_eq_zero_iff.1 hzero] at hb
    exact hbody hb.symm
  simp only [byteLength_append]
  omega

/-- Open parentheses keep their place when only what comes after them moves. -/
theorem LevelsTrack.alike_relocate (h : LevelsTrack (w ++ rest) ds stack) (hend : EndsAt w mark)
    (hw : visible w = levelsText ds ++ body) (hf : ∀ x < byteLength w, f x = x) :
    List.Forall₂ Level.Alike (stack.map (Level.relocate f)) stack := by
  induction h generalizing body with
  | nil => exact .nil
  | @cons d ds level stack hexpression hterm hbegin houter ih =>
    have hsplit : visible w =
        (levelsText ds ++ d.sum.text ++ d.product.text) ++ ('(' :: body) := by
      rw [hw]
      simp [levelsText]
    obtain ⟨hlt, hle⟩ := hbegin.within hend hsplit (List.cons_ne_nil _ _)
    have hlevel : (level.relocate f).Alike level :=
      ⟨hexpression.computes.alike, hterm.computes.alike, hf _ (Nat.lt_of_lt_of_le hlt hle)⟩
    rw [List.append_assoc, List.append_assoc] at hsplit
    exact .cons hlevel (ih hsplit)

/-- Before a second factor, a `*` leads to the machine that is there without it. -/
theorem Tracks.run_inserted {termStart : Nat} {total : Fraction} (h : Tracks (w ++ rest) w d m)
    (hphase : m.phase = .operator e termStart total)
    (hc : (∃ digit, Symbol.ofChar c = .digit digit) ∨ Symbol.ofChar c = .opening)
    (hvisible : isIgnored c = false) (limit : Option Nat) (after : List Char) :
    (m.run ⟨limit, .constant false⟩ (byteLength w) ('*' :: c :: after)).outcome =
      (m.run ⟨limit, .constant false⟩ (byteLength w) (c :: after)).outcome.relocate
        (pastInsertion (byteLength w)) := by
  let t : OpenTerm := ⟨termStart, .after total .multiply⟩
  let beside : Machine := { m with phase := .factor e t }
  let written : Machine := m.take (byteLength w + 1) (.factor e t)
  have hbeside : Machine.SilentMove (c :: after).head? (byteLength w) m [] beside :=
    .beside hphase hc
  have hwritten : Machine.Moves limit (some '*') (byteLength w) m [] (.more written) :=
    .take rfl (.scaling hphase rfl)
  have halike : (beside.relocate (pastInsertion (byteLength w))).Alike written := by
    have hpoint := h.point
    rw [hphase] at hpoint
    generalize d.point = point at hpoint
    cases hpoint with
    | operator hexpression _ htotal =>
      refine .of_phase ?_ (.factor hexpression.computes.alike ?_) nofun
      · exact h.levels.alike_relocate h.mark h.text_eq fun x hx => pastInsertion_of_lt hx
      · exact PartialProduct.alike_after htotal.reduced .multiply
  have hpolicy : (Policy.mk limit (.constant false)).IgnoresOffsets (pastInsertion (byteLength w)) :=
    fun _ => rfl
  have hrun := Machine.run_relocate (pastInsertion_monotone (byteLength w)) hpolicy
    (carriesText_pastInsertion (Nat.le_refl (byteLength w)) (c :: after)) beside
  rw [pastInsertion_of_le (Nat.le_refl _)] at hrun
  have hstar : ('*' : Char).utf8Size = 1 := rfl
  rw [hbeside.run_eq (.cons hvisible after), hwritten.run_eq rfl, hstar,
    ← halike.outcome_eq limit (byteLength w + 1) (c :: after), hrun]
  rfl

/-! ## Before the second factor -/

theorem Path.literal_within (path : Path limit w xs m)
    (hphase : m.phase = .literal e t start value) :
    (m.spanFrom start).start < byteLength w ∧ (m.spanFrom start).stop ≤ byteLength w := by
  obtain ⟨d, hstands⟩ := path.stands (List.append_nil w).symm
  have htracks := hstands.tracks
  have hpoint := htracks.point
  have htext := htracks.text_eq
  rw [Draft.text] at htext
  rw [hphase] at hpoint
  generalize d.point = point at hpoint htext
  cases hpoint with
  | literal hexpression hterm hbegins hdigits =>
    rw [← List.append_nil w] at hbegins
    obtain ⟨hlt, hle⟩ := hbegins.within htracks.mark
      (by rw [htext]; simp [DraftPoint.text]) hdigits
    exact ⟨Nat.lt_of_lt_of_le hlt hle, Nat.max_le.2 ⟨Nat.le_of_lt (Nat.lt_of_lt_of_le hlt hle), hle⟩⟩

namespace Machine

theorem Moves.exists_take {q : Progress} (moves : Moves limit (some c) p m xs q) (hq : q = .more m') :
    ∃ m₀ ys, TakingMove limit c p m₀ ys m' := by
  induction moves with
  | silent _ _ ih => exact ih hq
  | take hnext move =>
    cases hnext
    cases hq
    exact ⟨_, _, move⟩
  | final => cases hq

theorem TakingMove.literal_of_digit (move : TakingMove limit c p m xs m') (hc : c.isDigit = true) :
    ∃ e t start value, m'.phase = .literal e t start value := by
  have hdigit := Symbol.ofChar_digit hc
  cases move with
  | firstDigit | nextDigit => exact ⟨_, _, _, _, rfl⟩
  | firstSign _ hc | opening _ hc | scaling _ hc | sign _ hc | closing _ _ hc | equals _ _ hc =>
    rw [hdigit] at hc
    cases hc

theorem TakingMove.operator_of_closing (move : TakingMove limit ')' p m xs m') :
    ∃ e termStart value, m'.phase = .operator e termStart value := by
  cases move with
  | closing => exact ⟨_, _, _, rfl⟩
  | firstSign _ hc | firstDigit _ hc | nextDigit _ hc | opening _ hc | scaling _ hc | sign _ hc
  | equals _ _ hc => cases hc

end Machine

/-- The last visible character of a path is taken by a move to its machine. -/
theorem Path.exists_take (path : Path limit w xs m) (hlast : (visible w).getLast? = some c) :
    ∃ m₀ p ys, Machine.TakingMove limit c p m₀ ys m := by
  induction path with
  | start => cases hlast
  | skip path hb ih =>
    rw [visible_append, visible_cons_of_ignored [] hb, visible_nil, List.append_nil] at hlast
    exact ih hlast
  | read path hb moves =>
    rw [visible_append, visible_cons_of_visible [] hb, visible_nil, List.getLast?_concat] at hlast
    obtain rfl := Option.some.inj hlast
    obtain ⟨m₀, ys, hmove⟩ := moves.exists_take rfl
    exact ⟨m₀, _, ys, hmove⟩

/-- A run that ends before a character of its text fails, and blames nothing after that character. -/
theorem Course.blames_within {b : Char} (h : Course limit text w (b :: rest) xs m ys r) :
    ∃ failure, r.outcome = .failure failure ∧ failure.span.start ≤ byteLength w ∧
      failure.span.stop ≤ byteLength (w ++ [b]) := by
  obtain ⟨failure, hr⟩ := h.exists_failure
  obtain ⟨d, cut, hstands, hcut, hblamed⟩ := h.blamed hr
  have hlength : byteLength (w ++ [b]) = byteLength w + b.utf8Size := by simp
  refine ⟨failure, hr, ?_⟩
  cases hblamed with
  | ending hnil => cases hnil
  | char hcons =>
    obtain ⟨rfl, -⟩ := List.cons.inj hcons
    exact ⟨Nat.le_refl _, hlength.ge⟩
  | opening hcons =>
    obtain ⟨rfl, -⟩ := List.cons.inj hcons
    exact ⟨Nat.le_refl _, hlength.ge⟩
  | literal _ _ _ hw _ part =>
    have hstop := Span.stop_of_cut? hcut part.ne_nil
    obtain ⟨-, hstart, -⟩ := Span.parts_of_cut? hcut
    rw [hlength, hstop, hstart, hw]
    simp only [byteLength_append]
    omega
  | @group u b' _ _ _ _ _ hcons hw _ _ part =>
    obtain ⟨rfl, -⟩ := List.cons.inj hcons
    have hstop := Span.stop_of_cut? hcut part.ne_nil
    obtain ⟨-, hstart, -⟩ := Span.parts_of_cut? hcut
    have htotal := congrArg byteLength hw
    have hpos : byteLength b' ≠ 0 := fun hzero => part.ne_nil (byteLength_eq_zero_iff.1 hzero)
    have hsize : byteLength [')'] = 1 := rfl
    rw [hstop, hstart, ← hw]
    rw [byteLength_append, byteLength_append, hsize] at htotal
    exact ⟨by dsimp only; omega, Nat.le_refl _⟩

/-- A literal that is a divisor and zero fails the run where it ends. -/
def Machine.AtFault (m : Machine) : Prop :=
  ∃ e t start value fault, m.phase = .literal e t start value ∧
    t.product.join (.ofInt value) = .error fault

theorem Path.exists_fault (path : Path (some maxDepth) w xs m) (hfault : m.AtFault) :
    ∃ failure : Failure, failure.span.start < byteLength w ∧ failure.span.stop ≤ byteLength w ∧
      ∀ rest, HeadVisible rest → (∀ c, rest.head? = some c → c.isDigit = false) →
        evaluate (String.ofList (w ++ rest)) = .failure failure := by
  obtain ⟨e, t, start, value, fault, hphase, hjoin⟩ := hfault
  obtain ⟨hstart, hstop⟩ := path.literal_within hphase
  exact ⟨_, hstart, hstop, fun rest hhead hnext => path.fails_at_literal hphase hjoin hhead hnext⟩

/-- At a machine that is not at fault, a failure blames something that ends after the next character. -/
theorem Course.blames_next {a : List Char} (h : Course limit text w (c :: a) xs m ys r)
    (hfault : ¬ m.AtFault) {failure : Failure} (hr : r.outcome = .failure failure) :
    byteLength w < failure.span.stop := by
  obtain ⟨d, cut, hstands, hcut, hblamed⟩ := h.blamed hr
  cases hblamed with
  | ending hnil => cases hnil
  | char | opening => exact Nat.lt_add_of_pos_right (Char.utf8Size_pos _)
  | literal hpoint hzero =>
    obtain ⟨e, t, start, value, hphase, hjoin⟩ := hstands.literal_machine hpoint hzero
    exact absurd ⟨e, t, start, value, _, hphase, hjoin⟩ hfault
  | group _ hw _ _ part =>
    rw [Span.stop_of_cut? hcut part.ne_nil, ← hw, byteLength_append]
    exact Nat.lt_add_of_pos_right Nat.zero_lt_one

/-- A run either fails before a visible character of its text, whatever comes after, or it comes to that
character; then it can only blame what ends after it, unless it is at fault there. -/
theorem Course.before_or_at {after : List Char}
    (h : Course (some maxDepth) (v ++ c :: after) w rest xs m ys r) (hc : isIgnored c = false) :
    (∃ failure : Failure, failure.span.start < byteLength v ∧ failure.span.stop ≤ byteLength v ∧
        ∀ more, evaluate (String.ofList (v ++ more)) = .failure failure) ∨
      ∃ xs₀ m₀, Path (some maxDepth) v xs₀ m₀ ∧ (¬ m₀.AtFault →
        ∀ failure, r.outcome = .failure failure → byteLength v < failure.span.stop) := by
  rcases List.append_eq_append_iff.1 h.text_eq.symm with ⟨a, rfl, hrest⟩ | ⟨a, rfl, ha⟩
  · cases a with
    | nil =>
      rw [List.nil_append] at hrest
      rw [hrest] at h
      rw [List.append_nil]
      exact .inr ⟨xs, m, h.path, fun hfault failure hr => h.blames_next hfault hr⟩
    | cons b a =>
      left
      rw [List.cons_append] at hrest
      rw [hrest] at h
      obtain ⟨failure, hr, hstart, hstop⟩ := h.blames_within
      have hpos := b.utf8Size_pos
      rw [byteLength_append, byteLength_cons, byteLength_nil] at hstop
      refine ⟨failure, ?_, ?_, ?_⟩
      · rw [byteLength_append, byteLength_cons]
        omega
      · rw [byteLength_append, byteLength_cons]
        omega
      · intro more
        have hmore : Course (some maxDepth) (w ++ b :: (a ++ more)) w (b :: (a ++ more)) xs m ys r :=
          h.congr rfl
        rw [List.append_assoc, List.cons_append, hmore.evaluate_ofList, hr]
  · cases a with
    | nil =>
      rw [List.nil_append] at ha
      rw [← ha, List.append_nil] at h
      exact .inr ⟨xs, m, h.path, fun hfault failure hr => h.blames_next hfault hr⟩
    | cons b a =>
      obtain ⟨rfl, -⟩ := List.cons.inj ha
      obtain ⟨xs₀, m₀, -, -, hpath, -⟩ := h.path.exists_read hc
      exact .inr ⟨xs₀, m₀, hpath, fun _ failure hr => h.blames_beyond rfl hc hr⟩

/-! ## The inserted sign -/

/-- At a machine that has read a whole factor, a `*` before another factor changes offsets only. -/
theorem Path.evaluate_inserted {after : List Char} (path : Path (some maxDepth) w xs m)
    (hfault : ¬ m.AtFault)
    (hphase : (∃ e termStart total, m.phase = .operator e termStart total) ∨
      Symbol.ofChar c = .opening ∧ ∃ e t start value, m.phase = .literal e t start value)
    (hc : (∃ digit, Symbol.ofChar c = .digit digit) ∨ Symbol.ofChar c = .opening)
    (hvisible : isIgnored c = false) :
    evaluate (String.ofList (w ++ '*' :: c :: after)) =
      (evaluate (String.ofList (w ++ c :: after))).relocate (pastInsertion (byteLength w)) := by
  have hsplit : w ++ c :: after = w ++ (c :: after) := rfl
  obtain ⟨d, hstands⟩ := path.stands hsplit
  rw [path.evaluate_eq String.toList_ofList, path.evaluate_eq String.toList_ofList, Policy.standard]
  rcases hphase with ⟨e, termStart, total, hphase⟩ | ⟨hopening, e, t, start, value, hphase⟩
  · exact hstands.tracks.run_inserted hphase hc hvisible (some maxDepth) after
  · cases hjoin : t.product.join (.ofInt value) with
    | error fault => exact absurd ⟨e, t, start, value, fault, hphase, hjoin⟩ hfault
    | ok product =>
      have hopening' : ∀ digit, Symbol.ofNext (c :: after).head? ≠ .digit digit := by
        intro digit hs
        rw [List.head?_cons] at hs
        cases hopening.symm.trans hs
      have hstar : ∀ digit, Symbol.ofNext ('*' :: c :: after).head? ≠ .digit digit := by
        intro digit hs
        cases hs
      have hleave := Machine.SilentMove.leaveLiteral (p := byteLength w) hphase hopening' hjoin
      have hleave' := Machine.SilentMove.leaveLiteral (p := byteLength w) hphase hstar hjoin
      rw [hleave.run_eq (.cons hvisible after), hleave'.run_eq (.cons rfl _)]
      obtain ⟨htracks, -⟩ := hstands.tracks.silent rfl (.cons hvisible after) hleave
      exact htracks.run_inserted rfl hc hvisible (some maxDepth) after

end

/-- Juxtaposition is multiplication. A `*` can be inserted before a parenthesis that comes after a digit
or a parenthesis, and before a digit that comes after a parenthesis; what is blamed is carried through
the insertion. -/
theorem evaluate_juxtaposed {before after : List Char} {last c : Char}
    (hlast : (visible before).getLast? = some last)
    (h : (c = '(' ∧ (last.isDigit = true ∨ last = ')')) ∨ (c.isDigit = true ∧ last = ')')) :
    evaluate (String.ofList (before ++ '*' :: c :: after)) =
      (evaluate (String.ofList (before ++ c :: after))).inserted (byteLength before) := by
  obtain ⟨w, rest, xs, m, ys, r, hcourse⟩ :=
    exists_course (some maxDepth) (before ++ c :: after)
  have hvisible : isIgnored c = false := by
    rcases h with ⟨rfl, -⟩ | ⟨hdigit, -⟩
    · rfl
    · exact isIgnored_of_isDigit hdigit
  rcases hcourse.before_or_at hvisible with
    ⟨failure, hstart, hstop, hfails⟩ | ⟨xs₀, m₀, hpath, hpast⟩
  · rw [hfails, hfails, Outcome.inserted_before hstart hstop]
  obtain ⟨m₁, p, ys₁, htake⟩ := hpath.exists_take hlast
  by_cases hfault : m₀.AtFault
  · -- the literal has ended on both texts
    obtain ⟨failure, hstart, hstop, hfails⟩ := hpath.exists_fault hfault
    have hno : c.isDigit = false := by
      rcases h with ⟨rfl, -⟩ | ⟨-, rfl⟩
      · rfl
      · obtain ⟨e, termStart, total, hphase⟩ := htake.operator_of_closing
        obtain ⟨e', t', start, value, fault, hliteral, -⟩ := hfault
        cases hphase.symm.trans hliteral
    rw [hfails _ (.cons hvisible after) (by rintro _ ⟨⟩; exact hno),
      hfails _ (.cons rfl _) (by rintro _ ⟨⟩; rfl), Outcome.inserted_before hstart hstop]
  · have hphase : (∃ e termStart total, m₀.phase = .operator e termStart total) ∨
        Symbol.ofChar c = .opening ∧ ∃ e t start value, m₀.phase = .literal e t start value := by
      rcases h with ⟨rfl, hdigit | rfl⟩ | ⟨-, rfl⟩
      · exact .inr ⟨rfl, htake.literal_of_digit hdigit⟩
      · exact .inl htake.operator_of_closing
      · exact .inl htake.operator_of_closing
    have hc : (∃ digit, Symbol.ofChar c = .digit digit) ∨ Symbol.ofChar c = .opening := by
      rcases h with ⟨rfl, -⟩ | ⟨hdigit, -⟩
      · exact .inr rfl
      · exact .inl ⟨_, Symbol.ofChar_digit hdigit⟩
    rw [← hcourse.evaluate_ofList] at hpast
    rw [hpath.evaluate_inserted hfault hphase hc hvisible,
      Outcome.relocate_pastInsertion (hpast hfault)]

/-- The product `2(0)` in a divisor can be written with a sign, and the divisor is a byte longer then. -/
theorem evaluate_juxtaposed_of_division :
    (visible "1/(2".toList).getLast? = some '2' ∧
      evaluate "1/(2(0))" = .failure ⟨.arithmetic .divisionByZero, ⟨2, 8⟩⟩ ∧
      evaluate "1/(2*(0))" = .failure ⟨.arithmetic .divisionByZero, ⟨2, 9⟩⟩ := by
  have hlast : (visible "1/(2".toList).getLast? = some '2' := by rfl
  have heval : evaluate "1/(2(0))" = .failure ⟨.arithmetic .divisionByZero, ⟨2, 8⟩⟩ := by rfl
  have hsame : evaluate (String.ofList ("1/(2".toList ++ '*' :: '(' :: "0))".toList)) =
      (evaluate "1/(2(0))").inserted 4 := evaluate_juxtaposed hlast (.inl ⟨rfl, .inl rfl⟩)
  rw [heval] at hsame
  exact ⟨hlast, heval, hsame⟩

end ExactCalculator
