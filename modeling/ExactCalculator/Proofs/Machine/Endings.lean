import ExactCalculator.Proofs.Machine.Tracking

/-! How a run ends, said of the draft that it has come to. `Draft.Ending` lists the reasons: the
derivation is complete, the next character or the end of the input does not fit, a parenthesis opens
one level too many, or a divisor is zero. A step from a machine that stands at a draft reads the next
character into the draft (`Tracks.more`) or ends for one of these reasons (`Tracks.ended`). -/
namespace ExactCalculator
set_option autoImplicit false

/-- Why a run ends with an outcome when the part `w` of the text is read and `next` comes next. -/
inductive Draft.Ending (limit : Option Nat) (text w : List Char) (next : Option Char) (d : Draft) :
    Outcome → Prop
  | accepted {e : Expression} {v : Fraction} (hnext : next = none) (hfinish : d.finish = some e)
      (hvalue : v.StandsFor e.value?) : Ending limit text w next d (.value v)
  | refused (hread : ∀ c, next = some c → d.read c = none)
      (hfinish : next = none → d.finish = none) :
      Ending limit text w next d (.failure (.atNext next (byteLength w)))
  | tooDeep {n : Nat} {d' : Draft} (hnext : next = some '(') (hlimit : limit = some n)
      (hdepth : n ≤ d.levels.length) (hread : d.read '(' = some d')
      (hgrow : d'.levels.length = d.levels.length + 1) :
      Ending limit text w next d (.failure ⟨.tooDeep, .ofChar '(' (byteLength w)⟩)
  | literalFault {sum : SumDraft} {product : ProductDraft} {digits : List Char} {start mark : Nat}
      (hpoint : d.point = .literal sum product digits)
      (hnext : ∀ c, next = some c → c.isDigit = false)
      (hzero : product.ZeroDivisor (.literal digits))
      (hbegin : BeginsAt text start (levelsText d.levels ++ sum.text ++ product.text))
      (hend : EndsAt w mark) :
      Ending limit text w next d
        (.failure ⟨.arithmetic .divisionByZero, ⟨start, max start mark⟩⟩)
  | groupFault {level : DraftLevel} {outer : List DraftLevel} {inner : Expression} {start : Nat}
      (hnext : next = some ')') (hlevels : d.levels = level :: outer)
      (hread : d.read ')' = some ⟨outer, .operator level.sum (level.product.join (.group inner))⟩)
      (hzero : level.product.ZeroDivisor (.group inner))
      (hbegin : BeginsAt text start (levelsText outer ++ level.sum.text ++ level.product.text)) :
      Ending limit text w next d
        (.failure ⟨.arithmetic .divisionByZero, ⟨start, max start (byteLength w + 1)⟩⟩)

variable {limit : Option Nat} {text w rest : List Char} {d d' : Draft} {m m' : Machine}

theorem Draft.Ending.of_sameNext {next : Option Char} {outcome : Outcome}
    (hsame : d.SameNext next d') (h : d'.Ending limit text w next outcome) :
    d.Ending limit text w next outcome := by
  cases h with
  | accepted hnext hfinish hvalue =>
    exact .accepted hnext (by rw [← hsame.finish hnext, hfinish]) hvalue
  | refused hread hfinish =>
    refine .refused ?_ ?_
    · intro c hc
      rw [← hsame.read c hc, hread c hc]
    · intro hnone
      rw [← hsame.finish hnone, hfinish hnone]
  | tooDeep hnext hlimit hdepth hread hgrow =>
    rw [hsame.levels] at hdepth hgrow
    rw [hsame.read _ hnext] at hread
    exact .tooDeep hnext hlimit hdepth hread hgrow
  | literalFault hpoint => exact absurd hpoint (hsame.point _ _ _)
  | groupFault hnext hlevels hread hzero hbegin =>
    rw [hsame.levels] at hlevels
    rw [hsame.read _ hnext] at hread
    exact .groupFault hnext hlevels hread hzero hbegin

theorem Tracks.final {run : Run} (h : Tracks text w d m)
    (move : Machine.FinalMove limit rest.head? (byteLength w) m run) :
    d.Ending limit text w rest.head? run.outcome := by
  obtain ⟨levels, point⟩ := d
  have hlevels := h.levels
  have hpoint := h.point
  simp only at hlevels hpoint
  cases move with
  | refuseFactor hphase hdigit hopening =>
    rw [hphase] at hpoint
    cases hpoint with
    | factor hexpression hterm =>
      refine .refused ?_ ?_
      · intro c hc
        rw [hc] at hdigit hopening
        simp only [Draft.read, Draft.readFactor]
        split
        · next hs => exact absurd hs (hdigit _)
        · next hs => exact absurd hs hopening
        · rfl
      · intro _
        cases levels <;> rfl
  | tooDeep hphase hnext hlimit hdepth =>
    rw [hphase] at hpoint
    cases hpoint with
    | factor hexpression hterm =>
      refine .tooDeep ((Symbol.ofNext_eq_iff rfl).1 hnext) hlimit ?_ rfl rfl
      rw [hlevels.length_eq]
      exact hdepth
  | literalFault hphase hnext hjoin =>
    rw [hphase] at hpoint
    cases hpoint with
    | literal hexpression hterm hbegins hdigits =>
      obtain ⟨rfl, hzero⟩ := hterm.computes.join_error (Fraction.standsFor_decimal _) hjoin
      refine .literalFault rfl ?_ hzero hbegins h.mark
      intro c hc
      rw [hc] at hnext
      by_contra hd
      exact hnext _ (Symbol.ofChar_digit (Bool.not_eq_false _ ▸ hd))
  | closingFault hphase hstack hnext hjoin =>
    rw [hphase] at hpoint
    rw [hstack] at hlevels
    cases hpoint with
    | @operator sum term _ _ _ hexpression hbegins hvalue =>
      have hinner := hexpression.computes.join hvalue
      cases hlevels with
      | cons houterExpression houterTerm hstart houter =>
        have hgroup : Fraction.StandsFor _ (Factor.group (sum.join term)).value? := hinner
        obtain ⟨rfl, hzero⟩ := houterTerm.computes.join_error hgroup hjoin
        exact .groupFault ((Symbol.ofNext_eq_iff rfl).1 hnext) rfl rfl hzero hstart
  | stray hphase hnext =>
    rw [hphase] at hpoint
    cases hpoint with
    | operator hexpression hbegins hvalue =>
      refine .refused ?_ ?_
      · intro c hc
        rw [hc] at hnext
        have hs : Symbol.ofChar c = .stray := hnext
        simp [Draft.read, Draft.readOperator, hs]
      · intro hnone
        rw [hnone] at hnext
        cases hnext
  | refuseEnd hphase hnext =>
    rw [hphase] at hpoint
    cases hpoint with
    | operator hexpression hbegins hvalue =>
      refine .refused ?_ ?_
      · intro c hc
        rw [hc] at hnext
        refine Draft.readOperator_eq_none ?_
        rw [Ne, hlevels.eq_nil_iff]
        rcases hnext with hclosing | hequals | ⟨hs, -⟩
        · exact .inl hclosing
        · exact .inr hequals
        · exact absurd hs (Symbol.ofChar_ne_ending c)
      · intro hnone
        rw [hnone] at hnext
        rcases hnext with ⟨hs, -⟩ | ⟨hs, -⟩ | ⟨-, hstack⟩
        · cases hs
        · cases hs
        · refine Draft.finish_eq_none ?_
          rwa [Ne, hlevels.eq_nil_iff]
  | accept hphase hstack hnext =>
    rw [hphase] at hpoint
    rw [hstack] at hlevels
    cases hlevels
    cases hpoint with
    | operator hexpression hbegins hvalue =>
      have hnone := Symbol.ofNext_eq_ending_iff.1 hnext
      exact .accepted hnone rfl (hexpression.computes.join hvalue)
  | acceptComplete hphase hnext =>
    rw [hphase] at hpoint
    cases hpoint with
    | complete houtermost hvalue =>
      obtain rfl := levelsText_eq_nil_iff.1 houtermost
      exact .accepted (Symbol.ofNext_eq_ending_iff.1 hnext) rfl hvalue
  | refuseComplete hphase hnext =>
    rw [hphase] at hpoint
    cases hpoint with
    | complete houtermost hvalue =>
      refine .refused ?_ ?_
      · exact fun _ _ => rfl
      · exact fun hnone => absurd (Symbol.ofNext_eq_ending_iff.2 hnone) hnext

/-! ## Steps -/

/-- The moves of a step that reads a character read it into the draft. -/
theorem Tracks.more {c : Char} {cs : List Char} {xs : List Question} {q : Progress}
    (h : Tracks text w d m) (hsplit : text = w ++ c :: cs) (hc : isIgnored c = false)
    (moves : Machine.Moves limit (some c) (byteLength w) m xs q) (hq : q = .more m') :
    ∃ d', d.read c = some d' ∧ Tracks text (w ++ [c]) d' m' := by
  have hhead : HeadVisible (c :: cs) := .cons hc cs
  induction moves generalizing d with
  | silent move rest ih =>
    obtain ⟨hadvance, hsame⟩ := h.silent hsplit hhead move
    obtain ⟨d', hread, hd'⟩ := ih hadvance hq
    refine ⟨d', ?_, hd'⟩
    rw [← hsame.read c rfl]
    exact hread
  | take hnext move =>
    cases hnext
    cases hq
    exact h.take hsplit move
  | final move => cases hq

/-- The moves of a step that ends the run end it for a reason that the draft has. -/
theorem Tracks.ended {xs : List Question} {q : Progress} {run : Run} (h : Tracks text w d m)
    (hsplit : text = w ++ rest) (hhead : HeadVisible rest)
    (moves : Machine.Moves limit rest.head? (byteLength w) m xs q) (hq : q = .ended run) :
    d.Ending limit text w rest.head? run.outcome := by
  induction moves generalizing d with
  | silent move rest ih =>
    obtain ⟨hadvance, hsame⟩ := h.silent hsplit hhead move
    exact .of_sameNext hsame (ih hadvance hq)
  | take hnext move => cases hq
  | final move =>
    cases hq
    exact h.final move

end ExactCalculator
