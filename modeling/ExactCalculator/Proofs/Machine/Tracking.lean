import ExactCalculator.Proofs.Derivation.Unique
import ExactCalculator.Proofs.Derivation.Value
import ExactCalculator.Proofs.Machine.Moves
import ExactCalculator.Proofs.Text.Position

/-! The invariant of a run: the machine stands at the draft of the visible characters that it has
taken. `Tracks` says that the open parentheses and the phase agree with the draft, that every
unfinished sum and product has the value of its part of the draft, and that every open rule starts
at the first character of that part. Silent moves keep the draft up to what it reads next
(`Tracks.silent`), taking moves read a character into it (`Tracks.take`), and a move that ends the
run says what the draft could not do (`Tracks.final`). -/
namespace ExactCalculator
set_option autoImplicit false

/-! ## The invariant -/

/-- The expression starts after the visible characters `before`, with the sum of the draft. -/
structure OpenExpression.Tracks (text before : List Char) (sum : SumDraft) (e : OpenExpression) :
    Prop where
  begins : BeginsAt text e.start before
  computes : sum.Computes e.sum

/-- The term starts after the visible characters `before`, with the product of the draft. -/
structure OpenTerm.Tracks (text before : List Char) (product : ProductDraft) (t : OpenTerm) :
    Prop where
  begins : BeginsAt text t.start before
  computes : product.Computes t.product

inductive LevelsTrack (text : List Char) : List DraftLevel → List Level → Prop
  | nil : LevelsTrack text [] []
  | cons {d : DraftLevel} {ds : List DraftLevel} {level : Level} {rest : List Level}
      (expression : level.expression.Tracks text (levelsText ds) d.sum)
      (term : level.term.Tracks text (levelsText ds ++ d.sum.text) d.product)
      (begins : BeginsAt text level.start (levelsText ds ++ d.sum.text ++ d.product.text))
      (outer : LevelsTrack text ds rest) : LevelsTrack text (d :: ds) (level :: rest)

/-- The machine's phase against the point of a draft that comes after the characters `before`. -/
inductive PhaseTracks (text before : List Char) : DraftPoint → Phase → Prop
  | expression : PhaseTracks text before .expression .expression
  | term {sum : SumDraft} {e : OpenExpression} (expression : e.Tracks text before sum) :
      PhaseTracks text before (.factor sum .start) (.term e)
  | factor {sum : SumDraft} {product : ProductDraft} {e : OpenExpression} {t : OpenTerm}
      (expression : e.Tracks text before sum)
      (term : t.Tracks text (before ++ sum.text) product) :
      PhaseTracks text before (.factor sum product) (.factor e t)
  | literal {sum : SumDraft} {product : ProductDraft} {digits : List Char} {e : OpenExpression}
      {t : OpenTerm} {start : Nat} (expression : e.Tracks text before sum)
      (term : t.Tracks text (before ++ sum.text) product)
      (begins : BeginsAt text start (before ++ sum.text ++ product.text)) (hdigits : digits ≠ []) :
      PhaseTracks text before (.literal sum product digits) (.literal e t start (decimal digits))
  | operator {sum : SumDraft} {term : Term} {e : OpenExpression} {termStart : Nat}
      {value : Fraction} (expression : e.Tracks text before sum)
      (begins : BeginsAt text termStart (before ++ sum.text))
      (value_eq : value.StandsFor term.value?) :
      PhaseTracks text before (.operator sum term) (.operator e termStart value)
  | complete {whole : Expression} {value : Fraction} (outermost : before = [])
      (value_eq : value.StandsFor whole.value?) :
      PhaseTracks text before (.complete whole) (.complete value)

/-- The machine that has read the first part `w` of the text stands at the draft. -/
structure Tracks (text w : List Char) (d : Draft) (m : Machine) : Prop where
  text_eq : visible w = d.text
  mark : EndsAt w m.mark
  levels : LevelsTrack text d.levels m.stack
  point : PhaseTracks text (levelsText d.levels) d.point m.phase

theorem Tracks.start (text : List Char) : Tracks text [] Draft.start {} :=
  ⟨rfl, .nil, .nil, .expression⟩

theorem LevelsTrack.length_eq {text : List Char} {ds : List DraftLevel} {stack : List Level}
    (h : LevelsTrack text ds stack) : ds.length = stack.length := by
  induction h with
  | nil => rfl
  | cons _ _ _ _ ih => simp [ih]

theorem LevelsTrack.eq_nil_iff {text : List Char} {ds : List DraftLevel} {stack : List Level}
    (h : LevelsTrack text ds stack) : ds = [] ↔ stack = [] := by
  rw [← List.length_eq_zero_iff, h.length_eq, List.length_eq_zero_iff]

/-- After a whole expression no parenthesis is open. -/
theorem Tracks.complete_levels {text w : List Char} {d : Draft} {m : Machine}
    (h : Tracks text w d m) {whole : Expression} (hpoint : d.point = .complete whole) :
    d.levels = [] := by
  have hphase := h.point
  rw [hpoint] at hphase
  generalize m.phase = phase at hphase
  cases hphase with
  | complete houtermost => exact levelsText_eq_nil_iff.1 houtermost

theorem Tracks.skip {text w : List Char} {d : Draft} {m : Machine} {c : Char}
    (h : Tracks text w d m) (hc : isIgnored c = true) : Tracks text (w ++ [c]) d m := by
  refine ⟨?_, h.mark.skip hc, h.levels, h.point⟩
  rw [visible_append, visible_cons_of_ignored [] hc, visible_nil, List.append_nil]
  exact h.text_eq

section
variable {text w rest : List Char} {d : Draft} {m m' : Machine} {xs : List Question}

/-! ## Silent moves -/

/-- The draft after a silent move: its next rule is entered, or its literal is left. -/
def Draft.advance (d : Draft) : Draft :=
  match d.point with
  | .expression => ⟨d.levels, .factor (.start none) .start⟩
  | .literal sum product digits => ⟨d.levels, .operator sum (product.join (.literal digits))⟩
  | .operator sum term => ⟨d.levels, .factor sum (.after term .beside)⟩
  | .factor _ _ | .complete _ => d

/-- A silent move keeps the draft as far as reading on can tell. -/
structure Draft.SameNext (next : Option Char) (d d' : Draft) : Prop where
  levels : d'.levels = d.levels
  read : ∀ c, next = some c → d'.read c = d.read c
  finish : next = none → d'.finish = d.finish
  point : ∀ sum product digits, d'.point ≠ .literal sum product digits

theorem Tracks.silent (h : Tracks text w d m) (hsplit : text = w ++ rest) (hhead : HeadVisible rest)
    (move : Machine.SilentMove rest.head? (byteLength w) m xs m') :
    Tracks text w d.advance m' ∧ d.SameNext rest.head? d.advance := by
  subst hsplit
  obtain ⟨levels, point⟩ := d
  obtain ⟨htext, hmark, hlevels, hpoint⟩ := h
  simp only at hlevels hpoint
  cases move with
  | enterExpression hphase hnext =>
    rw [hphase] at hpoint
    cases hpoint
    refine ⟨⟨htext, hmark, hlevels, ?_⟩, rfl, ?_, ?_, ?_⟩
    · refine .term ⟨.of_split ?_ hhead, .start none⟩
      rw [htext]
      simp [Draft.text, Draft.advance, DraftPoint.text]
    · intro c hc
      rw [hc] at hnext
      simp only [Draft.advance, Draft.read, Draft.readExpression]
      split
      · next hs => exact absurd hs (hnext _)
      · rfl
    · intro _
      cases levels <;> rfl
    · simp [Draft.advance]
  | enterTerm hphase =>
    rw [hphase] at hpoint
    cases hpoint with
    | @term sum e hexpression =>
      refine ⟨⟨htext, hmark, hlevels, ?_⟩, rfl, ?_, ?_, ?_⟩
      · refine .factor hexpression ⟨.of_split ?_ hhead, .start⟩
        rw [htext]
        simp [Draft.text, Draft.advance, DraftPoint.text, ProductDraft.text]
      · exact fun _ _ => rfl
      · exact fun _ => rfl
      · simp [Draft.advance]
  | leaveLiteral hphase hnext hjoin =>
    rw [hphase] at hpoint
    cases hpoint with
    | @literal sum product digits e t start hexpression hterm hbegins hdigits =>
      refine ⟨⟨?_, hmark, hlevels, ?_⟩, rfl, ?_, ?_, ?_⟩
      · rw [htext]
        simp [Draft.text, Draft.advance, DraftPoint.text, Factor.text]
      · exact .operator hexpression hterm.begins
          (hterm.computes.join_ok (Fraction.standsFor_decimal digits) hjoin)
      · intro c hc
        have hno : ¬ c.isDigit = true := by
          intro hd
          rw [hc] at hnext
          exact hnext _ (Symbol.ofChar_digit hd)
        simp [Draft.advance, Draft.read, hno]
      · intro _
        cases levels <;> rfl
      · simp [Draft.advance]
  | beside hphase hnext =>
    rw [hphase] at hpoint
    cases hpoint with
    | @operator sum term e termStart value hexpression hbegins hvalue =>
      refine ⟨⟨?_, hmark, hlevels, ?_⟩, rfl, ?_, ?_, ?_⟩
      · rw [htext]
        simp [Draft.text, Draft.advance, DraftPoint.text, ProductDraft.text, Joint.text]
      · exact .factor hexpression ⟨hbegins, .after .beside hvalue⟩
      · intro c hc
        refine (Draft.readOperator_eq_readFactor levels sum term ?_).symm
        rw [hc] at hnext
        rcases hnext with ⟨digit, hd⟩ | ho
        · exact .inl (Symbol.ofChar_eq_digit_iff.1 hd).1
        · exact .inr ((Symbol.ofChar_eq_iff rfl).1 ho)
      · intro hnone
        rw [hnone] at hnext
        rcases hnext with ⟨digit, hd⟩ | ho
        · cases hd
        · cases ho
      · simp [Draft.advance]

/-! ## Taking moves -/

theorem Machine.TakingMove.ofChar_ne_stray {limit : Option Nat} {c : Char} {p : Nat}
    (move : Machine.TakingMove limit c p m xs m') : Symbol.ofChar c ≠ .stray := by
  cases move with
  | firstSign _ hc | firstDigit _ hc | nextDigit _ hc | opening _ hc | scaling _ hc | sign _ hc
  | closing _ _ hc | equals _ _ hc => simp [hc]

theorem Machine.TakingMove.visible {limit : Option Nat} {c : Char} {p : Nat}
    (move : Machine.TakingMove limit c p m xs m') : isIgnored c = false ∧ c.utf8Size = 1 :=
  Symbol.visible_of_ofChar_ne_stray move.ofChar_ne_stray

theorem Tracks.of_read {c : Char} {d' : Draft} (h : Tracks text w d m) (hread : d.read c = some d')
    (hc : isIgnored c = false) (hsize : c.utf8Size = 1) (hmark : m'.mark = byteLength w + 1)
    (hlevels : LevelsTrack text d'.levels m'.stack)
    (hpoint : PhaseTracks text (levelsText d'.levels) d'.point m'.phase) :
    Tracks text (w ++ [c]) d' m' := by
  refine ⟨?_, ?_, hlevels, hpoint⟩
  · rw [visible_append, visible_cons_of_visible [] hc, visible_nil, h.text_eq, Draft.read_text hread]
  · rw [hmark, ← hsize]
    exact .take hc

theorem Tracks.take {limit : Option Nat} {c : Char} (h : Tracks text w d m)
    (hsplit : text = w ++ c :: rest) (move : Machine.TakingMove limit c (byteLength w) m xs m') :
    ∃ d', d.read c = some d' ∧ Tracks text (w ++ [c]) d' m' := by
  obtain ⟨hvisible, hsize⟩ := move.visible
  have hhead : HeadVisible (c :: rest) := .cons hvisible rest
  have hbegin : ∀ before, d.text = before → BeginsAt text (byteLength w) before := by
    intro before hbefore
    rw [hsplit]
    exact .of_split (h.text_eq.trans hbefore) hhead
  obtain ⟨levels, point⟩ := d
  have hlevels := h.levels
  have hpoint := h.point
  simp only at hlevels hpoint
  cases move with
  | @firstSign sign hphase hc =>
    rw [hphase] at hpoint
    cases hpoint
    have hread : Draft.read ⟨levels, .expression⟩ c =
        some ⟨levels, .factor (.start (some sign)) .start⟩ := by
      simp [Draft.read, Draft.readExpression, hc]
    refine ⟨_, hread, h.of_read hread hvisible hsize rfl hlevels ?_⟩
    refine .term ⟨hbegin _ ?_, .start (some sign)⟩
    simp [Draft.text, DraftPoint.text]
  | @firstDigit e t digit hphase hc =>
    rw [hphase] at hpoint
    obtain ⟨hd, rfl⟩ := Symbol.ofChar_eq_digit_iff.1 hc
    have hvalue : 10 * 0 + digitValue c = decimal [c] := by simp [decimal]
    have hread : ∀ sum product, Draft.read ⟨levels, .factor sum product⟩ c =
        some ⟨levels, .literal sum product [c]⟩ := by
      intro sum product
      simp [Draft.read, Draft.readFactor, hc]
    cases hpoint with
    | @factor sum product _ _ hexpression hterm =>
      refine ⟨_, hread sum product, h.of_read (hread sum product) hvisible hsize rfl hlevels ?_⟩
      rw [hvalue]
      refine .literal hexpression hterm (hbegin _ ?_) (by simp)
      simp [Draft.text, DraftPoint.text]
  | @nextDigit e t start value digit hphase hc =>
    rw [hphase] at hpoint
    obtain ⟨hd, rfl⟩ := Symbol.ofChar_eq_digit_iff.1 hc
    cases hpoint with
    | @literal sum product digits _ _ _ hexpression hterm hbegins hdigits =>
      have hread : Draft.read ⟨levels, .literal sum product digits⟩ c =
          some ⟨levels, .literal sum product (digits ++ [c])⟩ := by
        simp [Draft.read, hd]
      refine ⟨_, hread, h.of_read hread hvisible hsize rfl hlevels ?_⟩
      rw [← decimal_concat]
      exact .literal hexpression hterm hbegins (by simp)
  | @opening e t hphase hc hdepth =>
    rw [hphase] at hpoint
    have hread : ∀ sum product, Draft.read ⟨levels, .factor sum product⟩ c =
        some ⟨⟨sum, product⟩ :: levels, .expression⟩ := by
      intro sum product
      simp [Draft.read, Draft.readFactor, hc]
    cases hpoint with
    | @factor sum product _ _ hexpression hterm =>
      refine ⟨_, hread sum product, h.of_read (hread sum product) hvisible hsize rfl ?_ .expression⟩
      refine .cons hexpression hterm (hbegin _ ?_) hlevels
      simp [Draft.text, DraftPoint.text]
  | @scaling e termStart value scaling hphase hc =>
    rw [hphase] at hpoint
    cases hpoint with
    | @operator sum term _ _ _ hexpression hbegins hvalue =>
      have hread : Draft.read ⟨levels, .operator sum term⟩ c =
          some ⟨levels, .factor sum (.after term (.written scaling))⟩ := by
        simp [Draft.read, Draft.readOperator, hc]
      refine ⟨_, hread, h.of_read hread hvisible hsize rfl hlevels ?_⟩
      exact .factor hexpression ⟨hbegins, .after (.written scaling) hvalue⟩
  | @sign e termStart value sign hphase hc =>
    rw [hphase] at hpoint
    cases hpoint with
    | @operator sum term _ _ _ hexpression hbegins hvalue =>
      have hread : Draft.read ⟨levels, .operator sum term⟩ c =
          some ⟨levels, .factor (.after (sum.join term) sign) .start⟩ := by
        simp [Draft.read, Draft.readOperator, hc]
      refine ⟨_, hread, h.of_read hread hvisible hsize rfl hlevels ?_⟩
      exact .term ⟨hexpression.begins, .after sign (hexpression.computes.join hvalue)⟩
  | @closing e termStart value level outer product hphase hstack hc hjoin =>
    rw [hphase] at hpoint
    rw [hstack] at hlevels
    cases hpoint with
    | @operator sum term _ _ _ hexpression hbegins hvalue =>
      cases hlevels with
      | @cons draft drafts _ _ houterExpression houterTerm _ houter =>
        have hread : Draft.read ⟨draft :: drafts, .operator sum term⟩ c =
            some ⟨drafts, .operator draft.sum (draft.product.join (.group (sum.join term)))⟩ := by
          simp [Draft.read, Draft.readOperator, hc]
        refine ⟨_, hread, h.of_read hread hvisible hsize rfl houter ?_⟩
        refine .operator houterExpression houterTerm.begins ?_
        exact houterTerm.computes.join_ok (hexpression.computes.join hvalue) hjoin
  | @equals e termStart value hphase hstack hc =>
    rw [hphase] at hpoint
    rw [hstack] at hlevels
    cases hlevels
    cases hpoint with
    | @operator sum term _ _ _ hexpression hbegins hvalue =>
      have hread : Draft.read ⟨[], .operator sum term⟩ c =
          some ⟨[], .complete (sum.join term)⟩ := by
        simp [Draft.read, Draft.readOperator, hc]
      refine ⟨_, hread, h.of_read hread hvisible hsize rfl ?_ ?_⟩
      · simp only [Machine.take, Machine.leaveExpression, Machine.leave, hstack]
        exact .nil
      · exact .complete rfl (hexpression.computes.join hvalue)

end

end ExactCalculator
