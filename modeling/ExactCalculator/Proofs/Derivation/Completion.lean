import ExactCalculator.Proofs.Derivation.Growth
import ExactCalculator.Proofs.Derivation.Value
import ExactCalculator.Proofs.Text.Position

/-! Completing a draft. Every draft whose finished parts have values goes on to a derivation with a
value, and no parenthesis is opened on the way (`Draft.exists_completion`). An open parenthesis may
stand after a division, so its expression must not become zero: where it is, one is added before the
parenthesis closes. -/
namespace ExactCalculator
set_option autoImplicit false

/-! ## Values of joined parts -/

theorem SumDraft.Valued.join {sum : SumDraft} {term : Term} (hs : sum.Valued)
    (ht : term.value? ≠ none) : (sum.join term).value? ≠ none := by
  obtain ⟨w, hw⟩ := Option.ne_none_iff_exists'.1 ht
  cases sum with
  | start sign => simp [SumDraft.join, Expression.value?, hw]
  | after before sign =>
    obtain ⟨v, hv⟩ := Option.ne_none_iff_exists'.1 hs
    simp [SumDraft.join, Expression.value?, hv, hw]

theorem ProductDraft.Valued.join {product : ProductDraft} {factor : Factor} {q : ℚ}
    (hp : product.Valued) (hf : factor.value? = some q) (hq : q ≠ 0) :
    (product.join factor).value? ≠ none := by
  cases product with
  | start => simp [ProductDraft.join, Term.value?, hf]
  | after before joint =>
    obtain ⟨v, hv⟩ := Option.ne_none_iff_exists'.1 hp
    cases hscaling : joint.scaling <;>
      simp [ProductDraft.join, Term.value?, hv, hf, hscaling, Scaling.apply?, hq]

theorem SumDraft.Valued.join_literal {sum : SumDraft} {product : ProductDraft}
    {digits : List Char} (hs : sum.Valued) (hp : product.Valued) (hd : decimal digits ≠ 0) :
    (sum.join (product.join (.literal digits))).value? ≠ none := by
  have hq : (decimal digits : ℚ) ≠ 0 := Nat.cast_ne_zero.mpr hd
  exact hs.join (hp.join rfl hq)

namespace Draft

variable {d d' d'' : Draft} {e : Expression}

/-! ## Reading on without getting deeper -/

/-- The draft goes on to another one by visible characters that open no parenthesis. -/
def Reaches (d d' : Draft) : Prop :=
  ∃ more, visible more = more ∧ d.readAll more = some d' ∧ d'.depth ≤ d.depth

theorem Reaches.refl (d : Draft) : d.Reaches d := ⟨[], rfl, rfl, le_refl _⟩

theorem Reaches.trans (h : d.Reaches d') (h' : d'.Reaches d'') : d.Reaches d'' := by
  obtain ⟨more, hvisible, hread, hdepth⟩ := h
  obtain ⟨more', hvisible', hread', hdepth'⟩ := h'
  refine ⟨more ++ more', ?_, ?_, le_trans hdepth' hdepth⟩
  · rw [visible_append, hvisible, hvisible']
  · rw [readAll_append, hread]
    exact hread'

theorem Reaches.of_read {c : Char} (h : d.read c = some d') (hc : isIgnored c = false)
    (hlevels : d'.levels.length ≤ d.levels.length) : d.Reaches d' := by
  refine ⟨[c], visible_cons_of_visible [] hc, ?_, ?_⟩
  · rw [readAll_cons, h]
    rfl
  · rw [read_depth h]
    exact max_le (le_refl _) (le_trans hlevels d.length_levels_le_depth)

/-! ## The innermost expression -/

/-- The innermost expression, if it may end here. -/
def whole? (d : Draft) : Option Expression :=
  match d.point with
  | .literal sum product digits => some (sum.join (product.join (.literal digits)))
  | .operator sum term => some (sum.join term)
  | _ => none

theorem whole_cases (h : d.whole? = some e) :
    (∃ sum product digits, d.point = .literal sum product digits ∧
      e = sum.join (product.join (.literal digits))) ∨
    ∃ sum term, d.point = .operator sum term ∧ e = sum.join term := by
  obtain ⟨levels, point⟩ := d
  cases point with
  | expression | factor | complete => cases h
  | literal sum product digits =>
    exact .inl ⟨sum, product, digits, rfl, (Option.some.inj h).symm⟩
  | operator sum term => exact .inr ⟨sum, term, rfl, (Option.some.inj h).symm⟩

/-- Where an expression may end, only an operator or the end of its level is read. -/
theorem exists_readOperator (h : d.whole? = some e) : ∃ sum term, e = sum.join term ∧
    (∀ c, c.isDigit = false → d.read c = readOperator d.levels sum term c) := by
  obtain ⟨levels, point⟩ := d
  rcases whole_cases h with ⟨sum, product, digits, rfl, rfl⟩ | ⟨sum, term, rfl, rfl⟩
  · refine ⟨sum, product.join (.literal digits), rfl, ?_⟩
    intro c hc
    simp [read, hc]
  · exact ⟨sum, term, rfl, fun _ _ => rfl⟩

theorem read_closing {level : DraftLevel} {outer : List DraftLevel} (h : d.whole? = some e)
    (hlevels : d.levels = level :: outer) :
    d.read ')' = some ⟨outer, .operator level.sum (level.product.join (.group e))⟩ := by
  obtain ⟨sum, term, rfl, hread⟩ := exists_readOperator h
  rw [hread ')' rfl, hlevels]
  rfl

theorem read_plus (h : d.whole? = some e) :
    d.read '+' = some ⟨d.levels, .factor (.after e .plus) .start⟩ := by
  obtain ⟨sum, term, rfl, hread⟩ := exists_readOperator h
  rw [hread '+' rfl]
  rfl

theorem finish_of_whole (h : d.whole? = some e) (hlevels : d.levels = []) :
    d.finish = some e := by
  obtain ⟨levels, point⟩ := d
  subst hlevels
  rcases whole_cases h with ⟨sum, product, digits, rfl, rfl⟩ | ⟨sum, term, rfl, rfl⟩ <;> rfl

/-! ## Completions -/

/-- The innermost expression can end with a value. A literal is not left as zero. -/
theorem exists_whole (hd : d.Valued) (hopen : ∀ whole, d.point ≠ .complete whole) :
    ∃ d' e, d.Reaches d' ∧ d'.levels = d.levels ∧ d'.whole? = some e ∧ e.value? ≠ none := by
  obtain ⟨levels, point⟩ := d
  obtain ⟨-, hpoint⟩ := hd
  cases point with
  | expression =>
    have hread : read ⟨levels, .expression⟩ '1' =
        some ⟨levels, .literal (.start none) .start ['1']⟩ := rfl
    have hone : decimal ['1'] ≠ 0 := by decide
    exact ⟨_, _, .of_read hread rfl (le_refl _), rfl, rfl,
      SumDraft.Valued.join_literal trivial trivial hone⟩
  | factor sum product =>
    have hread : read ⟨levels, .factor sum product⟩ '1' =
        some ⟨levels, .literal sum product ['1']⟩ := rfl
    have hone : decimal ['1'] ≠ 0 := by decide
    exact ⟨_, _, .of_read hread rfl (le_refl _), rfl, rfl, hpoint.1.join_literal hpoint.2 hone⟩
  | literal sum product digits =>
    have hread : read ⟨levels, .literal sum product digits⟩ '1' =
        some ⟨levels, .literal sum product (digits ++ ['1'])⟩ := rfl
    have hlonger : decimal (digits ++ ['1']) ≠ 0 := by
      have hone : digitValue '1' = 1 := rfl
      rw [decimal_concat, hone]
      omega
    exact ⟨_, _, .of_read hread rfl (le_refl _), rfl, rfl, hpoint.1.join_literal hpoint.2 hlonger⟩
  | operator sum term =>
    exact ⟨_, _, .refl _, rfl, rfl, hpoint.1.join hpoint.2⟩
  | complete whole => exact absurd rfl (hopen whole)

/-- The innermost expression can end with a value that is not zero. -/
theorem exists_nonzero (h : d.whole? = some e) (hvalue : e.value? ≠ none) :
    ∃ d' e' q, d.Reaches d' ∧ d'.levels = d.levels ∧ d'.whole? = some e' ∧
      e'.value? = some q ∧ q ≠ 0 := by
  obtain ⟨q, hq⟩ := Option.ne_none_iff_exists'.1 hvalue
  by_cases hzero : q = 0
  · have hplus := read_plus h
    have hdigit : read ⟨d.levels, .factor (.after e .plus) .start⟩ '1' =
        some ⟨d.levels, .literal (.after e .plus) .start ['1']⟩ := rfl
    have hreaches : d.Reaches ⟨d.levels, .literal (.after e .plus) .start ['1']⟩ :=
      .trans (.of_read hplus rfl (le_refl _)) (.of_read hdigit rfl (le_refl _))
    have hone : decimal ['1'] = 1 := by decide
    refine ⟨_, .next e .plus (.first (.literal ['1'])), 1, hreaches, rfl, rfl, ?_, one_ne_zero⟩
    simp [Expression.value?, Term.value?, Factor.value?, hq, hzero, Sign.apply, hone]
  · exact ⟨d, e, q, .refl d, rfl, h, hq, hzero⟩

/-- All open parentheses can close, the innermost first. -/
theorem exists_closed (h : d.whole? = some e) (hvalue : e.value? ≠ none)
    (hlevels : ∀ level ∈ d.levels, level.sum.Valued ∧ level.product.Valued) :
    ∃ d' e', d.Reaches d' ∧ d'.finish = some e' ∧ e'.value? ≠ none := by
  generalize hl : d.levels = levels at hlevels
  induction levels generalizing d e with
  | nil => exact ⟨d, e, .refl d, finish_of_whole h hl, hvalue⟩
  | cons level outer ih =>
    obtain ⟨hsum, hproduct⟩ := hlevels level (List.mem_cons_self ..)
    -- the group that closes here may be a divisor
    obtain ⟨d₁, e₁, q, hreach, hlevels₁, hwhole, hq, hzero⟩ := exists_nonzero h hvalue
    rw [hl] at hlevels₁
    have hclose := read_closing hwhole hlevels₁
    have hvalue₂ : (level.sum.join (level.product.join (.group e₁))).value? ≠ none :=
      hsum.join (hproduct.join hq hzero)
    have houter : ∀ level ∈ outer, level.sum.Valued ∧ level.product.Valued :=
      fun level hmem => hlevels level (List.mem_cons_of_mem _ hmem)
    have hwhole₂ : whole? ⟨outer, .operator level.sum (level.product.join (.group e₁))⟩ =
        some (level.sum.join (level.product.join (.group e₁))) := rfl
    obtain ⟨d', e', hreach', hfinish, hvalue'⟩ := ih hwhole₂ hvalue₂ rfl houter
    have hstep : d₁.Reaches _ := .of_read hclose rfl (by simp [hlevels₁])
    exact ⟨d', e', hreach.trans (hstep.trans hreach'), hfinish, hvalue'⟩

/-- A draft with values goes on to a derivation with a value that is no deeper. -/
theorem exists_completion (hd : d.Valued)
    (hcomplete : ∀ whole, d.point = .complete whole → d.levels = []) :
    ∃ more e, visible more = more ∧ (d.readAll more).bind finish = some e ∧
      e.depth ≤ d.depth ∧ e.value? ≠ none := by
  have hend : ∃ d' e, d.Reaches d' ∧ d'.finish = some e ∧ e.value? ≠ none := by
    by_cases hopen : ∀ whole, d.point ≠ .complete whole
    · obtain ⟨d₁, e₁, hreach, hlevels, hwhole, hvalue⟩ := exists_whole hd hopen
      obtain ⟨d', e', hreach', hfinish, hvalue'⟩ :=
        exists_closed hwhole hvalue (by rw [hlevels]; exact hd.levels)
      exact ⟨d', e', hreach.trans hreach', hfinish, hvalue'⟩
    · obtain ⟨whole, hpoint⟩ : ∃ whole, d.point = .complete whole := by
        simpa using hopen
      have hlevels := hcomplete whole hpoint
      obtain ⟨levels, point⟩ := d
      subst hpoint hlevels
      exact ⟨_, whole, .refl _, rfl, hd.point⟩
  obtain ⟨d', e, ⟨more, hvisible, hread, hdepth⟩, hfinish, hvalue⟩ := hend
  refine ⟨more, e, hvisible, ?_, ?_, hvalue⟩
  · rw [hread]
    exact hfinish
  · rw [finish_depth hfinish]
    exact hdepth

end Draft

end ExactCalculator
