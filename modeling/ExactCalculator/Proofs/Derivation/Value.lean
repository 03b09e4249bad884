import ExactCalculator.Evaluation.Machine
import ExactCalculator.Proofs.Derivation.Draft
import ExactCalculator.Proofs.Fraction.Meaning

/-! The fractions that the machine computes stand for the values of the derivations that it reads:
joining a term to a sum or a factor to a product does the same on both sides. A product has no
result only for a divisor whose value is zero. -/
namespace ExactCalculator
set_option autoImplicit false

/-- The fraction is in lowest terms and its number is the value. -/
structure Fraction.StandsFor (v : Fraction) (value : Option ℚ) : Prop where
  reduced : v.Reduced
  value_eq : value = some v.toRat

theorem Fraction.StandsFor.unique {v w : Fraction} {value : Option ℚ} (hv : v.StandsFor value)
    (hw : w.StandsFor value) : v = w := by
  apply hv.reduced.eq_of_toRat hw.reduced
  exact Option.some.inj (hv.value_eq.symm.trans hw.value_eq)

/-- Every number has its fraction. -/
theorem Fraction.exists_standsFor (q : ℚ) : ∃ v : Fraction, v.StandsFor (some q) := by
  refine ⟨.ofRat q, ofRat_reduced q, ?_⟩
  rw [toRat_ofRat]

theorem Fraction.zero_standsFor : Fraction.zero.StandsFor (some 0) := by
  refine ⟨zero_reduced, ?_⟩
  simp [Fraction.zero]

theorem Fraction.standsFor_decimal (digits : List Char) :
    (Fraction.ofInt (decimal digits : ℕ)).StandsFor (Factor.literal digits).value? := by
  refine ⟨Fraction.ofInt_reduced _, ?_⟩
  simp [Factor.value?]

theorem decimal_concat (digits : List Char) (c : Char) :
    decimal (digits ++ [c]) = 10 * decimal digits + digitValue c := by
  simp [decimal, List.foldl_append]

/-! ## Sums -/

/-- The machine's sum has the value of the finished part of the expression. -/
inductive SumDraft.Computes : SumDraft → PartialSum → Prop
  | start (sign : Option Sign) : Computes (.start sign) (.start (sign.getD .plus))
  | after {before : Expression} {total : Fraction} (sign : Sign)
      (total_eq : total.StandsFor before.value?) : Computes (.after before sign) (.after total sign)

theorem SumDraft.Computes.join {sum : SumDraft} {s : PartialSum} {term : Term} {v : Fraction}
    (hs : sum.Computes s) (hv : v.StandsFor term.value?) :
    (s.join v).StandsFor (sum.join term).value? := by
  obtain ⟨hred, hval⟩ := hv
  cases hs with
  | start sign =>
    cases hsign : sign.getD .plus with
    | plus =>
      refine ⟨hred, ?_⟩
      simp [SumDraft.join, Expression.value?, hval, hsign, PartialSum.join, Sign.apply]
    | minus =>
      refine ⟨hred.neg, ?_⟩
      simp [SumDraft.join, Expression.value?, hval, hsign, PartialSum.join, Sign.apply]
  | after sign htotal =>
    cases sign with
    | plus =>
      refine ⟨htotal.reduced.add hred, ?_⟩
      simp [SumDraft.join, Expression.value?, hval, htotal.value_eq, PartialSum.join, Sign.apply,
        Fraction.toRat_add htotal.reduced hred]
    | minus =>
      refine ⟨htotal.reduced.sub hred, ?_⟩
      simp [SumDraft.join, Expression.value?, hval, htotal.value_eq, PartialSum.join, Sign.apply,
        Fraction.toRat_sub htotal.reduced hred, sub_eq_add_neg]

/-! ## Products -/

/-- The machine's product has the value of the finished part of the term. -/
inductive ProductDraft.Computes : ProductDraft → PartialProduct → Prop
  | start : Computes .start .start
  | after {before : Term} {total : Fraction} (joint : Joint)
      (total_eq : total.StandsFor before.value?) :
      Computes (.after before joint) (.after total joint.scaling)

/-- The factor is a divisor with the value zero. -/
def ProductDraft.ZeroDivisor (product : ProductDraft) (factor : Factor) : Prop :=
  (∃ before, product = .after before (.written .divide)) ∧ factor.value? = some 0

theorem ProductDraft.ZeroDivisor.value_eq {product : ProductDraft} {factor : Factor}
    (h : product.ZeroDivisor factor) : (product.join factor).value? = none := by
  obtain ⟨⟨before, rfl⟩, hzero⟩ := h
  cases hb : before.value? <;>
    simp [ProductDraft.join, Term.value?, hb, hzero, Joint.scaling, Scaling.apply?]

theorem ProductDraft.Computes.join_ok {product : ProductDraft} {p : PartialProduct}
    {factor : Factor} {v q : Fraction} (hp : product.Computes p) (hv : v.StandsFor factor.value?)
    (h : p.join v = .ok q) : q.StandsFor (product.join factor).value? := by
  obtain ⟨hred, hval⟩ := hv
  cases hp with
  | start =>
    obtain rfl := Except.ok.inj h
    exact ⟨hred, hval⟩
  | @after before total joint htotal =>
    cases hscaling : joint.scaling with
    | multiply =>
      rw [hscaling] at h
      obtain rfl := Except.ok.inj h
      refine ⟨htotal.reduced.mul hred, ?_⟩
      simp [ProductDraft.join, Term.value?, hval, htotal.value_eq, hscaling, Scaling.apply?,
        Fraction.toRat_mul htotal.reduced hred]
    | divide =>
      rw [hscaling] at h
      obtain ⟨hne, hq, hquot⟩ := htotal.reduced.div hred h
      refine ⟨hq, ?_⟩
      simp [ProductDraft.join, Term.value?, hval, htotal.value_eq, hscaling, Scaling.apply?,
        hne, hquot]

theorem ProductDraft.Computes.join_error {product : ProductDraft} {p : PartialProduct}
    {factor : Factor} {v : Fraction} {fault : Fault} (hp : product.Computes p)
    (hv : v.StandsFor factor.value?) (h : p.join v = .error fault) :
    fault = .divisionByZero ∧ product.ZeroDivisor factor := by
  obtain ⟨hred, hval⟩ := hv
  cases hp with
  | start => cases h
  | @after before total joint htotal =>
    cases joint with
    | beside => cases h
    | written scaling =>
      cases scaling with
      | multiply => cases h
      | divide =>
        obtain ⟨hfault, hzero⟩ := Fraction.div_error hred h
        refine ⟨hfault, ⟨before, rfl⟩, ?_⟩
        rw [hval, (Fraction.toRat_eq_zero_iff hred).2 hzero]

/-- The machine notices every divisor that is zero. -/
theorem ProductDraft.Computes.join_zeroDivisor {product : ProductDraft} {p : PartialProduct}
    {factor : Factor} {v : Fraction} (hp : product.Computes p) (hv : v.StandsFor factor.value?)
    (h : product.ZeroDivisor factor) : p.join v = .error .divisionByZero := by
  cases hjoin : p.join v with
  | ok q =>
    have hvalue := (hp.join_ok hv hjoin).value_eq
    rw [h.value_eq] at hvalue
    cases hvalue
  | error fault => rw [(hp.join_error hv hjoin).1]

end ExactCalculator
