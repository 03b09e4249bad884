import ExactCalculator.Proofs.Fraction.Numbers
import ExactCalculator.Proofs.Registers

/-! The order of a calculation does not show in its result. Every partial result is the fraction of the
number that stands there when rational numbers are added or multiplied in the same order (`foldl_ofRat`),
and these totals are the same in any order. So the fractions obey the laws of a field as they are stored
(`FieldLaws`), and a register to which one operand after the other is added, or by which it is multiplied,
ends with the same fraction for every arrangement of the operands. -/
namespace ExactCalculator
set_option autoImplicit false

namespace Fraction

/-! ## The laws of a field -/

/-- The laws of addition and multiplication for three fractions, as equalities of stored parts. -/
structure FieldLaws (a b c : Fraction) : Prop where
  add_comm : a + b = b + a
  add_assoc : a + b + c = a + (b + c)
  mul_comm : a * b = b * a
  mul_assoc : a * b * c = a * (b * c)
  mul_add : a * (b + c) = a * b + a * c
  mul_sub : a * (b - c) = a * b - a * c
  add_mul : (a + b) * c = a * c + b * c
  sub_mul : (a - b) * c = a * c - b * c
  add_zero : a + zero = a
  zero_add : zero + a = a
  mul_one : a * one = a
  one_mul : one * a = a
  add_neg : a + -a = zero
  mul_inv : a ≠ zero → ∃ r, a.inv = .ok r ∧ a * r = one

theorem fieldLaws_ofRat (p q r : ℚ) : FieldLaws (ofRat p) (ofRat q) (ofRat r) where
  add_comm := by simp [add_comm]
  add_assoc := by simp [add_assoc]
  mul_comm := by simp [mul_comm]
  mul_assoc := by simp [mul_assoc]
  mul_add := by simp [mul_add]
  mul_sub := by simp [mul_sub]
  add_mul := by simp [add_mul]
  sub_mul := by simp [sub_mul]
  add_zero := by simp [zero_eq_ofRat]
  zero_add := by simp [zero_eq_ofRat]
  mul_one := by simp [one_eq_ofRat]
  one_mul := by simp [one_eq_ofRat]
  add_neg := by simp [zero_eq_ofRat]
  mul_inv hne := by
    have hp : p ≠ 0 := by
      rintro rfl
      exact hne zero_eq_ofRat.symm
    refine ⟨ofRat p⁻¹, inv_ofRat hp, ?_⟩
    rw [ofRat_mul_ofRat, mul_inv_cancel₀ hp, one_eq_ofRat]

end Fraction

/-! ## Totals of lists -/

namespace Operator

variable {values others : List Fraction}

/-- What an operator does to the numbers of its operands. -/
def onNumbers : Operator → ℚ → ℚ → ℚ
  | add => (· + ·)
  | sub => (· - ·)
  | mul => (· * ·)

theorem apply_ofRat (operator : Operator) (p q : ℚ) :
    operator.apply (.ofRat p) (.ofRat q) = .ofRat (operator.onNumbers p q) := by
  cases operator with
  | add => exact Fraction.ofRat_add_ofRat p q
  | sub => exact Fraction.ofRat_sub_ofRat p q
  | mul => exact Fraction.ofRat_mul_ofRat p q

/-- Two operands may change places, those of a difference too. -/
theorem onNumbers_right_comm (operator : Operator) (p q r : ℚ) :
    operator.onNumbers (operator.onNumbers p q) r = operator.onNumbers (operator.onNumbers p r) q := by
  cases operator with
  | add => exact add_right_comm p q r
  | sub => exact sub_right_comm p q r
  | mul => exact mul_right_comm p q r

instance (operator : Operator) : RightCommutative operator.onNumbers :=
  ⟨operator.onNumbers_right_comm⟩

/-- Every partial result is the fraction of the exact one. -/
theorem foldl_ofRat (operator : Operator) (start : ℚ) (numbers : List ℚ) :
    (numbers.map Fraction.ofRat).foldl operator.apply (.ofRat start) =
      .ofRat (numbers.foldl operator.onNumbers start) := by
  rw [List.foldl_map]
  exact List.foldl_hom Fraction.ofRat (operator.apply_ofRat · ·)

theorem foldl_eq_ofRat (operator : Operator) {start : Fraction} (hstart : start.Reduced)
    (h : ∀ v ∈ values, v.Reduced) :
    values.foldl operator.apply start =
      .ofRat ((values.map Fraction.toRat).foldl operator.onNumbers start.toRat) := by
  rw [← foldl_ofRat, Fraction.map_ofRat_toRat h, ← hstart.eq_ofRat rfl]

theorem foldl_perm (operator : Operator) {start : Fraction} (hstart : start.Reduced)
    (h : ∀ v ∈ values, v.Reduced) (hperm : others.Perm values) :
    others.foldl operator.apply start = values.foldl operator.apply start := by
  have hothers : ∀ v ∈ others, v.Reduced := fun v hv => h v (hperm.mem_iff.1 hv)
  rw [operator.foldl_eq_ofRat hstart hothers, operator.foldl_eq_ofRat hstart h,
    (hperm.map Fraction.toRat).foldl_eq]

theorem foldl_add_eq_sum (h : ∀ v ∈ values, v.Reduced) :
    values.foldl add.apply .zero = .ofRat (values.map Fraction.toRat).sum := by
  have hstart : Fraction.zero.toRat = 0 := by rw [Fraction.zero_eq_ofRat, Fraction.toRat_ofRat]
  rw [foldl_eq_ofRat add Fraction.zero_reduced h, hstart, List.sum_eq_foldl]
  rfl

theorem foldl_mul_eq_prod (h : ∀ v ∈ values, v.Reduced) :
    values.foldl mul.apply .one = .ofRat (values.map Fraction.toRat).prod := by
  have hstart : Fraction.one.toRat = 1 := by rw [Fraction.one_eq_ofRat, Fraction.toRat_ofRat]
  rw [foldl_eq_ofRat mul Fraction.one_reduced h, hstart, List.prod_eq_foldl]
  rfl

end Operator

/-! ## Accumulating in a register -/

/-- The program that puts a fraction into a register and then combines it with one operand after the
other. -/
def accumulation (operator : Operator) (target : String) (start : Source) (operands : List String) :
    List Instruction :=
  .assign target start :: operands.map (.update target operator)

namespace Registers

variable {registers : Registers} {target name : String} {operands : List String}
  {values : List Fraction}

theorem getAll_cons_eq_ok (h : registers.getAll (name :: operands) = .ok values) :
    ∃ v rest, values = v :: rest ∧ registers.get name = .ok v ∧
      registers.getAll operands = .ok rest := by
  unfold getAll at h ⊢
  rw [List.mapM_cons] at h
  cases hget : registers.get name with
  | error trouble =>
    rw [hget] at h
    cases h
  | ok v =>
    cases hrest : operands.mapM registers.get with
    | error trouble =>
      rw [hget, hrest] at h
      cases h
    | ok rest =>
      rw [hget, hrest] at h
      exact ⟨v, rest, (Except.ok.inj h).symm, rfl, rfl⟩

theorem getAll_set (htarget : target ∉ operands) (value : Fraction) :
    (registers.set target value).getAll operands = registers.getAll operands := by
  induction operands with
  | nil => rfl
  | cons name rest ih =>
    have hne : name ≠ target := fun heq => htarget (heq ▸ List.mem_cons_self)
    have hrest := ih fun hmem => htarget (List.mem_cons_of_mem _ hmem)
    unfold getAll at hrest ⊢
    rw [List.mapM_cons, List.mapM_cons, get_set_of_ne hne, hrest]

/-- Updates of one register fold its fraction with the operands, as long as it is none of them. -/
theorem get_performAll_updates (operator : Operator) {start : Fraction}
    (hstart : registers.get target = .ok start) (hoperands : registers.getAll operands = .ok values)
    (htarget : target ∉ operands) :
    (registers.performAll (operands.map (.update target operator))).get target =
      .ok (values.foldl operator.apply start) := by
  induction operands generalizing registers values start with
  | nil =>
    obtain rfl : [] = values := Except.ok.inj hoperands
    exact hstart
  | cons name rest ih =>
    obtain ⟨v, others, rfl, hget, hrest⟩ := getAll_cons_eq_ok hoperands
    have hnot : target ∉ rest := fun hmem => htarget (List.mem_cons_of_mem _ hmem)
    have hperform := perform_update operator hstart hget
    -- The update leaves the other operands as they were, since none of them is the target.
    rw [List.map_cons, performAll, List.foldl_cons, hperform, List.foldl_cons]
    exact ih (get_set_self _ _ _) ((getAll_set hnot _).trans hrest) hnot

theorem get_accumulation (operator : Operator) {source : Source} {start : Fraction}
    (hsource : registers.compute source = .ok start)
    (hoperands : registers.getAll operands = .ok values) (htarget : target ∉ operands) :
    (registers.performAll (accumulation operator target source operands)).get target =
      .ok (values.foldl operator.apply start) := by
  have hperform : registers.perform (.assign target source) =
      (.ok start, registers.set target start) := by
    rw [perform, result, hsource]
    rfl
  rw [accumulation, performAll, List.foldl_cons, hperform]
  exact get_performAll_updates operator (get_set_self _ _ _) ((getAll_set htarget _).trans hoperands)
    htarget

end Registers

/-- Reduced fractions obey the laws of a field as they are stored. So a list of them has the same total for
every operator in every arrangement; from zero by addition and from one by multiplication it is the fraction
of the exact sum and product, and a register that accumulates the list in any arrangement ends with it. -/
theorem accumulate_in_any_order {a b c : Fraction} (ha : a.Reduced) (hb : b.Reduced) (hc : c.Reduced) :
    Fraction.FieldLaws a b c ∧
    ∀ values others : List Fraction, (∀ v ∈ values, v.Reduced) → others.Perm values →
      (∀ (operator : Operator) (start : Fraction), start.Reduced →
        others.foldl operator.apply start = values.foldl operator.apply start) ∧
      values.foldl (· + ·) .zero = .ofRat (values.map Fraction.toRat).sum ∧
      values.foldl (· * ·) .one = .ofRat (values.map Fraction.toRat).prod ∧
      ∀ (registers : Registers) (target : String) (operands : List String),
        registers.getAll operands = .ok others → target ∉ operands →
        (registers.performAll (accumulation .add target .zero operands)).get target =
          .ok (values.foldl (· + ·) .zero) ∧
        (registers.performAll (accumulation .mul target .one operands)).get target =
          .ok (values.foldl (· * ·) .one) := by
  constructor
  · obtain ⟨p, rfl⟩ := ha.exists_ofRat
    obtain ⟨q, rfl⟩ := hb.exists_ofRat
    obtain ⟨r, rfl⟩ := hc.exists_ofRat
    exact Fraction.fieldLaws_ofRat p q r
  intro values others h hperm
  refine ⟨fun operator start hstart => operator.foldl_perm hstart h hperm,
    Operator.foldl_add_eq_sum h, Operator.foldl_mul_eq_prod h, ?_⟩
  intro registers target operands hoperands htarget
  have hfromZero : registers.compute .zero = .ok .zero := rfl
  have hfromOne : registers.compute .one = .ok .one := rfl
  constructor
  · rw [Registers.get_accumulation .add hfromZero hoperands htarget,
      Operator.foldl_perm .add Fraction.zero_reduced h hperm]
    rfl
  · rw [Registers.get_accumulation .mul hfromOne hoperands htarget,
      Operator.foldl_perm .mul Fraction.one_reduced h hperm]
    rfl

/-- A half, minus a third and five sixths: the sum is an integer, whatever comes first. -/
theorem accumulate_in_any_order_of_three :
    let a : Fraction := ⟨1, 2⟩
    let b : Fraction := ⟨-1, 3⟩
    let c : Fraction := ⟨5, 6⟩
    let registers : Registers := [("x", c), ("y", a), ("z", b)]
    a.Reduced ∧ b.Reduced ∧ c.Reduced ∧ [c, a, b].Perm [a, b, c] ∧
      registers.getAll ["x", "y", "z"] = .ok [c, a, b] ∧ "t" ∉ ["x", "y", "z"] ∧
      a * (b - c) = a * b - a * c ∧ (∃ r, b.inv = .ok r ∧ b * r = .one) ∧
      (registers.performAll (accumulation .add "t" .zero ["x", "y", "z"])).get "t" = .ok .one ∧
      (registers.performAll (accumulation .mul "t" .one ["x", "y", "z"])).get "t" = .ok ⟨-5, 36⟩ := by
  intro a b c registers
  have ha : a.Reduced := by decide
  have hb : b.Reduced := by decide
  have hc : c.Reduced := by decide
  have hvalues : ∀ v ∈ [a, b, c], v.Reduced := by decide
  have hperm : [c, a, b].Perm [a, b, c] := by decide
  have hget : registers.getAll ["x", "y", "z"] = .ok [c, a, b] := by decide
  have hnot : "t" ∉ ["x", "y", "z"] := by decide
  obtain ⟨hlaws, hlists⟩ := accumulate_in_any_order ha hb hc
  obtain ⟨hsum, hproduct⟩ := (hlists _ _ hvalues hperm).2.2.2 registers "t" _ hget hnot
  exact ⟨ha, hb, hc, hperm, hget, hnot, hlaws.mul_sub,
    (accumulate_in_any_order hb hc ha).1.mul_inv (by decide),
    hsum.trans (by decide), hproduct.trans (by decide)⟩

end ExactCalculator
