import ExactCalculator.Proofs.Fraction.Canonical
import ExactCalculator.Proofs.Registers

/-! Sums and differences are exact. There are three ways to one: over the least common multiple of the
denominators and then reduced, with an integer and never reduced, and by adding a negation. All of them
give the fraction in lowest terms that `ofRatio` makes of the parts multiplied across, because all of them
stand for the same number (`add_sub_canonical`). An update of a register stores the sum, the difference or
the product (`Registers.Stores`). -/
namespace ExactCalculator
set_option autoImplicit false

namespace Fraction

variable {a b : Fraction}

/-! ## Over the product of the denominators -/

/-- A difference is the sum with the negation, so what follows for sums follows for differences. -/
theorem Reduced.sub_eq (ha : a.Reduced) (hb : b.Reduced) : a - b = a + -b := by
  apply (ha.sub hb).eq_of_toRat (ha.add hb.neg)
  rw [toRat_sub ha hb, toRat_add ha hb.neg, toRat_neg, sub_eq_add_neg]

theorem Reduced.ofRatio_add (ha : a.Reduced) (hb : b.Reduced) :
    ofRatio (a.num * b.den + b.num * a.den) (a.den * b.den) = .ok (a + b) := by
  refine ofRatio_eq_ok (ha.den_mul_den_ne_zero hb) (ha.add hb) ?_
  rw [toRat_add ha hb, toRat_eq a, toRat_eq b, div_add_div _ _ ha.den_ne_zero hb.den_ne_zero]
  push_cast
  ring

theorem Reduced.ofRatio_sub (ha : a.Reduced) (hb : b.Reduced) :
    ofRatio (a.num * b.den - b.num * a.den) (a.den * b.den) = .ok (a - b) := by
  rw [ha.sub_eq hb, sub_eq_add_neg, ← neg_mul]
  exact ha.ofRatio_add hb.neg

/-! ## With an integer -/

theorem Reduced.addInt_eq (ha : a.Reduced) (k : ℤ) : a.addInt k = a + ofInt k := by
  have hd := ha.den_ne_zero
  apply (ha.addInt k).eq_of_toRat (ha.add (ofInt_reduced k))
  rw [toRat_add ha (ofInt_reduced k), toRat_ofInt, toRat_eq, toRat_eq, Fraction.addInt]
  push_cast
  field_simp

theorem Reduced.subInt_eq (ha : a.Reduced) (k : ℤ) : a.subInt k = a - ofInt k := by
  have hneg : ofInt (-k) = -ofInt k := rfl
  rw [subInt_eq_addInt_neg, ha.addInt_eq, hneg, ha.sub_eq (ofInt_reduced k)]

end Fraction

/-! ## Updates -/

namespace Registers

variable {registers : Registers} {target operand : String} {a b : Fraction}

/-- The update of a register gives the result and stores it, as assigning the combination does, and leaves
every other register as it was. -/
def Stores (registers : Registers) (target : String) (operator : Operator) (operand : String)
    (result : Fraction) : Prop :=
  ∃ after, registers.perform (.update target operator operand) = (.ok result, after) ∧
    registers.perform (.assign target (.combine operator target operand)) = (.ok result, after) ∧
    ∀ name, after.get name = if name = target then .ok result else registers.get name

theorem stores_apply (operator : Operator) (ha : registers.get target = .ok a)
    (hb : registers.get operand = .ok b) :
    registers.Stores target operator operand (operator.apply a b) := by
  have hupdate := perform_update operator ha hb
  have hassign : registers.perform (.assign target (.combine operator target operand)) =
      registers.perform (.update target operator operand) := rfl
  refine ⟨registers.set target (operator.apply a b), hupdate, hassign.trans hupdate, ?_⟩
  intro name
  by_cases hname : name = target
  · rw [if_pos hname, hname, get_set_self]
  · rw [if_neg hname, get_set_of_ne hname]

end Registers

/-! ## Every way to a sum -/

namespace Fraction

variable {a b : Fraction}

/-- Sums and differences of reduced fractions are the fractions in lowest terms of their parts multiplied
across. The short ways for integers, which reduce nothing, give the same as the general sum, and so does a
difference as the sum with the negation. Updates of registers store the sum, the difference and the
product. -/
theorem add_sub_canonical (ha : a.Reduced) (hb : b.Reduced) (k : ℤ) :
    ofRatio (a.num * b.den + b.num * a.den) (a.den * b.den) = .ok (a + b) ∧
    ofRatio (a.num * b.den - b.num * a.den) (a.den * b.den) = .ok (a - b) ∧
    a.addInt k = a + ofInt k ∧
    a.subInt k = a - ofInt k ∧
    a - b = a + -b ∧
    ∀ (registers : Registers) (x y : String), registers.get x = .ok a → registers.get y = .ok b →
      registers.Stores x .add y (a + b) ∧ registers.Stores x .sub y (a - b) ∧
        registers.Stores x .mul y (a * b) := by
  refine ⟨ha.ofRatio_add hb, ha.ofRatio_sub hb, ha.addInt_eq k, ha.subInt_eq k, ha.sub_eq hb, ?_⟩
  intro registers x y hx hy
  exact ⟨Registers.stores_apply .add hx hy, Registers.stores_apply .sub hx hy,
    Registers.stores_apply .mul hx hy⟩

/-- Over 30, the least common multiple of the denominators, the sum is -4, which shares a factor with it. -/
theorem add_sub_canonical_of_common_factor :
    (⟨1, 6⟩ : Fraction).Reduced ∧ (⟨-3, 10⟩ : Fraction).Reduced ∧
      ofRatio (1 * 10 + -3 * 6) (6 * 10) = .ok ⟨-2, 15⟩ ∧
      ofRatio (1 * 10 - -3 * 6) (6 * 10) = .ok ⟨7, 15⟩ ∧
      (⟨1, 6⟩ : Fraction).addInt (-2) = ⟨-11, 6⟩ ∧
      (⟨1, 6⟩ : Fraction).subInt (-2) = ⟨13, 6⟩ ∧
      (⟨1, 6⟩ : Fraction) - ⟨-3, 10⟩ = ⟨1, 6⟩ + -⟨-3, 10⟩ ∧
      Registers.Stores [("a", ⟨1, 6⟩), ("b", ⟨-3, 10⟩)] "a" .add "b" ⟨-2, 15⟩ ∧
      Registers.Stores [("a", ⟨1, 6⟩), ("b", ⟨-3, 10⟩)] "a" .sub "b" ⟨7, 15⟩ ∧
      Registers.Stores [("a", ⟨1, 6⟩), ("b", ⟨-3, 10⟩)] "a" .mul "b" ⟨-1, 20⟩ := by
  have ha : (⟨1, 6⟩ : Fraction).Reduced := by decide
  have hb : (⟨-3, 10⟩ : Fraction).Reduced := by decide
  have hsum : (⟨1, 6⟩ : Fraction) + ⟨-3, 10⟩ = ⟨-2, 15⟩ := by decide
  have hdifference : (⟨1, 6⟩ : Fraction) - ⟨-3, 10⟩ = ⟨7, 15⟩ := by decide
  have hproduct : (⟨1, 6⟩ : Fraction) * ⟨-3, 10⟩ = ⟨-1, 20⟩ := by decide
  obtain ⟨hadd, hsub, haddInt, hsubInt, hneg, hupdates⟩ := add_sub_canonical ha hb (-2)
  obtain ⟨hstoreSum, hstoreDifference, hstoreProduct⟩ :=
    hupdates [("a", ⟨1, 6⟩), ("b", ⟨-3, 10⟩)] "a" "b" (by decide) (by decide)
  rw [hsum] at hadd hstoreSum
  rw [hdifference] at hsub hstoreDifference
  rw [hproduct] at hstoreProduct
  exact ⟨ha, hb, hadd, hsub, haddInt.trans (by decide), hsubInt.trans (by decide), hneg, hstoreSum,
    hstoreDifference, hstoreProduct⟩

end Fraction

end ExactCalculator
