import ExactCalculator.Fraction.Basic
import Mathlib.Data.Rat.Lemmas
import Mathlib.Tactic.FieldSimp
import Mathlib.Tactic.Ring

/-! What the operations on fractions do to the numbers they stand for. A reduced fraction has the
parts of its number (`Reduced.eq_of_toRat`), every operation keeps fractions reduced, and `toRat`
carries each operation over to the rational numbers. A division has no result only when the divisor
stands for zero. -/
namespace ExactCalculator.Fraction
set_option autoImplicit false

/-! ## Parts and numbers -/

theorem toRat_eq (a : Fraction) : a.toRat = (a.num : ℚ) / (a.den : ℚ) := Rat.mkRat_eq_div a.num a.den

@[simp] theorem toRat_ofInt (n : ℤ) : (ofInt n).toRat = (n : ℚ) := by
  simp [toRat_eq, ofInt]

theorem ofInt_reduced (n : ℤ) : (ofInt n).Reduced := ⟨Nat.one_pos, Nat.coprime_one_right _⟩

theorem zero_reduced : zero.Reduced := ofInt_reduced 0

theorem one_reduced : one.Reduced := ofInt_reduced 1

theorem Reduced.den_ne_zero {a : Fraction} (ha : a.Reduced) : (a.den : ℚ) ≠ 0 :=
  Nat.cast_ne_zero.mpr ha.1.ne'

theorem Reduced.intDen_ne_zero {a : Fraction} (ha : a.Reduced) : (a.den : ℤ) ≠ 0 :=
  Int.natCast_ne_zero.mpr ha.1.ne'

theorem Reduced.parts_toRat {a : Fraction} (ha : a.Reduced) :
    a.toRat.num = a.num ∧ a.toRat.den = a.den := by
  have hmk : (⟨a.num, a.den, ha.1.ne', ha.2⟩ : ℚ) = a.toRat := Rat.mk_eq_mkRat _ _ _ _
  rw [← hmk]
  exact ⟨rfl, rfl⟩

/-- One number has one reduced fraction. -/
theorem Reduced.eq_of_toRat {a b : Fraction} (ha : a.Reduced) (hb : b.Reduced)
    (h : a.toRat = b.toRat) : a = b := by
  have hnum : a.num = b.num := by rw [← ha.parts_toRat.1, ← hb.parts_toRat.1, h]
  have hden : a.den = b.den := by rw [← ha.parts_toRat.2, ← hb.parts_toRat.2, h]
  cases a
  cases b
  simp only at hnum hden
  rw [hnum, hden]

/-- Zero is stored in one way only. -/
theorem Reduced.eq_zero {a : Fraction} (ha : a.Reduced) (h : a.num = 0) : a = zero := by
  have hden : a.den = 1 := by
    have hcoprime := ha.2
    rw [h, Int.natAbs_zero, Nat.coprime_zero_left] at hcoprime
    exact hcoprime
  cases a
  simp only at h hden
  rw [h, hden]
  rfl

theorem toRat_eq_zero_iff {a : Fraction} (ha : a.Reduced) : a.toRat = 0 ↔ a.isZero = true := by
  rw [toRat_eq, div_eq_zero_iff, isZero, beq_iff_eq, Int.cast_eq_zero]
  exact or_iff_left ha.den_ne_zero

/-- The reduced fraction that stands for a number. -/
def ofRat (q : ℚ) : Fraction := ⟨q.num, q.den⟩

theorem ofRat_reduced (q : ℚ) : (ofRat q).Reduced := ⟨q.pos, q.reduced⟩

@[simp] theorem toRat_ofRat (q : ℚ) : (ofRat q).toRat = q := Rat.mkRat_self q

/-! ## Lowest terms -/

theorem lowest_reduced (n : ℤ) {d : ℕ} (hd : 0 < d) : (lowest n d).Reduced := by
  have hg : 0 < n.natAbs.gcd d := Nat.gcd_pos_of_pos_right _ hd
  have hdvd : ((n.natAbs.gcd d : ℕ) : ℤ) ∣ n := Int.natCast_dvd.mpr (Nat.gcd_dvd_left _ _)
  constructor
  · exact Nat.div_pos (Nat.le_of_dvd hd (Nat.gcd_dvd_right _ _)) hg
  · have hnum : (n / ((n.natAbs.gcd d : ℕ) : ℤ)).natAbs = n.natAbs / n.natAbs.gcd d := by
      rw [Int.natAbs_ediv_of_dvd hdvd, Int.natAbs_natCast]
    show (n / ((n.natAbs.gcd d : ℕ) : ℤ)).natAbs.Coprime (d / n.natAbs.gcd d)
    rw [hnum]
    exact Nat.coprime_div_gcd_div_gcd hg

theorem toRat_lowest (n : ℤ) {d : ℕ} (hd : 0 < d) : (lowest n d).toRat = (n : ℚ) / (d : ℚ) := by
  have hg : ((n.natAbs.gcd d : ℕ) : ℚ) ≠ 0 :=
    Nat.cast_ne_zero.mpr (Nat.gcd_pos_of_pos_right _ hd).ne'
  have hdvd : ((n.natAbs.gcd d : ℕ) : ℤ) ∣ n := Int.natCast_dvd.mpr (Nat.gcd_dvd_left _ _)
  rw [toRat_eq, lowest]
  dsimp only
  rw [Rat.intCast_div _ _ hdvd, Rat.natCast_div _ _ (Nat.gcd_dvd_right _ _), Int.cast_natCast,
    div_div_div_cancel_right₀ hg]

/-- Two integers have a quotient unless the second is zero, and it is in lowest terms. -/
theorem ofRatio_cases (n d : ℤ) :
    d = 0 ∧ ofRatio n d = .error .divisionByZero ∨
      d ≠ 0 ∧ ∃ v, ofRatio n d = .ok v ∧ v.Reduced := by
  unfold ofRatio
  split
  · next hzero => exact .inl ⟨hzero, rfl⟩
  · next hzero =>
    have hpos : 0 < d.natAbs := Int.natAbs_pos.mpr hzero
    refine .inr ⟨hzero, ?_⟩
    split
    · exact ⟨_, rfl, lowest_reduced _ hpos⟩
    · exact ⟨_, rfl, lowest_reduced _ hpos⟩

/-! ## Sums -/

theorem Reduced.neg {a : Fraction} (ha : a.Reduced) : (-a).Reduced := by
  refine ⟨ha.1, ?_⟩
  show (-a.num).natAbs.Coprime a.den
  rw [Int.natAbs_neg]
  exact ha.2

@[simp] theorem toRat_neg (a : Fraction) : (-a).toRat = -a.toRat := by
  rw [toRat_eq, toRat_eq]
  show ((-a.num : ℤ) : ℚ) / (a.den : ℚ) = _
  rw [Int.cast_neg, neg_div]

theorem numOver_div {a : Fraction} (ha : a.Reduced) {m : ℕ} (hm : 0 < m) (hdvd : a.den ∣ m) :
    ((a.numOver m : ℤ) : ℚ) / (m : ℚ) = a.toRat := by
  have hm' : (m : ℚ) ≠ 0 := Nat.cast_ne_zero.mpr hm.ne'
  have hd := ha.den_ne_zero
  rw [toRat_eq, numOver, Int.cast_mul, Int.cast_natCast, Rat.natCast_div _ _ hdvd]
  field_simp

theorem lcm_den_pos {a b : Fraction} (ha : a.Reduced) (hb : b.Reduced) : 0 < a.den.lcm b.den :=
  Nat.lcm_pos ha.1 hb.1

theorem Reduced.add {a b : Fraction} (ha : a.Reduced) (hb : b.Reduced) : (a + b).Reduced :=
  lowest_reduced _ (lcm_den_pos ha hb)

theorem Reduced.sub {a b : Fraction} (ha : a.Reduced) (hb : b.Reduced) : (a - b).Reduced :=
  lowest_reduced _ (lcm_den_pos ha hb)

theorem toRat_add {a b : Fraction} (ha : a.Reduced) (hb : b.Reduced) :
    (a + b).toRat = a.toRat + b.toRat := by
  have hm := lcm_den_pos ha hb
  rw [← numOver_div ha hm (Nat.dvd_lcm_left _ _), ← numOver_div hb hm (Nat.dvd_lcm_right _ _),
    ← add_div, ← Int.cast_add]
  exact toRat_lowest _ hm

theorem toRat_sub {a b : Fraction} (ha : a.Reduced) (hb : b.Reduced) :
    (a - b).toRat = a.toRat - b.toRat := by
  have hm := lcm_den_pos ha hb
  rw [← numOver_div ha hm (Nat.dvd_lcm_left _ _), ← numOver_div hb hm (Nat.dvd_lcm_right _ _),
    ← sub_div, ← Int.cast_sub]
  exact toRat_lowest _ hm

/-- Adding a multiple of the denominator brings in no common factor. -/
theorem Reduced.addInt {a : Fraction} (ha : a.Reduced) (k : ℤ) : (a.addInt k).Reduced := by
  refine ⟨ha.1, ?_⟩
  have hgcd : (a.num + k * (a.den : ℤ)).gcd (a.den : ℤ) = a.num.gcd (a.den : ℤ) :=
    Int.gcd_add_mul_right_left (a.den : ℤ) a.num k
  exact hgcd.trans ha.2

theorem subInt_eq_addInt_neg (a : Fraction) (k : ℤ) : a.subInt k = a.addInt (-k) := by
  rw [subInt, addInt, neg_mul, sub_eq_add_neg]

theorem Reduced.subInt {a : Fraction} (ha : a.Reduced) (k : ℤ) : (a.subInt k).Reduced := by
  rw [subInt_eq_addInt_neg]
  exact ha.addInt (-k)

/-! ## Products and quotients -/

/-- The four parts that are left after cancelling crosswise share no factor across the bar. -/
theorem Reduced.mul {a b : Fraction} (ha : a.Reduced) (hb : b.Reduced) : (a * b).Reduced := by
  have hg : 0 < a.num.natAbs.gcd b.den := Nat.gcd_pos_of_pos_right _ hb.1
  have hh : 0 < a.den.gcd b.num.natAbs := Nat.gcd_pos_of_pos_left _ ha.1
  have hga : ((a.num.natAbs.gcd b.den : ℕ) : ℤ) ∣ a.num :=
    Int.natCast_dvd.mpr (Nat.gcd_dvd_left _ _)
  have hhb : ((a.den.gcd b.num.natAbs : ℕ) : ℤ) ∣ b.num :=
    Int.natCast_dvd.mpr (Nat.gcd_dvd_right _ _)
  have hden : 0 < a.den / a.den.gcd b.num.natAbs ∧ 0 < b.den / a.num.natAbs.gcd b.den :=
    ⟨Nat.div_pos (Nat.le_of_dvd ha.1 (Nat.gcd_dvd_left _ _)) hh,
      Nat.div_pos (Nat.le_of_dvd hb.1 (Nat.gcd_dvd_right _ _)) hg⟩
  refine ⟨Nat.mul_pos hden.1 hden.2, ?_⟩
  show ((a.num / ((a.num.natAbs.gcd b.den : ℕ) : ℤ)) *
    (b.num / ((a.den.gcd b.num.natAbs : ℕ) : ℤ))).natAbs.Coprime
      ((a.den / a.den.gcd b.num.natAbs) * (b.den / a.num.natAbs.gcd b.den))
  rw [Int.natAbs_mul, Int.natAbs_ediv_of_dvd hga, Int.natAbs_ediv_of_dvd hhb, Int.natAbs_natCast,
    Int.natAbs_natCast]
  have haa := (ha.2.coprime_div_left (Nat.gcd_dvd_left a.num.natAbs b.den)).coprime_div_right
    (Nat.gcd_dvd_left a.den b.num.natAbs)
  have hbb := (hb.2.coprime_div_left (Nat.gcd_dvd_right a.den b.num.natAbs)).coprime_div_right
    (Nat.gcd_dvd_right a.num.natAbs b.den)
  have hab := Nat.coprime_div_gcd_div_gcd hg
  have hba := (Nat.coprime_div_gcd_div_gcd hh).symm
  exact Nat.Coprime.mul_left (Nat.Coprime.mul_right haa hab) (Nat.Coprime.mul_right hba hbb)

theorem toRat_mul {a b : Fraction} (ha : a.Reduced) (hb : b.Reduced) :
    (a * b).toRat = a.toRat * b.toRat := by
  have hg : ((a.num.natAbs.gcd b.den : ℕ) : ℚ) ≠ 0 :=
    Nat.cast_ne_zero.mpr (Nat.gcd_pos_of_pos_right _ hb.1).ne'
  have hh : ((a.den.gcd b.num.natAbs : ℕ) : ℚ) ≠ 0 :=
    Nat.cast_ne_zero.mpr (Nat.gcd_pos_of_pos_left _ ha.1).ne'
  have hda := ha.den_ne_zero
  have hdb := hb.den_ne_zero
  rw [toRat_eq, toRat_eq, toRat_eq]
  show (((a.num / ((a.num.natAbs.gcd b.den : ℕ) : ℤ)) *
    (b.num / ((a.den.gcd b.num.natAbs : ℕ) : ℤ)) : ℤ) : ℚ) /
      (((a.den / a.den.gcd b.num.natAbs) * (b.den / a.num.natAbs.gcd b.den) : ℕ) : ℚ) = _
  rw [Int.cast_mul, Nat.cast_mul, Rat.intCast_div _ _ (Int.natCast_dvd.mpr (Nat.gcd_dvd_left _ _)),
    Rat.intCast_div _ _ (Int.natCast_dvd.mpr (Nat.gcd_dvd_right _ _)),
    Rat.natCast_div _ _ (Nat.gcd_dvd_left _ _), Rat.natCast_div _ _ (Nat.gcd_dvd_right _ _),
    Int.cast_natCast, Int.cast_natCast]
  field_simp

theorem inv_zero {a : Fraction} (h : a.isZero = true) : a.inv = .error .divisionByZero := by
  rw [inv, if_pos h]

/-- A reduced fraction other than zero has a reduced reciprocal. -/
theorem Reduced.inv {a : Fraction} (ha : a.Reduced) (h : a.isZero = false) :
    ∃ r, a.inv = .ok r ∧ r.Reduced ∧ r.toRat = a.toRat⁻¹ := by
  have hn : a.num ≠ 0 := by simpa [isZero] using h
  have hpos : 0 < a.num.natAbs := Int.natAbs_pos.mpr hn
  by_cases hneg : a.num < 0
  · refine ⟨⟨-(a.den : ℤ), a.num.natAbs⟩, ?_, ⟨hpos, ?_⟩, ?_⟩
    · simp [Fraction.inv, h, hneg]
    · simpa using ha.2.symm
    · have habs : ((a.num.natAbs : ℕ) : ℚ) = -(a.num : ℚ) := by
        rw [← Int.cast_natCast, Int.ofNat_natAbs_of_nonpos hneg.le, Int.cast_neg]
      rw [toRat_eq, toRat_eq, habs, inv_div, Int.cast_neg, Int.cast_natCast, neg_div_neg_eq]
  · refine ⟨⟨a.den, a.num.natAbs⟩, ?_, ⟨hpos, ?_⟩, ?_⟩
    · simp [Fraction.inv, h, hneg]
    · simpa using ha.2.symm
    · have habs : ((a.num.natAbs : ℕ) : ℚ) = (a.num : ℚ) := by
        rw [← Int.cast_natCast, Int.natAbs_of_nonneg (not_lt.mp hneg)]
      rw [toRat_eq, toRat_eq, habs, inv_div, Int.cast_natCast]

/-- A reciprocal is missing for zero only. -/
theorem Reduced.inv_cases {a : Fraction} (ha : a.Reduced) :
    a = zero ∧ a.inv = .error .divisionByZero ∨ a ≠ zero ∧ ∃ r, a.inv = .ok r ∧ r.Reduced := by
  cases hz : a.isZero with
  | true => exact .inl ⟨ha.eq_zero (beq_iff_eq.1 hz), inv_zero hz⟩
  | false =>
    obtain ⟨r, hr, hred, -⟩ := ha.inv hz
    refine .inr ⟨?_, r, hr, hred⟩
    rintro rfl
    cases hz

/-- A quotient is missing for the divisor zero only. -/
theorem Reduced.div_cases {a b : Fraction} (ha : a.Reduced) (hb : b.Reduced) :
    b = zero ∧ a.div b = .error .divisionByZero ∨
      b ≠ zero ∧ ∃ q, a.div b = .ok q ∧ q.Reduced := by
  rcases hb.inv_cases with ⟨hzero, hinv⟩ | ⟨hne, r, hinv, hr⟩
  · exact .inl ⟨hzero, by rw [Fraction.div, hinv]⟩
  · exact .inr ⟨hne, a * r, by rw [Fraction.div, hinv]; rfl, ha.mul hr⟩

theorem Reduced.div {a b q : Fraction} (ha : a.Reduced) (hb : b.Reduced) (h : a.div b = .ok q) :
    b.toRat ≠ 0 ∧ q.Reduced ∧ q.toRat = a.toRat / b.toRat := by
  cases hz : b.isZero with
  | true => simp [Fraction.div, inv_zero hz] at h
  | false =>
    obtain ⟨r, hr, hred, hval⟩ := hb.inv hz
    obtain rfl : a * r = q := by
      rw [Fraction.div, hr] at h
      exact Except.ok.inj h
    refine ⟨?_, ha.mul hred, ?_⟩
    · rw [Ne, toRat_eq_zero_iff hb, hz]
      exact Bool.false_ne_true
    · rw [toRat_mul ha hred, hval, div_eq_mul_inv]

theorem div_error {a b : Fraction} {fault : Fault} (hb : b.Reduced) (h : a.div b = .error fault) :
    fault = .divisionByZero ∧ b.isZero = true := by
  cases hz : b.isZero with
  | true =>
    rw [Fraction.div, inv_zero hz] at h
    exact ⟨(Except.error.inj h).symm, rfl⟩
  | false =>
    obtain ⟨r, hr, -, -⟩ := hb.inv hz
    simp [Fraction.div, hr] at h

end ExactCalculator.Fraction
