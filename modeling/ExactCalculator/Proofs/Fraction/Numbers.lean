import ExactCalculator.Fraction.Order
import ExactCalculator.Proofs.Fraction.Canonical

/-! The fraction of a number. The reduced fractions are the fractions `ofRat q` of the rational numbers
`q`, each number has its own (`ofRat_injective`), and every operation on them is the operation on the numbers:
`ofRat p + ofRat q` is `ofRat (p + q)`, and so on to comparison. Laws of the fractions are thereby laws of
the rational numbers, without side conditions on the parts. -/
namespace ExactCalculator.Fraction
set_option autoImplicit false

variable {a b : Fraction}

theorem Reduced.eq_ofRat (ha : a.Reduced) {q : ℚ} (h : a.toRat = q) : a = ofRat q :=
  ha.eq_of_toRat (ofRat_reduced q) (h.trans (toRat_ofRat q).symm)

theorem Reduced.exists_ofRat (ha : a.Reduced) : ∃ q, a = ofRat q := ⟨a.toRat, ha.eq_ofRat rfl⟩

theorem ofRat_injective : Function.Injective ofRat := by
  intro p q h
  rw [← toRat_ofRat p, h, toRat_ofRat]

@[simp] theorem ofRat_inj {p q : ℚ} : ofRat p = ofRat q ↔ p = q := ofRat_injective.eq_iff

/-- A list of reduced fractions is the list of the fractions of its numbers. -/
theorem map_ofRat_toRat {values : List Fraction} (h : ∀ v ∈ values, v.Reduced) :
    (values.map toRat).map ofRat = values := by
  rw [List.map_map]
  refine (List.map_congr_left ?_).trans (List.map_id values)
  intro v hv
  exact ((h v hv).eq_ofRat rfl).symm

/-! ## Integers and quotients of integers -/

theorem ofInt_eq_ofRat (n : ℤ) : ofInt n = ofRat n := (ofInt_reduced n).eq_ofRat (toRat_ofInt n)

theorem zero_eq_ofRat : zero = ofRat 0 := by
  rw [zero, ofInt_eq_ofRat, Int.cast_zero]

theorem one_eq_ofRat : one = ofRat 1 := by
  rw [one, ofInt_eq_ofRat, Int.cast_one]

theorem ofRatio_eq_ofRat (n : ℤ) {d : ℤ} (hd : d ≠ 0) :
    ofRatio n d = .ok (ofRat ((n : ℚ) / (d : ℚ))) :=
  ofRatio_eq_ok hd (ofRat_reduced _) (toRat_ofRat _)

/-! ## Arithmetic -/

@[simp] theorem neg_ofRat (q : ℚ) : -ofRat q = ofRat (-q) := by
  apply (ofRat_reduced q).neg.eq_ofRat
  rw [toRat_neg, toRat_ofRat]

@[simp] theorem ofRat_add_ofRat (p q : ℚ) : ofRat p + ofRat q = ofRat (p + q) := by
  apply ((ofRat_reduced p).add (ofRat_reduced q)).eq_ofRat
  rw [toRat_add (ofRat_reduced p) (ofRat_reduced q), toRat_ofRat, toRat_ofRat]

@[simp] theorem ofRat_sub_ofRat (p q : ℚ) : ofRat p - ofRat q = ofRat (p - q) := by
  apply ((ofRat_reduced p).sub (ofRat_reduced q)).eq_ofRat
  rw [toRat_sub (ofRat_reduced p) (ofRat_reduced q), toRat_ofRat, toRat_ofRat]

@[simp] theorem ofRat_mul_ofRat (p q : ℚ) : ofRat p * ofRat q = ofRat (p * q) := by
  apply ((ofRat_reduced p).mul (ofRat_reduced q)).eq_ofRat
  rw [toRat_mul (ofRat_reduced p) (ofRat_reduced q), toRat_ofRat, toRat_ofRat]

theorem inv_ofRat {q : ℚ} (hq : q ≠ 0) : (ofRat q).inv = .ok (ofRat q⁻¹) := by
  have hzero : (ofRat q).isZero = false := by
    rw [← Bool.not_eq_true, ← toRat_eq_zero_iff (ofRat_reduced q), toRat_ofRat]
    exact hq
  obtain ⟨r, hr, hreduced, hvalue⟩ := (ofRat_reduced q).inv hzero
  rw [toRat_ofRat] at hvalue
  rw [hr, hreduced.eq_ofRat hvalue]

/-! ## Comparison -/

/-- Multiplied with both denominators, which are positive, the numbers keep their order. -/
@[simp] theorem compare_ofRat (p q : ℚ) : (ofRat p).compare (ofRat q) = Ord.compare p q := by
  unfold compare ofRat
  dsimp only
  rw [mul_comm (p.den : ℤ)]
  rcases lt_trichotomy p q with hlt | rfl | hgt
  · rw [compare_lt_iff_lt.2 hlt, compare_lt_iff_lt]
    exact (Rat.lt_iff p q).1 hlt
  · rw [compare_eq_iff_eq.2 rfl, compare_eq_iff_eq.2 rfl]
  · rw [compare_gt_iff_gt.2 hgt, compare_gt_iff_gt]
    exact (Rat.lt_iff q p).1 hgt

@[simp] theorem ofRat_lt_ofRat (p q : ℚ) : ofRat p < ofRat q ↔ p < q := by
  show (ofRat p).compare (ofRat q) = .lt ↔ p < q
  rw [compare_ofRat, compare_lt_iff_lt]

@[simp] theorem ofRat_le_ofRat (p q : ℚ) : ofRat p ≤ ofRat q ↔ p ≤ q := by
  show (ofRat p).compare (ofRat q) ≠ .gt ↔ p ≤ q
  rw [compare_ofRat, compare_le_iff_le]

end ExactCalculator.Fraction
