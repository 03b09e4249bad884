import ExactCalculator.Proofs.Fraction.Meaning

/-! The fraction of two integers in lowest terms is determined by their quotient
(`ofRatio_eq_ok`). Products and quotients never divide out a common factor of their result; that they
need not is told by comparing them with the fractions that `ofRatio` makes of the products of the parts
(`mul_div_canonical`). -/
namespace ExactCalculator.Fraction
set_option autoImplicit false

/-! ## Fractions of two integers -/

theorem ofRatio_zero (n : ℤ) : ofRatio n 0 = .error .divisionByZero := if_pos rfl

/-- A fraction of two integers is missing just for the denominator zero. -/
theorem ofRatio_eq_error_iff (n d : ℤ) (fault : Fault) :
    ofRatio n d = .error fault ↔ d = 0 ∧ fault = .divisionByZero := by
  constructor
  · intro h
    rcases ofRatio_cases n d with ⟨hzero, herror⟩ | ⟨-, v, hv, -⟩
    · exact ⟨hzero, Except.error.inj (h.symm.trans herror)⟩
    · rw [hv] at h
      cases h
  · rintro ⟨rfl, rfl⟩
    exact ofRatio_zero n

theorem exists_ofRatio_error_iff (n d : ℤ) : (∃ fault, ofRatio n d = .error fault) ↔ d = 0 := by
  simp only [ofRatio_eq_error_iff, exists_and_left, exists_eq, and_true]

/-- The fraction of two integers stands for their quotient. -/
theorem toRat_ofRatio {n d : ℤ} {v : Fraction} (h : ofRatio n d = .ok v) :
    v.toRat = (n : ℚ) / (d : ℚ) := by
  unfold ofRatio at h
  split at h
  · cases h
  · next hd =>
    have hpos : 0 < d.natAbs := Int.natAbs_pos.mpr hd
    split at h
    · next hneg =>
      have habs : ((d.natAbs : ℕ) : ℚ) = -(d : ℚ) := by
        rw [Nat.cast_natAbs, abs_of_neg hneg, Int.cast_neg]
      rw [← Except.ok.inj h, toRat_lowest _ hpos, habs, Int.cast_neg, neg_div_neg_eq]
    · next hneg =>
      have habs : ((d.natAbs : ℕ) : ℚ) = (d : ℚ) := by
        rw [Nat.cast_natAbs, abs_of_nonneg (not_lt.mp hneg)]
      rw [← Except.ok.inj h, toRat_lowest _ hpos, habs]

/-- A reduced fraction that stands for a quotient is the one that is made of it. -/
theorem ofRatio_eq_ok {n d : ℤ} {v : Fraction} (hd : d ≠ 0) (hv : v.Reduced)
    (h : v.toRat = (n : ℚ) / (d : ℚ)) : ofRatio n d = .ok v := by
  rcases ofRatio_cases n d with ⟨hzero, -⟩ | ⟨-, w, hw, hreduced⟩
  · exact absurd hzero hd
  · have hsame : w = v := hreduced.eq_of_toRat hv ((toRat_ofRatio hw).trans h.symm)
    rw [hw, hsame]

/-! ## Products and quotients -/

variable {a b : Fraction}

theorem Reduced.den_mul_den_ne_zero (ha : a.Reduced) (hb : b.Reduced) :
    (a.den : ℤ) * (b.den : ℤ) ≠ 0 :=
  mul_ne_zero ha.intDen_ne_zero hb.intDen_ne_zero

theorem Reduced.ofRatio_mul (ha : a.Reduced) (hb : b.Reduced) :
    ofRatio (a.num * b.num) (a.den * b.den) = .ok (a * b) := by
  refine ofRatio_eq_ok (ha.den_mul_den_ne_zero hb) (ha.mul hb) ?_
  rw [toRat_mul ha hb, toRat_eq a, toRat_eq b, div_mul_div_comm]
  push_cast
  rfl

theorem Reduced.inv_eq_ofRatio (hb : b.Reduced) : b.inv = ofRatio b.den b.num := by
  cases hz : b.isZero with
  | true =>
    have hnum : b.num = 0 := beq_iff_eq.1 hz
    rw [inv_zero hz, hnum, ofRatio_zero]
  | false =>
    obtain ⟨r, hr, hreduced, hvalue⟩ := hb.inv hz
    have hnum : b.num ≠ 0 := by simpa [isZero] using hz
    rw [hr]
    refine (ofRatio_eq_ok hnum hreduced ?_).symm
    rw [hvalue, toRat_eq b, inv_div, Int.cast_natCast]

theorem Reduced.div_eq_ofRatio (ha : a.Reduced) (hb : b.Reduced) :
    a.div b = ofRatio (a.num * b.den) (a.den * b.num) := by
  cases hdiv : a.div b with
  | error fault =>
    obtain ⟨rfl, hz⟩ := div_error hb hdiv
    have hnum : b.num = 0 := beq_iff_eq.1 hz
    rw [hnum, mul_zero, ofRatio_zero]
  | ok q =>
    obtain ⟨hne, hreduced, hvalue⟩ := ha.div hb hdiv
    have hnum : b.num ≠ 0 := by
      intro hzero
      rw [toRat_eq b, hzero, Int.cast_zero, zero_div] at hne
      exact hne rfl
    have hden : (a.den : ℤ) * b.num ≠ 0 := mul_ne_zero ha.intDen_ne_zero hnum
    refine (ofRatio_eq_ok hden hreduced ?_).symm
    rw [hvalue, toRat_eq a, toRat_eq b, div_div_div_eq]
    push_cast
    rfl

theorem ofRatio_reduced {n d : ℤ} {v : Fraction} (h : ofRatio n d = .ok v) : v.Reduced := by
  rcases ofRatio_cases n d with ⟨-, herror⟩ | ⟨-, w, hw, hreduced⟩
  · rw [h] at herror
    cases herror
  · obtain rfl := Except.ok.inj (hw.symm.trans h)
    exact hreduced

/-- Products, reciprocals and quotients of reduced fractions are the fractions in lowest terms of the
products of their parts, with the sign in the numerator. Reciprocal and quotient are missing just for
zero, and there the division that cannot report a fault gives up; elsewhere it is the quotient. -/
theorem mul_div_canonical (ha : a.Reduced) (hb : b.Reduced) :
    ofRatio (a.num * b.num) (a.den * b.den) = .ok (a * b) ∧
    b.inv = ofRatio b.den b.num ∧
    a.div b = ofRatio (a.num * b.den) (a.den * b.num) ∧
    ((∃ fault, b.inv = .error fault) ↔ b.num = 0) ∧
    ((∃ fault, a.div b = .error fault) ↔ b.num = 0) ∧
    (∀ v, b.inv = .ok v ∨ a.div b = .ok v → v.Reduced) ∧
    ((∃ abort, a.divOrAbort b = .error abort) ↔ ∃ fault, a.div b = .error fault) ∧
    ∀ q, a.divOrAbort b = .ok q ↔ a.div b = .ok q := by
  have hinv := hb.inv_eq_ofRatio
  have hdiv := ha.div_eq_ofRatio hb
  have hden := ha.intDen_ne_zero
  refine ⟨ha.ofRatio_mul hb, hinv, hdiv, ?_, ?_, ?_, ?_, ?_⟩
  · rw [hinv]
    exact exists_ofRatio_error_iff _ _
  · rw [hdiv, exists_ofRatio_error_iff, mul_eq_zero]
    exact or_iff_right hden
  · rintro v (hv | hv)
    · exact ofRatio_reduced (hinv ▸ hv)
    · exact ofRatio_reduced (hdiv ▸ hv)
  · cases h : a.div b <;> simp [divOrAbort, h]
  · intro q
    cases h : a.div b <;> simp [divOrAbort, h]

/-- Both factors are cancelled crosswise, and the sign of the divisor moves to the numerator. -/
theorem mul_div_canonical_of_negative :
    (⟨6, 35⟩ : Fraction).Reduced ∧ (⟨-14, 9⟩ : Fraction).Reduced ∧
      ofRatio (6 * -14) (35 * 9) = .ok ⟨-4, 15⟩ ∧ ofRatio 9 (-14) = .ok ⟨-9, 14⟩ ∧
      (⟨6, 35⟩ : Fraction).div ⟨-14, 9⟩ = .ok ⟨-27, 245⟩ ∧
      (⟨6, 35⟩ : Fraction).divOrAbort ⟨-14, 9⟩ = .ok ⟨-27, 245⟩ := by
  have ha : (⟨6, 35⟩ : Fraction).Reduced := by decide
  have hb : (⟨-14, 9⟩ : Fraction).Reduced := by decide
  obtain ⟨hmul, hinv, hdiv, -, -, -, -, habort⟩ := mul_div_canonical ha hb
  have hquotient : (⟨6, 35⟩ : Fraction).div ⟨-14, 9⟩ = .ok ⟨-27, 245⟩ := hdiv.trans (by decide)
  exact ⟨ha, hb, hmul.trans (by decide), hinv.symm.trans (by decide), hquotient,
    (habort _).2 hquotient⟩

end ExactCalculator.Fraction
