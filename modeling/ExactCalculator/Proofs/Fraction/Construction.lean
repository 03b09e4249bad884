import ExactCalculator.Proofs.Fraction.Numbers
import ExactCalculator.Proofs.RoundTrip

/-! Construction from two integers. A quotient is stored in one way, and printed in one way, however it is
written: two pairs of integers give the same fraction, or the same text, exactly when multiplying across
gives the same product (`ofRatio_canonical`). That texts tell fractions apart is read off the evaluation of a
text, which gives its fraction back. -/
namespace ExactCalculator.Fraction
set_option autoImplicit false

variable {a b : Fraction}

/-- Two quotients are equal if the products across are. -/
theorem ofRat_div_eq_iff (n n' : ℤ) {d d' : ℤ} (hd : d ≠ 0) (hd' : d' ≠ 0) :
    ofRat ((n : ℚ) / (d : ℚ)) = ofRat ((n' : ℚ) / (d' : ℚ)) ↔ n * d' = n' * d := by
  have hdq : (d : ℚ) ≠ 0 := Int.cast_ne_zero.2 hd
  have hdq' : (d' : ℚ) ≠ 0 := Int.cast_ne_zero.2 hd'
  rw [ofRat_inj, div_eq_div_iff hdq hdq']
  exact_mod_cast Iff.rfl

theorem Reduced.toText_eq_iff (ha : a.Reduced) (hb : b.Reduced) : a.toText = b.toText ↔ a = b := by
  constructor
  · intro h
    have hvalue : Outcome.value a = .value b := by rw [← ha.evaluate_text, h, hb.evaluate_text]
    exact Outcome.value.inj hvalue
  · rintro rfl
    rfl

theorem ofRatio_mul_left (n d : ℤ) {k : ℤ} (hk : k ≠ 0) : ofRatio (k * n) (k * d) = ofRatio n d := by
  by_cases hd : d = 0
  · rw [hd, mul_zero, ofRatio_zero, ofRatio_zero]
  · rw [ofRatio_eq_ofRat _ (mul_ne_zero hk hd), ofRatio_eq_ofRat n hd, Int.cast_mul, Int.cast_mul,
      mul_div_mul_left _ _ (Int.cast_ne_zero.2 hk)]

theorem Reduced.ofRatio_parts (ha : a.Reduced) : ofRatio a.parts.1 a.parts.2 = .ok a :=
  ofRatio_eq_ok ha.intDen_ne_zero ha (toRat_eq a)

/-- Construction fails for a denominator of zero only, with a division by zero. Elsewhere two pairs of
integers give the same fraction, and fractions of the same text, if and only if the products across are the
same. A common factor of both integers, a negative one too, makes no difference, and the parts of a reduced
fraction give it back. -/
theorem ofRatio_canonical :
    (∀ (n d : ℤ) (fault : Fault), ofRatio n d = .error fault ↔ d = 0 ∧ fault = .divisionByZero) ∧
    (∀ n d n' d' : ℤ, d ≠ 0 → d' ≠ 0 → ∃ v w, ofRatio n d = .ok v ∧ ofRatio n' d' = .ok w ∧
      (v = w ↔ n * d' = n' * d) ∧ (v.toText = w.toText ↔ n * d' = n' * d)) ∧
    (∀ n d k : ℤ, k ≠ 0 → ofRatio (k * n) (k * d) = ofRatio n d) ∧
    ∀ a : Fraction, a.Reduced → ofRatio a.parts.1 a.parts.2 = .ok a := by
  refine ⟨ofRatio_eq_error_iff, ?_, fun n d k hk => ofRatio_mul_left n d hk, fun a ha => ha.ofRatio_parts⟩
  intro n d n' d' hd hd'
  have hsame := ofRat_div_eq_iff n n' hd hd'
  refine ⟨_, _, ofRatio_eq_ofRat n hd, ofRatio_eq_ofRat n' hd', hsame, ?_⟩
  rw [(ofRat_reduced _).toText_eq_iff (ofRat_reduced _)]
  exact hsame

/-- Six over minus four and minus nine over six are both stored as minus three over two. -/
theorem ofRatio_canonical_of_negative :
    (∃ v w, ofRatio 6 (-4) = .ok v ∧ ofRatio (-9) 6 = .ok w ∧ v = w ∧ v.toText = w.toText) ∧
      ofRatio (-2 * -3) (-2 * 2) = ofRatio (-3) 2 ∧
      (⟨-3, 2⟩ : Fraction).Reduced ∧ ofRatio (-3) 2 = .ok ⟨-3, 2⟩ := by
  obtain ⟨-, hpairs, hscale, hparts⟩ := ofRatio_canonical
  have hreduced : (⟨-3, 2⟩ : Fraction).Reduced := by decide
  obtain ⟨v, w, hv, hw, hsame, htext⟩ := hpairs 6 (-4) (-9) 6 (by decide) (by decide)
  exact ⟨⟨v, w, hv, hw, hsame.2 (by decide), htext.2 (by decide)⟩, hscale (-3) 2 (-2) (by decide),
    hreduced, hparts _ hreduced⟩

end ExactCalculator.Fraction
