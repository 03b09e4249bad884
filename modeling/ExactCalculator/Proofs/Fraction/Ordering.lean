import ExactCalculator.Proofs.Fraction.Numbers
import Mathlib.Algebra.Order.Field.Basic
import Mathlib.Algebra.Order.Field.Rat

/-! The order of the fractions is the order of their numbers. Comparison multiplies across, equality looks
at the parts; on reduced fractions the two agree, so the order is total and fractions that compare as equal
are the same fraction (`TotallyOrdered`). Arithmetic keeps or turns the order as it does with numbers
(`KeepsOrder`). A list has one ascending arrangement, which is therefore what sorting gives, whatever the
arrangement before (`eq_sort`). -/
namespace ExactCalculator.Fraction
set_option autoImplicit false

/-! ## Comparison -/

/-- What comparing the first two of three fractions with each other, and the second with the third, says:
the laws of a total order whose equality is the equality of fractions, and the answers of the partial
comparison and the four operators. -/
structure TotallyOrdered (a b c : Fraction) : Prop where
  refl : a.compare a = .eq
  swap : b.compare a = (a.compare b).swap
  antisymm : a ≤ b → b ≤ a → a = b
  trans : a ≤ b → b ≤ c → a ≤ c
  strict_trans : a < b → b < c → a < c
  total : a ≤ b ∨ b ≤ a
  equal : a.compare b = .eq ↔ a = b
  alike : a.compare b = .eq → hash a = hash b ∧ a.toText = b.toText
  partially : a.partialCompare b = some (a.compare b)
  lt : a < b ↔ a.partialCompare b = some .lt
  gt : a > b ↔ a.partialCompare b = some .gt
  le : a ≤ b ↔ a.partialCompare b = some .lt ∨ a.partialCompare b = some .eq
  ge : a ≥ b ↔ a.partialCompare b = some .gt ∨ a.partialCompare b = some .eq

theorem compare_ofRat_eq_iff (p q : ℚ) : (ofRat p).compare (ofRat q) = .eq ↔ ofRat p = ofRat q := by
  rw [compare_ofRat, compare_eq_iff_eq, ofRat_inj]

theorem totallyOrdered_ofRat (p q r : ℚ) : TotallyOrdered (ofRat p) (ofRat q) (ofRat r) where
  refl := (compare_ofRat_eq_iff p p).2 rfl
  swap := by
    rw [compare_ofRat, compare_ofRat]
    exact Std.OrientedOrd.eq_swap
  antisymm hle hge := by
    rw [ofRat_le_ofRat] at hle hge
    rw [le_antisymm hle hge]
  trans hpq hqr := by
    rw [ofRat_le_ofRat] at hpq hqr ⊢
    exact hpq.trans hqr
  strict_trans hpq hqr := by
    rw [ofRat_lt_ofRat] at hpq hqr ⊢
    exact hpq.trans hqr
  total := by
    rw [ofRat_le_ofRat, ofRat_le_ofRat]
    exact le_total p q
  equal := compare_ofRat_eq_iff p q
  alike h := by
    rw [(compare_ofRat_eq_iff p q).1 h]
    exact ⟨rfl, rfl⟩
  partially := rfl
  lt := by
    rw [ofRat_lt_ofRat, partialCompare, compare_ofRat, Option.some_inj, compare_lt_iff_lt]
  gt := by
    show ofRat q < ofRat p ↔ _
    rw [ofRat_lt_ofRat, partialCompare, compare_ofRat, Option.some_inj, compare_gt_iff_gt]
  le := by
    rw [ofRat_le_ofRat, partialCompare, compare_ofRat, Option.some_inj, Option.some_inj,
      compare_lt_iff_lt, compare_eq_iff_eq]
    exact le_iff_lt_or_eq
  ge := by
    show ofRat q ≤ ofRat p ↔ _
    rw [ofRat_le_ofRat, partialCompare, compare_ofRat, Option.some_inj, Option.some_inj,
      compare_gt_iff_gt, compare_eq_iff_eq, eq_comm]
    exact le_iff_lt_or_eq

/-! ## Arithmetic -/

/-- What arithmetic makes of the order of two fractions: adding the third one and multiplying with it, if it
is positive, keep the order; negation turns it, and so does the reciprocal on either side of zero. -/
structure KeepsOrder (a b c : Fraction) : Prop where
  add : a < b → a + c < b + c
  neg : a < b → -b < -a
  mul : a < b → zero < c → a * c < b * c
  inv : a < b → zero < a ∧ zero < b ∨ a < zero ∧ b < zero →
    ∃ r s, a.inv = .ok r ∧ b.inv = .ok s ∧ s < r

theorem inv_lt_inv_ofRat {p q : ℚ} (hlt : p < q) (hsign : 0 < p ∧ 0 < q ∨ p < 0 ∧ q < 0) :
    ∃ r s, (ofRat p).inv = .ok r ∧ (ofRat q).inv = .ok s ∧ s < r := by
  rcases hsign with ⟨hp, hq⟩ | ⟨hp, hq⟩
  · refine ⟨_, _, inv_ofRat hp.ne', inv_ofRat hq.ne', ?_⟩
    rw [ofRat_lt_ofRat]
    exact (inv_lt_inv₀ hq hp).2 hlt
  · refine ⟨_, _, inv_ofRat hp.ne, inv_ofRat hq.ne, ?_⟩
    rw [ofRat_lt_ofRat]
    exact (inv_lt_inv_of_neg hq hp).2 hlt

theorem keepsOrder_ofRat (p q r : ℚ) : KeepsOrder (ofRat p) (ofRat q) (ofRat r) where
  add hlt := by
    rw [ofRat_lt_ofRat] at hlt
    rw [ofRat_add_ofRat, ofRat_add_ofRat, ofRat_lt_ofRat]
    exact add_lt_add_left hlt r
  neg hlt := by
    rw [ofRat_lt_ofRat] at hlt
    rw [neg_ofRat, neg_ofRat, ofRat_lt_ofRat]
    exact neg_lt_neg hlt
  mul hlt hpos := by
    rw [ofRat_lt_ofRat] at hlt
    rw [zero_eq_ofRat, ofRat_lt_ofRat] at hpos
    rw [ofRat_mul_ofRat, ofRat_mul_ofRat, ofRat_lt_ofRat]
    exact mul_lt_mul_of_pos_right hlt hpos
  inv hlt hsign := by
    rw [ofRat_lt_ofRat] at hlt
    simp only [zero_eq_ofRat, ofRat_lt_ofRat] at hsign
    exact inv_lt_inv_ofRat hlt hsign

/-! ## Sorting -/

variable {values others : List Fraction}

/-- Sorting fractions sorts their numbers. Only there is the order transitive without a condition: the pair
`0/0` would compare as equal to every fraction. -/
theorem sort_map_ofRat (numbers : List ℚ) :
    sort (numbers.map ofRat) = (numbers.mergeSort fun p q => decide (p ≤ q)).map ofRat := by
  refine (List.map_mergeSort ?_).symm
  intro p _ q _
  rw [decide_eq_decide, ofRat_le_ofRat]

theorem sort_perm (values : List Fraction) : (sort values).Perm values := List.mergeSort_perm _ _

theorem sort_ascending (h : ∀ v ∈ values, v.Reduced) : (sort values).Pairwise (· ≤ ·) := by
  have hsorted := @List.pairwise_mergeSort ℚ (fun p q => decide (p ≤ q))
    (fun p q r hpq hqr => by simp only [decide_eq_true_eq] at *; exact hpq.trans hqr)
    (fun p q => by simp only [Bool.or_eq_true, decide_eq_true_eq]; exact le_total p q)
    (values.map toRat)
  -- The sorted fractions are those of the sorted numbers.
  rw [← map_ofRat_toRat h, sort_map_ofRat, List.pairwise_map]
  refine hsorted.imp ?_
  intro p q hpq
  rw [ofRat_le_ofRat]
  exact of_decide_eq_true hpq

/-- An ascending arrangement of reduced fractions is the sorted one. -/
theorem eq_sort (h : ∀ v ∈ values, v.Reduced) (hperm : others.Perm values)
    (hascending : others.Pairwise (· ≤ ·)) : others = sort values := by
  refine List.Perm.eq_of_pairwise ?_ hascending (sort_ascending h) (hperm.trans (sort_perm values).symm)
  intro a b ha hb hle hge
  obtain ⟨p, rfl⟩ := (h a (hperm.mem_iff.1 ha)).exists_ofRat
  obtain ⟨q, rfl⟩ := (h b ((sort_perm values).mem_iff.1 hb)).exists_ofRat
  exact (totallyOrdered_ofRat p q q).antisymm hle hge

theorem sort_eq_of_perm (h : ∀ v ∈ values, v.Reduced) (hperm : others.Perm values) :
    sort others = sort values := by
  have hothers : ∀ v ∈ others, v.Reduced := fun v hv => h v (hperm.mem_iff.1 hv)
  exact eq_sort h ((sort_perm others).trans hperm) (sort_ascending hothers)

/-! ## The order of the numbers -/

/-- Reduced fractions compare as their numbers do, so they are totally ordered, and arithmetic treats their
order as it treats that of the numbers. Sorting a list of them gives its one ascending arrangement, the same
for every arrangement of the list. -/
theorem compare_as_numbers {a b c : Fraction} (ha : a.Reduced) (hb : b.Reduced) (hc : c.Reduced) :
    a.compare b = Ord.compare a.toRat b.toRat ∧ TotallyOrdered a b c ∧ KeepsOrder a b c ∧
    ∀ values : List Fraction, (∀ v ∈ values, v.Reduced) →
      (sort values).Perm values ∧ (sort values).Pairwise (· ≤ ·) ∧
      ∀ others : List Fraction, others.Perm values →
        sort others = sort values ∧ (others.Pairwise (· ≤ ·) → others = sort values) := by
  obtain ⟨p, rfl⟩ := ha.exists_ofRat
  obtain ⟨q, rfl⟩ := hb.exists_ofRat
  obtain ⟨r, rfl⟩ := hc.exists_ofRat
  have hcompare : (ofRat p).compare (ofRat q) = Ord.compare (ofRat p).toRat (ofRat q).toRat := by
    rw [compare_ofRat, toRat_ofRat, toRat_ofRat]
  refine ⟨hcompare, totallyOrdered_ofRat p q r, keepsOrder_ofRat p q r, ?_⟩
  intro values h
  refine ⟨sort_perm values, sort_ascending h, ?_⟩
  intro others hperm
  exact ⟨sort_eq_of_perm h hperm, eq_sort h hperm⟩

/-- Minus two thirds is less than minus a half, also after adding or multiplying with seven fifths; the
negations and the reciprocals stand the other way round. -/
theorem compare_as_numbers_of_negative :
    let a : Fraction := ⟨-2, 3⟩
    let b : Fraction := ⟨-1, 2⟩
    let c : Fraction := ⟨7, 5⟩
    a.Reduced ∧ b.Reduced ∧ c.Reduced ∧ a.compare b = .lt ∧ b.compare a = .gt ∧
      a + c < b + c ∧ -b < -a ∧ a * c < b * c ∧ (∃ r s, a.inv = .ok r ∧ b.inv = .ok s ∧ s < r) ∧
      sort [c, zero, b, one, a] = [a, b, zero, one, c] := by
  intro a b c
  have ha : a.Reduced := by decide
  have hb : b.Reduced := by decide
  have hc : c.Reduced := by decide
  have hlt : a < b := by decide
  obtain ⟨-, htotal, hkeeps, hsort⟩ := compare_as_numbers ha hb hc
  have hvalues : ∀ v ∈ [c, zero, b, one, a], v.Reduced := by decide
  have hsorted := (hsort _ hvalues).2.2 [a, b, zero, one, c] (by decide)
  exact ⟨ha, hb, hc, hlt, htotal.swap, hkeeps.add hlt, hkeeps.neg hlt, hkeeps.mul hlt (by decide),
    hkeeps.inv hlt (.inr (by decide)), (hsorted.2 (by decide)).symm⟩

end ExactCalculator.Fraction
