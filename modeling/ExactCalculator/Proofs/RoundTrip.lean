import ExactCalculator.Outline
import ExactCalculator.Proofs.Acceptance

/-! Printed fractions are expressions. The text of a reduced fraction derives the expression
`Fraction.toExpression`: a number, or the quotient of two, with a minus sign in front if the numerator
is negative. Its value is the number of the fraction, so evaluating the text answers the same fraction
again, in parentheses or not. -/
namespace ExactCalculator
set_option autoImplicit false

/-! ## Decimal digits -/

theorem visible_digits {digits : List Char} (h : ∀ c ∈ digits, c.isDigit = true) :
    visible digits = digits := by
  refine List.filter_eq_self.2 ?_
  intro c hc
  rw [isIgnored_of_isDigit (h c hc), Bool.not_false]

/-- The decimal digits of a number stand for it. -/
theorem decimal_toDigits (n : ℕ) : decimal (Nat.toDigits 10 n) = n :=
  Nat.ofDigitChars_toDigits (by decide) (by decide)

theorem isDigit_of_mem_toDigits {n : ℕ} : ∀ c ∈ Nat.toDigits 10 n, c.isDigit = true :=
  fun _ => Nat.isDigit_of_mem_toDigits (by decide) (by decide)

theorem literal_wellFormed (n : ℕ) : (Factor.literal (Nat.toDigits 10 n)).WellFormed :=
  ⟨Nat.toDigits_ne_nil, isDigit_of_mem_toDigits⟩

namespace Fraction

/-! ## The expression of a fraction -/

/-- The sign that an integer is printed with. -/
def printedSign (n : ℤ) : Option Sign := if n < 0 then some .minus else none

/-- The numerator without its sign, divided by the denominator unless that is one. -/
def toTerm (a : Fraction) : Term :=
  let numerator := Term.first (.literal (Nat.toDigits 10 a.num.natAbs))
  if a.den = 1 then numerator
  else .next numerator (.written .divide) (.literal (Nat.toDigits 10 a.den))

/-- The expression that the text of a fraction derives. -/
def toExpression (a : Fraction) : Expression := .first (printedSign a.num) a.toTerm

theorem toTerm_wellFormed (a : Fraction) : a.toTerm.WellFormed := by
  unfold toTerm
  split
  · exact literal_wellFormed _
  · exact ⟨literal_wellFormed _, literal_wellFormed _, nofun⟩

theorem toTerm_depth (a : Fraction) : a.toTerm.depth = 0 := by
  unfold toTerm
  split <;> rfl

/-! ## Its text -/

theorem visible_integerText (n : ℤ) :
    visible (integerText n).toList =
      ((printedSign n).map Sign.char).toList ++ Nat.toDigits 10 n.natAbs := by
  have hdigits : visible (Nat.toDigits 10 n.natAbs) = Nat.toDigits 10 n.natAbs :=
    visible_digits isDigit_of_mem_toDigits
  unfold integerText printedSign
  split
  · rw [String.toList_append, Nat.toList_repr, visible_append, hdigits]
    rfl
  · rw [Nat.toList_repr, hdigits]
    rfl

theorem Reduced.toText_eq {a : Fraction} (ha : a.Reduced) :
    a.toText =
      if a.den = 1 then integerText a.num else integerText a.num ++ " / " ++ a.den.repr := by
  unfold toText
  split
  · next hzero =>
    obtain rfl := ha.eq_zero (beq_iff_eq.1 hzero)
    rfl
  · simp only [isInteger, beq_iff_eq]

theorem Reduced.visible_toText {a : Fraction} (ha : a.Reduced) :
    visible a.toText.toList = a.toExpression.text := by
  rw [ha.toText_eq, toExpression, Expression.text, toTerm]
  split
  · exact visible_integerText a.num
  · have hbar : visible " / ".toList = ['/'] := by decide
    rw [String.toList_append, String.toList_append, visible_append, visible_append,
      visible_integerText, hbar, Nat.toList_repr, visible_digits isDigit_of_mem_toDigits]
    simp only [Term.text, Factor.text, Joint.text, Scaling.char, List.append_assoc]

/-! ## Its value -/

theorem Reduced.toTerm_value {a : Fraction} (ha : a.Reduced) :
    a.toTerm.value? = some ((a.num.natAbs : ℚ) / (a.den : ℚ)) := by
  unfold toTerm
  split
  · next hden => simp [Term.value?, Factor.value?, decimal_toDigits, hden]
  · have hne : (a.den : ℚ) ≠ 0 := ha.den_ne_zero
    simp [Term.value?, Factor.value?, decimal_toDigits, Joint.scaling, Scaling.apply?, hne]

theorem Reduced.toExpression_value {a : Fraction} (ha : a.Reduced) :
    a.toExpression.value? = some a.toRat := by
  rw [toExpression, Expression.value?, ha.toTerm_value, Option.map_some, toRat_eq, printedSign]
  split
  · next hneg =>
    have habs : ((a.num.natAbs : ℕ) : ℚ) = -(a.num : ℚ) := by
      rw [← Int.cast_natCast, Int.ofNat_natAbs_of_nonpos hneg.le, Int.cast_neg]
    simp [Sign.apply, habs, neg_div]
  · next hneg =>
    have habs : ((a.num.natAbs : ℕ) : ℚ) = (a.num : ℚ) := by
      rw [← Int.cast_natCast, Int.natAbs_of_nonneg (not_lt.mp hneg)]
    simp [Sign.apply, habs]

theorem Reduced.standsFor {a : Fraction} (ha : a.Reduced) : a.StandsFor a.toExpression.value? :=
  ⟨ha, ha.toExpression_value⟩

/-! ## Evaluating it -/

theorem Reduced.evaluate_text {a : Fraction} (ha : a.Reduced) : evaluate a.toText = .value a := by
  refine evaluate_of_parse (e := a.toExpression) ?_ ?_ ha.standsFor
  · rw [ha.visible_toText]
    exact Draft.parse_text a.toTerm_wellFormed
  · rw [toExpression, Expression.depth, toTerm_depth]
    exact Nat.zero_le _

theorem Reduced.evaluate_group {a : Fraction} (ha : a.Reduced) :
    evaluate ("(" ++ a.toText ++ ")") = .value a := by
  have hwf : (Expression.first none (.first (.group a.toExpression))).WellFormed :=
    a.toTerm_wellFormed
  have hvisible : visible ("(" ++ a.toText ++ ")").toList =
      (Expression.first none (.first (.group a.toExpression))).text := by
    rw [String.toList_append, String.toList_append, visible_append, visible_append,
      ha.visible_toText]
    rfl
  refine evaluate_of_parse (e := .first none (.first (.group a.toExpression))) ?_ ?_ ?_
  · rw [hvisible]
    exact Draft.parse_text hwf
  · simp only [Expression.depth, Term.depth, Factor.depth, toExpression, toTerm_depth]
    decide
  · refine ⟨ha, ?_⟩
    simp [Expression.value?, Term.value?, Factor.value?, ha.toExpression_value, Sign.apply]

end Fraction

/-- Evaluating the text of a reduced fraction answers that fraction, also in parentheses, and so the
text that an evaluation answers evaluates to itself. -/
theorem evaluate_toText :
    (∀ a : Fraction, a.Reduced →
      evaluate a.toText = .value a ∧ evaluate ("(" ++ a.toText ++ ")") = .value a) ∧
    ∀ text answer : String, (evaluate text).text = .ok answer →
      (evaluate answer).text = .ok answer := by
  refine ⟨fun a ha => ⟨ha.evaluate_text, ha.evaluate_group⟩, ?_⟩
  intro text answer h
  cases houtcome : evaluate text with
  | value v =>
    rw [houtcome] at h
    obtain rfl : v.toText = answer := Except.ok.inj h
    rw [(reduced_of_evaluate houtcome).evaluate_text]
    rfl
  | failure failure =>
    rw [houtcome] at h
    cases h

/-- The text `-3 / 4` is read as minus the quotient of three and four, and it is what `6/(-8)`
comes to. -/
theorem evaluate_toText_of_negative :
    (⟨-3, 4⟩ : Fraction).Reduced ∧ evaluate (⟨-3, 4⟩ : Fraction).toText = .value ⟨-3, 4⟩ ∧
      evaluate ("(" ++ (⟨-3, 4⟩ : Fraction).toText ++ ")") = .value ⟨-3, 4⟩ ∧
      (evaluate "6/(-8)").text = .ok "-3 / 4" ∧ (evaluate "-3 / 4").text = .ok "-3 / 4" :=
  have hreduced : (⟨-3, 4⟩ : Fraction).Reduced := by decide
  have hanswer : (evaluate "6/(-8)").text = .ok "-3 / 4" := by rfl
  have hboth := evaluate_toText.1 ⟨-3, 4⟩ hreduced
  ⟨hreduced, hboth.1, hboth.2, hanswer, evaluate_toText.2 "6/(-8)" "-3 / 4" hanswer⟩

end ExactCalculator
