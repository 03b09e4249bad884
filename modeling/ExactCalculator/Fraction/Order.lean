import ExactCalculator.Fraction.Basic

/-! The order of the fractions, by cross-multiplication, and what follows from it: the smaller and
the greater of two fractions, and lists in ascending order. -/
namespace ExactCalculator
set_option autoImplicit false

namespace Fraction

/-- Compares two fractions as numbers. The denominators are positive, so multiplying across keeps
the order. -/
def compare (a b : Fraction) : Ordering :=
  Ord.compare (a.num * (b.den : Int)) ((a.den : Int) * b.num)

/-- The comparison for callers that reckon with values without an order. No fraction is one. -/
def partialCompare (a b : Fraction) : Option Ordering := some (a.compare b)

instance : Ord Fraction := ⟨compare⟩
instance : LT Fraction := ⟨fun a b => a.compare b = .lt⟩
instance : LE Fraction := ⟨fun a b => a.compare b ≠ .gt⟩
instance (a b : Fraction) : Decidable (a < b) := inferInstanceAs (Decidable (a.compare b = .lt))
instance (a b : Fraction) : Decidable (a ≤ b) := inferInstanceAs (Decidable (a.compare b ≠ .gt))

/-- The greater fraction; of two equal ones the second. -/
instance : Max Fraction := ⟨fun a b => if b < a then a else b⟩

/-- The smaller fraction; of two equal ones the first. -/
instance : Min Fraction := ⟨fun a b => if b < a then b else a⟩

/-- The fractions in ascending order. Equal ones keep their places. -/
def sort (values : List Fraction) : List Fraction := values.mergeSort fun a b => decide (a ≤ b)

end Fraction

end ExactCalculator
