import ExactCalculator.Grammar
import ExactCalculator.Proofs.Text.Position
import Mathlib.Data.List.Induction

/-! Places of a text that the character before them makes what they are: the runs of digits, and the
signs between terms in contrast to those before an expression. What one more character adds to their
numbers is settled by itself and the last character before it (`adds`). -/
namespace ExactCalculator
set_option autoImplicit false

/-- How many characters stand where, with the character before them, they make a place of some kind. -/
def placesAfter (kind : Option Char → Char → Bool) (previous : Option Char) : List Char → Nat
  | [] => 0
  | c :: cs => (if kind previous c then 1 else 0) + placesAfter kind (some c) cs

/-- The maximal runs of digits: a run begins with a digit that no digit stands right before. -/
def digitRuns (text : List Char) : Nat :=
  placesAfter (fun previous c => c.isDigit && !previous.any Char.isDigit) none text

/-- The signs between terms: the `+` and `-` with a character before them that is not `(`. -/
def binarySigns (text : List Char) : Nat :=
  placesAfter (fun previous c => (c == '+' || c == '-') && previous.any (· != '(')) none text

section
variable {kind : Option Char → Char → Bool} {v : List Char} {c : Char}

theorem placesAfter_concat (previous : Option Char) (v : List Char) (c : Char) :
    placesAfter kind previous (v ++ [c]) =
      placesAfter kind previous v + if kind (v.getLast?.or previous) c then 1 else 0 := by
  induction v generalizing previous with
  | nil => exact Nat.add_comm _ 0
  | cons a v ih =>
    have hlast : v.getLast?.or (some a) = (a :: v).getLast?.or previous := by
      rw [List.getLast?_cons]
      cases v.getLast? <;> rfl
    rw [List.cons_append, placesAfter, placesAfter, ih, hlast, Nat.add_assoc]

/-- What a character adds to the counts of the text before it. -/
structure Adds (v : List Char) (c : Char) (openings runs signs : Nat) : Prop where
  openings : (v ++ [c]).count '(' = v.count '(' + openings
  runs : digitRuns (v ++ [c]) = digitRuns v + runs
  signs : binarySigns (v ++ [c]) = binarySigns v + signs

theorem adds (v : List Char) (c : Char) :
    Adds v c (if c = '(' then 1 else 0)
      (if c.isDigit && !v.getLast?.any Char.isDigit then 1 else 0)
      (if (c == '+' || c == '-') && v.getLast?.any (· != '(') then 1 else 0) where
  openings := by
    rw [List.count_append, List.count_singleton]
    simp
  runs := by rw [digitRuns, placesAfter_concat, Option.or_none, digitRuns]
  signs := by rw [binarySigns, placesAfter_concat, Option.or_none, binarySigns]

theorem ne_of_isDigit {a : Char} (hc : c.isDigit = true) (ha : a.isDigit = false) : c ≠ a := by
  rintro rfl
  rw [hc] at ha
  cases ha

theorem adds_digit (v : List Char) (hc : c.isDigit = true) :
    Adds v c 0 (if v.getLast?.any Char.isDigit then 0 else 1) 0 := by
  have hopening : c ≠ '(' := ne_of_isDigit hc rfl
  have hplus : c ≠ '+' := ne_of_isDigit hc rfl
  have hminus : c ≠ '-' := ne_of_isDigit hc rfl
  have h := adds v c
  cases hlast : v.getLast?.any Char.isDigit <;> simpa [hc, hlast, hopening, hplus, hminus] using h

theorem adds_sign (v : List Char) (sign : Sign) :
    Adds v sign.char 0 0 (if v.getLast?.any (· != '(') then 1 else 0) := by
  have h := adds v sign.char
  cases sign <;> simpa [Sign.char] using h

theorem adds_opening : Adds v '(' 1 0 0 := by
  have h := adds v '('
  simpa using h

/-- The other characters of an expression add nothing. -/
theorem adds_of_mem (hc : c ∈ ['*', '/', ')', '=']) : Adds v c 0 0 0 := by
  have h := adds v c
  simp only [List.mem_cons, List.not_mem_nil, or_false] at hc
  rcases hc with rfl | rfl | rfl | rfl <;> simpa using h

/-- Parentheses and runs of digits need characters of their own. -/
theorem openings_add_runs_le (v : List Char) :
    v.count '(' + digitRuns v ≤ v.countP fun c => c.isDigit || c == '(' := by
  induction v using List.reverseRecOn with
  | nil => exact Nat.le_refl 0
  | append_singleton v c ih =>
    have h := adds v c
    rw [h.openings, h.runs, List.countP_append, List.countP_singleton]
    by_cases hopening : c = '('
    · subst hopening
      simpa [Nat.add_right_comm] using ih
    · cases hdigit : c.isDigit
      · simpa [hopening] using ih
      · simp only [hopening, if_false, Bool.true_and, Bool.true_or, if_true]
        split <;> omega

end

/-- An ignored character neither ends a run of digits nor keeps a sign from standing between terms. -/
example : digitRuns (visible ['-', '1', ' ', '2', '+', '(', '3', ' ', '-', '4', ')', '5']) = 4 ∧
    binarySigns (visible ['-', '1', ' ', '2', '+', '(', '3', ' ', '-', '4', ')', '5']) = 2 := by
  decide

end ExactCalculator
