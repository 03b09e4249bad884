import ExactCalculator.Grammar
import ExactCalculator.Text.Span
import Mathlib.Tactic.IntervalCases

/-! Which characters the symbols of an expression are. They are all visible and take one byte.
The visible part of a text, and where it begins and ends, is settled here as well. -/
namespace ExactCalculator
set_option autoImplicit false

/-! ## Symbols and characters -/

namespace Symbol

theorem ofChar_eq_digit_iff {c : Char} {v : Nat} :
    ofChar c = .digit v ↔ c.isDigit = true ∧ digitValue c = v := by
  unfold ofChar
  split
  · next h => simp [h]
  · next h => split <;> simp [h]

theorem ofChar_digit {c : Char} (h : c.isDigit = true) : ofChar c = .digit (digitValue c) :=
  ofChar_eq_digit_iff.2 ⟨h, rfl⟩

/-- The one character that writes the symbol, for all symbols but digits. -/
def char? : Symbol → Option Char
  | sign s => some s.char
  | scaling s => some s.char
  | opening => some '('
  | closing => some ')'
  | equals => some '='
  | digit _ | stray | ending => none

theorem ofChar_eq_iff {s : Symbol} {c d : Char} (hs : s.char? = some d) :
    ofChar c = s ↔ c = d := by
  constructor
  · rintro rfl
    unfold ofChar at hs
    split at hs
    · cases hs
    · split at hs <;> cases hs <;> rfl
  · rintro rfl
    cases s with
    | sign s => cases s <;> cases hs <;> rfl
    | scaling s => cases s <;> cases hs <;> rfl
    | opening | closing | equals => cases hs; rfl
    | digit | stray | ending => cases hs

theorem ofChar_ne_ending (c : Char) : ofChar c ≠ .ending := by
  unfold ofChar
  split
  · simp
  · split <;> simp

theorem ofNext_eq_iff {s : Symbol} {next : Option Char} {d : Char} (hs : s.char? = some d) :
    ofNext next = s ↔ next = some d := by
  cases next with
  | none =>
    constructor
    · rintro rfl
      cases hs
    · intro h
      cases h
  | some c =>
    rw [Option.some.injEq]
    exact ofChar_eq_iff hs

theorem ofNext_eq_ending_iff {next : Option Char} : ofNext next = .ending ↔ next = none := by
  cases next with
  | none => simp [ofNext]
  | some c => simpa [ofNext] using ofChar_ne_ending c

theorem ofNext_ne_digit {next : Option Char} (h : ∀ c, next = some c → c.isDigit = false)
    (v : Nat) : ofNext next ≠ .digit v := by
  cases next with
  | none => simp [ofNext]
  | some c =>
    intro hs
    have hdigit := (ofChar_eq_digit_iff.1 hs).1
    rw [h c rfl] at hdigit
    cases hdigit

/-- A character with a meaning in an expression is visible and takes one byte. -/
theorem visible_of_ofChar_ne_stray {c : Char} (h : ofChar c ≠ .stray) :
    isIgnored c = false ∧ c.utf8Size = 1 := by
  unfold ofChar at h
  split at h
  · next hd =>
    obtain ⟨hlo, hhi⟩ := Char.isDigit_iff_toNat.mp hd
    change 48 ≤ c.toNat at hlo
    change c.toNat ≤ 57 at hhi
    rw [← Char.ofNat_toNat c]
    generalize c.toNat = n at hlo hhi
    interval_cases n <;> decide
  · split at h
    all_goals first | exact ⟨by decide, by decide⟩ | exact absurd rfl h

end Symbol

theorem isIgnored_of_isDigit {c : Char} (h : c.isDigit = true) : isIgnored c = false := by
  refine (Symbol.visible_of_ofChar_ne_stray ?_).1
  rw [Symbol.ofChar_digit h]
  simp

end ExactCalculator
