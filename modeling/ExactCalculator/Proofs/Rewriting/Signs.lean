import ExactCalculator.Proofs.Machine.Alike
import ExactCalculator.Proofs.Machine.Relocation

/-! A sign before the first term of a text is an operator after zero. Behind a sign, written alone or
after a zero, stands a machine that is alike to the one behind a sign at the very beginning, only
that many bytes further on; so texts that go on alike end alike (`Machine.outcome_afterSign`). Without a sign
the machine enters an expression as after a plus. -/
namespace ExactCalculator
set_option autoImplicit false

/-- The outcome of a text that continues an expression after a sign, which itself takes no place. -/
def evaluateAfterSign (sign : Sign) (text : String) : Outcome :=
  (Machine.run (.standard (.constant false)) { phase := .term ⟨0, .start sign⟩ } 0
    text.toList).outcome

namespace Machine

/-- Behind a text of `k` bytes, all the text that follows is moved by as many. -/
theorem carriesText_add (k p : Nat) (text : List Char) : CarriesText (· + k) p text text := by
  induction text generalizing p with
  | nil => exact .nil p
  | cons c cs ih => exact .keep (Nat.add_right_comm p c.utf8Size k) (ih _)

/-- Before the first term only the sum so far matters, and how far on the text is. -/
theorem outcome_afterSign {sign : Sign} {m : Machine} {e : OpenExpression} (hstack : m.stack = [])
    (hphase : m.phase = .term e) (hsum : (PartialSum.start sign).Alike e.sum) (k : Nat)
    (text : String) :
    (m.run (.standard (.constant false)) k text.toList).outcome =
      (evaluateAfterSign sign text).relocate (· + k) := by
  let first : Machine := { phase := .term ⟨0, .start sign⟩ }
  have halike : (first.relocate (· + k)).Alike m := by
    refine .of_phase ?_ ?_ nofun
    · rw [hstack]
      exact .nil
    · rw [hphase]
      exact .term hsum
  have hmono : Monotone (· + k) := fun _ _ h => Nat.add_le_add_right h k
  have hpolicy : (Policy.standard (.constant false)).IgnoresOffsets (· + k) := fun _ => rfl
  have hrun := run_relocate hmono hpolicy (carriesText_add k 0 text.toList) first
  rw [Nat.zero_add] at hrun
  have hsame := halike.outcome_eq (some maxDepth) k text.toList
  exact hsame.symm.trans (congrArg Run.outcome hrun)

end Machine

/-! ## Signs in front of a text -/

theorem exists_run_sign (sign : Sign) (text : String) :
    ∃ m : Machine, runSteady false (String.singleton sign.char ++ text) =
        m.run (.standard (.constant false)) 1 text.toList ∧
      m.stack = [] ∧ m.phase = .term ⟨0, .start sign⟩ := by
  rw [runSteady, runWith, String.toList_append]
  cases sign <;> exact ⟨_, rfl, rfl, rfl⟩

theorem exists_run_zeroSign (sign : Sign) (text : String) :
    ∃ m : Machine, runSteady false ("0" ++ String.singleton sign.char ++ text) =
        m.run (.standard (.constant false)) 2 text.toList ∧
      m.stack = [] ∧ m.phase = .term ⟨0, .after .zero sign⟩ := by
  rw [runSteady, runWith, String.toList_append, String.toList_append]
  cases sign <;> exact ⟨_, rfl, rfl, rfl⟩

theorem evaluate_sign (sign : Sign) (text : String) :
    evaluate (String.singleton sign.char ++ text) =
      (evaluateAfterSign sign text).relocate (· + 1) := by
  obtain ⟨m, hrun, hstack, hphase⟩ := exists_run_sign sign text
  rw [evaluate, hrun]
  exact Machine.outcome_afterSign hstack hphase (PartialSum.alike_start sign) 1 text

theorem evaluate_zeroSign (sign : Sign) (text : String) :
    evaluate ("0" ++ String.singleton sign.char ++ text) =
      (evaluateAfterSign sign text).relocate (· + 2) := by
  obtain ⟨m, hrun, hstack, hphase⟩ := exists_run_zeroSign sign text
  rw [evaluate, hrun]
  exact Machine.outcome_afterSign hstack hphase (PartialSum.alike_zero sign) 2 text

/-- A text without a sign goes on as after a plus. -/
theorem evaluate_eq_afterPlus {text : String}
    (h : ∀ c, (visible text.toList).head? = some c → c ≠ '+' ∧ c ≠ '-') :
    evaluate text = evaluateAfterSign .plus text := by
  obtain ⟨z, v, htext, hz, hv⟩ := exists_skip text.toList
  have hno : ∀ sign, Symbol.ofNext v.head? ≠ .sign sign := by
    intro sign hs
    rw [htext, visible_append, hz, List.nil_append, hv.head?_visible] at h
    cases sign with
    | plus => exact (h '+' ((Symbol.ofNext_eq_iff rfl).1 hs)).1 rfl
    | minus => exact (h '-' ((Symbol.ofNext_eq_iff rfl).1 hs)).2 rfl
  let entered : Machine :=
    { ({} : Machine).enter .expression with phase := .term ⟨byteLength z, .start .plus⟩ }
  have henter : Machine.SilentMove v.head? (byteLength z) {} [] entered := .enterExpression rfl hno
  have halike : entered.Alike { phase := .term ⟨0, .start .plus⟩ } :=
    .of_phase .nil (.term (PartialSum.alike_start .plus)) nofun
  rw [evaluate, runSteady, runWith, evaluateAfterSign, htext, Machine.run_append_ignored hz,
    Machine.run_append_ignored hz, Nat.zero_add, Policy.standard, henter.run_eq hv]
  exact halike.outcome_eq (some maxDepth) (byteLength z) v

/-- Signs before a text are short for operators after a zero: a text that does not begin with a sign has
the outcome that it has after `+` and after `0+`, and the same after `-` as after `0-`. What is blamed
moves with the text. -/
theorem evaluate_signed {text : String}
    (h : ∀ c, (visible text.toList).head? = some c → c ≠ '+' ∧ c ≠ '-') :
    evaluate ("+" ++ text) = (evaluate text).relocate (· + 1) ∧
      evaluate ("0+" ++ text) = (evaluate text).relocate (· + 2) ∧
      ∃ outcome : Outcome, evaluate ("-" ++ text) = outcome.relocate (· + 1) ∧
        evaluate ("0-" ++ text) = outcome.relocate (· + 2) := by
  rw [evaluate_eq_afterPlus h]
  exact ⟨evaluate_sign .plus text, evaluate_zeroSign .plus text, evaluateAfterSign .minus text,
    evaluate_sign .minus text, evaluate_zeroSign .minus text⟩

/-- The divisor `(2-2)` is to blame wherever it stands. -/
theorem evaluate_signed_of_division :
    (∀ c, (visible " 6/(2-2)".toList).head? = some c → c ≠ '+' ∧ c ≠ '-') ∧
      evaluate " 6/(2-2)" = .failure ⟨.arithmetic .divisionByZero, ⟨3, 8⟩⟩ ∧
      evaluate "+ 6/(2-2)" = .failure ⟨.arithmetic .divisionByZero, ⟨4, 9⟩⟩ ∧
      evaluate "0+ 6/(2-2)" = .failure ⟨.arithmetic .divisionByZero, ⟨5, 10⟩⟩ ∧
      ∃ outcome : Outcome, evaluate "- 6/(2-2)" = outcome.relocate (· + 1) ∧
        evaluate "0- 6/(2-2)" = outcome.relocate (· + 2) := by
  have h : ∀ c, (visible " 6/(2-2)".toList).head? = some c → c ≠ '+' ∧ c ≠ '-' := by
    intro c hc
    have hdigit : (visible " 6/(2-2)".toList).head? = some '6' := by rfl
    rw [hdigit] at hc
    cases hc
    decide
  have heval : evaluate " 6/(2-2)" = .failure ⟨.arithmetic .divisionByZero, ⟨3, 8⟩⟩ := by rfl
  obtain ⟨hplus, hzero, hminus⟩ := evaluate_signed h
  rw [heval] at hplus hzero
  exact ⟨h, heval, hplus, hzero, hminus⟩

end ExactCalculator
