import ExactCalculator.Proofs.Machine.Paths

/-! Runs that nothing stops. Questions do not matter to them, so a move is the whole effect of its
part of a step: a silent move can be made ahead of the run, a character that is taken leaves the
machine after the move with the rest of the text. -/
namespace ExactCalculator
set_option autoImplicit false

variable {limit : Option Nat} {next : Option Char} {c : Char} {p : Nat} {m m' : Machine}
  {xs : List Question} {q : Progress} {w z rest : List Char}

theorem Signal.answer_quiet (xs : List Question) (q : Progress) :
    (Signal.constant false).answer xs q = q := by
  have hnone : (Signal.constant false).firstStop xs = none := by
    simp [firstStop, constant]
  rw [answer, hnone]

namespace Machine

theorem Moves.read_quiet (moves : Moves limit next p m xs q) :
    m.read ⟨limit, .constant false⟩ next p = q := by
  rw [moves.read_eq, Signal.answer_quiet]

/-- A silent move can be made ahead of the run. -/
theorem SilentMove.run_eq (move : SilentMove rest.head? p m xs m') (hhead : HeadVisible rest)
    (limit : Option Nat) :
    m.run ⟨limit, .constant false⟩ p rest = m'.run ⟨limit, .constant false⟩ p rest := by
  have hread : m.read ⟨limit, .constant false⟩ rest.head? p =
      m'.read ⟨limit, .constant false⟩ rest.head? p := by
    rw [move.read_eq, Signal.answer_quiet]
  cases rest with
  | nil =>
    rw [List.head?_nil] at hread
    simp only [run, hread]
  | cons c cs =>
    rw [List.head?_cons] at hread
    simp only [run, hhead c rfl, Bool.false_eq_true, if_false, hread]

/-- The run goes on with what a step leads to. -/
theorem Moves.run_eq (moves : Moves limit (some c) p m xs (.more m')) (hc : isIgnored c = false)
    (cs : List Char) :
    m.run ⟨limit, .constant false⟩ p (c :: cs) =
      m'.run ⟨limit, .constant false⟩ (p + c.utf8Size) cs := by
  rw [run_of_more hc (moves.read_eq (.constant false)), Signal.settle_quiet]

theorem Moves.run_eq_of_ended {run : Run} (moves : Moves limit rest.head? p m xs (.ended run))
    (hhead : HeadVisible rest) : m.run ⟨limit, .constant false⟩ p rest = run := by
  rw [run_of_ended hhead (moves.read_eq (.constant false)), Signal.settle_quiet]

theorem run_append_ignored (hz : visible z = []) (policy : Policy) (m : Machine) (p : Nat)
    (rest : List Char) : m.run policy p (z ++ rest) = m.run policy (p + byteLength z) rest := by
  induction z generalizing p with
  | nil => rfl
  | cons c cs ih =>
    have hc : isIgnored c = true := visible_eq_nil_iff.1 hz c (List.mem_cons_self ..)
    rw [visible_cons_of_ignored cs hc] at hz
    rw [List.cons_append, run_of_ignored hc, ih hz, byteLength_cons, Nat.add_assoc]

end Machine

/-- The rest of a text decides how its evaluation ends. -/
theorem Path.evaluate_eq {input : String} (path : Path (some maxDepth) w xs m)
    (hinput : input.toList = w ++ rest) :
    evaluate input = (m.run (.standard (.constant false)) (byteLength w) rest).outcome := by
  rw [evaluate, runSteady, runWith, hinput, Policy.standard, path.run, Signal.settle_quiet]

end ExactCalculator
