import ExactCalculator.Evaluation.Machine
import ExactCalculator.Evaluation.StopFlag

/-! Evaluating texts: with any answer to polls, with the stop flag and a schedule for it, or
without interruption. -/
namespace ExactCalculator
set_option autoImplicit false

/-- The number of parentheses that may be open at once. -/
def maxDepth : Nat := 128

/-- The policy with the usual depth limit. -/
def Policy.standard (signal : Signal) : Policy := ⟨some maxDepth, signal⟩

/-- Evaluates a text under a policy. -/
def runWith (policy : Policy) (text : String) : Run := Machine.run policy {} 0 text.toList

/-- Evaluates a text with the stop flag left as it is. -/
def runSteady (flag : Bool) (text : String) : Run :=
  runWith (.standard (.constant flag)) text

/-- Evaluates a text while a schedule acts on the stop flag. -/
def runScheduled (schedule : Schedule) (flag : Bool) (text : String) : Run :=
  runWith (.standard (schedule.signal flag)) text

/-- The outcome of evaluating a text with the stop flag down. -/
def evaluate (text : String) : Outcome := (runSteady false text).outcome

end ExactCalculator
