import ExactCalculator.Evaluation.Failure

/-! What an evaluation reports while it goes on. The events say when each rule of the grammar is
entered and left, the polls say when the evaluation asked whether to stop. -/
namespace ExactCalculator
set_option autoImplicit false

inductive Rule
  | expression
  | term
  | factor
deriving DecidableEq, Repr

def Rule.name : Rule → String
  | expression => "expression"
  | term => "term"
  | factor => "factor"

/-- How a rule, or a whole evaluation, ended. -/
inductive Outcome
  | value (value : Fraction)
  | failure (failure : Failure)
deriving DecidableEq, Repr

/-- A step of an evaluation. The range of a rule that is left is the part of the input it read. -/
inductive Event
  | enter (rule : Rule)
  | leave (rule : Rule) (span : Span) (outcome : Outcome)
deriving DecidableEq, Repr

/-- A question whether to stop: where the reading stood and how many events came before. -/
structure Poll where
  offset : Nat
  eventsBefore : Nat
deriving DecidableEq, Repr

/-- All that an evaluation has reported so far, in order. -/
structure Journal where
  events : Array Event := #[]
  polls : Array Poll := #[]
deriving DecidableEq, Repr

namespace Journal

def record (journal : Journal) (event : Event) : Journal :=
  { journal with events := journal.events.push event }

def ask (journal : Journal) (offset : Nat) : Journal :=
  { journal with polls := journal.polls.push ⟨offset, journal.events.size⟩ }

end Journal

/-- The answer to a poll, from all that was reported up to and with it: whether to stop. -/
abbrev Signal := Journal → Bool

/-- The signal of a stop flag that does not move. -/
def Signal.constant (flag : Bool) : Signal := fun _ => flag

structure Run where
  outcome : Outcome
  journal : Journal
deriving DecidableEq, Repr

end ExactCalculator
