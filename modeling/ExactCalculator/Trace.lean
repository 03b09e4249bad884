import ExactCalculator.Outline

/-! Traces: the rules of an evaluation as a tree in which every rule keeps the range that it read.
A trace has its events in the order of an evaluation, and an outline that leaves out what adds
nothing. -/
namespace ExactCalculator
set_option autoImplicit false

/-- A rule of an evaluation with the range that it read, how it ended and the rules that it is made
of. -/
inductive Trace
  | node (rule : Rule) (span : Span) (outcome : Outcome) (steps : List Trace)

namespace Trace

def rule : Trace → Rule
  | node rule _ _ _ => rule

def span : Trace → Span
  | node _ span _ _ => span

def outcome : Trace → Outcome
  | node _ _ outcome _ => outcome

def steps : Trace → List Trace
  | node _ _ _ steps => steps

mutual

/-- The events of a trace: a rule is entered, its steps follow, and it is left. -/
def events : Trace → List Event
  | node rule span outcome steps =>
    .enter rule :: allEvents steps ++ [.leave rule span outcome]

def allEvents : List Trace → List Event
  | [] => []
  | trace :: rest => trace.events ++ allEvents rest

end

mutual

/-- The outline of a trace, collapsed from the leaves to the root. -/
def outline (input : String) : Trace → Outline
  | node rule span outcome steps =>
    let text := span.slice input
    .node rule text (Outline.collapse text (outlineAll input steps)) outcome.text

def outlineAll (input : String) : List Trace → List Outline
  | [] => []
  | trace :: rest => trace.outline input :: outlineAll input rest

end

/-- The rules that a rule may be made of. -/
def mayContain : Rule → Rule → Bool
  | .expression, .term => true
  | .term, .factor => true
  | .factor, .expression => true
  | _, _ => false

/-- How many rules a rule may be made of: a factor of one or none, the others of one or more. -/
def stepCount : Rule → Nat → Bool
  | .factor, n => n ≤ 1
  | _, n => 1 ≤ n

mutual

/-- Every rule is made of rules as the grammar has it. -/
def WellShaped : Trace → Prop
  | node rule _ _ steps => stepCount rule steps.length = true ∧ AllWithin rule steps

/-- The traces are rules that a rule may be made of, and well shaped. -/
def AllWithin (rule : Rule) : List Trace → Prop
  | [] => True
  | trace :: rest =>
    mayContain rule trace.rule = true ∧ trace.WellShaped ∧ AllWithin rule rest

end

end Trace

/-! ## Open rules -/

/-- The rules open after an event, innermost first; nothing if a rule is left that is not the
innermost one. -/
def Event.openRules? (before : List Rule) : Event → Option (List Rule)
  | enter rule => some (rule :: before)
  | leave rule _ _ =>
    match before with
    | [] => none
    | innermost :: rest => if innermost = rule then some rest else none

/-- The rules open after events, innermost first. -/
def openRulesAfter? (events : List Event) : Option (List Rule) :=
  events.foldlM Event.openRules? []

end ExactCalculator
