import ExactCalculator.Evaluation.Journal

/-! Outlines: the rules of an evaluation as an indented tree. A builder takes the events one by one
and has the tree when the outermost rule is left. A rule whose only step read the same text as the
rule itself takes over the steps of that step. -/
namespace ExactCalculator
set_option autoImplicit false

/-- A rule of an evaluation with the text that it read, the rules it is made of, and the wording
of its result or of its failure. -/
inductive Outline
  | node (rule : Rule) (text : String) (steps : List Outline) (result : Except String String)

def Outcome.text : Outcome → Except String String
  | value v => .ok v.toText
  | failure f => .error f.cause.message

namespace Outline

def text : Outline → String
  | node _ text _ _ => text

def steps : Outline → List Outline
  | node _ _ steps _ => steps

/-- The steps to show under a rule that read the given text. -/
def collapse (text : String) (steps : List Outline) : List Outline :=
  match steps with
  | [only] => if only.text = text then only.steps else steps
  | _ => steps

/-! ## Building -/

/-- The steps so far of each open rule, those of the innermost first. -/
abbrev Builder := List (List Outline)

/-- The builder after an event of an evaluation of `input`, and the tree if it is complete. It gives
up on leaving a rule when none is open. -/
def Builder.feed (input : String) (builder : Builder) :
    Event → Except Abort (Builder × Option Outline)
  | .enter _ => .ok ([] :: builder, none)
  | .leave rule span outcome =>
    match builder with
    | [] => .error ⟨"unbalanced tracer calls"⟩
    | steps :: outer =>
      let text := span.slice input
      let done := node rule text (collapse text steps) outcome.text
      match outer with
      | [] => .ok ([], some done)
      | siblings :: rest => .ok ((siblings ++ [done]) :: rest, none)

/-! ## Text -/

def indent (level : Nat) : String := String.join (List.replicate level "  ")

/-- The line that tells a result. -/
def resultLine (color : Bool) : Except String String → String
  | .ok value => Style.dimmed.paint color value ++ "\n"
  | .error message => Style.dimmed.paint color ("[!] " ++ message) ++ "\n"

mutual

/-- The lines of an outline at a level. -/
def render (color : Bool) (level : Nat) : Outline → String
  | node rule text steps result =>
    let head := "[-] " ++ rule.name ++ " " ++ text
    let body :=
      if steps.isEmpty then Style.dimmed.paint color (head ++ " => ")
      else
        Style.dimmed.paint color head ++ "\n" ++ renderAll color (level + 1) steps ++
          indent (level + 1) ++ Style.dimmed.paint color "=> "
    indent level ++ body ++ resultLine color result

def renderAll (color : Bool) (level : Nat) : List Outline → String
  | [] => ""
  | outline :: rest => render color level outline ++ renderAll color level rest

end

end Outline

end ExactCalculator
