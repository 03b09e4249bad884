import ExactCalculator.Fraction.Basic
import ExactCalculator.Text.Span
import ExactCalculator.Text.Style

/-! Why an evaluation fails, which part of the input is to blame, and how the two are shown. -/
namespace ExactCalculator
set_option autoImplicit false

inductive Cause
  /-- The input ended where a number or a parenthesis was needed. -/
  | endOfInput
  /-- A character that cannot stand at its place. -/
  | unexpectedChar (c : Char)
  /-- A parenthesis that opens one level too many. -/
  | tooDeep
  /-- An operation without a result. -/
  | arithmetic (fault : Fault)
  /-- The stop flag was up. -/
  | interrupt
deriving DecidableEq, Repr

def Cause.message : Cause → String
  | endOfInput => "unexpected end of input"
  | unexpectedChar c => "unexpected character '" ++ c.toString ++ "'"
  | tooDeep => "parentheses nested too deeply"
  | arithmetic fault => fault.message
  | interrupt => "interrupted"

/-- A failed evaluation: its cause and the part of the input to blame for it. -/
structure Failure where
  cause : Cause
  span : Span
deriving DecidableEq, Repr

namespace Failure

/-- The failure for which the next character, or the end of the input, is to blame. -/
def atNext : Option Char → Nat → Failure
  | some c, offset => ⟨.unexpectedChar c, .ofChar c offset⟩
  | none, offset => ⟨.endOfInput, .emptyAt offset⟩

/-- The blamed range as a range of a text that begins at `shownStart`. A range that begins before
that text is moved to its start. -/
def spanWithin (failure : Failure) (shownStart : Nat) : Span :=
  let start := failure.span.start - shownStart
  ⟨start, start + failure.span.length⟩

/-- The shown text, which begins at `shownStart`, with the blamed part marked; an underscore marks
an empty part. A range that does not fit the shown text marks nothing. -/
def highlightFrom (color : Bool) (failure : Failure) (shownStart : Nat) (shown : String) :
    String :=
  match (failure.spanWithin shownStart).cut? shown.toList with
  | none => shown
  | some cut =>
    let marked := if cut.inside.isEmpty then "_" else String.ofList cut.inside
    String.ofList cut.before ++ Style.redBold.paint color marked ++ String.ofList cut.after

/-- The whole input with the blamed part marked. -/
def highlight (color : Bool) (failure : Failure) (input : String) : String :=
  failure.highlightFrom color 0 input

end Failure

end ExactCalculator
