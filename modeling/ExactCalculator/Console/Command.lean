import ExactCalculator.Text.Blank

/-! The commands of the console. A command is a line whose first character that is not blank is a
colon. -/
namespace ExactCalculator
set_option autoImplicit false

/-- A command to the console. -/
inductive Command
  | help
  | trace (on : Bool)
  | quit
deriving DecidableEq, Repr

namespace Command

/-- Whether a line is a command and not an expression. -/
def isCommandLine (line : List Char) : Bool := (trimStart line).head? = some ':'

/-- The command on a line. Only its first two words count. -/
def parse? (line : List Char) : Option Command :=
  let words := (words line).map String.ofList
  match words.head?.getD "", words.tail.head? with
  | ":help", none => some help
  | ":?", none => some help
  | ":trace", some "on" => some (trace true)
  | ":trace", some "off" => some (trace false)
  | ":quit", none => some quit
  | ":exit", none => some quit
  | _, _ => none

/-- What is said about a line that is no known command. -/
def unknownMessage (line : List Char) : String :=
  "unknown command '" ++ String.ofList (trim line) ++ "'"

end Command

end ExactCalculator
