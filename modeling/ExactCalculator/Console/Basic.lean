import ExactCalculator.Console.Command
import ExactCalculator.Evaluation
import ExactCalculator.Outline

/-! The console: it answers each line, either a command or an expression. -/
namespace ExactCalculator
set_option autoImplicit false

namespace Console

/-- The greeting, which is also the help text. -/
def greeting : String :=
  "Exact rational calculator. Expressions follow the grammar

  expression => [+|-] term \x7b + term | - term \x7d [=]
  term       => factor \x7b * factor | / factor | factor \x7d
  factor     => digit \x7b digit \x7d | ( expression )

Multiplication and division bind tighter than addition and subtraction, operators of equal
precedence associate to the left. Juxtaposed factors are multiplied.

Valid input:    (11 + 42 - 5) / (11 - 4)
                (17-3)(14-6)-22=
Invalid input:  (3 / 4) * - (5 + 1)     consecutive operators
                (3 + 7)) =              mismatched parentheses
                450 - - 8 =             double negative, use + instead

Commands: :help, :trace on|off, :quit
"

/-- What the console remembers from one line to the next: whether evaluations are shown as outlines,
and the outline in progress. -/
structure State where
  tracing : Bool := false
  builder : Outline.Builder := []

/-- How the console stands after a line. -/
inductive Status
  | running (state : State)
  | exited (code : Nat)

/-- What is printed for a line, and what comes then. -/
structure Reply where
  output : String
  status : Status

/-- The exit code of a console that gave up. -/
def abortCode : Nat := 101

/-- Outlines the events of an evaluation. The outlines that become complete are printed. -/
def outline (color : Bool) (input : String) : Outline.Builder → List Event →
    String × Except Abort Outline.Builder
  | builder, [] => ("", .ok builder)
  | builder, event :: events =>
    match builder.feed input event with
    | .error abort => ("", .error abort)
    | .ok (builder, complete) =>
      let printed := (complete.map (Outline.render color 0)).getD ""
      let (output, last) := outline color input builder events
      (printed ++ output, last)

/-- The lines that tell the outcome of an evaluation. -/
def report (color : Bool) (input : String) : Outcome → String
  | .value value => value.toText ++ "\n"
  | .failure failure =>
    failure.highlight color input ++ "\n" ++
      Style.redBold.paint color "Error:" ++ " " ++ failure.cause.message ++ "\n"

/-- Evaluates a line. -/
def evaluateLine (color : Bool) (state : State) (line : String) : Reply :=
  let run := runSteady false line
  let result := report color line run.outcome
  if state.tracing then
    match outline color line state.builder run.journal.events.toList with
    | (output, .ok builder) => ⟨output ++ result, .running { state with builder := builder }⟩
    | (output, .error _) => ⟨output, .exited abortCode⟩
  else ⟨result, .running state⟩

/-- Obeys a command. Turning outlines off forgets the one in progress. -/
def obey (state : State) : Command → Reply
  | .help => ⟨greeting, .running state⟩
  | .trace true => ⟨"tracing on\n", .running { state with tracing := true }⟩
  | .trace false => ⟨"tracing off\n", .running {}⟩
  | .quit => ⟨"", .exited 0⟩

/-- Answers a line. -/
def answer (color : Bool) (state : State) (line : List Char) : Reply :=
  if line.all isBlank then ⟨"", .running state⟩
  else if Command.isCommandLine line then
    match Command.parse? line with
    | some command => obey state command
    | none =>
      ⟨Style.red.paint color (Command.unknownMessage line) ++ "\n", .running state⟩
  else evaluateLine color state (String.ofList line)

/-- What a console prints, and its exit code. -/
structure Transcript where
  output : String
  exitCode : Nat
deriving DecidableEq, Repr

/-- Answers lines until one ends the console or none is left. -/
def answerAll (color : Bool) (state : State) : List (List Char) → Transcript
  | [] => ⟨"", 0⟩
  | line :: rest =>
    let reply := answer color state line
    match reply.status with
    | .exited code => ⟨reply.output, code⟩
    | .running state =>
      let transcript := answerAll color state rest
      { transcript with output := reply.output ++ transcript.output }

/-- The whole run of a console on its input. -/
def run (color : Bool) (input : String) : Transcript :=
  let transcript := answerAll color {} (lines input.toList)
  { transcript with output := greeting ++ transcript.output }

end Console

end ExactCalculator
