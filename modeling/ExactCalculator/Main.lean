import ExactCalculator.Console.Basic

/-! The program: the console on standard input and output. It prompts only at a terminal. -/
set_option autoImplicit false

namespace ExactCalculator

/-- Answers the lines of standard input until one ends the console or none is left. -/
partial def serve (interactive color : Bool) (state : Console.State) : IO UInt32 := do
  let input ← IO.getStdin
  let output ← IO.getStdout
  if interactive then
    output.putStr "> "
    output.flush
  let received ← input.getLine
  match lines received.toList with
  | [] => return 0
  | line :: _ =>
    let reply := Console.answer color state line
    output.putStr reply.output
    output.flush
    match reply.status with
    | .exited code => return code.toUInt32
    | .running state => serve interactive color state

end ExactCalculator

/-- Greets and answers. Output has color at a terminal. -/
def main : IO UInt32 := do
  let output ← IO.getStdout
  output.putStr ExactCalculator.Console.greeting
  ExactCalculator.serve (← (← IO.getStdin).isTty) (← output.isTty) {}
