import ExactCalculator.Evaluation

/-! Sessions: evaluations one after the other under one stop flag, which keeps its state from each
request to the next. -/
namespace ExactCalculator
set_option autoImplicit false

/-- A request to the calculator. -/
inductive Request
  | evaluate (text : String)
  | trace (schedule : Schedule) (text : String)
  | raise
  | clear
  | check
deriving DecidableEq, Repr

/-- The answer to a request. -/
inductive Answer
  | outcome (outcome : Outcome)
  | run (run : Run)
  | nothing
deriving DecidableEq, Repr

/-- The stop flag after a run that began with the given flag. -/
def Schedule.flagAfterRun (schedule : Schedule) (flag : Bool) (run : Run) : Bool :=
  schedule.flagAfter flag run.journal.events.size

/-- The answer to a request and the stop flag after it. -/
def Request.perform (flag : Bool) : Request → Answer × Bool
  | evaluate text => (.outcome (runSteady flag text).outcome, flag)
  | trace schedule text =>
    let run := runScheduled schedule flag text
    (.run run, schedule.flagAfterRun flag run)
  | raise => (.nothing, true)
  | clear => (.nothing, false)
  | check => (.nothing, flag)

/-- The answers to the requests of a session, each with the stop flag after it. -/
def performAll (flag : Bool) : List Request → List (Answer × Bool)
  | [] => []
  | request :: rest =>
    let reply := request.perform flag
    reply :: performAll reply.2 rest

end ExactCalculator
