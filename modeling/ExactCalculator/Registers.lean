import ExactCalculator.Evaluation

/-! Programs over named registers that hold fractions. An instruction stores its result under a
name; one that fails stores nothing. -/
namespace ExactCalculator
set_option autoImplicit false

/-- An operation on two fractions that always has a result. -/
inductive Operator
  | add
  | sub
  | mul
deriving DecidableEq, Repr

/-- The result of an operation. -/
def Operator.apply : Operator → Fraction → Fraction → Fraction
  | add, a, b => a + b
  | sub, a, b => a - b
  | mul, a, b => a * b

/-- A way to obtain a fraction. Strings name registers, except for the text to evaluate. -/
inductive Source
  | ratio (num den : Int)
  | integer (n : Int)
  | zero
  | one
  | copy (a : String)
  | evaluate (text : String)
  | combine (operator : Operator) (a b : String)
  | addInt (a : String) (n : Int)
  | subInt (a : String) (n : Int)
  | neg (a : String)
  | inv (a : String)
  /-- Division that reports a divisor of zero. -/
  | quotient (a b : String)
  /-- Division that gives up on a divisor of zero. -/
  | divide (a b : String)
deriving DecidableEq, Repr

/-- An instruction: store a fraction, or replace one by its combination with another. -/
inductive Instruction
  | assign (target : String) (source : Source)
  | update (target : String) (operator : Operator) (operand : String)
deriving DecidableEq, Repr

/-- Why an instruction has no result. -/
inductive Trouble
  | fault (fault : Fault)
  | aborted (abort : Abort)
  | failed (failure : Failure)
  | unset (register : String)
deriving DecidableEq, Repr

/-- The stored fractions with their names, the latest first. A later one hides an earlier one of
the same name. -/
abbrev Registers := List (String × Fraction)

namespace Registers

def get (registers : Registers) (name : String) : Except Trouble Fraction :=
  match registers.lookup name with
  | some value => .ok value
  | none => .error (.unset name)

def getAll (registers : Registers) (names : List String) : Except Trouble (List Fraction) :=
  names.mapM registers.get

def set (registers : Registers) (name : String) (value : Fraction) : Registers :=
  (name, value) :: registers

/-- The fraction that a source stands for. -/
def compute (registers : Registers) : Source → Except Trouble Fraction
  | .ratio num den => (Fraction.ofRatio num den).mapError .fault
  | .integer n => .ok (.ofInt n)
  | .zero => .ok .zero
  | .one => .ok .one
  | .copy a => registers.get a
  | .evaluate text =>
    match ExactCalculator.evaluate text with
    | .value value => .ok value
    | .failure failure => .error (.failed failure)
  | .combine operator a b => do return operator.apply (← registers.get a) (← registers.get b)
  | .addInt a n => do return (← registers.get a).addInt n
  | .subInt a n => do return (← registers.get a).subInt n
  | .neg a => do return -(← registers.get a)
  | .inv a => do (← registers.get a).inv.mapError .fault
  | .quotient a b => do ((← registers.get a).div (← registers.get b)).mapError .fault
  | .divide a b => do ((← registers.get a).divOrAbort (← registers.get b)).mapError .aborted

/-- The fraction that an instruction makes. -/
def result (registers : Registers) : Instruction → Except Trouble Fraction
  | .assign _ source => registers.compute source
  | .update target operator operand => do
    let value ← registers.get target
    return operator.apply value (← registers.get operand)

end Registers

def Instruction.target : Instruction → String
  | assign target _ => target
  | update target _ _ => target

/-- The answer to an instruction and the registers after it. -/
def Registers.perform (registers : Registers) (instruction : Instruction) :
    Except Trouble Fraction × Registers :=
  match registers.result instruction with
  | .ok value => (.ok value, registers.set instruction.target value)
  | .error trouble => (.error trouble, registers)

/-- The registers after a list of instructions. -/
def Registers.performAll (registers : Registers) (program : List Instruction) : Registers :=
  program.foldl (fun registers instruction => (registers.perform instruction).2) registers

end ExactCalculator
