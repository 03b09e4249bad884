/-! Exact fractions: an integer over a natural number. Every operation keeps fractions `Reduced`:
the denominator is positive and shares no factor with the numerator, so that one number has one
fraction. Sums are formed over the least common multiple of the denominators and reduced again;
products cancel crosswise first and then need no further reduction. -/
namespace ExactCalculator
set_option autoImplicit false

/-! ## Faults -/

/-- Why an arithmetic operation has no result. -/
inductive Fault
  | divisionByZero
  | other (message : String)
deriving DecidableEq, Repr

def Fault.message : Fault → String
  | divisionByZero => "division by zero"
  | other message => message

/-- The message with which an operation gives up that has no way to report a fault. -/
structure Abort where
  message : String
deriving DecidableEq, Repr

/-! ## Fractions -/

/-- A fraction. The numerator carries the sign. -/
structure Fraction where
  num : Int
  den : Nat
deriving DecidableEq, Hashable, Repr

namespace Fraction

/-- Lowest terms: the denominator is positive and coprime to the numerator. -/
def Reduced (a : Fraction) : Prop := 0 < a.den ∧ a.num.natAbs.Coprime a.den

instance (a : Fraction) : Decidable a.Reduced := inferInstanceAs (Decidable (_ ∧ _))

def ofInt (n : Int) : Fraction := ⟨n, 1⟩

def zero : Fraction := ofInt 0

def one : Fraction := ofInt 1

instance : Inhabited Fraction := ⟨zero⟩

/-- The quotient of an integer and a positive number in lowest terms. -/
def lowest (n : Int) (d : Nat) : Fraction :=
  let g := n.natAbs.gcd d
  ⟨n / (g : Int), d / g⟩

/-- The quotient of two integers in lowest terms. -/
def ofRatio (n d : Int) : Except Fault Fraction :=
  if d = 0 then .error .divisionByZero
  else if d < 0 then .ok (lowest (-n) d.natAbs)
  else .ok (lowest n d.natAbs)

/-- The number that the fraction stands for. -/
def toRat (a : Fraction) : Rat := mkRat a.num a.den

def isZero (a : Fraction) : Bool := a.num == 0

def isInteger (a : Fraction) : Bool := a.den == 1

def parts (a : Fraction) : Int × Int := (a.num, a.den)

/-! ## Arithmetic -/

def neg (a : Fraction) : Fraction := ⟨-a.num, a.den⟩

/-- The numerator of the fraction over a multiple of its denominator. -/
def numOver (a : Fraction) (multiple : Nat) : Int := a.num * ((multiple / a.den : Nat) : Int)

/-- The sum, over the least common multiple of the denominators and then reduced. -/
def add (a b : Fraction) : Fraction :=
  let m := a.den.lcm b.den
  lowest (a.numOver m + b.numOver m) m

/-- The difference, over the least common multiple of the denominators and then reduced. -/
def sub (a b : Fraction) : Fraction :=
  let m := a.den.lcm b.den
  lowest (a.numOver m - b.numOver m) m

/-- The sum with an integer. No factor comes in: gcd (n + k * d, d) is gcd (n, d). -/
def addInt (a : Fraction) (k : Int) : Fraction := ⟨a.num + k * a.den, a.den⟩

def subInt (a : Fraction) (k : Int) : Fraction := ⟨a.num - k * a.den, a.den⟩

/-- The product. The numerator of each factor is cancelled against the denominator of the other. -/
def mul (a b : Fraction) : Fraction :=
  let g := a.num.natAbs.gcd b.den
  let h := a.den.gcd b.num.natAbs
  ⟨(a.num / (g : Int)) * (b.num / (h : Int)), (a.den / h) * (b.den / g)⟩

/-- The reciprocal; zero has none. -/
def inv (a : Fraction) : Except Fault Fraction :=
  if a.isZero then .error .divisionByZero
  else if a.num < 0 then .ok ⟨-(a.den : Int), a.num.natAbs⟩
  else .ok ⟨a.den, a.num.natAbs⟩

/-- The quotient, the product with the reciprocal of the divisor. -/
def div (a b : Fraction) : Except Fault Fraction :=
  match b.inv with
  | .ok r => .ok (a.mul r)
  | .error fault => .error fault

/-- The quotient for callers that know the divisor is not zero. It gives up on zero. -/
def divOrAbort (a b : Fraction) : Except Abort Fraction :=
  match a.div b with
  | .ok q => .ok q
  | .error fault => .error ⟨fault.message⟩

instance : Neg Fraction := ⟨neg⟩
instance : Add Fraction := ⟨add⟩
instance : Sub Fraction := ⟨sub⟩
instance : Mul Fraction := ⟨mul⟩

/-! ## Text -/

/-- An integer in decimal digits, with a minus sign if it is negative. -/
def integerText (n : Int) : String :=
  if n < 0 then "-" ++ n.natAbs.repr else n.natAbs.repr

/-- Zero and integers without a denominator, other fractions with both parts. -/
def toText (a : Fraction) : String :=
  if a.isZero then "0"
  else if a.isInteger then integerText a.num
  else integerText a.num ++ " / " ++ a.den.repr

/-- The fields of the fraction as they are stored. -/
def debugText (a : Fraction) : String :=
  "Rational \x7b numer: " ++ integerText a.num ++ ", denom: " ++ a.den.repr ++ " \x7d"

end Fraction

end ExactCalculator
