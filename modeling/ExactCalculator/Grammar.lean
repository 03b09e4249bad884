import ExactCalculator.Evaluation.Symbol

/-! The grammar of expressions as derivation trees, and what the trees mean. A tree has a text, a
nesting depth and a value in the rational numbers, which is missing if a divisor in it is zero.
Sums and products lean to the left, so that the last operation of a text is at the root. -/
namespace ExactCalculator
set_option autoImplicit false

/-- How a factor is joined to the product before it: by an operator, or by standing next to it. -/
inductive Joint
  | written (scaling : Scaling)
  | beside
deriving DecidableEq, Repr

def Joint.scaling : Joint → Scaling
  | written scaling => scaling
  | beside => .multiply

def Sign.char : Sign → Char
  | plus => '+'
  | minus => '-'

def Scaling.char : Scaling → Char
  | multiply => '*'
  | divide => '/'

def Joint.text : Joint → List Char
  | written scaling => [scaling.char]
  | beside => []

/-! ## Derivations -/

mutual

/-- An expression: a term with or without a sign, then terms that are added or subtracted. -/
inductive Expression
  | first (sign : Option Sign) (term : Term)
  | next (before : Expression) (sign : Sign) (term : Term)

/-- A term: factors that are multiplied or divided by. -/
inductive Term
  | first (factor : Factor)
  | next (before : Term) (joint : Joint) (factor : Factor)

/-- A factor: the digits of a number, or an expression in parentheses. -/
inductive Factor
  | literal (digits : List Char)
  | group (inner : Expression)

end

mutual

/-- The text that an expression derives. -/
def Expression.text : Expression → List Char
  | .first sign term => (sign.map Sign.char).toList ++ term.text
  | .next before sign term => before.text ++ sign.char :: term.text

def Term.text : Term → List Char
  | .first factor => factor.text
  | .next before joint factor => before.text ++ joint.text ++ factor.text

def Factor.text : Factor → List Char
  | .literal digits => digits
  | .group inner => '(' :: inner.text ++ [')']

end

def Factor.isLiteral : Factor → Bool
  | .literal _ => true
  | .group _ => false

def Term.last : Term → Factor
  | .first factor => factor
  | .next _ _ factor => factor

mutual

/-- Literals are digits, at least one, and no two literals stand next to each other: a literal is
always a longest run of digits. -/
def Expression.WellFormed : Expression → Prop
  | .first _ term => term.WellFormed
  | .next before _ term => before.WellFormed ∧ term.WellFormed

def Term.WellFormed : Term → Prop
  | .first factor => factor.WellFormed
  | .next before joint factor =>
    before.WellFormed ∧ factor.WellFormed ∧
      (joint = .beside → before.last.isLiteral = true → factor.isLiteral = false)

def Factor.WellFormed : Factor → Prop
  | .literal digits => digits ≠ [] ∧ ∀ c ∈ digits, c.isDigit = true
  | .group inner => inner.WellFormed

end

mutual

/-- How many parentheses stand around the innermost place of an expression. -/
def Expression.depth : Expression → Nat
  | .first _ term => term.depth
  | .next before _ term => max before.depth term.depth

def Term.depth : Term → Nat
  | .first factor => factor.depth
  | .next before _ factor => max before.depth factor.depth

def Factor.depth : Factor → Nat
  | .literal _ => 0
  | .group inner => inner.depth + 1

end

/-! ## Values -/

/-- The number that decimal digits stand for. -/
def decimal (digits : List Char) : Nat := digits.foldl (fun n c => 10 * n + digitValue c) 0

def Sign.apply : Sign → Rat → Rat
  | plus, v => v
  | minus, v => -v

/-- A product continued by a factor. There is no division by zero. -/
def Scaling.apply? : Scaling → Rat → Rat → Option Rat
  | multiply, v, w => some (v * w)
  | divide, v, w => if w = 0 then none else some (v / w)

mutual

/-- The value of an expression. A leading sign belongs to the first term only. -/
def Expression.value? : Expression → Option Rat
  | .first sign term => term.value?.map (sign.getD .plus).apply
  | .next before sign term => do
    let v ← before.value?
    let w ← term.value?
    return v + sign.apply w

/-- The value of a term. All joints have one precedence. -/
def Term.value? : Term → Option Rat
  | .first factor => factor.value?
  | .next before joint factor => do
    let v ← before.value?
    let w ← factor.value?
    joint.scaling.apply? v w

def Factor.value? : Factor → Option Rat
  | .literal digits => some (decimal digits : Rat)
  | .group inner => inner.value?

end

end ExactCalculator
