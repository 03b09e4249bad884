/-! The alphabet of the calculator: what each character of an expression means to the evaluator,
and which characters it does not see at all. -/
namespace ExactCalculator
set_option autoImplicit false

inductive Sign
  | plus
  | minus
deriving DecidableEq, Repr

/-- How a factor acts on the product before it. -/
inductive Scaling
  | multiply
  | divide
deriving DecidableEq, Repr

/-- What comes next in an expression. -/
inductive Symbol
  | digit (value : Nat)
  | sign (sign : Sign)
  | scaling (scaling : Scaling)
  | opening
  | closing
  | equals
  /-- A character with no meaning in an expression. -/
  | stray
  /-- No character is left. -/
  | ending
deriving DecidableEq, Repr

/-- The characters that may stand anywhere and mean nothing: ASCII letters, space, tab, line feed,
form feed and carriage return. -/
def isIgnored (c : Char) : Bool :=
  c.isAlpha || c == ' ' || c == '\t' || c == '\n' || c == '\x0c' || c == '\r'

/-- The characters of a text that mean something. -/
def visible (text : List Char) : List Char := text.filter fun c => !isIgnored c

/-- The number that a decimal digit stands for. -/
def digitValue (c : Char) : Nat := c.toNat - '0'.toNat

namespace Symbol

/-- The meaning of a character. -/
def ofChar (c : Char) : Symbol :=
  if c.isDigit then digit (digitValue c)
  else
    match c with
    | '+' => sign .plus
    | '-' => sign .minus
    | '*' => scaling .multiply
    | '/' => scaling .divide
    | '(' => opening
    | ')' => closing
    | '=' => equals
    | _ => stray

/-- The meaning of the next character, or of there being none. -/
def ofNext : Option Char → Symbol
  | some c => ofChar c
  | none => ending

end Symbol

end ExactCalculator
