/-! Styled text for a terminal. A styled text stands between the sequence that selects the style
and the reset sequence; a reset inside it is followed by the style once more, so that the rest of
the text keeps it. -/
namespace ExactCalculator
set_option autoImplicit false

/-- A style that a part of the output can have. -/
inductive Style
  | red
  | redBold
  | dimmed
deriving DecidableEq, Repr

namespace Style

def code : Style → String
  | red => "31"
  | redBold => "1;31"
  | dimmed => "2"

def select (style : Style) : String := "\x1b[" ++ style.code ++ "m"

def reset : String := "\x1b[0m"

/-- The text with a restart of the style after each reset sequence in it. -/
def resume (restart : List Char) : List Char → List Char
  | [] => []
  | '\x1b' :: '[' :: '0' :: 'm' :: rest => reset.toList ++ restart ++ resume restart rest
  | c :: rest => c :: resume restart rest

/-- The text in the style; without coloring the text as it is. -/
def paint (color : Bool) (style : Style) (text : String) : String :=
  if color then
    style.select ++ String.ofList (resume style.select.toList text.toList) ++ reset
  else text

end Style

end ExactCalculator
