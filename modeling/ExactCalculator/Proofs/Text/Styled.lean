import ExactCalculator.Text.Style
import Mathlib.Data.List.Infix

/-! Texts that are styled as a whole. In a text that contains no reset sequence nothing has to be selected
again, so it stands as it is between the sequence that selects its style and the reset sequence
(`Style.paint_eq`). -/
namespace ExactCalculator
set_option autoImplicit false

namespace Style

/-- A text between a sequence that selects a style and the reset sequence; without color the text alone. -/
def enclose (color : Bool) (select text : String) : String :=
  if color then select ++ text ++ "\x1b[0m" else text

theorem toList_reset : reset.toList = ['\x1b', '[', '0', 'm'] := by rfl

theorem not_reset_part {cs : List Char} (h : '\x1b' ∉ cs) : ¬reset.toList <:+: cs := by
  rw [toList_reset]
  exact fun hpart => h (hpart.subset (List.mem_cons_self ..))

theorem resume_eq_self {cs restart : List Char} (h : ¬reset.toList <:+: cs) :
    resume restart cs = cs := by
  fun_induction resume restart cs with
  | case1 => rfl
  | case2 rest ih => exact absurd ⟨[], rest, rfl⟩ h
  | case3 c rest hno ih => rw [ih fun hpart => h (List.infix_cons hpart)]

theorem paint_eq (color : Bool) (style : Style) {text : String}
    (h : ¬reset.toList <:+: text.toList) : style.paint color text = enclose color style.select text := by
  unfold paint enclose
  rw [resume_eq_self h, String.ofList_toList]
  rfl

end Style

end ExactCalculator
