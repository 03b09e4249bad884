import ExactCalculator.Proofs.Machine.Relocation
import ExactCalculator.Session

/-! Ignored characters are invisible. A run on a text and the run on its visible characters alone
report the same; only the offsets differ, and each offset of the one is the number of visible bytes
before that of the other (`visibleBefore`). -/
namespace ExactCalculator
set_option autoImplicit false

/-! ## Visible bytes -/

/-- How many of the first `offset` bytes of a text belong to visible characters. -/
def visibleBefore : List Char → Nat → Nat
  | [], _ => 0
  | c :: cs, offset =>
    (if isIgnored c then 0 else min c.utf8Size offset) + visibleBefore cs (offset - c.utf8Size)

@[simp] theorem visibleBefore_zero (text : List Char) : visibleBefore text 0 = 0 := by
  induction text with
  | nil => rfl
  | cons c cs ih => simp [visibleBefore, ih]

theorem visibleBefore_mono (text : List Char) : Monotone (visibleBefore text) := by
  induction text with
  | nil => exact fun _ _ _ => le_refl 0
  | cons c cs ih =>
    intro p q hpq
    have hrest := ih (Nat.sub_le_sub_right hpq c.utf8Size)
    unfold visibleBefore
    split
    · omega
    · omega

/-- Between two characters all of the visible ones before count. -/
theorem visibleBefore_append (w rest : List Char) (offset : Nat) :
    visibleBefore (w ++ rest) (byteLength w + offset) =
      byteLength (visible w) + visibleBefore rest offset := by
  induction w with
  | nil => simp
  | cons c cs ih =>
    have hsub : c.utf8Size + byteLength cs + offset - c.utf8Size = byteLength cs + offset := by omega
    have hmin : min c.utf8Size (c.utf8Size + byteLength cs + offset) = c.utf8Size := by omega
    rw [List.cons_append, visibleBefore, byteLength_cons, hsub, hmin, ih]
    cases hc : isIgnored c with
    | true => rw [visible_cons_of_ignored cs hc, if_pos rfl, Nat.zero_add]
    | false =>
      rw [visible_cons_of_visible cs hc, if_neg Bool.false_ne_true, byteLength_cons, Nat.add_assoc]

theorem visibleBefore_split (w rest : List Char) :
    visibleBefore (w ++ rest) (byteLength w) = byteLength (visible w) := by
  have hsplit := visibleBefore_append w rest 0
  rwa [visibleBefore_zero, Nat.add_zero, Nat.add_zero] at hsplit

/-! ## Runs -/

/-- Counting visible bytes carries any rest of a text over to the visible part of that rest. -/
theorem carriesText_visible (w rest : List Char) :
    CarriesText (visibleBefore (w ++ rest)) (byteLength w) rest (visible rest) := by
  generalize htext : w ++ rest = text
  induction rest generalizing w with
  | nil => exact .nil _
  | cons c cs ih =>
    have hnext : byteLength (w ++ [c]) = byteLength w + c.utf8Size := by simp
    have hhere : visibleBefore text (byteLength w) = byteLength (visible w) := by
      rw [← htext]
      exact visibleBefore_split w (c :: cs)
    have hthere : visibleBefore text (byteLength w + c.utf8Size) =
        byteLength (visible w) + byteLength (visible [c]) := by
      rw [← byteLength_append, ← visible_append, ← htext, ← hnext, ← visibleBefore_split (w ++ [c]) cs]
      simp
    have hrest := ih (w ++ [c]) (by rw [← htext]; simp)
    rw [hnext] at hrest
    cases hc : isIgnored c with
    | true =>
      rw [visible_cons_of_ignored cs hc]
      refine .drop hc ?_ hrest
      rw [hthere, hhere, visible_cons_of_ignored [] hc]
      rfl
    | false =>
      rw [visible_cons_of_visible cs hc]
      refine .keep ?_ hrest
      rw [hthere, hhere, visible_cons_of_visible [] hc]
      rfl

/-- Under any schedule a text and its visible characters alone have the same run up to offsets: those
of the second count the visible bytes before those of the first. -/
theorem runScheduled_visible (schedule : Schedule) (flag : Bool) (text : String) :
    runScheduled schedule flag (String.ofList (visible text.toList)) =
      (runScheduled schedule flag text).relocate (visibleBefore text.toList) := by
  refine runWith_relocate (visibleBefore_mono _) (visibleBefore_zero _)
    (schedule.ignoresOffsets flag _) ?_
  rw [String.toList_ofList]
  exact carriesText_visible [] text.toList

/-- Blanks and letters inside a literal: the factor of `1 x2` reads bytes 0 to 4, of which two are
visible. -/
example : (runSteady false "1 x2*3").journal.events.toList[3]? =
    some (.leave .factor ⟨0, 4⟩ (.value (.ofInt 12))) ∧ visibleBefore "1 x2*3".toList 4 = 2 :=
  ⟨by rfl, by decide⟩

end ExactCalculator
