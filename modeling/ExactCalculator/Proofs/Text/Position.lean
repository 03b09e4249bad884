import ExactCalculator.Evaluation.Symbol
import ExactCalculator.Text.Span
import Mathlib.Data.List.Basic

/-! Places in a text that has ignored characters in it. A part of an expression begins at its first
visible character (`BeginsAt`) and ends with its last one (`EndsAt`); `exists_part` cuts the text
there and says what the visible characters of the three pieces are. -/
namespace ExactCalculator
set_option autoImplicit false

/-! ## Visible characters -/

@[simp] theorem visible_nil : visible [] = [] := rfl

@[simp] theorem visible_append (xs ys : List Char) :
    visible (xs ++ ys) = visible xs ++ visible ys := List.filter_append ..

theorem visible_cons_of_ignored {c : Char} (cs : List Char) (h : isIgnored c = true) :
    visible (c :: cs) = visible cs := by
  simp [visible, h]

theorem visible_cons_of_visible {c : Char} (cs : List Char) (h : isIgnored c = false) :
    visible (c :: cs) = c :: visible cs := by
  simp [visible, h]

theorem visible_eq_nil_iff {cs : List Char} : visible cs = [] ↔ ∀ c ∈ cs, isIgnored c = true := by
  simp [visible, List.filter_eq_nil_iff]

/-! ## Beginnings and ends -/

/-- The offset is between two characters of the text or at one of its ends. -/
def IsBoundary (text : List Char) (offset : Nat) : Prop :=
  ∃ u v, text = u ++ v ∧ byteLength u = offset

theorem IsBoundary.append {text : List Char} {offset : Nat} (h : IsBoundary text offset)
    (more : List Char) : IsBoundary (text ++ more) offset := by
  obtain ⟨u, v, rfl, hu⟩ := h
  exact ⟨u, v ++ more, List.append_assoc u v more, hu⟩

/-- Text in front of which no ignored characters could be dropped. -/
def HeadVisible (text : List Char) : Prop := ∀ c, text.head? = some c → isIgnored c = false

theorem HeadVisible.cons {c : Char} (hc : isIgnored c = false) (cs : List Char) :
    HeadVisible (c :: cs) := by
  intro b hb
  rw [← Option.some.inj hb]
  exact hc

/-- At the offset `start` of the text the visible characters `before` are over, and it goes on with a
visible character or ends. -/
def BeginsAt (text : List Char) (start : Nat) (before : List Char) : Prop :=
  ∃ u v, text = u ++ v ∧ byteLength u = start ∧ visible u = before ∧ HeadVisible v

/-- The last visible character of the text ends at the offset `mark`. -/
def EndsAt (text : List Char) (mark : Nat) : Prop :=
  ∃ u v, text = u ++ v ∧ byteLength u = mark ∧ visible v = [] ∧
    ∀ c, u.getLast? = some c → isIgnored c = false

theorem EndsAt.nil : EndsAt [] 0 := ⟨[], [], rfl, rfl, rfl, by simp⟩

theorem EndsAt.skip {w : List Char} {mark : Nat} {c : Char} (h : EndsAt w mark)
    (hc : isIgnored c = true) : EndsAt (w ++ [c]) mark := by
  obtain ⟨u, v, rfl, hu, hv, hlast⟩ := h
  refine ⟨u, v ++ [c], by simp, hu, ?_, hlast⟩
  simp [hv, visible_cons_of_ignored [] hc]

theorem EndsAt.take {w : List Char} {c : Char} (hc : isIgnored c = false) :
    EndsAt (w ++ [c]) (byteLength w + c.utf8Size) := by
  refine ⟨w ++ [c], [], by simp, by simp, rfl, ?_⟩
  intro d hd
  rw [List.getLast?_concat] at hd
  rw [← Option.some.inj hd]
  exact hc

theorem BeginsAt.of_split {w rest before : List Char} (hv : visible w = before)
    (hrest : HeadVisible rest) : BeginsAt (w ++ rest) (byteLength w) before :=
  ⟨w, rest, rfl, rfl, hv, hrest⟩

/-- The part of a text from the beginning of the visible characters `body` to their end. -/
theorem exists_part {w rest before body : List Char} {start mark : Nat}
    (hbegin : BeginsAt (w ++ rest) start before) (hend : EndsAt w mark)
    (hw : visible w = before ++ body) (hbody : body ≠ []) :
    ∃ u b z, w = u ++ b ++ z ∧ byteLength u = start ∧ byteLength (u ++ b) = mark ∧
      visible u = before ∧ visible b = body ∧ visible z = [] ∧ HeadVisible b ∧
      ∀ c, b.getLast? = some c → isIgnored c = false := by
  obtain ⟨u, v, huv, hu, hub, hhead⟩ := hbegin
  obtain ⟨u', z, rfl, hu', hz, hlast⟩ := hend
  have hvu' : visible u' = before ++ body := by simpa [hz] using hw
  rw [List.append_assoc] at huv
  rcases List.append_eq_append_iff.1 huv with ⟨a, rfl, -⟩ | ⟨b, rfl, hb⟩
  · -- the part would begin after its own end
    have hlen := congrArg List.length hub
    rw [visible_append, hvu'] at hlen
    have hpos := List.length_pos_of_ne_nil hbody
    simp only [List.length_append] at hlen
    omega
  · have hvb : visible b = body := by
      rw [visible_append, hub] at hvu'
      exact List.append_cancel_left hvu'
    have hne : b ≠ [] := by
      rintro rfl
      exact hbody hvb.symm
    refine ⟨u, b, z, rfl, hu, hu', hub, hvb, hz, ?_, ?_⟩
    · intro c hc
      apply hhead c
      rw [hb, List.head?_append, hc]
      rfl
    · intro c hc
      apply hlast c
      rw [List.getLast?_append, hc]
      rfl

/-- A text splits into ignored characters and a rest that begins with a visible one. -/
theorem exists_skip (text : List Char) :
    ∃ z v, text = z ++ v ∧ visible z = [] ∧ HeadVisible v := by
  induction text with
  | nil => exact ⟨[], [], rfl, rfl, by simp [HeadVisible]⟩
  | cons c cs ih =>
    cases hc : isIgnored c with
    | true =>
      obtain ⟨z, v, rfl, hz, hv⟩ := ih
      exact ⟨c :: z, v, rfl, by rw [visible_cons_of_ignored z hc, hz], hv⟩
    | false => exact ⟨[], c :: cs, rfl, rfl, .cons hc cs⟩

theorem HeadVisible.head?_visible {v : List Char} (h : HeadVisible v) :
    (visible v).head? = v.head? := by
  cases v with
  | nil => rfl
  | cons c cs => rw [visible_cons_of_visible cs (h c rfl), List.head?_cons, List.head?_cons]

/-! ## Cutting -/

theorem byteLength_eq_zero_iff {cs : List Char} : byteLength cs = 0 ↔ cs = [] := by
  cases cs with
  | nil => simp
  | cons c cs =>
    have hpos := c.utf8Size_pos
    simp only [byteLength_cons, reduceCtorEq, iff_false]
    omega

/-- Of two first parts of a text the shorter one begins the longer one. -/
theorem exists_append_of_byteLength_le {u v u' v' : List Char} (h : u ++ v = u' ++ v')
    (hle : byteLength u ≤ byteLength u') : ∃ b, u' = u ++ b ∧ v = b ++ v' := by
  rcases List.append_eq_append_iff.1 h with ⟨b, rfl, rfl⟩ | ⟨b, rfl, rfl⟩
  · exact ⟨b, rfl, rfl⟩
  · -- the first part is not longer, so nothing is between the two
    rw [byteLength_append] at hle
    obtain rfl : b = [] := byteLength_eq_zero_iff.1 (by omega)
    exact ⟨[], by simp, rfl⟩

theorem Span.cut?_append (u b z : List Char) :
    (⟨byteLength u, byteLength (u ++ b)⟩ : Span).cut? (u ++ b ++ z) = some ⟨u, b, z⟩ := by
  have hlen : byteLength (u ++ b) - byteLength u = byteLength b := by simp
  simp only [cut?, length, hlen, List.append_assoc, splitAtByte_append]

theorem Span.parts_of_cut? {span : Span} {text : List Char} {cut : Cut}
    (h : span.cut? text = some cut) :
    text = cut.before ++ cut.inside ++ cut.after ∧ span.start = byteLength cut.before ∧
      span.length = byteLength cut.inside := by
  unfold cut? at h
  split at h
  · cases h
  · next hbefore =>
    split at h
    · cases h
    · next hinside =>
      cases h
      obtain ⟨htext, hstart⟩ := splitAtByte_eq_some_iff.1 hbefore
      obtain ⟨hrest, hlength⟩ := splitAtByte_eq_some_iff.1 hinside
      exact ⟨by rw [htext, hrest, List.append_assoc], hstart.symm, hlength.symm⟩

theorem Span.slice_eq {text : String} {u b z : List Char} (h : text.toList = u ++ b ++ z) :
    Span.slice ⟨byteLength u, byteLength (u ++ b)⟩ text = String.ofList b := by
  rw [slice, h, cut?_append]

theorem Span.cut?_ofChar (w : List Char) (c : Char) (cs : List Char) :
    (Span.ofChar c (byteLength w)).cut? (w ++ c :: cs) = some ⟨w, [c], cs⟩ := by
  have hcut := Span.cut?_append w [c] cs
  rw [List.append_assoc, List.singleton_append, byteLength_append] at hcut
  exact hcut

theorem Span.cut?_emptyAt (w cs : List Char) :
    (Span.emptyAt (byteLength w)).cut? (w ++ cs) = some ⟨w, [], cs⟩ := by
  have hcut := Span.cut?_append w [] cs
  rw [List.append_nil] at hcut
  exact hcut

end ExactCalculator
