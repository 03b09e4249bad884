import ExactCalculator.Proofs.Highlight
import ExactCalculator.Proofs.Machine.Boundaries

/-! Highlighting in another text than the evaluated one. The shown text may be any part of the evaluated
one, so what is to blame may stand before it, behind it, across one of its ends or inside. Whether the
range is marked is decided by one test (`Span.Markable`), which is just what it takes to cut the shown
text at both ends of the range (`Span.markable_iff`). Without coloring nothing but an underscore is ever
added, and the part of the evaluated text that is to blame is found whenever it is shown. -/
namespace ExactCalculator
set_option autoImplicit false

/-- The range does not reach beyond the text, and both of its ends are between characters. -/
def Span.Markable (span : Span) (text : List Char) : Prop :=
  span.stop ≤ byteLength text ∧ IsBoundary text span.start ∧ IsBoundary text span.stop

/-- What is shown of a failure in a part of the evaluated text. -/
structure Failure.ShownIn (failure : Failure) (text : String) (range : Span) : Prop where
  /-- A range that fails the test marks nothing. -/
  missed : ¬(failure.spanWithin range.start).Markable (range.slice text).toList →
    ∀ color, failure.highlightFrom color range.start (range.slice text) = range.slice text
  /-- A range that passes the test can be cut out, and it is marked where it stands. -/
  marked : (failure.spanWithin range.start).Markable (range.slice text).toList →
    ∃ cut, (failure.spanWithin range.start).cut? (range.slice text).toList = some cut ∧
      (range.slice text).toList = cut.before ++ cut.inside ++ cut.after ∧
      byteLength cut.before = failure.span.start - range.start ∧
      byteLength cut.inside = failure.span.stop - failure.span.start ∧
      ∀ color, failure.highlightFrom color range.start (range.slice text) =
        String.ofList cut.before ++
          Style.redBold.paint color
            (if failure.span.start = failure.span.stop then "_" else String.ofList cut.inside) ++
          String.ofList cut.after
  /-- Without coloring the shown text is kept, but for an underscore in place of an empty range. -/
  plain : failure.highlightFrom false range.start (range.slice text) = range.slice text ∨
    failure.span.start = failure.span.stop ∧
      ∃ before after, (range.slice text).toList = before ++ after ∧
        byteLength before = failure.span.start - range.start ∧
        failure.highlightFrom false range.start (range.slice text) =
          String.ofList before ++ "_" ++ String.ofList after
  /-- What is to blame is marked if it is shown. -/
  shown : range.start ≤ failure.span.start → failure.span.stop ≤ range.stop →
    (failure.spanWithin range.start).Markable (range.slice text).toList ∧
      (failure.spanWithin range.start).slice (range.slice text) = failure.span.slice text

section
variable {span blamed range : Span} {text : List Char} {u s z : List Char}

/-- A range can be cut out of a text exactly if it passes the test. -/
theorem Span.markable_iff (hle : span.start ≤ span.stop) :
    span.Markable text ↔ ∃ cut, span.cut? text = some cut := by
  constructor
  · rintro ⟨-, hstart, hstop⟩
    obtain ⟨u, b, z, rfl, rfl⟩ := Span.fits_of_boundaries hstart hstop hle
    exact ⟨⟨u, b, z⟩, Span.cut?_append u b z⟩
  · rintro ⟨cut, hcut⟩
    obtain ⟨htext, -⟩ := Span.parts_of_cut? hcut
    rw [Span.eq_of_cut? hcut hle, htext]
    refine ⟨?_, ⟨_, _, List.append_assoc .., rfl⟩, ⟨_, _, rfl, rfl⟩⟩
    rw [byteLength_append (cut.before ++ cut.inside)]
    exact Nat.le_add_right _ _

theorem Span.Fits.start_le_stop (h : span.Fits text) : span.start ≤ span.stop := by
  obtain ⟨u, b, z, -, rfl⟩ := h
  rw [byteLength_append]
  exact Nat.le_add_right _ _

/-- A range inside of another one, as a range of the text in that one. -/
theorem Span.Fits.exists_inside (hblamed : blamed.Fits (u ++ s ++ z))
    (hstart : byteLength u ≤ blamed.start) (hstop : blamed.stop ≤ byteLength (u ++ s)) :
    ∃ x b y, s = x ++ b ++ y ∧ blamed = ⟨byteLength (u ++ x), byteLength (u ++ x ++ b)⟩ := by
  obtain ⟨u', b, z', htext, rfl⟩ := hblamed
  rw [List.append_assoc, List.append_assoc] at htext
  obtain ⟨x, rfl, hs⟩ := exists_append_of_byteLength_le htext hstart
  have htail : x ++ b ++ z' = s ++ z := by rw [hs, List.append_assoc]
  have hlength : byteLength (x ++ b) ≤ byteLength s := by
    simp only [byteLength_append] at hstop ⊢
    omega
  obtain ⟨y, rfl, -⟩ := exists_append_of_byteLength_le htail hlength
  exact ⟨x, b, y, rfl, rfl⟩

end

/-! ## Marking -/

namespace Failure

variable {failure : Failure} {range : Span} {text shown : String} {shownStart : Nat} {cut : Cut}

theorem spanWithin_ordered (failure : Failure) (shownStart : Nat) :
    (failure.spanWithin shownStart).start ≤ (failure.spanWithin shownStart).stop :=
  Nat.le_add_right _ _

theorem highlightFrom_of_not_markable (color : Bool)
    (h : ¬(failure.spanWithin shownStart).Markable shown.toList) :
    failure.highlightFrom color shownStart shown = shown := by
  rw [Span.markable_iff (failure.spanWithin_ordered shownStart)] at h
  cases hcut : (failure.spanWithin shownStart).cut? shown.toList with
  | none => rw [highlightFrom, hcut]
  | some cut => exact absurd ⟨cut, hcut⟩ h

theorem byteLength_of_cut? (h : (failure.spanWithin shownStart).cut? shown.toList = some cut) :
    byteLength cut.before = failure.span.start - shownStart ∧
      byteLength cut.inside = failure.span.stop - failure.span.start := by
  obtain ⟨-, hbefore, hinside⟩ := Span.parts_of_cut? h
  exact ⟨hbefore.symm, hinside.symm.trans (Nat.add_sub_cancel_left ..)⟩

theorem inside_eq_nil_iff (h : (failure.spanWithin shownStart).cut? shown.toList = some cut)
    (hle : failure.span.start ≤ failure.span.stop) :
    cut.inside = [] ↔ failure.span.start = failure.span.stop := by
  rw [← byteLength_eq_zero_iff, (byteLength_of_cut? h).2]
  omega

/-- The marked part is an underscore just if the blamed range is empty. -/
theorem marked_eq (h : (failure.spanWithin shownStart).cut? shown.toList = some cut)
    (hle : failure.span.start ≤ failure.span.stop) :
    String.ofList cut.marked =
      if failure.span.start = failure.span.stop then "_" else String.ofList cut.inside := by
  by_cases hempty : cut.inside = []
  · rw [Cut.marked_of_empty hempty, if_pos ((inside_eq_nil_iff h hle).1 hempty)]
  · rw [Cut.marked_of_ne_nil hempty, if_neg (mt (inside_eq_nil_iff h hle).2 hempty)]

/-- Without coloring a part that is not empty stays as it is. -/
theorem plain_of_cut (h : (failure.spanWithin shownStart).cut? shown.toList = some cut)
    (hle : failure.span.start ≤ failure.span.stop) :
    failure.highlightFrom false shownStart shown = shown ∨
      failure.span.start = failure.span.stop ∧
        ∃ before after, shown.toList = before ++ after ∧
          byteLength before = failure.span.start - shownStart ∧
          failure.highlightFrom false shownStart shown =
            String.ofList before ++ "_" ++ String.ofList after := by
  obtain ⟨htext, -⟩ := Span.parts_of_cut? h
  have hplain : failure.highlightFrom false shownStart shown =
      String.ofList cut.before ++ String.ofList cut.marked ++ String.ofList cut.after :=
    highlightFrom_of_cut false h
  by_cases hempty : cut.inside = []
  · right
    rw [Cut.marked_of_empty hempty] at hplain
    rw [hempty, List.append_nil] at htext
    obtain ⟨hbefore, -⟩ := byteLength_of_cut? h
    exact ⟨(inside_eq_nil_iff h hle).1 hempty, cut.before, cut.after, htext, hbefore, hplain⟩
  · left
    rw [hplain, Cut.marked_of_ne_nil hempty, ← String.ofList_append, ← String.ofList_append, ← htext,
      String.ofList_toList]

/-- A blamed range inside the shown one is found in the shown text. -/
theorem shown_of_inside (hblamed : failure.span.Fits text.toList) (hrange : range.Fits text.toList)
    (hstart : range.start ≤ failure.span.start) (hstop : failure.span.stop ≤ range.stop) :
    (failure.spanWithin range.start).Markable (range.slice text).toList ∧
      (failure.spanWithin range.start).slice (range.slice text) = failure.span.slice text := by
  obtain ⟨u, s, z, htext, rfl⟩ := hrange
  rw [htext] at hblamed
  obtain ⟨x, b, y, rfl, hspan⟩ := hblamed.exists_inside hstart hstop
  have hwithin : failure.spanWithin (byteLength u) = ⟨byteLength x, byteLength (x ++ b)⟩ := by
    simp only [spanWithin, hspan, Span.length, byteLength_append, Span.mk.injEq]
    omega
  have hshown : (String.ofList (x ++ b ++ y)).toList = x ++ b ++ y := String.toList_ofList
  rw [Span.slice_eq htext, hwithin]
  constructor
  · rw [Span.markable_iff (by simp), hshown]
    exact ⟨_, Span.cut?_append x b y⟩
  · have hwhole : text.toList = (u ++ x) ++ b ++ (y ++ z) := by simp [htext]
    rw [hspan, Span.slice_eq hshown, Span.slice_eq hwhole]

/-- Wherever the blamed and the shown range stand in a text, highlighting marks the blamed part of the
shown text or nothing. -/
theorem highlightFrom_shownIn (hblamed : failure.span.Fits text.toList)
    (hrange : range.Fits text.toList) : failure.ShownIn text range where
  missed := fun h color => highlightFrom_of_not_markable color h
  marked := by
    intro h
    obtain ⟨cut, hcut⟩ := (Span.markable_iff (failure.spanWithin_ordered range.start)).1 h
    obtain ⟨htext, -⟩ := Span.parts_of_cut? hcut
    obtain ⟨hbefore, hinside⟩ := byteLength_of_cut? hcut
    refine ⟨cut, hcut, htext, hbefore, hinside, fun color => ?_⟩
    rw [highlightFrom_of_cut color hcut, marked_eq hcut hblamed.start_le_stop]
  plain := by
    by_cases h : (failure.spanWithin range.start).Markable (range.slice text).toList
    · obtain ⟨cut, hcut⟩ := (Span.markable_iff (failure.spanWithin_ordered range.start)).1 h
      exact plain_of_cut hcut hblamed.start_le_stop
    · exact .inl (highlightFrom_of_not_markable false h)
  shown := shown_of_inside hblamed hrange

/-- Both ranges begin after a character of two bytes, and the blamed one ends with such a character. -/
theorem highlightFrom_shownIn_of_umlauts :
    (⟨3, 5⟩ : Span).Fits "é+ü*2".toList ∧ (⟨2, 6⟩ : Span).Fits "é+ü*2".toList ∧
      ShownIn ⟨.unexpectedChar 'ü', ⟨3, 5⟩⟩ "é+ü*2" ⟨2, 6⟩ :=
  have hblamed : (⟨3, 5⟩ : Span).Fits "é+ü*2".toList :=
    ⟨['é', '+'], ['ü'], ['*', '2'], by decide, by decide⟩
  have hrange : (⟨2, 6⟩ : Span).Fits "é+ü*2".toList :=
    ⟨['é'], ['+', 'ü', '*'], ['2'], by decide, by decide⟩
  ⟨hblamed, hrange, highlightFrom_shownIn hblamed hrange⟩

end Failure

end ExactCalculator
