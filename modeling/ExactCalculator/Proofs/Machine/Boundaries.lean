import ExactCalculator.Proofs.Machine.Relocation
import ExactCalculator.Proofs.Trace.Runs

/-! Every range that a run tells of can be cut out of its text. Rounding offsets down to the boundaries
between characters (`lastBoundary`) carries the text over to itself, so by `runWith_relocate` it
changes no offset of a run: they all are boundaries. -/
namespace ExactCalculator
set_option autoImplicit false

/-- The range stands in the text and begins and ends between characters. -/
def Span.Fits (span : Span) (text : List Char) : Prop :=
  ∃ u b z, text = u ++ b ++ z ∧ span = ⟨byteLength u, byteLength (u ++ b)⟩

theorem Span.fits_of_boundaries {span : Span} {text : List Char}
    (hstart : IsBoundary text span.start) (hstop : IsBoundary text span.stop)
    (hle : span.start ≤ span.stop) : span.Fits text := by
  obtain ⟨start, stop⟩ := span
  obtain ⟨u, v, rfl, rfl⟩ := hstart
  obtain ⟨u', z, htext, rfl⟩ := hstop
  obtain ⟨b, rfl, rfl⟩ := exists_append_of_byteLength_le htext hle
  exact ⟨u, b, z, by simp, rfl⟩

/-! ## Rounding down -/

/-- The last boundary between characters that does not come after an offset. -/
def lastBoundary : List Char → Nat → Nat
  | [], _ => 0
  | c :: cs, offset =>
    if c.utf8Size ≤ offset then c.utf8Size + lastBoundary cs (offset - c.utf8Size) else 0

theorem isBoundary_lastBoundary (text : List Char) (offset : Nat) :
    IsBoundary text (lastBoundary text offset) := by
  induction text generalizing offset with
  | nil => exact ⟨[], [], rfl, rfl⟩
  | cons c cs ih =>
    unfold lastBoundary
    split
    · obtain ⟨u, v, hcs, hu⟩ := ih (offset - c.utf8Size)
      exact ⟨c :: u, v, by rw [hcs, List.cons_append], by rw [byteLength_cons, hu]⟩
    · exact ⟨[], c :: cs, rfl, rfl⟩

theorem lastBoundary_mono (text : List Char) : Monotone (lastBoundary text) := by
  induction text with
  | nil => exact fun _ _ _ => le_refl 0
  | cons c cs ih =>
    intro p q hpq
    have hrest := ih (Nat.sub_le_sub_right hpq c.utf8Size)
    unfold lastBoundary
    split
    · rw [if_pos (by omega)]
      omega
    · exact Nat.zero_le _

/-- A boundary is not moved. -/
theorem lastBoundary_split (w rest : List Char) :
    lastBoundary (w ++ rest) (byteLength w) = byteLength w := by
  induction w with
  | nil =>
    cases rest with
    | nil => rfl
    | cons c cs => exact if_neg (Nat.not_le_of_lt c.utf8Size_pos)
  | cons c cs ih =>
    rw [List.cons_append, byteLength_cons, lastBoundary, if_pos (Nat.le_add_right ..),
      Nat.add_sub_cancel_left, ih]

theorem carriesText_lastBoundary (w rest : List Char) :
    CarriesText (lastBoundary (w ++ rest)) (byteLength w) rest rest := by
  generalize htext : w ++ rest = text
  induction rest generalizing w with
  | nil => exact .nil _
  | cons c cs ih =>
    have htext' : (w ++ [c]) ++ cs = text := by rw [← htext]; simp
    have hnext : byteLength (w ++ [c]) = byteLength w + c.utf8Size := by simp
    have hhere := lastBoundary_split w (c :: cs)
    have hthere := lastBoundary_split (w ++ [c]) cs
    rw [htext] at hhere
    rw [htext', hnext] at hthere
    have hrest := ih (w ++ [c]) htext'
    rw [hnext] at hrest
    exact .keep (by rw [hhere, hthere]) hrest

/-! ## Ranges of runs -/

theorem Event.spans_relocate (f : Nat → Nat) (event : Event) :
    (event.relocate f).spans = event.spans.map (Span.relocate f) := by
  cases event with
  | enter rule => rfl
  | leave rule span outcome => cases outcome <;> rfl

theorem Run.spans_relocate (f : Nat → Nat) (run : Run) :
    (run.relocate f).spans = run.spans.map (Span.relocate f) := by
  have houtcome : (run.outcome.relocate f).spans = run.outcome.spans.map (Span.relocate f) := by
    cases run.outcome <;> rfl
  have hevents : (run.relocate f).events = run.events.map (Event.relocate f) := Array.toList_map ..
  rw [spans, spans, List.map_append, hevents, ← houtcome, List.flatMap_map, List.map_flatMap]
  simp only [Event.spans_relocate]
  rfl

section
variable {policy : Policy} {text : String}

theorem runWith_relocate_lastBoundary (hpolicy : policy.IgnoresOffsets (lastBoundary text.toList)) :
    runWith policy text = (runWith policy text).relocate (lastBoundary text.toList) :=
  runWith_relocate (lastBoundary_mono text.toList) (lastBoundary_split [] text.toList) hpolicy
    (carriesText_lastBoundary [] text.toList)

/-- If the answers to polls do not depend on offsets, every range that a run tells of fits the text. -/
theorem runWith_spans_fit (hpolicy : policy.IgnoresOffsets (lastBoundary text.toList)) :
    ∀ span ∈ (runWith policy text).spans, span.Fits text.toList := by
  intro span hspan
  have hfixed : span.relocate (lastBoundary text.toList) = span := by
    have hspans := congrArg Run.spans (runWith_relocate_lastBoundary hpolicy)
    rw [Run.spans_relocate] at hspans
    exact List.map_inj_left.1 (hspans.symm.trans (List.map_id _).symm) span hspan
  apply Span.fits_of_boundaries
  · rw [← hfixed]
    exact isBoundary_lastBoundary _ _
  · rw [← hfixed]
    exact isBoundary_lastBoundary _ _
  · exact (runWith_traced policy text).ordered span hspan

/-- A run asks whether to stop between two characters only. -/
theorem runWith_polls_isBoundary (hpolicy : policy.IgnoresOffsets (lastBoundary text.toList)) :
    ∀ poll ∈ (runWith policy text).journal.polls.toList, IsBoundary text.toList poll.offset := by
  intro poll hpoll
  have hpolls := congrArg (fun run => run.journal.polls.toList) (runWith_relocate_lastBoundary hpolicy)
  have hmap : (runWith policy text).journal.polls.toList =
      (runWith policy text).journal.polls.toList.map (Poll.relocate (lastBoundary text.toList)) :=
    hpolls.trans Array.toList_map
  have hfixed : poll.relocate (lastBoundary text.toList) = poll :=
    List.map_inj_left.1 (hmap.symm.trans (List.map_id _).symm) poll hpoll
  rw [← hfixed]
  exact isBoundary_lastBoundary _ _

end

end ExactCalculator
