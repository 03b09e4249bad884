import ExactCalculator.Proofs.Blame.Parts
import ExactCalculator.Proofs.Machine.Boundaries
import ExactCalculator.Proofs.Trace.Ledger
import Mathlib.Logic.Relation

/-! The cursor of a run. A run takes one character of its text after the other: ignored ones it skips, any
other one its machine reads. A path leads to every place that the cursor comes to (`Cursor.At`). So it
stands between two characters, in front of what is left of the text, and every range that is cut from
there begins and ends between characters as well (`Cursor.Sound`). -/
namespace ExactCalculator
set_option autoImplicit false

/-- A run in the middle of its text: the machine, where the reading stands, and the text from there on. -/
structure Cursor where
  machine : Machine
  offset : Nat
  rest : List Char

/-- The number that a literal stands for; nothing if the text is empty or has a character that is no
digit. -/
def parseDecimal? (text : List Char) : Option Nat :=
  if text.isEmpty || !text.all Char.isDigit then none else some (decimal text)

theorem parseDecimal?_eq_some_iff {text : List Char} {value : Nat} :
    parseDecimal? text = some value ↔
      text ≠ [] ∧ (∀ c ∈ text, c.isDigit = true) ∧ decimal text = value := by
  by_cases hall : text.all Char.isDigit = true
  · have hdigits : ∀ c ∈ text, c.isDigit = true := List.all_eq_true.1 hall
    cases text with
    | nil => simp [parseDecimal?]
    | cons c cs => simpa [parseDecimal?, hall] using fun _ => hdigits
  · have hno : ¬∀ c ∈ text, c.isDigit = true := mt List.all_eq_true.2 hall
    simp [parseDecimal?, hall, hno]

namespace Cursor

def start (text : String) : Cursor := ⟨{}, 0, text.toList⟩

/-- The cursor goes past one character. -/
inductive Step (policy : Policy) : Cursor → Cursor → Prop
  | skip {m : Machine} {p : Nat} {c : Char} {cs : List Char} (hc : isIgnored c = true) :
      Step policy ⟨m, p, c :: cs⟩ ⟨m, p + c.utf8Size, cs⟩
  | read {m m' : Machine} {p : Nat} {c : Char} {cs : List Char} (hc : isIgnored c = false)
      (hread : m.read policy (some c) p = .more m') :
      Step policy ⟨m, p, c :: cs⟩ ⟨m', p + c.utf8Size, cs⟩

def Reaches (policy : Policy) : Cursor → Cursor → Prop := Relation.ReflTransGen (Step policy)

/-- The run ends with the next visible character, or with the end of the text. -/
structure Ends (policy : Policy) (k : Cursor) (run : Run) : Prop where
  head : HeadVisible k.rest
  read : k.machine.read policy k.rest.head? k.offset = .ended run

section
variable {policy : Policy} {k k' : Cursor} {text w : List Char}

/-! ## The course of the cursor -/

/-- From every cursor the run goes on to one where it ends. -/
theorem exists_ends (policy : Policy) (m : Machine) (p : Nat) (rest : List Char) :
    ∃ k, Reaches policy ⟨m, p, rest⟩ k ∧ k.Ends policy (m.run policy p rest) := by
  induction rest generalizing m p with
  | nil =>
    obtain ⟨run, hread⟩ := m.read_none policy p
    refine ⟨⟨m, p, []⟩, .refl, by simp [HeadVisible], ?_⟩
    simp [Machine.run, hread]
  | cons c cs ih =>
    cases hc : isIgnored c with
    | true =>
      obtain ⟨k, hreaches, hends⟩ := ih m (p + c.utf8Size)
      rw [← Machine.run_of_ignored hc] at hends
      exact ⟨k, .head (.skip hc) hreaches, hends⟩
    | false =>
      cases hread : m.read policy (some c) p with
      | more m' =>
        obtain ⟨k, hreaches, hends⟩ := ih m' (p + c.utf8Size)
        refine ⟨k, .head (.read hc hread) hreaches, ?_⟩
        simpa [Machine.run, hc, hread] using hends
      | ended run =>
        refine ⟨⟨m, p, c :: cs⟩, .refl, .cons hc cs, ?_⟩
        simp [Machine.run, hc, hread]

theorem Step.offset_le (step : Step policy k k') : k.offset ≤ k'.offset := by
  cases step with
  | skip | read => exact Nat.le_add_right _ _

theorem Reaches.offset_le (h : Reaches policy k k') : k.offset ≤ k'.offset := by
  induction h with
  | refl => exact le_refl _
  | tail _ step ih => exact ih.trans step.offset_le

/-- The cursor has read the first part `w` of the text. -/
structure At (limit : Option Nat) (text w : List Char) (k : Cursor) : Prop where
  text_eq : text = w ++ k.rest
  offset_eq : k.offset = byteLength w
  path : ∃ xs, Path limit w xs k.machine

theorem Step.at (step : Step policy k k') (h : k.At policy.depthLimit text w) :
    ∃ c, k'.At policy.depthLimit text (w ++ [c]) := by
  cases step with
  | @skip m p c cs hc =>
    obtain ⟨htext, rfl, xs, path⟩ := h
    exact ⟨c, by simpa using htext, by simp, xs, path.skip hc⟩
  | @read m m' p c cs hc hread =>
    obtain ⟨htext, rfl, xs, path⟩ := h
    obtain ⟨ys, q, moves, hanswer⟩ := Machine.read_steps policy.depthLimit (some c) (byteLength w) m
    have hq : q = .more m' := by
      have hmore := (hanswer policy.signal).symm.trans hread
      rw [Signal.answer] at hmore
      split at hmore
      · cases hmore
      · exact hmore
    subst hq
    exact ⟨c, by simpa using htext, by simp, xs ++ ys, path.read hc moves hanswer⟩

theorem Reaches.at {input : String} (h : Reaches policy (start input) k) :
    ∃ w, k.At policy.depthLimit input.toList w := by
  induction h with
  | refl => exact ⟨[], rfl, rfl, [], .start⟩
  | tail _ step ih =>
    obtain ⟨w, hw⟩ := ih
    obtain ⟨c, hc⟩ := step.at hw
    exact ⟨w ++ [c], hc⟩

/-! ## Cutting at the cursor -/

/-- What the cursor can be asked to cut. -/
structure Sound (text : List Char) (k : Cursor) : Prop where
  /-- The cursor stands between two characters, before the rest of the text. -/
  rest_eq : ∃ w, text = w ++ k.rest ∧ k.offset = byteLength w
  offset_le : k.offset ≤ byteLength text
  /-- An interruption blames the empty range at the cursor. -/
  empty : (Span.emptyAt k.offset).Fits text
  /-- The next character is what stands in the range of its width. -/
  next : ∀ c cs, k.rest = c :: cs → ∃ w, (Span.ofChar c k.offset).cut? text = some ⟨w, [c], cs⟩
  /-- An open rule begins between two characters, and so ends what is left of it without the ignored
  characters at its end. -/
  rules : ∀ r ∈ k.machine.openRules, ∃ u b z, text = u ++ b ++ z ++ k.rest ∧
    r.start = byteLength u ∧ k.machine.spanFrom r.start = ⟨byteLength u, byteLength (u ++ b)⟩ ∧
    visible z = [] ∧ ∀ c, b.getLast? = some c → isIgnored c = false
  /-- The visible characters of a literal are digits, and the machine has the number that they are. -/
  literal : ∀ e t start value, k.machine.phase = .literal e t start value →
    ∃ u b, text = u ++ b ++ k.rest ∧ start = byteLength u ∧ parseDecimal? (visible b) = some value

variable {limit : Option Nat}

theorem At.ledger (h : k.At limit text w) : Ledger.Placed w k.machine.ledger := by
  obtain ⟨-, -, xs, path⟩ := h
  exact path.ledger.1.after.placed

theorem At.rule (h : k.At limit text w) {r : OpenRule} (hr : r ∈ k.machine.openRules) :
    ∃ u b z, w = u ++ b ++ z ∧ r.start = byteLength u ∧
      k.machine.spanFrom r.start = ⟨byteLength u, byteLength (u ++ b)⟩ ∧ visible z = [] ∧
      ∀ c, b.getLast? = some c → isIgnored c = false := by
  obtain ⟨u, b, z, hw, hspan, hz, -, hlast⟩ := h.ledger.exists_part hr
  exact ⟨u, b, z, hw, congrArg Span.start hspan, hspan, hz, hlast⟩

/-- The visible characters from the start of a literal to the cursor are its digits. -/
theorem At.literal (h : k.At limit text w) {e : OpenExpression} {t : OpenTerm} {start value : Nat}
    (hphase : k.machine.phase = .literal e t start value) :
    ∃ u b, w = u ++ b ∧ start = byteLength u ∧ parseDecimal? (visible b) = some value := by
  obtain ⟨htext, -, xs, path⟩ := h
  obtain ⟨d, hstands⟩ := path.stands htext
  have hpoint := hstands.tracks.point
  have hwell := hstands.wellFormed.point
  have hvisible := hstands.tracks.text_eq
  rw [Draft.text] at hvisible
  rw [hphase] at hpoint
  generalize d.point = point at hpoint hwell hvisible
  cases hpoint with
  | @literal sum product digits _ _ _ _ _ hbegins hne =>
    obtain ⟨-, -, -, -, hdigits⟩ := hwell
    rw [DraftPoint.text, ← List.append_assoc, ← List.append_assoc] at hvisible
    rw [htext] at hbegins
    obtain ⟨u, b, z, rfl, hu, -, -, hb, hz, -⟩ := exists_part hbegins hstands.tracks.mark hvisible hne
    refine ⟨u, b ++ z, List.append_assoc .., hu.symm, parseDecimal?_eq_some_iff.2 ?_⟩
    rw [visible_append, hb, hz, List.append_nil]
    exact ⟨hne, hdigits, rfl⟩

theorem At.sound (h : k.At limit text w) : k.Sound text := by
  have htext := h.text_eq
  have hoffset := h.offset_eq
  refine ⟨⟨w, htext, hoffset⟩, ?_, ?_, ?_, ?_, ?_⟩
  · rw [htext, hoffset, byteLength_append]
    exact Nat.le_add_right _ _
  · rw [hoffset]
    exact ⟨w, [], k.rest, by simpa using htext, by simp [Span.emptyAt]⟩
  · intro c cs hrest
    rw [htext, hoffset, hrest]
    exact ⟨w, Span.cut?_ofChar w c cs⟩
  · intro r hr
    obtain ⟨u, b, z, hw, hcut⟩ := h.rule hr
    exact ⟨u, b, z, by rw [htext, hw], hcut⟩
  · intro e t start value hphase
    obtain ⟨u, b, hw, hparse⟩ := h.literal hphase
    exact ⟨u, b, by rw [htext, hw], hparse⟩

/-- A rule that is open may be cut out from its start to wherever the cursor comes to. -/
theorem Reaches.rule_fits {input : String} (h : Reaches policy (start input) k)
    (h' : Reaches policy k k') {r : OpenRule} (hr : r ∈ k.machine.openRules) :
    (⟨r.start, k'.offset⟩ : Span).Fits input.toList := by
  obtain ⟨w, hw⟩ := h.at
  obtain ⟨w', hw'⟩ := Reaches.at (h.trans h')
  obtain ⟨u, b, z, hsplit, hstart, -⟩ := hw.rule hr
  apply Span.fits_of_boundaries
  · exact ⟨u, b ++ z ++ k.rest, by rw [hw.text_eq, hsplit]; simp, hstart.symm⟩
  · exact ⟨w', k'.rest, hw'.text_eq, hw'.offset_eq.symm⟩
  · calc r.start ≤ k.offset := by rw [hw.offset_eq]; exact hw.ledger.start_le hr
      _ ≤ k'.offset := h'.offset_le

end

end Cursor

/-! ## Runs -/

/-- Whatever is cut out of the text in a run can be cut out of it. -/
structure Run.CutsSafely (policy : Policy) (text : String) (run : Run) : Prop where
  sound : ∀ k, Cursor.Reaches policy (.start text) k → k.Sound text.toList
  monotone : ∀ k k', Cursor.Reaches policy (.start text) k → Cursor.Reaches policy k k' →
    k.offset ≤ k'.offset
  rules : ∀ k k', Cursor.Reaches policy (.start text) k → Cursor.Reaches policy k k' →
    ∀ r ∈ k.machine.openRules, (⟨r.start, k'.offset⟩ : Span).Fits text.toList
  ends : ∃ k, Cursor.Reaches policy (.start text) k ∧ k.Ends policy run
  spans : ∀ span ∈ run.spans, span.Fits text.toList
  polls : ∀ poll ∈ run.journal.polls.toList, (Span.emptyAt poll.offset).Fits text.toList
  faults : ∀ fault span, run.outcome = .failure ⟨.arithmetic fault, span⟩ → fault = .divisionByZero

/-- Whatever the schedule does to the stop flag, and wherever the text has characters of several bytes,
the cursor of a run and all that it cuts stand between two characters. -/
theorem runScheduled_cutsSafely (schedule : Schedule) (flag : Bool) (text : String) :
    (runScheduled schedule flag text).CutsSafely (.standard (schedule.signal flag)) text where
  sound := by
    intro k hk
    obtain ⟨w, hw⟩ := hk.at
    exact hw.sound
  monotone := fun k k' _ h => h.offset_le
  rules := fun k k' hk h r hr => hk.rule_fits h hr
  ends := Cursor.exists_ends _ {} 0 text.toList
  spans := runWith_spans_fit (schedule.ignoresOffsets flag _)
  polls := by
    intro poll hpoll
    obtain ⟨u, v, htext, hu⟩ := runWith_polls_isBoundary (schedule.ignoresOffsets flag _) poll hpoll
    exact ⟨u, [], v, by rw [htext, List.append_nil], by rw [← hu, List.append_nil]; rfl⟩
  faults := fun _ _ h => runWith_fault h

end ExactCalculator
