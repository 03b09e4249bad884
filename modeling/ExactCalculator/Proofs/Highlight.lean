import ExactCalculator.Proofs.Blame.Exact
import ExactCalculator.Proofs.Text.Styled
import ExactCalculator.Proofs.Trace.Ledger

/-! What is shown of a failed evaluation. The part of the text that is to blame can be cut out of it, so
it is always found and marked. It has one character at most or was read as a divisor, and nothing that
is read contains an escape character (`Ledger.After.escape_not_mem`). So no reset sequence is in the
marked part, and coloring adds the two sequences around it and nothing else. -/
namespace ExactCalculator
set_option autoImplicit false

/-! ## Styled text -/

namespace Style

/-- The text without the first reset sequence in it. -/
def eraseReset : List Char → List Char
  | [] => []
  | '\x1b' :: '[' :: '0' :: 'm' :: rest => rest
  | c :: rest => c :: eraseReset rest

/-- The text without the sequence at the offset, which selects the style, and the next reset. -/
def remove (style : Style) (offset : Nat) (text : String) : String :=
  match splitAtByte text.toList offset with
  | none => text
  | some (before, rest) =>
    String.ofList (before ++ eraseReset (rest.drop style.select.toList.length))

variable {cs : List Char}

/-- The first reset sequence is the one after a text that contains none. -/
theorem eraseReset_append (h : ¬reset.toList <:+: cs) (rest : List Char) :
    eraseReset (cs ++ reset.toList ++ rest) = cs ++ rest := by
  rw [toList_reset] at h ⊢
  induction cs with
  | nil => rfl
  | cons c cs ih =>
    have htail := ih fun hpart => h (List.infix_cons hpart)
    rw [List.cons_append, List.cons_append, eraseReset, htail]
    · rfl
    · -- a reset sequence here would be part of the text or overlap the next one
      rintro more rfl hmore
      rcases cs with _ | ⟨a, _ | ⟨b, _ | ⟨d, cs⟩⟩⟩ <;> simp at hmore
      obtain ⟨rfl, rfl, rfl, -⟩ := hmore
      exact h ⟨[], cs, rfl⟩

end Style

/-! ## Marked parts -/

/-- The part that is marked; an underscore stands for an empty one. -/
def Cut.marked (cut : Cut) : List Char := if cut.inside.isEmpty then ['_'] else cut.inside

theorem Cut.marked_of_empty {cut : Cut} (h : cut.inside = []) : cut.marked = ['_'] := by
  rw [marked, h]
  rfl

theorem Cut.marked_of_ne_nil {cut : Cut} (h : cut.inside ≠ []) : cut.marked = cut.inside := by
  rw [marked, List.isEmpty_eq_false_iff.2 h]
  rfl

/-- No reset sequence is in a single character or in a text without an escape character. -/
theorem Cut.not_reset_part {cut : Cut} (h : cut.inside.length ≤ 1 ∨ '\x1b' ∉ cut.inside) :
    ¬Style.reset.toList <:+: cut.marked := by
  by_cases hempty : cut.inside = []
  · rw [Cut.marked_of_empty hempty]
    exact Style.not_reset_part (by decide)
  · rw [Cut.marked_of_ne_nil hempty]
    rcases h with hshort | hescape
    · intro hpart
      have hlength := hpart.length_le.trans hshort
      simp [Style.toList_reset] at hlength
    · exact Style.not_reset_part hescape

theorem Span.eq_of_cut? {span : Span} {text : List Char} {cut : Cut}
    (h : span.cut? text = some cut) (hle : span.start ≤ span.stop) :
    span = ⟨byteLength cut.before, byteLength (cut.before ++ cut.inside)⟩ := by
  obtain ⟨start, stop⟩ := span
  obtain ⟨-, rfl, hlength⟩ := Span.parts_of_cut? h
  have hstop : stop = byteLength (cut.before ++ cut.inside) := by
    simp only [Span.length] at hlength hle
    rw [byteLength_append]
    omega
  rw [hstop]

namespace Failure

variable {failure : Failure} {text : String} {cut : Cut}

theorem spanWithin_zero (h : failure.span.start ≤ failure.span.stop) :
    failure.spanWithin 0 = failure.span := by
  obtain ⟨cause, start, stop⟩ := failure
  have hstop : start + (stop - start) = stop := by
    simp only at h
    omega
  exact congrArg (Span.mk start) hstop

theorem highlightFrom_of_cut (color : Bool) {shownStart : Nat}
    (h : (failure.spanWithin shownStart).cut? text.toList = some cut) :
    failure.highlightFrom color shownStart text = String.ofList cut.before ++
      Style.redBold.paint color (String.ofList cut.marked) ++ String.ofList cut.after := by
  rw [highlightFrom, h, Cut.marked]
  cases hempty : cut.inside.isEmpty <;> simp only [hempty] <;> rfl

theorem highlight_of_cut (color : Bool) (h : (failure.spanWithin 0).cut? text.toList = some cut) :
    failure.highlight color text = String.ofList cut.before ++
      Style.redBold.paint color (String.ofList cut.marked) ++ String.ofList cut.after :=
  highlightFrom_of_cut color h

theorem highlight_false (h : (failure.spanWithin 0).cut? text.toList = some cut) :
    failure.highlight false text = String.ofList (cut.before ++ cut.marked ++ cut.after) := by
  rw [highlight_of_cut false h, String.ofList_append, String.ofList_append]
  rfl

theorem highlight_eq (color : Bool) (h : (failure.spanWithin 0).cut? text.toList = some cut)
    (hreset : ¬Style.reset.toList <:+: cut.marked) :
    failure.highlight color text = String.ofList cut.before ++
      Style.enclose color "\x1b[1;31m" (String.ofList cut.marked) ++ String.ofList cut.after := by
  have hmarked : ¬Style.reset.toList <:+: (String.ofList cut.marked).toList := by
    rwa [String.toList_ofList]
  rw [highlight_of_cut color h, Style.paint_eq color _ hmarked]
  rfl

theorem highlight_true (h : (failure.spanWithin 0).cut? text.toList = some cut)
    (hreset : ¬Style.reset.toList <:+: cut.marked) :
    failure.highlight true text = String.ofList cut.before ++ Style.redBold.select ++
      String.ofList cut.marked ++ Style.reset ++ String.ofList cut.after := by
  rw [highlight_eq true h hreset, Style.enclose, if_pos rfl]
  simp only [String.append_assoc]
  rfl

theorem remove_highlight (h : (failure.spanWithin 0).cut? text.toList = some cut)
    (hreset : ¬Style.reset.toList <:+: cut.marked) :
    Style.redBold.remove (byteLength cut.before) (failure.highlight true text) =
      failure.highlight false text := by
  have hlist : (failure.highlight true text).toList = cut.before ++
      (Style.redBold.select.toList ++ (cut.marked ++ Style.reset.toList ++ cut.after)) := by
    rw [highlight_true h hreset]
    simp [String.toList_append]
  rw [Style.remove, hlist, splitAtByte_append, highlight_false h]
  simp only [List.drop_left]
  rw [Style.eraseReset_append hreset, List.append_assoc]

end Failure

/-! ## What is read -/

section
variable {limit : Option Nat} {w rest : List Char} {d : Draft} {failure : Failure} {cut : Cut}

/-- A blamed part with more than one character was read. -/
theorem Blamed.short_or_read (h : Blamed limit w rest d failure cut) (hescape : '\x1b' ∉ w) :
    cut.inside.length ≤ 1 ∨ '\x1b' ∉ cut.inside := by
  cases h with
  | ending => exact .inl (Nat.zero_le 1)
  | char | opening => exact .inl le_rfl
  | literal _ _ _ hw =>
    refine .inr fun hmem => hescape ?_
    rw [hw]
    simp [hmem]
  | @group u b _ _ _ _ _ _ hw =>
    refine .inr fun hmem => hescape ?_
    have hread : '\x1b' ∈ w ++ [')'] := by
      rw [hw]
      exact List.mem_append_right _ hmem
    simpa using hread

theorem Blamed.of_endOfInput (h : Blamed limit w rest d failure cut)
    (hcause : failure.cause = .endOfInput) : cut.inside = [] ∧ cut.after = [] := by
  cases h with
  | ending => exact ⟨rfl, rfl⟩
  | char | opening | literal | group => cases hcause

end

/-- The blamed part of the text of any run that fails. -/
theorem exists_cut_of_failure {policy : Policy} {text : String} {failure : Failure}
    (h : (runWith policy text).outcome = .failure failure) :
    ∃ cut, failure.span.cut? text.toList = some cut ∧
      (cut.inside.length ≤ 1 ∨ '\x1b' ∉ cut.inside) ∧
      (failure.cause = .endOfInput → cut.inside = [] ∧ cut.after = []) := by
  obtain ⟨w, rest, xs, m, ys, r, hcourse⟩ := exists_course policy.depthLimit text.toList
  rcases hcourse.runWith_cases with hrun | ⟨x, hx, hrun⟩
  · rw [hrun] at h
    obtain ⟨d, cut, -, hcut, hblamed⟩ := hcourse.blamed h
    have hescape := hcourse.path.ledger.1.after.escape_not_mem
    exact ⟨cut, hcut, hblamed.short_or_read hescape, hblamed.of_endOfInput⟩
  · rw [hrun] at h
    obtain rfl : (⟨.interrupt, .emptyAt x.offset⟩ : Failure) = failure := Outcome.failure.inj h
    obtain ⟨u, v, htext, hu⟩ := hcourse.boundary x hx
    refine ⟨⟨u, [], v⟩, ?_, .inl (Nat.zero_le 1), nofun⟩
    rw [htext, ← hu]
    exact Span.cut?_emptyAt u v

theorem ordered_of_failure {policy : Policy} {text : String} {failure : Failure}
    (h : (runWith policy text).outcome = .failure failure) :
    failure.span.start ≤ failure.span.stop := by
  refine (runWith_traced policy text).outcome failure.span ?_
  rw [h]
  exact List.mem_singleton_self _

/-- A failed run is shown with the blamed part enclosed in the sequences for it. -/
theorem highlight_of_failure (color : Bool) {policy : Policy} {text : String} {failure : Failure}
    (h : (runWith policy text).outcome = .failure failure) :
    ∃ cut, failure.span.cut? text.toList = some cut ∧
      failure.highlight color text = String.ofList cut.before ++
        Style.enclose color "\x1b[1;31m" (String.ofList cut.marked) ++ String.ofList cut.after := by
  obtain ⟨cut, hcut, hread, -⟩ := exists_cut_of_failure h
  have hfound : (failure.spanWithin 0).cut? text.toList = some cut := by
    rw [Failure.spanWithin_zero (ordered_of_failure h)]
    exact hcut
  exact ⟨cut, hcut, Failure.highlight_eq color hfound (Cut.not_reset_part hread)⟩

/-- The failure is shown in the text with the part in the middle of the cut marked. -/
structure Failure.Marks (failure : Failure) (text : String) (cut : Cut) : Prop where
  found : (failure.spanWithin 0).cut? text.toList = some cut
  span_eq : failure.span = ⟨byteLength cut.before, byteLength (cut.before ++ cut.inside)⟩
  text_eq : text = String.ofList (cut.before ++ cut.inside ++ cut.after)
  plain : failure.span.start < failure.span.stop → failure.highlight false text = text
  plain_empty : failure.span.start = failure.span.stop →
    failure.highlight false text = String.ofList (cut.before ++ '_' :: cut.after)
  plain_ending : failure.cause = .endOfInput → failure.highlight false text = text ++ "_"
  colored : failure.highlight true text = String.ofList cut.before ++ "\x1b[1;31m" ++
    String.ofList cut.marked ++ "\x1b[0m" ++ String.ofList cut.after
  not_reset_part : ¬"\x1b[0m".toList <:+: cut.marked
  remove_eq : Style.redBold.remove failure.span.start (failure.highlight true text) =
    failure.highlight false text

/-- Whatever the answers to polls are, a failure is shown with the part to blame for it marked. -/
theorem runWith_highlights (policy : Policy) {text : String} {failure : Failure}
    (h : (runWith policy text).outcome = .failure failure) : ∃ cut, failure.Marks text cut := by
  obtain ⟨cut, hcut, hread, hending⟩ := exists_cut_of_failure h
  have hle := ordered_of_failure h
  have htext := (Span.parts_of_cut? hcut).1
  have hspan := Span.eq_of_cut? hcut hle
  have hfound : (failure.spanWithin 0).cut? text.toList = some cut := by
    rw [Failure.spanWithin_zero hle]
    exact hcut
  have htext' : text = String.ofList (cut.before ++ cut.inside ++ cut.after) := by
    rw [← htext, String.ofList_toList]
  have hempty : failure.span.start = failure.span.stop ↔ cut.inside = [] := by
    rw [hspan, byteLength_append, ← byteLength_eq_zero_iff]
    simp only
    omega
  have hreset := Cut.not_reset_part hread
  refine ⟨cut, hfound, hspan, htext', ?_, ?_, ?_, Failure.highlight_true hfound hreset, hreset, ?_⟩
  · intro hlt
    have hne : cut.inside ≠ [] := fun hnil => hlt.ne (hempty.2 hnil)
    rw [Failure.highlight_false hfound, Cut.marked_of_ne_nil hne, ← htext']
  · intro heq
    rw [Failure.highlight_false hfound, Cut.marked_of_empty (hempty.1 heq), List.append_assoc]
    rfl
  · intro hcause
    obtain ⟨hinside, hafter⟩ := hending hcause
    rw [Failure.highlight_false hfound, Cut.marked_of_empty hinside, hafter, List.append_nil]
    rw [hinside, hafter, List.append_nil, List.append_nil] at htext'
    rw [String.ofList_append, ← htext']
  · rw [hspan]
    exact Failure.remove_highlight hfound hreset

/-- A divisor of several characters, some of them ignored, is marked as a whole. -/
theorem runWith_highlights_of_divisor :
    (runWith (.standard (.constant false)) "1/(x 2-2 )+5").outcome =
        .failure ⟨.arithmetic .divisionByZero, ⟨2, 10⟩⟩ ∧
      ∃ cut, (⟨.arithmetic .divisionByZero, ⟨2, 10⟩⟩ : Failure).Marks "1/(x 2-2 )+5" cut :=
  have h : (runWith (.standard (.constant false)) "1/(x 2-2 )+5").outcome =
      .failure ⟨.arithmetic .divisionByZero, ⟨2, 10⟩⟩ := by rfl
  ⟨h, runWith_highlights (.standard (.constant false)) h⟩

end ExactCalculator
