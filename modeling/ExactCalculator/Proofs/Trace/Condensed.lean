import ExactCalculator.Proofs.Machine.Boundaries
import ExactCalculator.Proofs.Trace.Ranges
import ExactCalculator.Proofs.Trace.Written

/-! What is written of an evaluation. Its outline is that of the condensed trace (`Trace.plain_condensed`),
in which, from the leaves to the root, a rule whose only step read the same text has taken over the steps of
that step. So no rule is left with such a step, and as ranges are aligned, rules one inside the other
with the same text have the same range (`runScheduled_span_eq`). -/
namespace ExactCalculator
set_option autoImplicit false

namespace Trace

/-! ## Condensing -/

mutual

/-- The outline with every rule of a trace. -/
def plain (input : String) : Trace → Outline
  | node rule span outcome steps =>
    .node rule (span.slice input) (plainAll input steps) outcome.text

def plainAll (input : String) : List Trace → List Outline
  | [] => []
  | trace :: rest => trace.plain input :: plainAll input rest

end

/-- The steps of a rule that read the given text. A sole step with that text gives way to its own. -/
def absorb (input text : String) : List Trace → List Trace
  | [only] => if only.span.slice input = text then only.steps else [only]
  | steps => steps

mutual

/-- Absorbs steps from the leaves to the root. -/
def condensed (input : String) : Trace → Trace
  | node rule span outcome steps =>
    node rule span outcome (absorb input (span.slice input) (condensedAll input steps))

def condensedAll (input : String) : List Trace → List Trace
  | [] => []
  | trace :: rest => trace.condensed input :: condensedAll input rest

end

section
variable {input text : String} {trace node inner only step : Trace} {steps : List Trace}

theorem span_condensed (input : String) (trace : Trace) :
    (trace.condensed input).span = trace.span := by
  cases trace
  rfl

theorem condensedAll_eq_map (input : String) (steps : List Trace) :
    condensedAll input steps = steps.map (condensed input) := by
  induction steps with
  | nil => rfl
  | cons trace rest ih => rw [condensedAll, ih, List.map_cons]

theorem steps_condensed (input : String) (trace : Trace) :
    (trace.condensed input).steps =
      absorb input (trace.span.slice input) (trace.steps.map (condensed input)) := by
  cases trace with
  | node rule span outcome steps => rw [condensed, condensedAll_eq_map]; rfl

theorem mem_absorb (h : step ∈ absorb input text steps) :
    step ∈ steps ∨ ∃ only ∈ steps, step ∈ only.steps := by
  unfold absorb at h
  split at h
  · next only =>
    split at h
    · exact .inr ⟨only, List.mem_singleton_self _, h⟩
    · exact .inl h
  · exact .inl h

/-- A sole step that is left has another text, or it was the sole step of an absorbed one. -/
theorem eq_of_absorb (h : absorb input text steps = [step]) :
    step.span.slice input ≠ text ∧ steps = [step] ∨
      ∃ only, steps = [only] ∧ only.span.slice input = text ∧ only.steps = [step] := by
  unfold absorb at h
  split at h
  · next only =>
    split at h
    · next htext => exact .inr ⟨only, rfl, htext, h⟩
    · next htext =>
      obtain rfl := List.singleton_inj.1 h
      exact .inl ⟨htext, rfl⟩
  · next hmany => exact absurd h (hmany step)

/-! ## The outline of the condensed trace -/

theorem text_plain (input : String) (trace : Trace) :
    (trace.plain input).text = trace.span.slice input := by
  cases trace
  rfl

theorem steps_plain (input : String) (trace : Trace) :
    (trace.plain input).steps = plainAll input trace.steps := by
  cases trace
  rfl

theorem plainAll_absorb (input text : String) (steps : List Trace) :
    plainAll input (absorb input text steps) = Outline.collapse text (plainAll input steps) := by
  match steps with
  | [] | _ :: _ :: _ => rfl
  | [only] =>
    simp only [absorb, plainAll, Outline.collapse, text_plain]
    split
    · exact (steps_plain input only).symm
    · rfl

mutual

/-- The outline of a trace shows its condensed trace. -/
theorem plain_condensed (input : String) : (trace : Trace) →
    (trace.condensed input).plain input = trace.outline input
  | .node rule span outcome steps => by
    rw [condensed, plain, plainAll_absorb, plainAll_condensedAll, outline]

theorem plainAll_condensedAll (input : String) : (steps : List Trace) →
    plainAll input (condensedAll input steps) = outlineAll input steps
  | [] => rfl
  | trace :: rest => by
    rw [condensedAll, plainAll, outlineAll, plain_condensed, plainAll_condensedAll]

end

/-! ## The rules of the condensed trace -/

mutual

/-- A property holds of a trace if every trace has it whose steps have it. -/
theorem induction_steps {motive : Trace → Prop}
    (h : ∀ trace : Trace, (∀ step ∈ trace.steps, motive step) → motive trace) : (trace : Trace) →
    motive trace
  | .node _ _ _ steps => h _ (induction_allSteps h steps)

theorem induction_allSteps {motive : Trace → Prop}
    (h : ∀ trace : Trace, (∀ step ∈ trace.steps, motive step) → motive trace) :
    (steps : List Trace) → ∀ step ∈ steps, motive step
  | [] => List.forall_mem_nil _
  | trace :: rest => List.forall_mem_cons.2 ⟨induction_steps h trace, induction_allSteps h rest⟩

end

/-- A rule of the condensed trace is a rule of the trace, condensed. -/
theorem exists_of_contains_condensed (h : (trace.condensed input).Contains node) :
    ∃ whole : Trace, trace.Contains whole ∧ whole.condensed input = node := by
  induction trace using induction_steps with
  | h trace ih =>
    cases h with
    | self => exact ⟨trace, .self trace, rfl⟩
    | @step _ inner _ hinner hnode =>
      have hstep : ∃ step ∈ trace.steps, (step.condensed input).Contains node := by
        rw [steps_condensed] at hinner
        rcases mem_absorb hinner with hmem | ⟨only, honly, hmem⟩
        · obtain ⟨step, hstep, rfl⟩ := List.mem_map.1 hmem
          exact ⟨step, hstep, hnode⟩
        · obtain ⟨step, hstep, rfl⟩ := List.mem_map.1 honly
          exact ⟨step, hstep, .step hmem hnode⟩
      obtain ⟨step, hstep, hcontains⟩ := hstep
      obtain ⟨whole, hwhole, hcondensed⟩ := ih step hstep hcontains
      exact ⟨whole, .step hstep hwhole, hcondensed⟩

/-- No rule has a sole step that read the same text. -/
theorem slice_ne_of_steps_condensed (h : (trace.condensed input).steps = [step]) :
    step.span.slice input ≠ trace.span.slice input := by
  induction trace using induction_steps with
  | h trace ih =>
    rw [steps_condensed] at h
    rcases eq_of_absorb h with ⟨htext, -⟩ | ⟨only, honly, htext, hsteps⟩
    · exact htext
    · -- the step of an absorbed rule read another text than that rule, so than this one
      have hmem : only ∈ trace.steps.map (condensed input) := honly ▸ List.mem_singleton_self only
      obtain ⟨inner, hinner, rfl⟩ := List.mem_map.1 hmem
      rw [span_condensed] at htext
      rw [← htext]
      exact ih inner hinner hsteps

/-! ## Texts and ranges -/

theorem Contains.trans (h : trace.Contains node) (hinner : node.Contains inner) :
    trace.Contains inner := by
  induction h with
  | self => exact hinner
  | step hstep _ ih => exact .step hstep (ih hinner)

theorem leave_mem_events (h : trace.Contains node) :
    Event.leave node.rule node.span node.outcome ∈ trace.events := by
  induction h with
  | self trace =>
    cases trace
    exact List.mem_append_right _ (List.mem_singleton_self _)
  | @step trace inner node hinner _ ih =>
    obtain ⟨rule, span, outcome, steps⟩ := trace
    obtain ⟨before, after, hsteps⟩ := List.append_of_mem hinner
    have hsteps : steps = before ++ inner :: after := hsteps
    rw [hsteps, events, allEvents_append, allEvents]
    simp [ih]

end

end Trace

theorem Span.Fits.byteLength_slice {text : String} {span : Span} (h : span.Fits text.toList) :
    byteLength (span.slice text).toList = span.length := by
  obtain ⟨u, b, z, htext, rfl⟩ := h
  rw [Span.slice_eq htext, String.toList_ofList]
  simp [Span.length]

/-- Aligned ranges of the same text are the same. -/
theorem Span.eq_of_slice_eq {text : String} {outer inner : Span} (houter : outer.Fits text.toList)
    (hinner : inner.Fits text.toList) (haligned : inner.AlignedTo outer.start outer.length)
    (h : inner.slice text = outer.slice text) : inner = outer := by
  have hlength : inner.length = outer.length := by
    rw [← hinner.byteLength_slice, h, houter.byteLength_slice]
  have hstart : inner.start = outer.start := haligned.resolve_right (by omega)
  obtain ⟨u, b, z, -, rfl⟩ := houter
  obtain ⟨u', b', z', -, rfl⟩ := hinner
  simp only [length, byteLength_append, Nat.add_sub_cancel_left] at hlength hstart ⊢
  rw [hstart, hlength]

/-! ## Runs -/

/-- What is written of a run on a text that has the given trace. Before its last event nothing is
complete, and the builder has one list for each rule that is open. The last event completes the only
tree, that of the condensed trace, and what is printed are its lines. There no rule has a sole step that
read the same text; and there as in the trace itself, a rule inside another one that read the same text has
the same range. -/
structure Run.Shows (text : String) (run : Run) (trace : Trace) : Prop where
  events_eq : run.events = trace.events
  unique : ∀ other : Trace, run.events = other.events → other = trace
  heights : ∀ before after, run.events = before ++ after → after ≠ [] →
    ∃ builder rules, Outline.Builder.feedAll text [] before = .ok (builder, []) ∧
      openRulesAfter? before = some rules ∧ builder.length = rules.length
  tree : Outline.Builder.feedAll text [] run.events =
    .ok ([], [(trace.condensed text).plain text])
  printed : ∀ color, Console.outline color text [] run.events =
    (((trace.condensed text).plain text).written color, .ok [])
  normal : ∀ node step, (trace.condensed text).Contains node → node.steps = [step] →
    step.span.slice text ≠ node.span.slice text
  ranges : ∀ node inner, trace.Contains node → node.Contains inner →
    inner.span.slice text = node.span.slice text → inner.span = node.span
  condensed_ranges : ∀ node inner, (trace.condensed text).Contains node → node.Contains inner →
    inner.span.slice text = node.span.slice text → inner.span = node.span

section
variable {schedule : Schedule} {flag : Bool} {text : String} {trace node inner : Trace}

theorem runScheduled_span_fits (hevents : (runScheduled schedule flag text).events = trace.events)
    (hnode : trace.Contains node) : node.span.Fits text.toList := by
  have hleave := Trace.leave_mem_events hnode
  rw [← hevents] at hleave
  have hspan : node.span ∈ (runScheduled schedule flag text).spans :=
    List.mem_append_left _ (List.mem_flatMap.2 ⟨_, hleave, List.mem_cons_self ..⟩)
  exact runWith_spans_fit (schedule.ignoresOffsets flag _) _ hspan

/-- Of two rules of a run, one inside the other, the texts tell whether they have the same range. -/
theorem runScheduled_span_eq (hevents : (runScheduled schedule flag text).events = trace.events)
    (hnode : trace.Contains node) (hinner : node.Contains inner)
    (hslice : inner.span.slice text = node.span.slice text) : inner.span = node.span :=
  Span.eq_of_slice_eq (runScheduled_span_fits hevents hnode)
    (runScheduled_span_fits hevents (hnode.trans hinner))
    (runWith_aligned hevents node inner hnode hinner) hslice

theorem runScheduled_span_eq_condensed
    (hevents : (runScheduled schedule flag text).events = trace.events)
    (hnode : (trace.condensed text).Contains node) (hinner : node.Contains inner)
    (hslice : inner.span.slice text = node.span.slice text) : inner.span = node.span := by
  obtain ⟨whole, hwhole, rfl⟩ := Trace.exists_of_contains_condensed hnode
  obtain ⟨part, hpart, rfl⟩ := Trace.exists_of_contains_condensed hinner
  rw [Trace.span_condensed, Trace.span_condensed] at hslice ⊢
  exact runScheduled_span_eq hevents hwhole hpart hslice

end

/-- Under any schedule what is written of a run is the outline of its condensed trace, in the end and
once. -/
theorem runScheduled_shows (schedule : Schedule) (flag : Bool) (text : String) :
    ∃ trace : Trace, (runScheduled schedule flag text).Shows text trace := by
  have htraced : (runScheduled schedule flag text).Traced := runWith_traced _ text
  obtain ⟨trace, htrace⟩ := htraced.events.exists_trace
  have hevents : (runScheduled schedule flag text).events = trace.events := htrace.symm
  have htree := Outline.Builder.feedAll_trace text trace
  rw [← Trace.plain_condensed, ← hevents] at htree
  refine ⟨trace, hevents, ?unique, ?heights, htree, ?printed, ?normal, ?ranges, ?condensed_ranges⟩
  case unique => exact fun other hother => Trace.events_injective (hother.symm.trans hevents)
  case heights =>
    intro before after hsplit hafter
    exact Outline.Builder.feedAll_before text (hevents.symm.trans hsplit) hafter
  case printed =>
    intro color
    rw [Trace.plain_condensed]
    exact Console.outline_run color htrace
  case normal =>
    intro node step hnode hstep
    obtain ⟨whole, -, rfl⟩ := Trace.exists_of_contains_condensed hnode
    rw [Trace.span_condensed]
    exact Trace.slice_ne_of_steps_condensed hstep
  case ranges => exact fun _ _ hnode hinner => runScheduled_span_eq hevents hnode hinner
  case condensed_ranges =>
    exact fun _ _ hnode hinner => runScheduled_span_eq_condensed hevents hnode hinner

/-- The term and the factor of `(7)` give way; the expression in parentheses read another text. -/
example : Outline.Builder.feedAll "(7)" [] (runSteady false "(7)").events =
    .ok ([], [.node .expression "(7)" [.node .expression "7" [] (.ok "7")] (.ok "7")]) := by rfl

end ExactCalculator
