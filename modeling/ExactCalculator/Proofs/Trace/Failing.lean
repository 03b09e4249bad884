import ExactCalculator.Proofs.Machine.Events
import ExactCalculator.Proofs.Trace.Parts

/-! Traces of failures. A run that fails leaves all open rules, the innermost first, so the innermost
one becomes the last step of the rule around it, and so on up to the whole expression. What was complete
before the failure stays: a failing rule is made of parts that stand in the text and, at its end, of the
rule inside it that failed (`Trace.FailingSteps`). `FailingSteps.exists_trace` builds the trace from the
open rules. -/
namespace ExactCalculator
set_option autoImplicit false

/-! ## Failing rules -/

/-- The steps of a rule that fails. It fails after complete steps, or its last step fails. -/
inductive Trace.FailingSteps (limit : Option Nat) (text : List Char) (failure : Failure) :
    Rule → List Trace → Prop
  | here {rule : Rule} {steps : List Trace} (hsteps : ∀ s ∈ steps, IsStep limit text rule s)
      (hcount : stepCount rule steps.length = true) : FailingSteps limit text failure rule steps
  | inside {rule inner : Rule} {before steps : List Trace} {span : Span}
      (hbefore : ∀ s ∈ before, IsStep limit text rule s)
      (hcount : stepCount rule (before.length + 1) = true) (hinner : mayContain rule inner = true)
      (h : FailingSteps limit text failure inner steps) :
      FailingSteps limit text failure rule (before ++ [.node inner span (.failure failure) steps])

/-- The rules around a rule that is open, the innermost first. -/
inductive Waiting (limit : Option Nat) (text : List Char) : Rule → List OpenTrace → Prop
  | outermost : Waiting limit text .expression []
  | inside {rule inner : Rule} {steps : List Trace} {outer : List OpenTrace}
      (hinner : Trace.mayContain rule inner = true)
      (hsteps : ∀ s ∈ steps, Trace.IsStep limit text rule s)
      (hcount : Trace.stepCount rule (steps.length + 1) = true) (houter : Waiting limit text rule outer) :
      Waiting limit text inner (⟨rule, steps⟩ :: outer)

variable {limit : Option Nat} {text : List Char} {failure : Failure} {rule : Rule}
  {steps : List Trace} {outer : List OpenTrace} {m : Machine}

namespace Trace.FailingSteps

/-- Leaving all open rules makes one trace of them. -/
theorem exists_trace {rules : List OpenRule} (h : FailingSteps limit text failure rule steps)
    (houter : Waiting limit text rule outer)
    (hrules : rules.map OpenRule.rule = rule :: outer.map OpenTrace.rule) (m : Machine) :
    ∃ span steps', (node .expression span (.failure failure) steps').events =
        openEvents (⟨rule, steps⟩ :: outer) ++ leavings m failure rules ∧
      FailingSteps limit text failure .expression steps' := by
  induction houter generalizing steps rules with
  | outermost =>
    obtain ⟨r, rest, rfl, hr, hrest⟩ := List.map_eq_cons_iff.1 hrules
    obtain rfl := List.map_eq_nil_iff.1 hrest
    refine ⟨m.spanFrom r.start, steps, ?_, h⟩
    simp [events, openEvents, leavings, hr]
  | @inside rule inner before outer hinner hsteps hcount houter ih =>
    obtain ⟨r, rest, rfl, hr, hrest⟩ := List.map_eq_cons_iff.1 hrules
    have hfailing : FailingSteps limit text failure rule
        (before ++ [.node inner (m.spanFrom r.start) (.failure failure) steps]) :=
      .inside hsteps hcount hinner h
    obtain ⟨span, steps', hevents, h'⟩ := ih hfailing hrest
    refine ⟨span, steps', ?_, h'⟩
    rw [hevents, openEvents_leave inner steps ⟨rule, before⟩, List.append_assoc, ← hr]
    rfl

/-- A rule in a trace that fails is the trace of a part, or it fails in the same way. -/
theorem of_contains {span : Span} {node : Trace} (h : FailingSteps limit text failure rule steps)
    (hnode : (Trace.node rule span (.failure failure) steps).Contains node) :
    node.IsPart limit text ∨ node.outcome = .failure failure := by
  induction h generalizing span with
  | here hsteps hcount =>
    cases hnode with
    | self => exact .inr rfl
    | step hstep hinner => exact .inl ((hsteps _ hstep).isPart.of_contains hinner)
  | inside hbefore hcount hmay _ ih =>
    cases hnode with
    | self => exact .inr rfl
    | step hstep hinner =>
      rcases List.mem_append.1 hstep with hold | hnew
      · exact .inl ((hbefore _ hold).isPart.of_contains hinner)
      · rw [List.mem_singleton.1 hnew] at hinner
        exact ih hinner

theorem wellShaped {span : Span} {outcome : Outcome} (h : FailingSteps limit text failure rule steps) :
    (Trace.node rule span outcome steps).WellShaped := by
  induction h generalizing span outcome with
  | here hsteps hcount => exact ⟨hcount, IsStep.allWithin _ hsteps⟩
  | inside hbefore hcount hmay _ ih =>
    refine ⟨by simpa using hcount, allWithin_iff.2 (List.forall_mem_append.2 ⟨?_, ?_⟩)⟩
    · exact allWithin_iff.1 (IsStep.allWithin _ hbefore)
    · exact List.forall_mem_singleton.2 ⟨hmay, ih⟩

end Trace.FailingSteps

/-! ## Machines that may fail -/

/-- The events of the machine are those of its open rules, of which the innermost may be left. -/
def Machine.Closable (limit : Option Nat) (text : List Char) (m : Machine) : Prop :=
  ∃ rule steps outer, m.events = openEvents (⟨rule, steps⟩ :: outer) ∧
    m.openRules.map OpenRule.rule = rule :: outer.map OpenTrace.rule ∧
    (∀ s ∈ steps, Trace.IsStep limit text rule s) ∧ Trace.stepCount rule steps.length = true ∧
    Waiting limit text rule outer

/-- A machine that may fail leaves one trace, which fails as the machine does. -/
theorem Machine.Closable.exists_trace (h : m.Closable limit text) (failure : Failure) :
    ∃ span steps, (Trace.node .expression span (.failure failure) steps).events =
        (m.fail failure).events ∧
      Trace.FailingSteps limit text failure .expression steps := by
  obtain ⟨rule, steps, outer, hevents, hrules, hsteps, hcount, houter⟩ := h
  have hfailing : Trace.FailingSteps limit text failure rule steps := .here hsteps hcount
  obtain ⟨span, steps', hevents', h'⟩ := hfailing.exists_trace houter hrules m
  refine ⟨span, steps', ?_, h'⟩
  rw [hevents', fail_events, hevents]

end ExactCalculator
