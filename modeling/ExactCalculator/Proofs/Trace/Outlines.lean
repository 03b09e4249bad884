import ExactCalculator.Console.Basic
import ExactCalculator.Proofs.Trace.Growing

/-! The outline that the console makes of a trace. The builder has one list for each open rule
(`Outline.Builder.feedAll_of_openRules`). It takes the events of one rule in the middle of others and comes
back to where it was, with the outline of that rule added to its siblings (`feedAll_events`); so the
events of a whole trace complete one outline, the last of them, and leave nothing behind
(`feedAll_trace`, `feedAll_before`). -/
namespace ExactCalculator
set_option autoImplicit false

namespace Outline.Builder

/-- The builder after events of an evaluation, and the trees that they complete. -/
def feedAll (input : String) (builder : Builder) :
    List Event → Except Abort (Builder × List Outline)
  | [] => .ok (builder, [])
  | event :: events =>
    match builder.feed input event with
    | .error abort => .error abort
    | .ok (next, complete) =>
      match feedAll input next events with
      | .error abort => .error abort
      | .ok (last, trees) => .ok (last, complete.toList ++ trees)

section
variable {input : String} {builder next last : Builder} {event : Event} {events before after : List Event}
  {trees later : List Outline} {complete : Option Outline}

/-! ## Events -/

theorem feedAll_cons (hevent : builder.feed input event = .ok (next, complete))
    (h : next.feedAll input events = .ok (last, trees)) :
    builder.feedAll input (event :: events) = .ok (last, complete.toList ++ trees) := by
  simp only [feedAll, hevent, h]

theorem exists_of_feedAll_cons (h : builder.feedAll input (event :: events) = .ok (last, trees)) :
    ∃ next complete later, builder.feed input event = .ok (next, complete) ∧
      next.feedAll input events = .ok (last, later) ∧ trees = complete.toList ++ later := by
  unfold feedAll at h
  split at h
  · cases h
  · next next complete hevent =>
    split at h
    · cases h
    · next last' later hlater =>
      obtain ⟨rfl, rfl⟩ := Prod.mk.inj (Except.ok.inj h)
      exact ⟨next, complete, later, hevent, hlater, rfl⟩

theorem feedAll_append (hbefore : builder.feedAll input before = .ok (next, trees))
    (hafter : next.feedAll input after = .ok (last, later)) :
    builder.feedAll input (before ++ after) = .ok (last, trees ++ later) := by
  induction before generalizing builder trees with
  | nil =>
    obtain ⟨rfl, rfl⟩ := Prod.mk.inj (Except.ok.inj hbefore)
    exact hafter
  | cons event before ih =>
    obtain ⟨second, complete, trees, hevent, hrest, rfl⟩ := exists_of_feedAll_cons hbefore
    rw [List.append_assoc]
    exact feedAll_cons hevent (ih hrest)

/-- An event that completes nothing. -/
theorem feedAll_of_none (h : builder.feed input event = .ok (next, none)) :
    builder.feedAll input (event :: events) = next.feedAll input events := by
  simp only [feedAll, h]
  cases next.feedAll input events <;> rfl

theorem feedAll_enter (rule : Rule) :
    builder.feedAll input (.enter rule :: events) = feedAll input ([] :: builder) events :=
  feedAll_of_none rfl

/-- A rule that is left inside another one becomes a step of it. -/
theorem feedAll_leave (rule : Rule) (span : Span) (outcome : Outcome) (steps siblings : List Outline) :
    feedAll input (steps :: siblings :: builder) (.leave rule span outcome :: events) =
      feedAll input ((siblings ++ [.node rule (span.slice input)
        (Outline.collapse (span.slice input) steps) outcome.text]) :: builder) events :=
  feedAll_of_none rfl

/-- Inside a rule the builder has one list for it and one for each rule that is open there, and it
completes nothing. -/
theorem feedAll_of_openRules {rules rules' : List Rule}
    (h : events.foldlM Event.openRules? rules = some rules')
    (hlength : builder.length = rules.length + 1) :
    ∃ last, builder.feedAll input events = .ok (last, []) ∧ last.length = rules'.length + 1 := by
  induction events generalizing rules builder with
  | nil =>
    obtain rfl := Option.some.inj h
    exact ⟨builder, rfl, hlength⟩
  | cons event events ih =>
    cases event with
    | enter rule =>
      have hevents : events.foldlM Event.openRules? (rule :: rules) = some rules' := h
      rw [feedAll_enter]
      exact ih hevents (congrArg Nat.succ hlength)
    | leave rule span outcome =>
      match rules, builder, hlength with
      | innermost :: rules, steps :: siblings :: outer, hlength =>
        have hevents : events.foldlM Event.openRules? rules = some rules' := by
          rw [List.foldlM_cons, Event.openRules?] at h
          split at h
          · exact h
          · cases h
        rw [feedAll_leave]
        exact ih hevents (Nat.succ.inj hlength)

end

/-! ## Traces -/

mutual

theorem feedAll_events (input : String) (outer : Builder) (siblings : List Outline) :
    (trace : Trace) →
    feedAll input (siblings :: outer) trace.events =
      .ok ((siblings ++ [trace.outline input]) :: outer, [])
  | .node rule span outcome steps => by
    rw [Trace.events, List.cons_append, feedAll_enter]
    exact feedAll_append (feedAll_allEvents input (siblings :: outer) [] steps) rfl

theorem feedAll_allEvents (input : String) (outer : Builder) (siblings : List Outline) :
    (traces : List Trace) →
    feedAll input (siblings :: outer) (Trace.allEvents traces) =
      .ok ((siblings ++ Trace.outlineAll input traces) :: outer, [])
  | [] => by
    rw [Trace.outlineAll, List.append_nil]
    rfl
  | trace :: traces => by
    have hall := feedAll_append (feedAll_events input outer siblings trace)
      (feedAll_allEvents input outer (siblings ++ [trace.outline input]) traces)
    rw [List.append_assoc] at hall
    exact hall

end

/-- The events of a trace complete its outline, and the builder is as empty as before. -/
theorem feedAll_trace (input : String) (trace : Trace) :
    feedAll input [] trace.events = .ok ([], [trace.outline input]) := by
  cases trace with
  | node rule span outcome steps =>
    rw [Trace.events, List.cons_append, feedAll_enter]
    exact feedAll_append (feedAll_allEvents input [] [] steps) rfl

/-- Before its last event a trace completes nothing, and the builder has one list for each rule that is
open. -/
theorem feedAll_before (input : String) {trace : Trace} {before after : List Event}
    (h : trace.events = before ++ after) (hafter : after ≠ []) :
    ∃ builder rules, feedAll input [] before = .ok (builder, []) ∧
      openRulesAfter? before = some rules ∧ builder.length = rules.length := by
  obtain ⟨rule, span, outcome, steps⟩ := trace
  obtain ⟨after, last, rfl⟩ := List.eq_nil_or_concat after |>.resolve_left hafter
  cases before with
  | nil => exact ⟨[], [], rfl, rfl, rfl⟩
  | cons event before =>
    rw [Trace.events, List.concat_eq_append, ← List.append_assoc] at h
    obtain ⟨rfl, hsteps⟩ := List.cons.inj (List.append_inj' h rfl).1
    -- inside the outermost rule the events are those of its steps, after which no rule is open
    have hsteps : Trace.allEvents steps = before ++ after := hsteps
    have hopen := Trace.openRules_allEvents [] steps
    rw [hsteps, List.foldlM_append] at hopen
    obtain ⟨rules, hrules, -⟩ := Option.bind_eq_some_iff.1 hopen
    have hfirst : ([[]] : Builder).length = ([] : List Rule).length + 1 := rfl
    obtain ⟨builder, hbuilder, hlength⟩ := feedAll_of_openRules hrules hfirst
    refine ⟨builder, rules ++ [rule], ?_, openRules_append hrules [rule], ?_⟩
    · rw [feedAll_enter]
      exact hbuilder
    · rw [hlength, List.length_append, List.length_singleton]

end Outline.Builder

/-! ## The console -/

theorem Console.outline_eq (color : Bool) {input : String} {builder last : Outline.Builder}
    {events : List Event} {trees : List Outline}
    (h : builder.feedAll input events = .ok (last, trees)) :
    Console.outline color input builder events =
      (String.join (trees.map (Outline.render color 0)), .ok last) := by
  induction events generalizing builder trees with
  | nil =>
    obtain ⟨rfl, rfl⟩ := Prod.mk.inj (Except.ok.inj h)
    rfl
  | cons event events ih =>
    obtain ⟨next, complete, later, hevent, hrest, rfl⟩ := Outline.Builder.exists_of_feedAll_cons h
    rw [outline, hevent]
    simp only [ih hrest]
    cases complete <;> simp

/-- The events of a trace print its outline, and the builder is as empty as before. -/
theorem Console.outline_trace (color : Bool) (input : String) (trace : Trace) :
    Console.outline color input [] trace.events =
      (Outline.render color 0 (trace.outline input), .ok []) := by
  rw [Console.outline_eq color (Outline.Builder.feedAll_trace input trace)]
  simp

end ExactCalculator
