import ExactCalculator.Trace

/-! Traces in the making. The events of a run are those of rules entered one inside the other, of
which some are still open (`Growing`). Such events belong to a trace that lacks the ends of the open
rules, so when the outermost rule is left they are the events of one whole trace
(`Growing.oneTrace`). -/
namespace ExactCalculator
set_option autoImplicit false

/-! ## Ranges -/

/-- The range that a failure blames. -/
def Outcome.spans : Outcome → List Span
  | value _ => []
  | failure x => [x.span]

/-- The ranges that an event tells of. -/
def Event.spans : Event → List Span
  | enter _ => []
  | leave _ span outcome => span :: outcome.spans

/-- No range ends before it starts. -/
def Ordered (spans : List Span) : Prop := ∀ span ∈ spans, span.start ≤ span.stop

theorem Ordered.cons {span : Span} {spans : List Span} (h : span.start ≤ span.stop)
    (hspans : Ordered spans) : Ordered (span :: spans) :=
  List.forall_mem_cons.2 ⟨h, hspans⟩

theorem Ordered.nil : Ordered [] := List.forall_mem_nil _

/-! ## Events with open rules -/

/-- Events of rules entered one inside the other. The rules still open are given, the innermost
first; one is always open. -/
inductive Growing : List Rule → List Event → Prop
  | start (rule : Rule) : Growing [rule] [.enter rule]
  | enter {rules : List Rule} {events : List Event} (h : Growing rules events) (rule : Rule) :
      Growing (rule :: rules) (events ++ [.enter rule])
  | leave {rule outer : Rule} {rules : List Rule} {events : List Event} {span : Span}
      {outcome : Outcome} (h : Growing (rule :: outer :: rules) events)
      (hspans : Ordered (Event.leave rule span outcome).spans) :
      Growing (outer :: rules) (events ++ [.leave rule span outcome])

/-- The events are those of one trace. -/
structure OneTrace (events : List Event) : Prop where
  exists_trace : ∃ trace : Trace, trace.events = events
  ordered : ∀ event ∈ events, Ordered event.spans

variable {rule : Rule} {rules : List Rule} {events : List Event}

theorem openRulesAfter?_append (before after : List Event) :
    openRulesAfter? (before ++ after) =
      (openRulesAfter? before).bind fun rules => after.foldlM Event.openRules? rules :=
  List.foldlM_append

theorem Event.openRules?_append {event : Event} {rules' : List Rule}
    (h : event.openRules? rules = some rules') (below : List Rule) :
    event.openRules? (rules ++ below) = some (rules' ++ below) := by
  cases event with
  | enter rule => exact congrArg (some <| · ++ below) (Option.some.inj h)
  | leave rule span outcome =>
    cases rules with
    | nil => cases h
    | cons innermost rules =>
      rw [openRules?] at h
      rw [List.cons_append, openRules?]
      split at h
      · next heq => rw [if_pos heq, Option.some.inj h]
      · cases h

/-- Rules that were open before stay open below those of the events. -/
theorem openRules_append {rules' : List Rule} (h : events.foldlM Event.openRules? rules = some rules')
    (below : List Rule) : events.foldlM Event.openRules? (rules ++ below) = some (rules' ++ below) := by
  induction events generalizing rules with
  | nil => exact congrArg (some <| · ++ below) (Option.some.inj h)
  | cons event events ih =>
    rw [List.foldlM_cons] at h ⊢
    obtain ⟨next, hnext, hrest⟩ := Option.bind_eq_some_iff.1 h
    rw [Event.openRules?_append hnext below]
    exact ih hrest

namespace Growing

theorem openRulesAfter?_eq (h : Growing rules events) : openRulesAfter? events = some rules := by
  induction h with
  | start rule => rfl
  | enter _ rule ih =>
    rw [openRulesAfter?_append, ih]
    rfl
  | @leave rule outer rules events span outcome _ _ ih =>
    have hleave : Event.openRules? (rule :: outer :: rules) (.leave rule span outcome) =
        some (outer :: rules) := if_pos rfl
    rw [openRulesAfter?_append, ih, Option.bind_some, List.foldlM_cons, hleave]
    rfl

theorem ordered (h : Growing rules events) : ∀ event ∈ events, Ordered event.spans := by
  induction h with
  | start rule => exact List.forall_mem_singleton.2 .nil
  | enter _ rule ih => exact List.forall_mem_append.2 ⟨ih, List.forall_mem_singleton.2 .nil⟩
  | leave _ hspans ih => exact List.forall_mem_append.2 ⟨ih, List.forall_mem_singleton.2 hspans⟩

end Growing

/-! ## Unfinished traces -/

/-- A rule that is not left yet, with the rules that it is made of so far. -/
structure OpenTrace where
  rule : Rule
  steps : List Trace

/-- The events so far of rules that are open one inside the other, the innermost first. -/
def openEvents : List OpenTrace → List Event
  | [] => []
  | innermost :: outer => openEvents outer ++ .enter innermost.rule :: Trace.allEvents innermost.steps

theorem Trace.allEvents_append (before after : List Trace) :
    allEvents (before ++ after) = allEvents before ++ allEvents after := by
  induction before with
  | nil => rfl
  | cons trace rest ih => rw [List.cons_append, allEvents, allEvents, ih, List.append_assoc]

namespace Trace

mutual

/-- After the events of a trace the rules are open that were open before. -/
theorem openRules_events (rules : List Rule) : (trace : Trace) →
    trace.events.foldlM Event.openRules? rules = some rules
  | .node rule span outcome steps => by
    have hsteps := openRules_allEvents (rule :: rules) steps
    have hleave : Event.openRules? (rule :: rules) (.leave rule span outcome) = some rules :=
      if_pos rfl
    show (allEvents steps ++ [Event.leave rule span outcome]).foldlM Event.openRules? (rule :: rules) = _
    rw [List.foldlM_append, hsteps]
    exact congrArg (·.bind some) hleave

theorem openRules_allEvents (rules : List Rule) : (traces : List Trace) →
    (allEvents traces).foldlM Event.openRules? rules = some rules
  | [] => rfl
  | trace :: rest => by
    rw [allEvents, List.foldlM_append, openRules_events rules trace]
    exact openRules_allEvents rules rest

end

end Trace

/-- A rule that is left is the last step so far of the rule around it. -/
theorem openEvents_leave (rule : Rule) (steps : List Trace) (parent : OpenTrace)
    (outer : List OpenTrace) (span : Span) (outcome : Outcome) :
    openEvents (⟨parent.rule, parent.steps ++ [.node rule span outcome steps]⟩ :: outer) =
      openEvents (⟨rule, steps⟩ :: parent :: outer) ++ [.leave rule span outcome] := by
  simp [openEvents, Trace.allEvents_append, Trace.allEvents, Trace.events]

namespace Growing

/-- Growing events are those of unfinished traces. -/
theorem exists_openTraces (h : Growing rules events) :
    ∃ opens : List OpenTrace, opens.map OpenTrace.rule = rules ∧ openEvents opens = events := by
  induction h with
  | start rule => exact ⟨[⟨rule, []⟩], rfl, rfl⟩
  | enter _ rule ih =>
    obtain ⟨opens, rfl, rfl⟩ := ih
    exact ⟨⟨rule, []⟩ :: opens, rfl, rfl⟩
  | @leave rule outer rules events span outcome _ _ ih =>
    obtain ⟨opens, hrules, rfl⟩ := ih
    match opens, hrules with
    | ⟨_, steps⟩ :: parent :: rest, hrules =>
      obtain ⟨rfl, rfl, rfl⟩ : _ = rule ∧ parent.rule = outer ∧ rest.map OpenTrace.rule = rules := by
        simpa using hrules
      exact ⟨_, rfl, openEvents_leave _ steps parent rest span outcome⟩

/-- When the outermost rule is left, the events are those of one trace. -/
theorem oneTrace {span : Span} {outcome : Outcome} (h : Growing [rule] events)
    (hspans : Ordered (Event.leave rule span outcome).spans) :
    OneTrace (events ++ [.leave rule span outcome]) := by
  constructor
  · obtain ⟨opens, hrules, rfl⟩ := h.exists_openTraces
    match opens, hrules with
    | [⟨inner, steps⟩], hrules =>
      obtain rfl : inner = rule := by simpa using hrules
      exact ⟨.node inner span outcome steps, by simp [openEvents, Trace.events]⟩
  · exact List.forall_mem_append.2 ⟨h.ordered, List.forall_mem_singleton.2 hspans⟩

end Growing

end ExactCalculator
