import ExactCalculator.Proofs.Trace.Recorded

/-! The events of every run are well bracketed. They are those of one trace, which they determine
(`Trace.events_injective`), and which is made as the grammar has it. Nothing but the leaving of rules
follows a failure, always with that failure; and the outcome of the whole expression is the outcome of the
run, unless a character after the expression is to blame (`runWith_traces`). -/
namespace ExactCalculator
set_option autoImplicit false

/-! ## Events determine their trace -/

namespace Trace

mutual

/-- What a trace reports ends where the trace ends. -/
theorem events_append_inj : (trace other : Trace) → {xs ys : List Event} →
    trace.events ++ xs = other.events ++ ys → trace = other ∧ xs = ys
  | .node rule span outcome steps, .node rule' span' outcome' steps', xs, ys, h => by
    simp only [events, List.cons_append, List.append_assoc, List.cons.injEq,
      Event.enter.injEq] at h
    obtain ⟨rfl, h⟩ := h
    obtain ⟨rfl, hleave, hrest⟩ := allEvents_append_inj steps steps' h
    obtain ⟨-, rfl, rfl⟩ := Event.leave.inj hleave
    exact ⟨rfl, hrest⟩

theorem allEvents_append_inj : (traces others : List Trace) → {rule rule' : Rule} →
    {span span' : Span} → {outcome outcome' : Outcome} → {xs ys : List Event} →
    allEvents traces ++ .leave rule span outcome :: xs =
      allEvents others ++ .leave rule' span' outcome' :: ys →
    traces = others ∧ Event.leave rule span outcome = .leave rule' span' outcome' ∧ xs = ys
  | [], [], _, _, _, _, _, _, _, _, h => ⟨rfl, List.cons.inj h⟩
  | [], .node _ _ _ _ :: _, _, _, _, _, _, _, _, _, h => by
    simp [allEvents, events] at h
  | .node _ _ _ _ :: _, [], _, _, _, _, _, _, _, _, h => by
    simp [allEvents, events] at h
  | trace :: traces, other :: others, _, _, _, _, _, _, _, _, h => by
    simp only [allEvents, List.append_assoc] at h
    obtain ⟨rfl, htail⟩ := events_append_inj trace other h
    obtain ⟨rfl, hleave, hrest⟩ := allEvents_append_inj traces others htail
    exact ⟨rfl, hleave, hrest⟩

end

theorem events_injective {trace other : Trace} (h : trace.events = other.events) :
    trace = other :=
  (events_append_inj trace other (congrArg (· ++ []) h)).1

/-- An element of two lists in a row is in the first one or in the second. -/
theorem split_append_cons {xs ys before after : List Event} {event : Event}
    (h : xs ++ ys = before ++ event :: after) :
    (∃ rest, xs = before ++ event :: rest) ∨
      ∃ rest, before = xs ++ rest ∧ ys = rest ++ event :: after := by
  rcases List.append_eq_append_iff.1 h with ⟨rest, rfl, rfl⟩ | ⟨rest, rfl, hrest⟩
  · exact .inr ⟨rest, rfl, rfl⟩
  · cases rest with
    | nil => exact .inr ⟨[], by simp, hrest.symm⟩
    | cons first rest =>
      obtain ⟨rfl, -⟩ := List.cons.inj hrest
      exact .inl ⟨rest, rfl⟩

/-- What is left in the events of a rule is left among its steps, or it is the rule itself. -/
theorem leave_cases {rule rule' : Rule} {span span' : Span} {outcome outcome' : Outcome}
    {steps : List Trace} {before after : List Event}
    (h : (node rule' span' outcome' steps).events = before ++ .leave rule span outcome :: after) :
    (∃ earlier later, before = .enter rule' :: earlier ∧
      allEvents steps = earlier ++ .leave rule span outcome :: later) ∨
    (before = .enter rule' :: allEvents steps ∧
      Trace.node rule' span' outcome' steps = .node rule span outcome steps) := by
  cases before with
  | nil => simp [events] at h
  | cons event before =>
    simp only [events, List.cons_append, List.cons.injEq] at h
    obtain ⟨rfl, h⟩ := h
    rcases split_append_cons h with ⟨rest, hinside⟩ | ⟨rest, rfl, hlast⟩
    · exact .inl ⟨before, rest, rfl, hinside⟩
    · cases rest with
      | nil =>
        obtain ⟨rfl, rfl, rfl⟩ := Event.leave.inj (List.cons.inj hlast).1
        exact .inr ⟨by simp, rfl⟩
      | cons => simp at hlast

mutual

/-- Whatever is left in the events of a trace is a rule of the trace, and its steps stand between its
being entered and its being left. -/
theorem exists_of_leave {rule : Rule} {span : Span} {outcome : Outcome} : (trace : Trace) →
    {before after : List Event} → trace.events = before ++ .leave rule span outcome :: after →
    ∃ earlier steps, before = earlier ++ .enter rule :: allEvents steps ∧
      trace.Contains (.node rule span outcome steps)
  | .node rule' span' outcome' steps, before, after, h => by
    rcases leave_cases h with ⟨before, later, rfl, hinside⟩ | ⟨rfl, hnode⟩
    · obtain ⟨step, hstep, earlier, steps', rfl, hcontains⟩ := exists_of_leave_all steps hinside
      exact ⟨.enter rule' :: earlier, steps', rfl, .step hstep hcontains⟩
    · obtain ⟨rfl, rfl, rfl, -⟩ := Trace.node.inj hnode
      exact ⟨[], steps, rfl, .self _⟩

theorem exists_of_leave_all {rule : Rule} {span : Span} {outcome : Outcome} :
    (traces : List Trace) → {before after : List Event} →
    allEvents traces = before ++ .leave rule span outcome :: after →
    ∃ trace ∈ traces, ∃ earlier steps, before = earlier ++ .enter rule :: allEvents steps ∧
      trace.Contains (.node rule span outcome steps)
  | [], _, _, h => by simp [allEvents] at h
  | trace :: rest, before, after, h => by
    rcases split_append_cons h with ⟨after', hhere⟩ | ⟨before', rfl, hrest⟩
    · exact ⟨trace, List.mem_cons_self .., exists_of_leave trace hhere⟩
    · obtain ⟨other, hother, earlier, steps, rfl, hcontains⟩ := exists_of_leave_all rest hrest
      exact ⟨other, List.mem_cons_of_mem _ hother, trace.events ++ earlier, steps, by simp, hcontains⟩

end

end Trace

/-! ## Failures in events -/

/-- If the first event is the leaving of a rule with a failure, so is the second one, with the same
failure. -/
def Event.PassesOn (earlier later : Event) : Prop :=
  ∀ rule span failure, earlier = .leave rule span (.failure failure) →
    ∃ rule span, later = .leave rule span (.failure failure)

/-- The event is not the leaving of a rule with a failure. -/
def Event.Sound (event : Event) : Prop :=
  ∀ rule span failure, event ≠ .leave rule span (.failure failure)

section
variable {limit : Option Nat} {text : List Char} {rule : Rule} {span : Span} {failure : Failure}
  {steps : List Trace} {trace : Trace} {outcome : Outcome}

theorem Trace.IsPart.exists_value (h : trace.IsPart limit text) :
    ∃ v : Fraction, trace.outcome = .value v := by
  obtain ⟨k, x, -, rfl⟩ := h
  exact ⟨_, rfl⟩

theorem Trace.IsPart.events_sound (h : trace.IsPart limit text) :
    ∀ event ∈ trace.events, event.Sound := by
  rintro _ hevent rule span failure rfl
  obtain ⟨before, after, hsplit⟩ := List.append_of_mem hevent
  obtain ⟨earlier, steps, -, hnode⟩ := trace.exists_of_leave hsplit
  obtain ⟨v, hv⟩ := (h.of_contains hnode).exists_value
  cases hv

theorem allEvents_sound (h : ∀ s ∈ steps, s.IsStep limit text rule) :
    ∀ event ∈ Trace.allEvents steps, event.Sound := by
  induction steps with
  | nil => exact List.forall_mem_nil _
  | cons s rest ih =>
    obtain ⟨hs, hrest⟩ := List.forall_mem_cons.1 h
    exact List.forall_mem_append.2 ⟨hs.isPart.events_sound, ih hrest⟩

/-- First nothing fails, then every event is the leaving of a rule with the failure. -/
theorem Trace.FailingSteps.exists_split (h : FailingSteps limit text failure rule steps) :
    ∃ before after, allEvents steps = before ++ after ∧ (∀ event ∈ before, event.Sound) ∧
      ∀ event ∈ after, ∃ rule span, event = .leave rule span (.failure failure) := by
  induction h with
  | @here rule steps hsteps hcount =>
    exact ⟨_, [], (List.append_nil _).symm, allEvents_sound hsteps, List.forall_mem_nil _⟩
  | @inside rule inner complete steps span hcomplete hcount hmay _ ih =>
    obtain ⟨before, after, hevents, hbefore, hafter⟩ := ih
    refine ⟨allEvents complete ++ .enter inner :: before,
      after ++ [.leave inner span (.failure failure)], ?_, ?_, ?_⟩
    · simp [allEvents_append, allEvents, events, hevents]
    · refine List.forall_mem_append.2 ⟨allEvents_sound hcomplete, List.forall_mem_cons.2 ⟨?_, hbefore⟩⟩
      rintro _ _ _ ⟨⟩
    · exact List.forall_mem_append.2 ⟨hafter, List.forall_mem_singleton.2 ⟨_, _, rfl⟩⟩

theorem Event.Sound.passesOn {event : Event} (h : event.Sound) (later : Event) :
    event.PassesOn later :=
  fun rule span failure hevent => absurd hevent (h rule span failure)

theorem pairwise_passesOn {before after : List Event} (hbefore : ∀ event ∈ before, event.Sound)
    (hafter : ∀ event ∈ after, ∃ rule span, event = .leave rule span (.failure failure)) :
    (before ++ after).Pairwise Event.PassesOn := by
  have hfirst : ∀ event ∈ before, ∀ later, event.PassesOn later :=
    fun event hevent later => (hbefore event hevent).passesOn later
  refine List.pairwise_append.2 ⟨?_, ?_, fun event hevent later _ => hfirst event hevent later⟩
  · exact List.pairwise_of_forall_mem_list fun event hevent later _ => hfirst event hevent later
  · refine List.pairwise_of_forall_mem_list fun event hevent later hlater rule span failure' h => ?_
    obtain ⟨_, _, rfl⟩ := hafter event hevent
    obtain ⟨-, -, hsame⟩ := Event.leave.inj h
    rw [← Outcome.failure.inj hsame]
    exact hafter later hlater

end

/-! ## The trace of a run -/

/-- The run has reported exactly this trace, and its outcome is that of the trace. -/
structure Run.Traces (text : List Char) (run : Run) (trace : Trace) : Prop where
  events_eq : run.events = trace.events
  unique : ∀ other : Trace, run.events = other.events → other = trace
  outermost : trace.rule = .expression
  wellShaped : trace.WellShaped
  passesOn : run.events.Pairwise Event.PassesOn
  outcome_of_failure : ∀ failure, trace.outcome = .failure failure → run.outcome = .failure failure
  outcome_of_value : ∀ v, trace.outcome = .value v →
    run.outcome = .value v ∨
      ∃ w c cs, text = w ++ c :: cs ∧ trace.span.stop ≤ byteLength w ∧
        run.outcome = .failure ⟨.unexpectedChar c, .ofChar c (byteLength w)⟩

namespace Trace.Records

variable {limit : Option Nat} {text : List Char} {trace : Trace} {outcome : Outcome}

theorem outermost (h : trace.Records limit text outcome) : trace.rule = .expression := by
  cases h <;> rfl

theorem wellShaped (h : trace.Records limit text outcome) : trace.WellShaped := by
  cases h with
  | accepted hpart => exact hpart.trace_isPart.wellShaped
  | rejected hpart => exact hpart.trace_isPart.wellShaped
  | failed h => exact h.wellShaped

theorem passesOn (h : trace.Records limit text outcome) : trace.events.Pairwise Event.PassesOn := by
  have hpart : ∀ {trace : Trace}, trace.IsPart limit text →
      trace.events.Pairwise Event.PassesOn := by
    intro trace htrace
    refine List.pairwise_of_forall_mem_list fun event hevent later _ => ?_
    exact (htrace.events_sound event hevent).passesOn later
  cases h with
  | accepted hstands => exact hpart hstands.trace_isPart
  | rejected hstands => exact hpart hstands.trace_isPart
  | failed h =>
    obtain ⟨before, after, hevents, hbefore, hafter⟩ := h.exists_split
    rw [events, hevents, ← List.cons_append, List.append_assoc]
    refine pairwise_passesOn (List.forall_mem_cons.2 ⟨?_, hbefore⟩)
      (List.forall_mem_append.2 ⟨hafter, List.forall_mem_singleton.2 ⟨_, _, rfl⟩⟩)
    rintro _ _ _ ⟨⟩

theorem outcome_of_failure (h : trace.Records limit text outcome) :
    ∀ failure, trace.outcome = .failure failure → outcome = .failure failure := by
  intro failure htrace
  cases h with
  | accepted | rejected => cases htrace
  | failed h => exact htrace

theorem outcome_of_value (h : trace.Records limit text outcome) :
    ∀ v, trace.outcome = .value v →
      outcome = .value v ∨
        ∃ w c cs, text = w ++ c :: cs ∧ trace.span.stop ≤ byteLength w ∧
          outcome = .failure ⟨.unexpectedChar c, .ofChar c (byteLength w)⟩ := by
  intro v htrace
  cases h with
  | accepted hpart hparse => exact .inl htrace
  | rejected hpart htext hstop => exact .inr ⟨_, _, _, htext, hstop, rfl⟩
  | failed h => cases htrace

end Trace.Records

/-- Under any policy, whatever the answers to polls are, a run has reported exactly one trace. -/
theorem runWith_traces (policy : Policy) (text : String) :
    ∃ trace, (runWith policy text).Traces text.toList trace := by
  obtain ⟨trace, hevents, hrecords⟩ := runWith_recorded policy text
  refine ⟨trace, ?_⟩
  exact {
    events_eq := hevents.symm
    unique := fun other h => Trace.events_injective (h.symm.trans hevents.symm)
    outermost := hrecords.outermost
    wellShaped := hrecords.wellShaped
    passesOn := hevents ▸ hrecords.passesOn
    outcome_of_failure := hrecords.outcome_of_failure
    outcome_of_value := hrecords.outcome_of_value }

end ExactCalculator
