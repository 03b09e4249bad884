import ExactCalculator.Proofs.Trace.Brackets
import ExactCalculator.Proofs.Trace.Ledger

/-! How the ranges of a run lie to each other. A rule entered inside another one starts where that one
starts, or after a character that was taken since (`Ledger.After`); so its range has the same start or is
shorter (`Trace.Aligned`), and two rules, one inside the other, with ranges of one length have one
range. -/
namespace ExactCalculator
set_option autoImplicit false

/-! ## Open rules with their steps -/

/-- A range that starts at an offset or is shorter than another one from there. -/
def Span.AlignedTo (span : Span) (start length : Nat) : Prop :=
  span.start = start ∨ span.length < length

/-- A rule inside another one has a range with the same start or a shorter one. -/
def Trace.Aligned (trace : Trace) : Prop :=
  ∀ node inner, trace.Contains node → node.Contains inner →
    inner.span.AlignedTo node.span.start node.span.length

/-- Open rules with their steps so far, where `mark` is the end of what was taken. An open rule has the
start of the rule around it or starts later and after a character was taken, and the ranges of its steps
lie in the same way to it and to all the rules around it. -/
inductive Ledger.Arranged (mark : Nat) : List OpenRule → List OpenTrace → Prop
  | nil : Arranged mark [] []
  | cons {r : OpenRule} {rules : List OpenRule} {steps : List Trace} {opens : List OpenTrace}
      (outer : Arranged mark rules opens)
      (hstart : ∀ o ∈ rules, o.start = r.start ∨ o.start < mark ∧ o.start < r.start)
      (haligned : ∀ step ∈ steps, step.Aligned)
      (hinner : ∀ o ∈ r :: rules, ∀ step ∈ steps, ∀ inner, step.Contains inner →
        inner.span.AlignedTo o.start (mark - o.start)) :
      Arranged mark (r :: rules) (⟨r.rule, steps⟩ :: opens)

namespace Ledger

variable {p mark : Nat} {r : OpenRule} {rules : List OpenRule} {events : List Event} {s : Ledger}
  {opens : List OpenTrace} {steps : List Trace} {w : List Char}

theorem Arranged.mono (h : Arranged mark rules opens) {mark' : Nat} (hle : mark ≤ mark') :
    Arranged mark' rules opens := by
  induction h with
  | nil => exact .nil
  | cons _ hstart haligned hinner ih =>
    refine .cons ih (fun o ho => ?_) haligned (fun o ho step hstep inner hcontains => ?_)
    · exact (hstart o ho).imp_right fun ⟨hmark, hlt⟩ => ⟨hmark.trans_le hle, hlt⟩
    · have hlength : mark - o.start ≤ mark' - o.start := Nat.sub_le_sub_right hle _
      exact (hinner o ho step hstep inner hcontains).imp_right fun hlt => hlt.trans_le hlength

/-- A rule that is left now is aligned with its steps. -/
theorem aligned_of_leave (haligned : ∀ step ∈ steps, step.Aligned)
    (hinner : ∀ step ∈ steps, ∀ inner, step.Contains inner →
      inner.span.AlignedTo r.start (mark - r.start)) (outcome : Outcome) :
    (Trace.node r.rule ⟨r.start, max r.start mark⟩ outcome steps).Aligned := by
  intro node inner hnode hcontains
  cases hnode with
  | self =>
    cases hcontains with
    | self => exact .inl rfl
    | step hstep hcontains =>
      have hlength : mark - r.start ≤ max r.start mark - r.start :=
        Nat.sub_le_sub_right (le_max_right ..) _
      exact (hinner _ hstep _ hcontains).imp_right fun hlt => hlt.trans_le hlength
  | step hstep hnode => exact haligned _ hstep _ _ hnode hcontains

/-- A rule that is left now becomes a step of the rule around it. -/
theorem Arranged.leave {r' : OpenRule} {steps' : List Trace} (outcome : Outcome)
    (h : Arranged mark (r :: r' :: rules) (⟨r.rule, steps⟩ :: ⟨r'.rule, steps'⟩ :: opens)) :
    Arranged mark (r' :: rules)
      (⟨r'.rule, steps' ++ [.node r.rule ⟨r.start, max r.start mark⟩ outcome steps]⟩ :: opens) := by
  cases h with
  | cons outer hstart haligned hinner =>
    cases outer with
    | cons outer hstart' haligned' hinner' =>
      have hleft := aligned_of_leave haligned (hinner r (List.mem_cons_self ..)) outcome
      refine .cons outer hstart' (List.forall_mem_append.2
        ⟨haligned', List.forall_mem_singleton.2 hleft⟩) (fun o ho => List.forall_mem_append.2
        ⟨hinner' o ho, List.forall_mem_singleton.2 fun inner hcontains => ?_⟩)
      cases hcontains with
      | self =>
        -- the rule starts where the outer one does, or later, after a character was taken there
        refine (hstart o ho).imp Eq.symm fun ⟨hmark, hlt⟩ => ?_
        show max r.start mark - r.start < mark - o.start
        omega
      | step hstep hcontains => exact hinner o (List.mem_cons_of_mem _ ho) _ hstep _ hcontains

/-- What has been reported is complete traces and open rules whose ranges nest. -/
def Nests (s : Ledger) : Prop :=
  ∃ traces opens, s.events = Trace.allEvents traces ++ openEvents opens ∧
    Arranged s.mark s.rules opens ∧ ∀ trace ∈ traces, trace.Aligned

theorem Nests.enter (h : Nests ⟨mark, rules, events⟩) (rule : Rule)
    (hstart : ∀ o ∈ rules, o.start = p ∨ o.start < mark ∧ o.start < p) :
    Nests ⟨mark, ⟨rule, p⟩ :: rules, events ++ [.enter rule]⟩ := by
  obtain ⟨traces, opens, hevents, harranged, haligned⟩ := h
  have hevents : events = Trace.allEvents traces ++ openEvents opens := hevents
  refine ⟨traces, ⟨rule, []⟩ :: opens, ?_,
    harranged.cons hstart (List.forall_mem_nil _) (fun _ _ => List.forall_mem_nil _), haligned⟩
  show events ++ [.enter rule] = _
  rw [hevents, List.append_assoc]
  rfl

theorem Nests.leave (h : Nests ⟨mark, r :: rules, events⟩) (outcome : Outcome) :
    Nests ⟨mark, rules, events ++ [.leave r.rule ⟨r.start, max r.start mark⟩ outcome]⟩ := by
  obtain ⟨traces, opens, hevents, harranged, haligned⟩ := h
  have hevents : events = Trace.allEvents traces ++ openEvents opens := hevents
  have harranged : Arranged mark (r :: rules) opens := harranged
  rw [hevents, List.append_assoc]
  cases harranged with
  | @cons _ _ steps opens outer hstart hsteps hinner =>
    cases outer with
    | nil =>
      -- the outermost rule is left, so there is one more complete trace
      have hleft := aligned_of_leave hsteps (hinner r (List.mem_cons_self ..)) outcome
      refine ⟨traces ++ [.node r.rule ⟨r.start, max r.start mark⟩ outcome steps], [], ?_, .nil,
        List.forall_mem_append.2 ⟨haligned, List.forall_mem_singleton.2 hleft⟩⟩
      simp [openEvents, Trace.allEvents_append, Trace.allEvents, Trace.events]
    | @cons r' rules steps' opens outer hstart' hsteps' hinner' =>
      have hleft := (Arranged.cons (outer.cons hstart' hsteps' hinner') hstart hsteps hinner).leave
        outcome
      exact ⟨traces, _, congrArg (Trace.allEvents traces ++ ·)
        (openEvents_leave r.rule steps ⟨r'.rule, steps'⟩ opens _ outcome).symm, hleft, haligned⟩

theorem Nests.take (h : Nests ⟨mark, rules, events⟩) {mark' : Nat} (hle : mark ≤ mark') :
    Nests ⟨mark', rules, events⟩ := by
  obtain ⟨traces, opens, hevents, harranged, haligned⟩ := h
  exact ⟨traces, opens, hevents, harranged.mono hle, haligned⟩

theorem After.nests (h : After w s) : s.Nests := by
  induction h with
  | start => exact ⟨[], [], rfl, .nil, List.forall_mem_nil _⟩
  | skip _ _ _ ih => exact ih
  | @enter w mark rules events rule h ih =>
    refine ih.enter rule fun o ho => ?_
    exact (h.placed.starts o ho).imp_right fun hvisible => ⟨hvisible.lt_mark h.placed.mark, hvisible.lt⟩
  | leave value _ ih => exact ih.leave (.value value)
  | take h _ ih => exact ih.take (Nat.le_succ_of_le h.placed.mark.le)

/-- Leaving all open rules with a failure leaves nothing but complete traces. -/
theorem Nests.leavings {m : Machine} {failure : Failure} (h : Nests ⟨m.mark, rules, events⟩) :
    Nests ⟨m.mark, [], events ++ ExactCalculator.leavings m failure rules⟩ := by
  induction rules generalizing events with
  | nil =>
    rw [ExactCalculator.leavings, List.map_nil, List.append_nil]
    exact h
  | cons r rules ih =>
    have hleave := ih (h.leave (.failure failure))
    rwa [List.append_assoc] at hleave

end Ledger

theorem Run.Closes.nests {text : List Char} {run : Run} (h : run.Closes text) :
    ∃ mark, Ledger.Nests ⟨mark, [], run.events⟩ := by
  cases h with
  | complete _ hledger => exact ⟨_, hledger.nests⟩
  | @failed w rest m failure _ hledger _ =>
    refine ⟨m.mark, ?_⟩
    rw [Machine.fail_events]
    exact hledger.nests.leavings

/-- In the trace of a run every rule inside another one has a range with the same start or a shorter
one. -/
theorem runWith_aligned {policy : Policy} {text : String} {trace : Trace}
    (hevents : (runWith policy text).events = trace.events) : trace.Aligned := by
  obtain ⟨mark, hnests⟩ := (runWith_closes policy text).nests
  obtain ⟨traces, opens, htraces, harranged, haligned⟩ := hnests
  cases harranged
  have hall : Trace.allEvents traces = Trace.allEvents [trace] := by
    simpa [openEvents, Trace.allEvents, hevents] using htraces.symm
  have hleave : Trace.allEvents traces ++ [.leave .expression trace.span trace.outcome] =
      Trace.allEvents [trace] ++ [.leave .expression trace.span trace.outcome] := by rw [hall]
  obtain ⟨rfl, -⟩ := Trace.allEvents_append_inj traces [trace] hleave
  exact haligned trace (List.mem_singleton_self _)

end ExactCalculator
