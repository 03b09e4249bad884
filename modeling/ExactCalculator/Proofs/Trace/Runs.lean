import ExactCalculator.Proofs.Machine.Events
import ExactCalculator.Proofs.Trace.Growing

/-! The open rules of a run. As long as a run goes on its events are growing, with just the rules open
that the machine has open; when it ends, by an answer, by a failure or by an interruption, they are those
of one trace (`runWith_traced`). Nothing is said here of what the rules have read. -/
namespace ExactCalculator
set_option autoImplicit false

def Run.spans (run : Run) : List Span := run.events.flatMap Event.spans ++ run.outcome.spans

/-- The events of the run are those of one trace, and what it blames is a range. -/
structure Run.Traced (run : Run) : Prop where
  events : OneTrace run.events
  outcome : Ordered run.outcome.spans

theorem Run.Traced.ordered {run : Run} (h : run.Traced) : Ordered run.spans := by
  refine List.forall_mem_append.2 ⟨?_, h.outcome⟩
  intro span hspan
  obtain ⟨event, hevent, hspan⟩ := List.mem_flatMap.1 hspan
  exact h.events.ordered event hevent span hspan

/-- A machine inside a rule: its events are growing, with its open rules. -/
def Machine.Grows (m : Machine) : Prop := Growing (m.openRules.map OpenRule.rule) m.events

/-- The events so far are those of a run that stands where the machine stands. -/
def Machine.Traced (m : Machine) : Prop :=
  match m.phase with
  | .expression => m.stack = [] ∧ m.events = [] ∨ m.Grows
  | .complete value => m.stack = [] ∧ Run.Traced ⟨.value value, m.journal⟩
  | _ => m.Grows

def Progress.Traced : Progress → Prop
  | .more m => m.Traced
  | .ended run => run.Traced

section
variable {limit : Option Nat} {next : Option Char} {c : Char} {p : Nat} {m m' : Machine}
  {e : OpenExpression} {t : OpenTerm} {termStart : Nat} {value : Fraction} {level : Level}
  {outer : List Level} {rules : List Rule} {rule : Rule} {failure : Failure} {xs ys : List Question}
  {q : Progress} {r : Run} {text w rest : List Char}

namespace Machine

/-! ## Phases -/

theorem Traced.grows (h : m.Traced) (hopen : m.phase.openRules ≠ []) : m.Grows := by
  unfold Traced at h
  split at h
  · next hphase => exact absurd (congrArg Phase.openRules hphase) hopen
  · next hphase => exact absurd (congrArg Phase.openRules hphase) hopen
  · exact h

theorem Traced.growing_enter (h : m.Traced) (hphase : m.phase = .expression) :
    Growing (.expression :: (m.stack.flatMap Level.openRules).map OpenRule.rule)
      (m.events ++ [.enter .expression]) := by
  simp only [Traced, hphase] at h
  -- the whole expression begins a trace, one in parentheses is a step of the factor around it
  rcases h with ⟨hstack, hevents⟩ | h
  · rw [hstack, hevents]
    exact .start .expression
  · simp only [Grows, openRules, hphase] at h
    exact h.enter .expression

/-! ## Entering and leaving -/

theorem Grows.enter {phase : Phase} (h : m.Grows)
    (hrules : openRules { m.enter rule with phase := phase } = ⟨rule, p⟩ :: m.openRules) :
    Grows { m.enter rule with phase := phase } := by
  have hevents : events { m.enter rule with phase := phase } = m.events ++ [.enter rule] :=
    m.events_record _
  rw [Grows, hrules, hevents]
  exact Growing.enter h rule

theorem Grows.enterFactor (h : m.Grows) (hphase : m.phase = .factor e t) :
    (m.enterFactor e t p).Grows := by
  refine h.enter (p := p) ?_
  rw [openRules, openRules, hphase]
  rfl

theorem ordered_leave (m : Machine) (start : Nat) :
    Ordered (Event.leave rule (m.spanFrom start) (.value value)).spans :=
  .cons (le_max_left ..) .nil

theorem Grows.leaveFactor {start : Nat} {phase : Phase} (h : m.Grows)
    (hbefore : m.openRules.map OpenRule.rule = .factor :: .term :: rules)
    (hafter : (m.leaveFactor start value phase).openRules.map OpenRule.rule = .term :: rules) :
    (m.leaveFactor start value phase).Grows := by
  rw [Grows, hafter, events_leaveFactor]
  rw [Grows, hbefore] at h
  exact h.leave (m.ordered_leave start)

theorem Grows.leaveTerm (h : m.Grows) (hphase : m.phase = .operator e termStart value) :
    Growing (.expression :: (m.stack.flatMap Level.openRules).map OpenRule.rule)
      (m.events ++ [.leave .term (m.spanFrom termStart) (.value value)]) := by
  simp only [Grows, openRules, hphase] at h
  exact Growing.leave h (m.ordered_leave termStart)

theorem Grows.leaveExpression (h : m.Grows) (hphase : m.phase = .operator e termStart value)
    (hstack : m.stack = level :: outer) : (m.leaveExpression e termStart value).Grows := by
  have hterm := h.leaveTerm hphase
  have hstack' : (m.leaveExpression e termStart value).stack = level :: outer := hstack
  rw [hstack] at hterm
  rw [Grows, openRules, hstack', events_leaveExpression]
  exact hterm.leave (m.ordered_leave e.start)

/-- Leaving the outermost expression completes the trace. -/
theorem Grows.complete (h : m.Grows) (hphase : m.phase = .operator e termStart value)
    (hstack : m.stack = []) :
    Run.Traced ⟨.value (e.sum.join value), (m.leaveExpression e termStart value).journal⟩ := by
  have hterm := h.leaveTerm hphase
  rw [hstack] at hterm
  refine ⟨?_, .nil⟩
  show OneTrace (m.leaveExpression e termStart value).events
  rw [events_leaveExpression]
  exact hterm.oneTrace (m.ordered_leave e.start)

/-- The closing parenthesis of a level ends its factor. -/
theorem Grows.leaveLevel (h : m.Grows) (hphase : m.phase = .operator e termStart value)
    (hstack : m.stack = level :: outer) (mark : Nat) {after : Phase}
    (hafter : after.openRules =
      [⟨.term, level.term.start⟩, ⟨.expression, level.expression.start⟩]) :
    ((m.popLevel e termStart value outer mark).leaveFactor level.start (e.sum.join value)
      after).Grows := by
  have hexpression := h.leaveExpression hphase hstack
  have hstack' : (m.leaveExpression e termStart value).stack = level :: outer := hstack
  rw [Grows, openRules, hstack'] at hexpression
  have hpop : Growing ((level.openRules ++ outer.flatMap Level.openRules).map OpenRule.rule)
      (m.popLevel e termStart value outer mark).events := hexpression
  have hrules : ((m.popLevel e termStart value outer mark).leaveFactor level.start
      (e.sum.join value) after).openRules = after.openRules ++ outer.flatMap Level.openRules := rfl
  rw [Grows, events_leaveFactor, hrules, hafter]
  exact Growing.leave hpop (ordered_leave _ level.start)

/-- Leaving all open rules, the innermost first, completes the trace. -/
theorem oneTrace_leavings {opens : List OpenRule} {events : List Event}
    (h : Growing (opens.map OpenRule.rule) events) (m : Machine)
    (hfailure : failure.span.start ≤ failure.span.stop) :
    OneTrace (events ++ leavings m failure opens) := by
  induction opens generalizing events with
  | nil => cases h
  | cons r opens ih =>
    have hspans : Ordered (Event.leave r.rule (m.spanFrom r.start) (.failure failure)).spans :=
      .cons (le_max_left ..) (.cons hfailure .nil)
    cases opens with
    | nil => exact h.oneTrace hspans
    | cons r' opens =>
      have hleave := ih (Growing.leave h hspans)
      rwa [List.append_assoc] at hleave

/-- A failure leaves all open rules, so it completes the trace. -/
theorem Grows.fail (h : m.Grows) (hfailure : failure.span.start ≤ failure.span.stop) :
    (m.fail failure).Traced := by
  refine ⟨?_, .cons hfailure .nil⟩
  rw [fail_events]
  exact oneTrace_leavings h m hfailure

/-- A failure after the outermost expression adds no event. -/
theorem fail_of_complete (h : Run.Traced ⟨.value value, m.journal⟩)
    (hphase : m.phase = .complete value) (hstack : m.stack = [])
    (hfailure : failure.span.start ≤ failure.span.stop) : (m.fail failure).Traced := by
  have hrules : m.openRules = [] := by rw [openRules, hphase, hstack]; rfl
  refine ⟨?_, .cons hfailure .nil⟩
  rw [fail_events, hrules]
  show OneTrace (m.events ++ [])
  rw [List.append_nil]
  exact h.events

theorem atNext_ordered (next : Option Char) (p : Nat) :
    (Failure.atNext next p).span.start ≤ (Failure.atNext next p).span.stop := by
  cases next with
  | none => exact le_refl p
  | some c => exact Nat.le_add_right p c.utf8Size

/-! ## Moves -/

theorem SilentMove.traced (move : SilentMove next p m xs m') (h : m.Traced) :
    m'.Traced ∧ ∀ x ∈ xs, x.machine.Grows := by
  cases move with
  | enterExpression hphase =>
    have hgrowing := h.growing_enter hphase
    rw [← events_record] at hgrowing
    exact ⟨hgrowing, List.forall_mem_nil _⟩
  | enterTerm hphase =>
    have hgrows := h.grows (by simp [hphase, Phase.openRules])
    refine ⟨hgrows.enter (p := p) ?_, List.forall_mem_nil _⟩
    rw [openRules, openRules, hphase]
    rfl
  | @leaveLiteral e t start value product hphase =>
    have hgrows := h.grows (by simp [hphase, Phase.openRules])
    have hleft : (m.leaveFactor start (.ofInt value) (.operator e t.start product)).Grows := by
      refine hgrows.leaveFactor ?_ rfl
      rw [openRules, hphase]
      rfl
    exact ⟨hleft, List.forall_mem_singleton.2 hleft⟩
  | beside hphase =>
    have hgrows := h.grows (by simp [hphase, Phase.openRules])
    simp only [Grows, openRules, hphase] at hgrows
    exact ⟨hgrows, List.forall_mem_nil _⟩

theorem TakingMove.traced (move : TakingMove limit c p m xs m') (h : m.Traced) :
    m'.Traced ∧ ∀ x ∈ xs, x.machine.Grows := by
  cases move with
  | firstSign hphase =>
    have hgrowing := h.growing_enter hphase
    rw [← events_record] at hgrowing
    exact ⟨hgrowing, List.forall_mem_nil _⟩
  | firstDigit hphase =>
    have hgrows := (h.grows (by simp [hphase, Phase.openRules])).enterFactor (p := p) hphase
    exact ⟨hgrows, List.forall_mem_singleton.2 hgrows⟩
  | nextDigit hphase =>
    have hgrows := h.grows (by simp [hphase, Phase.openRules])
    refine ⟨?_, List.forall_mem_singleton.2 hgrows⟩
    simp only [Grows, openRules, hphase] at hgrows
    exact hgrows
  | opening hphase =>
    have hgrows := (h.grows (by simp [hphase, Phase.openRules])).enterFactor (p := p) hphase
    exact ⟨.inr hgrows, List.forall_mem_nil _⟩
  | scaling hphase =>
    have hgrows := h.grows (by simp [hphase, Phase.openRules])
    simp only [Grows, openRules, hphase] at hgrows
    exact ⟨hgrows, List.forall_mem_nil _⟩
  | sign hphase =>
    have hterm := (h.grows (by simp [hphase, Phase.openRules])).leaveTerm hphase
    rw [← events_record] at hterm
    exact ⟨hterm, List.forall_mem_nil _⟩
  | @closing e termStart value level outer product hphase hstack =>
    have hgrows := h.grows (by simp [hphase, Phase.openRules])
    have hleft : ((m.popLevel e termStart value outer (p + 1)).leaveFactor level.start
        (e.sum.join value) (.operator level.expression level.term.start product)).Grows :=
      hgrows.leaveLevel hphase hstack (p + 1) rfl
    exact ⟨hleft, List.forall_mem_singleton.2 hleft⟩
  | equals hphase hstack =>
    have hcomplete := (h.grows (by simp [hphase, Phase.openRules])).complete hphase hstack
    exact ⟨⟨hstack, hcomplete⟩, List.forall_mem_nil _⟩

theorem FinalMove.traced (move : FinalMove limit next p m r) (h : m.Traced) : r.Traced := by
  cases move with
  | refuseFactor hphase =>
    have hgrows := (h.grows (by simp [hphase, Phase.openRules])).enterFactor (p := p) hphase
    exact hgrows.fail (atNext_ordered next p)
  | tooDeep hphase =>
    have hgrows := (h.grows (by simp [hphase, Phase.openRules])).enterFactor (p := p) hphase
    exact hgrows.fail (Nat.le_add_right p _)
  | @literalFault e t start value fault hphase =>
    have hgrows := h.grows (by simp [hphase, Phase.openRules])
    have hleft : (m.leaveFactor start (.ofInt value) (.factor e t)).Grows := by
      refine hgrows.leaveFactor ?_ rfl
      rw [openRules, hphase]
      rfl
    exact hleft.fail (le_max_left ..)
  | @closingFault e termStart value level outer fault hphase hstack =>
    have hgrows := h.grows (by simp [hphase, Phase.openRules])
    exact (hgrows.leaveLevel hphase hstack (p + 1) rfl).fail (le_max_left ..)
  | stray hphase =>
    exact (h.grows (by simp [hphase, Phase.openRules])).fail (atNext_ordered next p)
  | @refuseEnd e termStart value hphase =>
    have hgrows := h.grows (by simp [hphase, Phase.openRules])
    -- outside of parentheses the trace is complete before the failure
    cases hstack : m.stack with
    | nil => exact fail_of_complete (hgrows.complete hphase hstack) rfl hstack (atNext_ordered next p)
    | cons level outer =>
      exact (hgrows.leaveExpression hphase hstack).fail (atNext_ordered next p)
  | accept hphase hstack =>
    exact (h.grows (by simp [hphase, Phase.openRules])).complete hphase hstack
  | acceptComplete hphase =>
    simp only [Traced, hphase] at h
    exact h.2
  | refuseComplete hphase =>
    simp only [Traced, hphase] at h
    exact fail_of_complete h.2 hphase h.1 (atNext_ordered next p)

theorem Moves.traced (moves : Moves limit next p m xs q) (h : m.Traced) :
    q.Traced ∧ ∀ x ∈ xs, x.machine.Grows := by
  induction moves with
  | silent move _ ih =>
    obtain ⟨hm', hxs⟩ := move.traced h
    obtain ⟨hq, hys⟩ := ih hm'
    exact ⟨hq, List.forall_mem_append.2 ⟨hxs, hys⟩⟩
  | take _ move => exact move.traced h
  | final move => exact ⟨move.traced h, List.forall_mem_nil _⟩

end Machine

/-! ## Runs -/

theorem Path.traced (path : Path limit w xs m) : m.Traced ∧ ∀ x ∈ xs, x.machine.Grows := by
  induction path with
  | start => exact ⟨.inl ⟨rfl, rfl⟩, List.forall_mem_nil _⟩
  | skip _ _ ih => exact ih
  | read _ _ moves _ ih =>
    obtain ⟨hm, hxs⟩ := ih
    obtain ⟨hm', hys⟩ := moves.traced hm
    exact ⟨hm', List.forall_mem_append.2 ⟨hxs, hys⟩⟩

theorem Course.traced (h : Course limit text w rest xs m ys r) : r.Traced :=
  (h.moves.traced h.path.traced.1).1

/-- At every question of a course its events are growing. -/
theorem Course.grows (h : Course limit text w rest xs m ys r) :
    ∀ x ∈ xs ++ ys, x.machine.Grows := by
  obtain ⟨hm, hxs⟩ := h.path.traced
  exact List.forall_mem_append.2 ⟨hxs, (h.moves.traced hm).2⟩

theorem Question.interrupted_traced {x : Question} (h : x.machine.Grows) : x.interrupted.Traced := by
  have hasked : x.asked.Grows := h
  exact hasked.fail (le_refl x.offset)

end

/-- However a run ends, its events are those of one trace. -/
theorem runWith_traced (policy : Policy) (text : String) : (runWith policy text).Traced := by
  obtain ⟨w, rest, xs, m, ys, r, hcourse⟩ := exists_course policy.depthLimit text.toList
  rcases hcourse.runWith_cases with hrun | ⟨x, hx, hrun⟩
  · rw [hrun]
    exact hcourse.traced
  · rw [hrun]
    exact Question.interrupted_traced (hcourse.grows x hx)

end ExactCalculator
