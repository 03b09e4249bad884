import ExactCalculator.Proofs.Trace.Runs

/-! How many rules are open at once. Every open parenthesis keeps three rules open, and the innermost
expression adds at most three more. So a limit on the depth of parentheses is a limit on the rules
that are open at any point of a run, whatever the text is and however the run ends
(`runWith_openAtMost`). -/
namespace ExactCalculator
set_option autoImplicit false

/-! ## Open rules along events -/

/-- At every point of the events at most `n` rules are open. -/
def OpenAtMost (n : Nat) (events : List Event) : Prop :=
  ∀ before, before <+: events → ∃ rules, openRulesAfter? before = some rules ∧ rules.length ≤ n

/-- The later events are those before and rules that are left, and none that is entered. -/
inductive OnlyLeaves (events : List Event) : List Event → Prop
  | refl : OnlyLeaves events events
  | leave {later : List Event} (h : OnlyLeaves events later) (rule : Rule) (span : Span)
      (outcome : Outcome) : OnlyLeaves events (later ++ [.leave rule span outcome])

/-- The later events go on with one rule that is entered, or with rules that are left. -/
inductive GoesOn (events : List Event) : List Event → Prop
  | enter (rule : Rule) : GoesOn events (events ++ [.enter rule])
  | leave {later : List Event} (h : OnlyLeaves events later) : GoesOn events later

section
variable {n : Nat} {events later : List Event} {rules : List Rule}

theorem OnlyLeaves.leavings (h : OnlyLeaves events later) (m : Machine) (failure : Failure)
    (rules : List OpenRule) : OnlyLeaves events (later ++ leavings m failure rules) := by
  induction rules generalizing later with
  | nil => rwa [ExactCalculator.leavings, List.map_nil, List.append_nil]
  | cons r rules ih =>
    have hrest := ih (h.leave r.rule (m.spanFrom r.start) (.failure failure))
    rwa [List.append_assoc] at hrest

/-- Where a rule is left there is one open rule less. -/
theorem Event.length_of_leave {rule : Rule} {span : Span} {outcome : Outcome} {after : List Rule}
    (h : Event.openRules? rules (.leave rule span outcome) = some after) :
    after.length ≤ rules.length := by
  cases rules with
  | nil => cases h
  | cons innermost rules =>
    rw [openRules?] at h
    split at h
    · rw [← Option.some.inj h]
      exact Nat.le_succ _
    · cases h

namespace OpenAtMost

theorem nil : OpenAtMost n [] := by
  intro before h
  rw [List.prefix_nil.1 h]
  exact ⟨[], rfl, Nat.zero_le n⟩

theorem earlier (h : OpenAtMost n later) (hevents : events <+: later) : OpenAtMost n events :=
  fun _ hbefore => h _ (hbefore.trans hevents)

theorem concat (h : OpenAtMost n events) {event : Event}
    (hopen : ∃ rules, openRulesAfter? (events ++ [event]) = some rules ∧ rules.length ≤ n) :
    OpenAtMost n (events ++ [event]) := by
  intro before hbefore
  rcases List.prefix_concat_iff.1 hbefore with rfl | hearlier
  · exact hopen
  · exact h before hearlier

/-- Rules that are left do not add to the open ones. -/
theorem leaves (h : OpenAtMost n events) (hlater : OnlyLeaves events later)
    (hopen : openRulesAfter? later = some rules) : OpenAtMost n later := by
  induction hlater generalizing rules with
  | refl => exact h
  | @leave later _ rule span outcome ih =>
    have hsteps := hopen
    rw [openRulesAfter?_append] at hsteps
    obtain ⟨before, hbefore, hleave⟩ := Option.bind_eq_some_iff.1 hsteps
    have hlast : Event.openRules? before (.leave rule span outcome) = some rules := by
      simpa using hleave
    have hso := ih hbefore
    obtain ⟨_, heq, hle⟩ := hso later (List.prefix_refl later)
    obtain rfl := Option.some.inj (hbefore.symm.trans heq)
    exact hso.concat ⟨rules, hopen, le_trans (Event.length_of_leave hlast) hle⟩

theorem goesOn (h : OpenAtMost n events) (hlater : GoesOn events later)
    (hopen : ∃ rules, openRulesAfter? later = some rules ∧ rules.length ≤ n) :
    OpenAtMost n later := by
  cases hlater with
  | enter rule => exact h.concat hopen
  | leave hleaves =>
    obtain ⟨rules, hrules, -⟩ := hopen
    exact h.leaves hleaves hrules

end OpenAtMost

end

/-! ## Machines within a depth -/

theorem Run.Traced.openRulesAfter?_eq {run : Run} (h : run.Traced) :
    openRulesAfter? run.events = some [] := by
  obtain ⟨trace, htrace⟩ := h.events.exists_trace
  rw [← htrace]
  exact trace.openRules_events []

section
variable {limit : Option Nat} {next : Option Char} {c : Char} {p n : Nat} {m m' : Machine}
  {xs ys : List Question} {r : Run} {text w rest : List Char} {failure : Failure}

namespace Machine

/-- The stack stays within `n`, and so do the open rules of the events. -/
structure Within (n : Nat) (m : Machine) : Prop where
  traced : m.Traced
  stack_le : m.stack.length ≤ n
  events : OpenAtMost (3 * (n + 1)) m.events

theorem length_openRules_le (m : Machine) : m.openRules.length ≤ 3 * (m.stack.length + 1) := by
  have hphase : m.phase.openRules.length ≤ 3 := by
    cases m.phase <;> simp [Phase.openRules]
  have hstack : (m.stack.flatMap Level.openRules).length = 3 * m.stack.length := by
    induction m.stack with
    | nil => rfl
    | cons level outer ih =>
      rw [List.flatMap_cons, List.length_append, ih, List.length_cons]
      exact Nat.add_comm 3 _
  rw [openRules, List.length_append, hstack]
  omega

theorem Grows.exists_openRules (h : m.Grows) (hstack : m.stack.length ≤ n) :
    ∃ rules, openRulesAfter? m.events = some rules ∧ rules.length ≤ 3 * (n + 1) := by
  refine ⟨_, Growing.openRulesAfter?_eq h, ?_⟩
  rw [List.length_map]
  have hrules := m.length_openRules_le
  omega

theorem Traced.exists_openRules (h : m.Traced) (hstack : m.stack.length ≤ n) :
    ∃ rules, openRulesAfter? m.events = some rules ∧ rules.length ≤ 3 * (n + 1) := by
  unfold Traced at h
  split at h
  · rcases h with ⟨-, hevents⟩ | hgrows
    · rw [hevents]
      exact ⟨[], rfl, Nat.zero_le _⟩
    · exact hgrows.exists_openRules hstack
  · exact ⟨[], h.2.openRulesAfter?_eq, Nat.zero_le _⟩
  · exact Grows.exists_openRules h hstack

theorem Within.goesOn (h : m.Within n) (htraced : m'.Traced) (hstack : m'.stack.length ≤ n)
    (hevents : GoesOn m.events m'.events) : m'.Within n :=
  ⟨htraced, hstack, h.events.goesOn hevents (htraced.exists_openRules hstack)⟩

/-! ## Moves -/

theorem onlyLeaves_fail {events : List Event} (h : OnlyLeaves events m.events) (failure : Failure) :
    OnlyLeaves events (m.fail failure).events := by
  rw [fail_events]
  exact h.leavings m failure m.openRules

theorem onlyLeaves_leaveExpression (m : Machine) (e : OpenExpression) (termStart : Nat)
    (value : Fraction) : OnlyLeaves m.events (m.leaveExpression e termStart value).events := by
  rw [events_leaveExpression]
  exact (OnlyLeaves.refl.leave ..).leave ..

theorem onlyLeaves_leaveFactor {events : List Event} (h : OnlyLeaves events m.events) (start : Nat)
    (value : Fraction) (phase : Phase) :
    OnlyLeaves events (m.leaveFactor start value phase).events := by
  rw [events_leaveFactor]
  exact h.leave ..

/-- The closing parenthesis of a level leaves a term, its expression and the factor around it. -/
theorem onlyLeaves_leaveLevel (m : Machine) (e : OpenExpression) (termStart start : Nat)
    (value inner : Fraction) (outer : List Level) (mark : Nat) (phase : Phase) :
    OnlyLeaves m.events
      ((m.popLevel e termStart value outer mark).leaveFactor start inner phase).events := by
  have hpop : OnlyLeaves m.events (m.popLevel e termStart value outer mark).events :=
    m.onlyLeaves_leaveExpression e termStart value
  exact onlyLeaves_leaveFactor hpop start inner phase

theorem SilentMove.goesOn (move : SilentMove next p m xs m') : GoesOn m.events m'.events := by
  cases move with
  | enterExpression => exact m.events_record _ ▸ .enter .expression
  | enterTerm => exact m.events_record _ ▸ .enter .term
  | @leaveLiteral e t start value product =>
    have h : OnlyLeaves m.events m.events := .refl
    exact .leave (onlyLeaves_leaveFactor h start (.ofInt value) (.operator e t.start product))
  | beside => exact .leave .refl

theorem TakingMove.goesOn (move : TakingMove limit c p m xs m') : GoesOn m.events m'.events := by
  cases move with
  | firstSign => exact m.events_record _ ▸ .enter .expression
  | firstDigit | opening => exact m.events_record _ ▸ .enter .factor
  | nextDigit | scaling => exact .leave .refl
  | @sign e termStart value =>
    exact m.events_record _ ▸ .leave (OnlyLeaves.refl.leave .term (m.spanFrom termStart) (.value value))
  | @closing e termStart value level outer product =>
    exact .leave (m.onlyLeaves_leaveLevel e termStart level.start value (e.sum.join value) outer (p + 1)
      (.operator level.expression level.term.start product))
  | @equals e termStart value => exact .leave (m.onlyLeaves_leaveExpression e termStart value)

/-- The last move of a run only leaves rules, or it has entered a factor that it cannot read. -/
theorem FinalMove.onlyLeaves (move : FinalMove limit next p m r) :
    OnlyLeaves m.events r.events ∨
      ∃ e t, m.phase = .factor e t ∧ OnlyLeaves (m.enterFactor e t p).events r.events := by
  cases move with
  | @refuseFactor e t hphase => exact .inr ⟨e, t, hphase, onlyLeaves_fail .refl _⟩
  | @tooDeep e t n hphase => exact .inr ⟨e, t, hphase, onlyLeaves_fail .refl _⟩
  | @literalFault e t start value =>
    have h : OnlyLeaves m.events m.events := .refl
    exact .inl (onlyLeaves_fail (onlyLeaves_leaveFactor h start (.ofInt value) (.factor e t)) _)
  | @closingFault e termStart value level outer =>
    exact .inl (onlyLeaves_fail (m.onlyLeaves_leaveLevel e termStart level.start value (e.sum.join value)
      outer (p + 1) (.factor level.expression level.term)) _)
  | stray => exact .inl (onlyLeaves_fail .refl _)
  | @refuseEnd e termStart value =>
    exact .inl (onlyLeaves_fail (m.onlyLeaves_leaveExpression e termStart value) _)
  | @accept e termStart value => exact .inl (m.onlyLeaves_leaveExpression e termStart value)
  | acceptComplete => exact .inl .refl
  | refuseComplete => exact .inl (onlyLeaves_fail .refl _)

theorem SilentMove.within (move : SilentMove next p m xs m') (h : m.Within n) : m'.Within n :=
  h.goesOn (move.traced h.traced).1 (move.stack_eq ▸ h.stack_le) move.goesOn

theorem TakingMove.within (move : TakingMove limit c p m xs m') (hlimit : limit = some n)
    (h : m.Within n) : m'.Within n :=
  h.goesOn (move.traced h.traced).1 (move.stack_le hlimit h.stack_le) move.goesOn

theorem FinalMove.openAtMost (move : FinalMove limit next p m r) (h : m.Within n) :
    OpenAtMost (3 * (n + 1)) r.events := by
  have hclosed := (move.traced h.traced).openRulesAfter?_eq
  rcases move.onlyLeaves with hleaves | ⟨e, t, hphase, hleaves⟩
  · exact h.events.leaves hleaves hclosed
  · have hgrows := (h.traced.grows (by simp [hphase, Phase.openRules])).enterFactor (p := p) hphase
    have hfactor : OpenAtMost (3 * (n + 1)) (m.enterFactor e t p).events := by
      refine h.events.goesOn ?_ (hgrows.exists_openRules h.stack_le)
      exact m.events_enterFactor e t p ▸ .enter .factor
    exact hfactor.leaves hleaves hclosed

theorem Moves.within (moves : Moves limit next p m xs (.more m')) (hlimit : limit = some n)
    (h : m.Within n) : m'.Within n := by
  obtain ⟨m₀, c, ys, h₀, -, move⟩ := moves.exists_taking rfl (fun _ _ _ move => move.within) h
  exact move.within hlimit h₀

theorem Moves.openAtMost (moves : Moves limit next p m xs (.ended r)) (h : m.Within n) :
    OpenAtMost (3 * (n + 1)) r.events := by
  obtain ⟨m₀, h₀, move⟩ := moves.exists_final rfl (fun _ _ _ move => move.within) h
  exact move.openAtMost h₀

end Machine

/-! ## Runs -/

/-- An interruption leaves the rules that are open at its question. -/
theorem Question.onlyLeaves_interrupted (x : Question) :
    OnlyLeaves x.machine.events x.interrupted.events :=
  Machine.onlyLeaves_fail (m := x.asked) .refl _

theorem Path.within (path : Path limit w xs m) (hlimit : limit = some n) : m.Within n := by
  induction path with
  | start => exact ⟨.inl ⟨rfl, rfl⟩, Nat.zero_le n, .nil⟩
  | skip _ _ ih => exact ih
  | read _ _ moves _ ih => exact moves.within hlimit ih

theorem Course.openAtMost (h : Course limit text w rest xs m ys r) (hlimit : limit = some n) :
    OpenAtMost (3 * (n + 1)) r.events :=
  h.moves.openAtMost (h.path.within hlimit)

end

/-- Under a limit on the depth of parentheses the number of open rules is limited at every point of a
run. -/
theorem runWith_openAtMost {policy : Policy} {n : Nat} (hlimit : policy.depthLimit = some n)
    (text : String) : OpenAtMost (3 * (n + 1)) (runWith policy text).events := by
  obtain ⟨w, rest, xs, m, ys, r, hcourse⟩ := exists_course policy.depthLimit text.toList
  have hopen := hcourse.openAtMost hlimit
  rcases hcourse.runWith_cases with hrun | ⟨x, hx, hrun⟩
  · rwa [hrun]
  · -- the rules open at a question are left, and they were open in the course as well
    have hclosed := (Question.interrupted_traced (hcourse.grows x hx)).openRulesAfter?_eq
    rw [hrun]
    exact (hopen.earlier (hcourse.question_prefix x hx)).leaves x.onlyLeaves_interrupted hclosed

end ExactCalculator
