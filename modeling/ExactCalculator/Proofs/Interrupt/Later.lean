import ExactCalculator.Proofs.Blame.Exact
import ExactCalculator.Proofs.Interrupt.Simulation

/-! Runs that are stopped at different events. The questions of a course come in order: a later one is
asked no further to the left, and after all events of an earlier one (`Course.ordered`). So a flag that
goes up earlier stops the run at the same question or at an earlier one (`Signal.firstStop_mono`), and
what such a run has completed, the run that is stopped later has completed as well. -/
namespace ExactCalculator
set_option autoImplicit false

/-! ## The order of questions -/

/-- The question comes before another one or is the same. -/
structure Question.Before (x y : Question) : Prop where
  offset : x.offset ≤ y.offset
  events : x.machine.events <+: y.machine.events

theorem Question.Before.refl (x : Question) : x.Before x := ⟨le_refl _, List.prefix_refl _⟩

section
variable {limit : Option Nat} {next : Option Char} {c : Char} {p : Nat} {m m' : Machine}
  {xs ys : List Question} {q : Progress} {r : Run} {text w rest : List Char}

namespace Machine

theorem SilentMove.extends (move : SilentMove next p m xs m') :
    ∀ x ∈ xs, m.events <+: x.machine.events := by
  cases move with
  | enterExpression | enterTerm | beside => exact List.forall_mem_nil _
  | leaveLiteral => exact List.forall_mem_singleton.2 (m.events_prefix_leaveFactor _ _ _)

theorem TakingMove.extends (move : TakingMove limit c p m xs m') :
    ∀ x ∈ xs, m.events <+: x.machine.events := by
  cases move with
  | firstSign | opening | scaling | sign | equals => exact List.forall_mem_nil _
  | firstDigit => exact List.forall_mem_singleton.2 (m.events_prefix_enterFactor _ _ _)
  | nextDigit => exact List.forall_mem_singleton.2 (List.prefix_refl _)
  | @closing e termStart value level outer product =>
    refine List.forall_mem_singleton.2 ?_
    exact (m.events_prefix_popLevel e termStart value outer (p + 1)).trans
      (events_prefix_leaveFactor _ _ _ _)

theorem SilentMove.ordered (move : SilentMove next p m xs m') : xs.Pairwise Question.Before := by
  cases move with
  | enterExpression | enterTerm | beside => exact .nil
  | leaveLiteral => exact List.pairwise_singleton _ _

theorem TakingMove.ordered (move : TakingMove limit c p m xs m') : xs.Pairwise Question.Before := by
  cases move with
  | firstSign | opening | scaling | sign | equals => exact .nil
  | firstDigit | nextDigit | closing => exact List.pairwise_singleton _ _

theorem Moves.extends (moves : Moves limit next p m xs q) :
    ∀ x ∈ xs, m.events <+: x.machine.events := by
  induction moves with
  | silent move _ ih =>
    exact List.forall_mem_append.2
      ⟨move.extends, fun x hx => move.events_prefix.trans (ih x hx)⟩
  | take _ move => exact move.extends
  | final => exact List.forall_mem_nil _

theorem Moves.le_offset (moves : Moves limit next p m xs q) : ∀ x ∈ xs, p ≤ x.offset := by
  intro x hx
  rcases moves.offset_eq x hx with hoffset | ⟨-, hoffset⟩
  · exact hoffset.ge
  · omega

theorem Moves.ordered (moves : Moves limit next p m xs q) : xs.Pairwise Question.Before := by
  induction moves with
  | silent move rest ih =>
    refine List.pairwise_append.2 ⟨move.ordered, ih, fun x hx y hy => ⟨?_, ?_⟩⟩
    · rw [move.offset_eq x hx]
      exact rest.le_offset y hy
    · exact (move.question_prefix x hx).trans (rest.extends y hy)
  | take _ move => exact move.ordered
  | final => exact .nil

end Machine

theorem IsBoundary.le {offset : Nat} (h : IsBoundary text offset) : offset ≤ byteLength text := by
  obtain ⟨u, v, rfl, rfl⟩ := h
  rw [byteLength_append]
  omega

theorem Path.before (path : Path limit w xs m)
    (moves : Machine.Moves limit next (byteLength w) m ys q) : ∀ x ∈ xs, ∀ y ∈ ys, x.Before y := by
  intro x hx y hy
  refine ⟨?_, ?_⟩
  · exact (path.boundary x hx).le.trans (moves.le_offset y hy)
  · exact (path.question_prefix x hx).trans (moves.extends y hy)

theorem Path.ordered (path : Path limit w xs m) : xs.Pairwise Question.Before := by
  induction path with
  | start => exact .nil
  | skip _ _ ih => exact ih
  | read path _ moves _ ih => exact List.pairwise_append.2 ⟨ih, moves.ordered, path.before moves⟩

/-- The questions of a course come in order. -/
theorem Course.ordered (h : Course limit text w rest xs m ys r) :
    (xs ++ ys).Pairwise Question.Before :=
  List.pairwise_append.2 ⟨h.path.ordered, h.moves.ordered, h.path.before h.moves⟩

/-- A signal that stops wherever another one does stops no later. -/
theorem Signal.firstStop_mono {earlier later : Signal} {y : Question}
    (hordered : xs.Pairwise Question.Before)
    (hweaker : ∀ x : Question, later x.asked.journal = true → earlier x.asked.journal = true)
    (hlater : later.firstStop xs = some y) :
    ∃ x, earlier.firstStop xs = some x ∧ x.Before y := by
  obtain ⟨hy, before, after, rfl, -⟩ := List.find?_eq_some_iff_append.1 hlater
  rw [Signal.firstStop, List.find?_append]
  cases hfound : before.find? fun x => earlier x.asked.journal with
  | none =>
    refine ⟨y, ?_, .refl y⟩
    simp only [Option.none_or, List.find?_cons, hweaker y hy]
  | some x =>
    refine ⟨x, rfl, ?_⟩
    exact (List.pairwise_append.1 hordered).2.2 x (List.mem_of_find?_eq_some hfound) y
      (List.mem_cons_self ..)

theorem Signal.stops_of_firstStop {signal : Signal} {x : Question}
    (h : signal.firstStop xs = some x) : signal x.asked.journal = true := by
  rw [Signal.firstStop] at h
  have hx := List.find?_some h
  exact hx

theorem Signal.firstStop_eq_none {earlier later : Signal}
    (hweaker : ∀ x : Question, later x.asked.journal = true → earlier x.asked.journal = true)
    (hearlier : earlier.firstStop xs = none) : later.firstStop xs = none := by
  refine List.find?_eq_none.2 fun x hx hstop => ?_
  exact List.find?_eq_none.1 hearlier x hx (hweaker x hstop)

/-! ## Interrupted runs -/

def Run.Interrupted (run : Run) : Prop := ∃ span, run.outcome = .failure ⟨.interrupt, span⟩

theorem Draft.Ending.not_interrupt {d : Draft} {outcome : Outcome}
    (h : d.Ending limit text w next outcome) (span : Span) :
    outcome ≠ .failure ⟨.interrupt, span⟩ := by
  cases h with
  | accepted | tooDeep | literalFault | groupFault => exact nofun
  | refused => cases next <;> exact nofun

/-- A course interrupts nothing; only an answer to a question does. -/
theorem Course.not_interrupted (h : Course limit text w rest xs m ys r) : ¬ r.Interrupted := by
  rintro ⟨span, hr⟩
  obtain ⟨d, -, hending⟩ := h.ending
  exact hending.not_interrupt span hr

theorem Question.asked_size (x : Question) :
    x.asked.journal.events.size = x.machine.events.length :=
  Array.length_toList.symm

theorem Question.interrupted_events (x : Question) :
    x.interrupted.events =
      x.machine.events ++ leavings x.asked ⟨.interrupt, .emptyAt x.offset⟩ x.asked.openRules :=
  x.asked.fail_events _

theorem Question.asked_events (x : Question) : x.machine.events <+: x.interrupted.events := by
  rw [x.interrupted_events]
  exact List.prefix_append _ _

theorem leavings_ne_value (m : Machine) (failure : Failure) (rules : List OpenRule) {rule : Rule}
    {span : Span} {v : Fraction} : Event.leave rule span (.value v) ∉ leavings m failure rules := by
  intro hmem
  obtain ⟨r, -, hleave⟩ := List.mem_map.1 hmem
  cases hleave

/-- What an interrupted run has completed, it has completed before the question. -/
theorem Question.completed_before (x : Question) {i : Nat} {rule : Rule} {span : Span} {v : Fraction}
    (h : x.interrupted.events[i]? = some (.leave rule span (.value v))) :
    x.machine.events[i]? = some (.leave rule span (.value v)) := by
  rw [x.interrupted_events] at h
  by_cases hi : i < x.machine.events.length
  · rwa [List.getElem?_append_left hi] at h
  · rw [List.getElem?_append_right (Nat.le_of_not_lt hi)] at h
    exact absurd (List.mem_of_getElem? h) (leavings_ne_value _ _ _)

end

theorem getElem?_of_isPrefix {α : Type} {xs ys : List α} (h : xs <+: ys) {i : Nat} {a : α}
    (hi : xs[i]? = some a) : ys[i]? = some a := by
  obtain ⟨hlt, rfl⟩ := List.getElem?_eq_some_iff.1 hi
  exact List.prefix_iff_getElem?.1 h i hlt

theorem take_of_isPrefix {α : Type} {xs ys : List α} (h : xs <+: ys) {k : Nat}
    (hk : k ≤ xs.length) : ys.take k = xs.take k := by
  obtain ⟨rest, rfl⟩ := h
  exact List.take_append_of_le_length hk

/-! ## Stopping at an event -/

/-- The run whose stop flag goes up with the event of the given number and stays up. -/
def runStoppedAt (k : Nat) (text : String) : Run :=
  runScheduled { raiseAt := some k } false text

/-- The run and a later one are interrupted, the run no further to the right. The first `k` events are
the same, and what the run has completed with a value the later one has completed in the same way. -/
structure Run.GetsNoFurther (k : Nat) (run later : Run) : Prop where
  outcome : ∃ p q, p ≤ q ∧ run.outcome = .failure ⟨.interrupt, .emptyAt p⟩ ∧
    later.outcome = .failure ⟨.interrupt, .emptyAt q⟩
  events : run.events.take k = later.events.take k
  completed : ∀ (i : Nat) (rule : Rule) (span : Span) (v : Fraction),
    run.events[i]? = some (.leave rule span (.value v)) →
      later.events[i]? = some (.leave rule span (.value v))

theorem Schedule.raiseAt_signal (k : Nat) (x : Question) :
    ({ raiseAt := some k } : Schedule).signal false x.asked.journal = true ↔
      1 ≤ k ∧ k ≤ x.machine.events.length := by
  rw [signal, flagAfter, x.asked_size]
  by_cases hk : 1 ≤ k ∧ k ≤ x.machine.events.length <;> simp [reached, Option.filter, hk]

theorem Question.Before.getsNoFurther {x y : Question} (h : x.Before y) {k : Nat}
    (hk : k ≤ x.machine.events.length) : x.interrupted.GetsNoFurther k y.interrupted where
  outcome := ⟨x.offset, y.offset, h.offset, rfl, rfl⟩
  events := by
    rw [take_of_isPrefix x.asked_events hk,
      take_of_isPrefix (h.events.trans y.asked_events) hk]
  completed := by
    intro i rule span v hi
    exact getElem?_of_isPrefix (h.events.trans y.asked_events) (x.completed_before hi)

/-- A run that is stopped later gets no less far. Events are counted from one. -/
theorem runStoppedAt_later (text : String) {k₁ k₂ : Nat} (hpos : 1 ≤ k₁) (hle : k₁ ≤ k₂) :
    ((runStoppedAt k₂ text).Interrupted →
      (runStoppedAt k₁ text).GetsNoFurther k₁ (runStoppedAt k₂ text)) ∧
    (¬ (runStoppedAt k₁ text).Interrupted →
      ¬ (runStoppedAt k₂ text).Interrupted ∧ runStoppedAt k₁ text = runSteady false text ∧
        runStoppedAt k₂ text = runSteady false text) := by
  obtain ⟨w, rest, xs, m, ys, r, hcourse⟩ := exists_course (some maxDepth) text.toList
  let signal (k : Nat) : Signal := ({ raiseAt := some k } : Schedule).signal false
  have hrun : ∀ k, runStoppedAt k text = (signal k).settle (xs ++ ys) r :=
    fun k => hcourse.run (signal k)
  have hweaker : ∀ x : Question, signal k₂ x.asked.journal = true →
      signal k₁ x.asked.journal = true := by
    intro x hx
    obtain ⟨-, hk⟩ := (Schedule.raiseAt_signal k₂ x).1 hx
    exact (Schedule.raiseAt_signal k₁ x).2 ⟨hpos, hle.trans hk⟩
  have hquiet : ∀ k, (signal k).firstStop (xs ++ ys) = none →
      runStoppedAt k text = runSteady false text := by
    intro k hk
    rw [hrun, Signal.settle, hk, hcourse.runSteady_eq]
  constructor
  · intro hinterrupted
    cases hlater : (signal k₂).firstStop (xs ++ ys) with
    | none =>
      rw [hquiet k₂ hlater, hcourse.runSteady_eq] at hinterrupted
      exact absurd hinterrupted hcourse.not_interrupted
    | some y =>
      obtain ⟨x, hearlier, hbefore⟩ := Signal.firstStop_mono hcourse.ordered hweaker hlater
      have hx := (Schedule.raiseAt_signal k₁ x).1 (Signal.stops_of_firstStop hearlier)
      rw [hrun, hrun, Signal.settle, Signal.settle, hearlier, hlater]
      exact hbefore.getsNoFurther hx.2
  · intro hnot
    cases hearlier : (signal k₁).firstStop (xs ++ ys) with
    | some x =>
      refine absurd ⟨.emptyAt x.offset, ?_⟩ hnot
      rw [hrun, Signal.settle, hearlier]
      rfl
    | none =>
      have hlater := Signal.firstStop_eq_none hweaker hearlier
      refine ⟨?_, hquiet k₁ hearlier, hquiet k₂ hlater⟩
      rw [hquiet k₂ hlater, hcourse.runSteady_eq]
      exact hcourse.not_interrupted

/-- In `(1)2` the flag that goes up with event 5 stops the run before the digit in the parentheses, and the
one that goes up with event 9 after them. -/
theorem runStoppedAt_later_of_juxtaposition :
    (1 ≤ 5 ∧ 5 ≤ 9 ∧ (runStoppedAt 9 "(1)2").Interrupted) ∧
      (runStoppedAt 5 "(1)2").GetsNoFurther 5 (runStoppedAt 9 "(1)2") :=
  have h : (runStoppedAt 9 "(1)2").Interrupted := ⟨.emptyAt 3, by rfl⟩
  ⟨⟨by decide, by decide, h⟩, (runStoppedAt_later "(1)2" (by decide) (by decide)).1 h⟩

end ExactCalculator
