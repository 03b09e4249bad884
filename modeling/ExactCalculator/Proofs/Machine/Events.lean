import ExactCalculator.Proofs.Machine.Paths

/-! The events of a run. Moves only add events, so what a question knows of them stays; and a run that
fails leaves every open rule, the innermost first. -/
namespace ExactCalculator
set_option autoImplicit false

/-! ## Events of a machine -/

def Machine.events (m : Machine) : List Event := m.journal.events.toList

def Run.events (run : Run) : List Event := run.journal.events.toList

def Progress.events : Progress → List Event
  | .more m => m.events
  | .ended run => run.events

/-- The events with which open rules are left on a failure. -/
def leavings (m : Machine) (failure : Failure) (rules : List OpenRule) : List Event :=
  rules.map fun r => .leave r.rule (m.spanFrom r.start) (.failure failure)

namespace Machine

@[simp] theorem events_record (m : Machine) (event : Event) :
    Machine.events { m with journal := m.journal.record event } = m.events ++ [event] :=
  Array.toList_push

theorem events_enterFactor (m : Machine) (e : OpenExpression) (t : OpenTerm) (p : Nat) :
    (m.enterFactor e t p).events = m.events ++ [.enter .factor] :=
  m.events_record _

theorem events_leaveFactor (m : Machine) (start : Nat) (value : Fraction) (phase : Phase) :
    (m.leaveFactor start value phase).events =
      m.events ++ [.leave .factor (m.spanFrom start) (.value value)] :=
  m.events_record _

theorem events_leaveExpression (m : Machine) (e : OpenExpression) (termStart : Nat)
    (value : Fraction) :
    (m.leaveExpression e termStart value).events =
      m.events ++ [.leave .term (m.spanFrom termStart) (.value value)] ++
        [.leave .expression (m.spanFrom e.start) (.value (e.sum.join value))] := by
  rw [← events_record, ← events_record]
  rfl

theorem foldl_leave_events (rules : List OpenRule) (m : Machine) (failure : Failure) :
    (rules.foldl (fun m r => m.leave r.rule r.start (.failure failure)) m).events =
      m.events ++ leavings m failure rules := by
  induction rules generalizing m with
  | nil => simp [leavings]
  | cons r rest ih =>
    have hleave : (m.leave r.rule r.start (.failure failure)).events =
        m.events ++ [.leave r.rule (m.spanFrom r.start) (.failure failure)] :=
      m.events_record _
    rw [List.foldl_cons, ih, hleave, List.append_assoc]
    rfl

theorem fail_events (m : Machine) (failure : Failure) :
    (m.fail failure).events = m.events ++ leavings m failure m.openRules :=
  foldl_leave_events m.openRules m failure

end Machine

section
variable {limit : Option Nat} {next : Option Char} {c : Char} {p : Nat} {m m' : Machine}
  {xs ys : List Question} {q : Progress} {r : Run} {text w rest : List Char}

/-! ## Events are only added -/

namespace Machine

theorem events_prefix_enterFactor (m : Machine) (e : OpenExpression) (t : OpenTerm) (p : Nat) :
    m.events <+: (m.enterFactor e t p).events := by
  rw [events_enterFactor]
  exact List.prefix_append _ _

theorem events_prefix_leaveFactor (m : Machine) (start : Nat) (value : Fraction) (phase : Phase) :
    m.events <+: (m.leaveFactor start value phase).events := by
  rw [events_leaveFactor]
  exact List.prefix_append _ _

theorem events_prefix_leaveExpression (m : Machine) (e : OpenExpression) (termStart : Nat)
    (value : Fraction) : m.events <+: (m.leaveExpression e termStart value).events := by
  rw [events_leaveExpression, List.append_assoc]
  exact List.prefix_append _ _

theorem events_prefix_fail (m : Machine) (failure : Failure) :
    m.events <+: (m.fail failure).events := by
  rw [fail_events]
  exact List.prefix_append _ _

theorem events_prefix_popLevel (m : Machine) (e : OpenExpression) (termStart : Nat)
    (value : Fraction) (outer : List Level) (mark : Nat) :
    m.events <+: (m.popLevel e termStart value outer mark).events :=
  m.events_prefix_leaveExpression e termStart value

theorem SilentMove.events_prefix (move : SilentMove next p m xs m') : m.events <+: m'.events := by
  cases move with
  | enterExpression hphase => exact ⟨[.enter .expression], (m.events_record _).symm⟩
  | enterTerm hphase => exact ⟨[.enter .term], (m.events_record _).symm⟩
  | @leaveLiteral e t start value product hphase =>
    exact m.events_prefix_leaveFactor start (.ofInt value) (.operator e t.start product)
  | beside hphase => exact List.prefix_refl m.events

theorem TakingMove.events_prefix (move : TakingMove limit c p m xs m') :
    m.events <+: m'.events := by
  cases move with
  | firstSign hphase => exact ⟨[.enter .expression], (m.events_record _).symm⟩
  | @firstDigit e t digit hphase => exact m.events_prefix_enterFactor e t p
  | nextDigit hphase => exact List.prefix_refl m.events
  | @opening e t hphase => exact m.events_prefix_enterFactor e t p
  | scaling hphase => exact List.prefix_refl m.events
  | @sign e termStart value sign hphase =>
    exact ⟨[.leave .term (m.spanFrom termStart) (.value value)], (m.events_record _).symm⟩
  | @closing e termStart value level outer product hphase =>
    refine (m.events_prefix_popLevel e termStart value outer (p + 1)).trans ?_
    exact events_prefix_leaveFactor _ level.start (e.sum.join value)
      (.operator level.expression level.term.start product)
  | @equals e termStart value hphase => exact m.events_prefix_leaveExpression e termStart value

theorem FinalMove.events_prefix (move : FinalMove limit next p m r) : m.events <+: r.events := by
  cases move with
  | @refuseFactor e t hphase =>
    refine (m.events_prefix_enterFactor e t p).trans ?_
    exact events_prefix_fail (m.enterFactor e t p) _
  | @tooDeep e t n hphase =>
    refine (m.events_prefix_enterFactor e t p).trans ?_
    exact events_prefix_fail (m.enterFactor e t p) _
  | @literalFault e t start value fault hphase =>
    refine (m.events_prefix_leaveFactor start (.ofInt value) (.factor e t)).trans ?_
    exact events_prefix_fail (m.leaveFactor start (.ofInt value) (.factor e t)) _
  | @closingFault e termStart value level outer fault hphase =>
    refine (m.events_prefix_popLevel e termStart value outer (p + 1)).trans ?_
    refine (events_prefix_leaveFactor _ level.start (e.sum.join value)
      (.factor level.expression level.term)).trans ?_
    exact events_prefix_fail _ _
  | stray hphase => exact m.events_prefix_fail _
  | @refuseEnd e termStart value hphase =>
    refine (m.events_prefix_leaveExpression e termStart value).trans ?_
    exact events_prefix_fail (m.leaveExpression e termStart value) _
  | @accept e termStart value hphase => exact m.events_prefix_leaveExpression e termStart value
  | acceptComplete hphase => exact List.prefix_refl m.events
  | refuseComplete hphase => exact m.events_prefix_fail _

/-- What a question knows of the events is kept by the move that asks it. -/
theorem SilentMove.question_prefix (move : SilentMove next p m xs m') :
    ∀ x ∈ xs, x.machine.events <+: m'.events := by
  intro x hx
  cases move with
  | enterExpression | enterTerm | beside => cases hx
  | leaveLiteral =>
    rw [List.mem_singleton.1 hx]
    exact List.prefix_refl _

theorem TakingMove.question_prefix (move : TakingMove limit c p m xs m') :
    ∀ x ∈ xs, x.machine.events <+: m'.events := by
  intro x hx
  cases move with
  | firstSign | opening | scaling | sign | equals => cases hx
  | firstDigit | nextDigit | closing =>
    rw [List.mem_singleton.1 hx]
    exact List.prefix_refl _

theorem Moves.events_prefix (moves : Moves limit next p m xs q) : m.events <+: q.events := by
  induction moves with
  | silent move _ ih => exact move.events_prefix.trans ih
  | take _ move => exact move.events_prefix
  | final move => exact move.events_prefix

theorem Moves.question_prefix (moves : Moves limit next p m xs q) :
    ∀ x ∈ xs, x.machine.events <+: q.events := by
  induction moves with
  | silent move rest ih =>
    intro x hx
    rcases List.mem_append.1 hx with hmove | hrest
    · exact (move.question_prefix x hmove).trans rest.events_prefix
    · exact ih x hrest
  | take _ move => exact move.question_prefix
  | final => simp

end Machine

theorem Path.question_prefix (path : Path limit w xs m) :
    ∀ x ∈ xs, x.machine.events <+: m.events := by
  induction path with
  | start => simp
  | skip _ _ ih => exact ih
  | read _ _ moves _ ih =>
    intro x hx
    rcases List.mem_append.1 hx with hbefore | hstep
    · exact (ih x hbefore).trans moves.events_prefix
    · exact moves.question_prefix x hstep

/-- The events before a question are a first part of the events of the whole course. -/
theorem Course.question_prefix (h : Course limit text w rest xs m ys r) :
    ∀ x ∈ xs ++ ys, x.machine.events <+: r.events := by
  intro x hx
  rcases List.mem_append.1 hx with hpath | hstep
  · exact (h.path.question_prefix x hpath).trans h.moves.events_prefix
  · exact h.moves.question_prefix x hstep

end

end ExactCalculator
