import ExactCalculator.Proofs.Interrupt.PollPoints
import ExactCalculator.Proofs.Trace.Runs
import ExactCalculator.Session

/-! A run under a stop flag against the run that is never stopped. The questions of a course are asked
at the poll points of its events (`Course.polls`), and the run reports its polls there
(`polls_runSteady`). So a flag that depends on the number of events alone is up at the first poll point
where it is up, or the two runs are the same. A literal in the middle of its digits has no event yet that
tells of them: the invariant `Polled` keeps its polls apart. -/
namespace ExactCalculator
set_option autoImplicit false

/-! ## The invariant -/

def Phase.isLiteral : Phase → Bool
  | .literal _ _ _ _ => true
  | _ => false

/-- The polls of a literal in the middle of its digits. -/
def pendingPolls (w : List Char) (m : Machine) : List Poll :=
  match m.phase with
  | .literal _ _ start _ => literalPolls w start m.events.length
  | _ => []

/-- The questions so far are those that the events tell of, and those of an unfinished literal. -/
structure Polled (text w : List Char) (xs : List Question) (m : Machine) : Prop where
  polls : xs.map Question.poll = pollPoints text m.events ++ pendingPolls w m
  literal : ∀ e t start value, m.phase = .literal e t start value → start ∈ digitOffsets w
  groups : ∀ level ∈ m.stack, level.start ∈ offsetsOf (· == '(') w 0
  mark : EndsAt w m.mark

section
variable {limit : Option Nat} {text w w' rest : List Char} {xs ys : List Question}
  {m m' : Machine} {q : Progress} {r : Run} {c : Char} {cs : List Char}

theorem Question.poll_eq {x : Question} {count : Nat} (h : x.machine.events.length = count) :
    x.poll = ⟨x.offset, count⟩ := by
  have hsize : x.machine.journal.events.size = x.machine.events.length := Array.length_toList.symm
  rw [poll, hsize, h]

theorem pollPoints_enterFactor (m : Machine) (e : OpenExpression) (t : OpenTerm) (p : Nat) :
    pollPoints text (m.enterFactor e t p).events = pollPoints text m.events := by
  rw [m.events_enterFactor, pollPoints_concat_of_nil rfl rfl]

theorem pollPoints_leaveExpression (m : Machine) (e : OpenExpression) (termStart : Nat)
    (value : Fraction) :
    pollPoints text (m.leaveExpression e termStart value).events = pollPoints text m.events := by
  rw [m.events_leaveExpression, pollPoints_concat_of_nil rfl rfl, pollPoints_concat_of_nil rfl rfl]

theorem pollPoints_popLevel (m : Machine) (e : OpenExpression) (termStart : Nat) (value : Fraction)
    (outer : List Level) (mark : Nat) :
    pollPoints text (m.popLevel e termStart value outer mark).events = pollPoints text m.events :=
  pollPoints_leaveExpression m e termStart value

theorem pendingPolls_eq_nil (h : m.phase.isLiteral = false) : pendingPolls w m = [] := by
  unfold pendingPolls
  split
  · next hphase =>
    rw [hphase] at h
    cases h
  · rfl

namespace Polled

theorem points (h : Polled text w xs m) (hm : m.phase.isLiteral = false) :
    xs.map Question.poll = pollPoints text m.events := by
  rw [h.polls, pendingPolls_eq_nil hm, List.append_nil]

/-- A move that neither begins nor goes on with a literal. -/
theorem of_points (h : Polled text w xs m) (hm : m.phase.isLiteral = false)
    (hm' : m'.phase.isLiteral = false)
    (hpoints : pollPoints text m'.events = pollPoints text m.events ++ ys.map Question.poll)
    (hgroups : ∀ level ∈ m'.stack, level.start ∈ offsetsOf (· == '(') w' 0)
    (hmark : EndsAt w' m'.mark) : Polled text w' (xs ++ ys) m' where
  polls := by
    rw [pendingPolls_eq_nil hm', List.append_nil, hpoints, List.map_append, h.points hm]
  literal := by
    intro e t start value hphase
    rw [hphase] at hm'
    cases hm'
  groups := hgroups
  mark := hmark

/-- A move that reports one event, which tells of no poll. -/
theorem of_event {event : Event} (h : Polled text w xs m) (hm : m.phase.isLiteral = false)
    (hm' : m'.phase.isLiteral = false) (hevents : m'.events = m.events ++ [event])
    (hfault : event.isFault = false) (hnil : event.polls text m.events.length none = [])
    (hgroups : ∀ level ∈ m'.stack, level.start ∈ offsetsOf (· == '(') w' 0)
    (hmark : EndsAt w' m'.mark) : Polled text w' (xs ++ []) m' := by
  refine h.of_points hm hm' ?_ hgroups hmark
  rw [hevents, pollPoints_concat_of_nil hfault hnil, List.map_nil, List.append_nil]

theorem groups_concat (h : Polled text w xs m) (c : Char) :
    ∀ level ∈ m.stack, level.start ∈ offsetsOf (· == '(') (w ++ [c]) 0 :=
  fun level hlevel => mem_offsetsOf_append (h.groups level hlevel) [c]

theorem skip (h : Polled text w xs m) (hc : isIgnored c = true) : Polled text (w ++ [c]) xs m := by
  have hdigit : c.isDigit = false := by
    by_contra hd
    rw [isIgnored_of_isDigit (Bool.not_eq_false _ ▸ hd)] at hc
    cases hc
  have hdigits : digitOffsets (w ++ [c]) = digitOffsets w := offsetsOf_concat_of_not hdigit
  have hpending : pendingPolls (w ++ [c]) m = pendingPolls w m := by
    simp only [pendingPolls, literalPolls, hdigits]
  refine ⟨?_, ?_, h.groups_concat c, h.mark.skip hc⟩
  · rw [hpending]
    exact h.polls
  · rw [hdigits]
    exact h.literal

/-! ## Moves -/

theorem silent (h : Polled text w xs m) (hsplit : text = w ++ rest) (hhead : HeadVisible rest)
    (move : Machine.SilentMove rest.head? (byteLength w) m ys m') :
    Polled text w (xs ++ ys) m' := by
  cases move with
  | enterExpression hphase =>
    exact h.of_event (by rw [hphase]; rfl) rfl (m.events_record (.enter .expression)) rfl rfl
      h.groups h.mark
  | enterTerm hphase =>
    exact h.of_event (by rw [hphase]; rfl) rfl (m.events_record (.enter .term)) rfl rfl
      h.groups h.mark
  | @leaveLiteral e t start value product hphase =>
    have hevents := m.events_leaveFactor start (.ofInt value) (.operator e t.start product)
    have hfactor := factorPolls_literal h.mark hhead (h.literal e t start value hphase)
      m.events.length true
    have hpoll : Question.poll ⟨m.leaveFactor start (.ofInt value) (.operator e t.start product),
        byteLength w⟩ = ⟨byteLength w, m.events.length + 1⟩ := by
      refine Question.poll_eq ?_
      rw [hevents, List.length_append, List.length_singleton]
    refine ⟨?_, nofun, h.groups, h.mark⟩
    -- the event tells of the digits that were pending, and of the poll that follows it
    rw [pendingPolls_eq_nil rfl, List.append_nil, List.map_append, h.polls, pendingPolls, hphase,
      List.map_singleton, hpoll, List.append_assoc]
    show _ = pollPoints text (m.leaveFactor start (.ofInt value) (.operator e t.start product)).events
    rw [hevents, pollPoints_concat rfl, hsplit]
    exact congrArg _ hfactor.symm
  | beside hphase =>
    refine h.of_points (by rw [hphase]; rfl) rfl ?_ h.groups h.mark
    rw [List.map_nil, List.append_nil]
    rfl

theorem take (h : Polled text w xs m) (hsplit : text = w ++ c :: cs)
    (move : Machine.TakingMove limit c (byteLength w) m ys m') :
    Polled text (w ++ [c]) (xs ++ ys) m' := by
  obtain ⟨hvisible, hsize⟩ := move.visible
  have hmark : EndsAt (w ++ [c]) (byteLength w + 1) := by
    rw [← hsize]
    exact .take hvisible
  cases move with
  | firstSign hphase hc =>
    exact h.of_event (by rw [hphase]; rfl) rfl (m.events_record (.enter .expression)) rfl rfl
      (h.groups_concat c) hmark
  | @firstDigit e t digit hphase hc =>
    have hdigit := (Symbol.ofChar_eq_digit_iff.1 hc).1
    have hevents := m.events_enterFactor e t (byteLength w)
    have hpoll : Question.poll ⟨m.enterFactor e t (byteLength w), byteLength w⟩ =
        ⟨byteLength w, m.events.length + 1⟩ := by
      refine Question.poll_eq ?_
      rw [hevents, List.length_append, List.length_singleton]
    have hdigits : digitOffsets (w ++ [c]) = digitOffsets w ++ [byteLength w] :=
      offsetsOf_concat hdigit
    refine ⟨?_, ?_, h.groups_concat c, hmark⟩
    · rw [List.map_append, h.points (by rw [hphase]; rfl), List.map_singleton, hpoll]
      show _ = pollPoints text (m.enterFactor e t (byteLength w)).events ++
        literalPolls (w ++ [c]) (byteLength w) (m.enterFactor e t (byteLength w)).events.length
      rw [pollPoints_enterFactor, hevents, literalPolls_first hdigit, List.length_append]
      rfl
    · rintro _ _ _ _ ⟨⟩
      rw [hdigits]
      exact List.mem_append_right _ (List.mem_singleton_self _)
  | @nextDigit e t start value digit hphase hc =>
    have hdigit := (Symbol.ofChar_eq_digit_iff.1 hc).1
    have hstart := h.literal e t start value hphase
    have hpoll : Question.poll ⟨m, byteLength w⟩ = ⟨byteLength w, m.events.length⟩ :=
      Question.poll_eq rfl
    refine ⟨?_, ?_, h.groups_concat c, hmark⟩
    · rw [List.map_append, h.polls, pendingPolls, hphase, List.map_singleton, hpoll,
        List.append_assoc]
      show _ = pollPoints text m.events ++ literalPolls (w ++ [c]) start m.events.length
      rw [literalPolls_next hdigit hstart]
    · rintro _ _ _ _ ⟨⟩
      exact mem_offsetsOf_append hstart [c]
  | @opening e t hphase hc =>
    obtain rfl : c = '(' := (Symbol.ofChar_eq_iff rfl).1 hc
    refine h.of_event (by rw [hphase]; rfl) rfl (m.events_enterFactor e t (byteLength w)) rfl rfl
      ?_ hmark
    intro level hlevel
    rcases List.mem_cons.1 hlevel with rfl | hrest
    · rw [offsetsOf_concat rfl]
      exact List.mem_append_right _ (List.mem_singleton_self _)
    · exact h.groups_concat '(' level hrest
  | scaling hphase hc =>
    refine h.of_points (by rw [hphase]; rfl) rfl ?_ (h.groups_concat c) hmark
    rw [List.map_nil, List.append_nil]
    rfl
  | @sign e termStart value sign hphase hc =>
    exact h.of_event (by rw [hphase]; rfl) rfl
      (m.events_record (.leave .term (m.spanFrom termStart) (.value value))) rfl rfl
      (h.groups_concat c) hmark
  | @closing e termStart value level outer product hphase hstack hc hjoin =>
    have hlevel : level.start ∈ offsetsOf (· == '(') w 0 := h.groups level (by simp [hstack])
    have hevents := (m.popLevel e termStart value outer (byteLength w + 1)).events_leaveFactor
      level.start (e.sum.join value) (.operator level.expression level.term.start product)
    have hpoll : Question.poll
        ⟨(m.popLevel e termStart value outer (byteLength w + 1)).leaveFactor level.start
          (e.sum.join value) (.operator level.expression level.term.start product),
          byteLength w + 1⟩ =
        ⟨byteLength w + 1,
          (m.popLevel e termStart value outer (byteLength w + 1)).events.length + 1⟩ := by
      refine Question.poll_eq ?_
      rw [hevents, List.length_append, List.length_singleton]
    refine h.of_points (by rw [hphase]; rfl) rfl ?_ ?_ hmark
    · rw [List.map_singleton, hpoll,
        ← pollPoints_popLevel m e termStart value outer (byteLength w + 1)]
      show pollPoints text ((m.popLevel e termStart value outer (byteLength w + 1)).leaveFactor
        level.start (e.sum.join value)
        (.operator level.expression level.term.start product)).events = _
      rw [hevents, pollPoints_concat rfl, hsplit]
      exact congrArg _ (factorPolls_group hlevel (c :: cs) _ true)
    · intro outerLevel hmem
      exact h.groups_concat c outerLevel (by rw [hstack]; exact List.mem_cons_of_mem _ hmem)
  | @equals e termStart value hphase hstack hc =>
    refine h.of_points (by rw [hphase]; rfl) rfl ?_ (h.groups_concat c) hmark
    rw [List.map_nil, List.append_nil, ← pollPoints_leaveExpression m e termStart value]
    rfl

theorem final (h : Polled text w xs m) (hsplit : text = w ++ rest) (hhead : HeadVisible rest)
    (move : Machine.FinalMove limit rest.head? (byteLength w) m r) :
    xs.map Question.poll = pollPoints text r.events := by
  have hnext : ∀ fault, (Failure.atNext rest.head? (byteLength w)).cause ≠ .arithmetic fault := by
    cases rest.head? <;> simp [Failure.atNext]
  cases move with
  | @refuseFactor e t hphase =>
    rw [h.points (by rw [hphase]; rfl), pollPoints_fail hnext, pollPoints_enterFactor]
  | @tooDeep e t n hphase =>
    rw [h.points (by rw [hphase]; rfl), pollPoints_fail (by simp), pollPoints_enterFactor]
  | @literalFault e t start value fault hphase =>
    have hevents := m.events_leaveFactor start (.ofInt value) (.factor e t)
    have hfactor := factorPolls_literal h.mark hhead (h.literal e t start value hphase)
      m.events.length false
    -- the literal is left, but its division fails before there is another poll
    rw [pollPoints_fault hevents rfl, h.polls, pendingPolls, hphase, hsplit]
    exact congrArg _ (hfactor.trans (List.append_nil _)).symm
  | @closingFault e termStart value level outer fault hphase hstack =>
    have hlevel : level.start ∈ offsetsOf (· == '(') w 0 := h.groups level (by simp [hstack])
    have hevents := (m.popLevel e termStart value outer (byteLength w + 1)).events_leaveFactor
      level.start (e.sum.join value) (.factor level.expression level.term)
    have hfactor := factorPolls_group hlevel rest
      (m.popLevel e termStart value outer (byteLength w + 1)).events.length false
    rw [h.points (by rw [hphase]; rfl), pollPoints_fault hevents rfl, pollPoints_popLevel, hsplit]
    exact (List.append_nil _).symm.trans (congrArg _ hfactor.symm)
  | stray hphase => rw [h.points (by rw [hphase]; rfl), pollPoints_fail hnext]
  | @refuseEnd e termStart value hphase =>
    rw [h.points (by rw [hphase]; rfl), pollPoints_fail hnext, pollPoints_leaveExpression]
  | @accept e termStart value hphase =>
    rw [h.points (by rw [hphase]; rfl), ← pollPoints_leaveExpression m e termStart value]
    rfl
  | acceptComplete hphase => exact h.points (by rw [hphase]; rfl)
  | refuseComplete hphase => rw [h.points (by rw [hphase]; rfl), pollPoints_fail hnext]

/-! ## Steps -/

theorem more (h : Polled text w xs m) (hsplit : text = w ++ c :: cs) (hc : isIgnored c = false)
    (moves : Machine.Moves limit (some c) (byteLength w) m ys q) (hq : q = .more m') :
    Polled text (w ++ [c]) (xs ++ ys) m' := by
  have hhead : HeadVisible (c :: cs) := .cons hc cs
  induction moves generalizing xs with
  | silent move _ ih =>
    rw [← List.append_assoc]
    exact ih (h.silent hsplit hhead move) hq
  | take hnext move =>
    cases hnext
    cases hq
    exact h.take hsplit move
  | final => cases hq

theorem ended (h : Polled text w xs m) (hsplit : text = w ++ rest) (hhead : HeadVisible rest)
    (moves : Machine.Moves limit rest.head? (byteLength w) m ys q) (hq : q = .ended r) :
    (xs ++ ys).map Question.poll = pollPoints text r.events := by
  induction moves generalizing xs with
  | silent move _ ih =>
    rw [← List.append_assoc]
    exact ih (h.silent hsplit hhead move) hq
  | take => cases hq
  | final move =>
    cases hq
    rw [List.append_nil]
    exact h.final hsplit hhead move

end Polled

theorem Path.polled (path : Path limit w xs m) (hsplit : text = w ++ rest) :
    Polled text w xs m := by
  induction path generalizing rest with
  | start => exact ⟨rfl, nofun, nofun, .nil⟩
  | skip path hc ih =>
    rw [List.append_assoc] at hsplit
    exact (ih hsplit).skip hc
  | read path hc moves hread ih =>
    rw [List.append_assoc, List.singleton_append] at hsplit
    exact (ih hsplit).more hsplit hc moves rfl

/-- The questions of a course are asked at the poll points of its events. -/
theorem Course.polls (h : Course limit text w rest xs m ys r) :
    (xs ++ ys).map Question.poll = pollPoints text r.events :=
  (h.path.polled h.text_eq).ended h.text_eq h.head h.moves rfl

/-! ## Reported polls -/

namespace Machine

def polls (m : Machine) : List Poll := m.journal.polls.toList

theorem polls_fail (m : Machine) (failure : Failure) :
    (m.fail failure).journal.polls = m.journal.polls := by
  have hfold : ∀ (rules : List OpenRule) (m : Machine),
      (rules.foldl (fun m r => m.leave r.rule r.start (.failure failure)) m).journal.polls =
        m.journal.polls := by
    intro rules
    induction rules with
    | nil => exact fun _ => rfl
    | cons r rest ih => exact fun m => ih (m.leave r.rule r.start (.failure failure))
  exact hfold m.openRules m

theorem SilentMove.polls_eq {next : Option Char} {p : Nat} (move : SilentMove next p m ys m') :
    m'.polls = m.polls ++ ys.map Question.poll := by
  cases move with
  | enterExpression | enterTerm | beside => exact (List.append_nil _).symm
  | leaveLiteral => exact Array.toList_push

theorem TakingMove.polls_eq {p : Nat} (move : TakingMove limit c p m ys m') :
    m'.polls = m.polls ++ ys.map Question.poll := by
  cases move with
  | firstSign | opening | scaling | sign | equals => exact (List.append_nil _).symm
  | firstDigit | nextDigit | closing => exact Array.toList_push

theorem FinalMove.polls_eq {next : Option Char} {p : Nat} (move : FinalMove limit next p m r) :
    r.journal.polls.toList = m.polls := by
  cases move with
  | refuseFactor | tooDeep | literalFault | closingFault | stray | refuseEnd | refuseComplete =>
    exact congrArg Array.toList (polls_fail _ _)
  | accept | acceptComplete => rfl

theorem Moves.polls_eq {next : Option Char} {p : Nat} (moves : Moves limit next p m ys q) :
    (∀ m', q = .more m' → m'.polls = m.polls ++ ys.map Question.poll) ∧
      ∀ r, q = .ended r → r.journal.polls.toList = m.polls ++ ys.map Question.poll := by
  induction moves with
  | silent move _ ih =>
    rw [move.polls_eq] at ih
    simpa only [List.map_append, List.append_assoc] using ih
  | take _ move =>
    refine ⟨?_, nofun⟩
    rintro _ ⟨⟩
    exact move.polls_eq
  | final move =>
    refine ⟨nofun, ?_⟩
    rintro _ ⟨⟩
    rw [List.map_nil, List.append_nil]
    exact move.polls_eq

end Machine

theorem Path.polls_eq (path : Path limit w xs m) : m.polls = xs.map Question.poll := by
  induction path with
  | start => rfl
  | skip _ _ ih => exact ih
  | read _ _ moves _ ih => rw [moves.polls_eq.1 _ rfl, ih, List.map_append]

/-- The polls that an uninterrupted run reports are the poll points of its events. -/
theorem polls_runSteady (input : String) :
    (runSteady false input).journal.polls.toList =
      pollPoints input.toList (runSteady false input).events := by
  obtain ⟨w, rest, xs, m, ys, r, hcourse⟩ := exists_course (some maxDepth) input.toList
  rw [hcourse.runSteady_eq, ← hcourse.polls, hcourse.moves.polls_eq.2 _ rfl, hcourse.path.polls_eq,
    List.map_append]

/-- Two digits and the factor `12`, then the digit, the factor `3` and the factor `(3)`. -/
example : pollPoints "12 *(3)".toList (runSteady false "12 *(3)").events =
    [⟨0, 3⟩, ⟨1, 3⟩, ⟨3, 4⟩, ⟨5, 8⟩, ⟨6, 9⟩, ⟨7, 12⟩] := by rfl

end

/-! ## Flags -/

namespace Schedule

/-- The flag after the first events, each of which changes it as scheduled. -/
def pressAll (schedule : Schedule) (flag : Bool) : Nat → Bool
  | 0 => flag
  | count + 1 => schedule.press (count + 1) (schedule.pressAll flag count)

theorem flagAfter_eq_pressAll (schedule : Schedule) (flag : Bool) (count : Nat) :
    schedule.flagAfter flag count = schedule.pressAll flag count := by
  induction count with
  | zero => exact schedule.flagAfter_zero flag
  | succ count ih => rw [flagAfter_succ, ih, pressAll]

/-- A schedule looks at the poll of a question only. -/
theorem firstStop_map_poll (schedule : Schedule) (flag : Bool) (questions : List Question) :
    ((schedule.signal flag).firstStop questions).map Question.poll =
      (questions.map Question.poll).find? fun point => schedule.pressAll flag point.eventsBefore := by
  have hsignal : ∀ x : Question, schedule.signal flag x.asked.journal =
      schedule.pressAll flag x.poll.eventsBefore := by
    intro x
    exact schedule.flagAfter_eq_pressAll flag _
  rw [List.find?_map, Signal.firstStop]
  simp only [hsignal]
  rfl

end Schedule

/-! ## Interrupted runs -/

/-- The run goes as another one up to a poll point. There it fails and leaves every open rule, the
innermost first. -/
structure Run.InterruptedAt (run quiet : Run) (point : Poll) : Prop where
  outcome : run.outcome = .failure ⟨.interrupt, .emptyAt point.offset⟩
  events : ∃ rules left, openRulesAfter? (quiet.events.take point.eventsBefore) = some rules ∧
    run.events = quiet.events.take point.eventsBefore ++ left ∧
    List.Forall₂ (fun rule event => ∃ span, event = .leave rule span run.outcome) rules left

theorem forall₂_leavings (m : Machine) (failure : Failure) (rules : List OpenRule) :
    List.Forall₂ (fun rule event => ∃ span, event = .leave rule span (.failure failure))
      (rules.map OpenRule.rule) (leavings m failure rules) := by
  induction rules with
  | nil => exact .nil
  | cons r rest ih => exact .cons ⟨m.spanFrom r.start, rfl⟩ ih

theorem Course.interruptedAt {limit : Option Nat} {text w rest : List Char} {xs ys : List Question}
    {m : Machine} {r : Run} {x : Question} (h : Course limit text w rest xs m ys r)
    (hx : x ∈ xs ++ ys) : x.interrupted.InterruptedAt r x.poll := by
  have hbefore : r.events.take x.poll.eventsBefore = x.machine.events := by
    have hpoll : x.poll = ⟨x.offset, x.machine.events.length⟩ := Question.poll_eq rfl
    rw [hpoll]
    exact (List.prefix_iff_eq_take.1 (h.question_prefix x hx)).symm
  refine ⟨rfl, x.machine.openRules.map OpenRule.rule,
    leavings x.asked ⟨.interrupt, .emptyAt x.offset⟩ x.asked.openRules, ?_, ?_, ?_⟩
  · rw [hbefore]
    exact (h.grows x hx).openRulesAfter?_eq
  · rw [hbefore]
    exact Machine.fail_events x.asked _
  · exact forall₂_leavings x.asked _ x.asked.openRules

/-- The run that is never stopped asks whether to stop at its poll points. A traced run under a schedule
for the stop flag is that run, if the flag is up at none of these points; otherwise it is interrupted at
the first one where the flag is up. The flag afterwards is what the recorded events have made of it. -/
theorem trace_interrupted_at_first_point (schedule : Schedule) (flag : Bool) (text : String) :
    (runSteady false text).journal.polls.toList =
        pollPoints text.toList (runSteady false text).events ∧
      ∃ run, (Request.trace schedule text).perform flag =
          (.run run, schedule.pressAll flag run.events.length) ∧
        match (pollPoints text.toList (runSteady false text).events).find? fun point =>
          schedule.pressAll flag point.eventsBefore with
        | none => run = runSteady false text
        | some point => run.InterruptedAt (runSteady false text) point := by
  obtain ⟨w, rest, xs, m, ys, r, hcourse⟩ := exists_course (some maxDepth) text.toList
  have hquiet : runSteady false text = r := hcourse.runSteady_eq
  have hrun : runScheduled schedule flag text = (schedule.signal flag).settle (xs ++ ys) r :=
    hcourse.run (schedule.signal flag)
  have hflag : schedule.flagAfterRun flag (runScheduled schedule flag text) =
      schedule.pressAll flag (runScheduled schedule flag text).events.length := by
    rw [Run.events, Array.length_toList]
    exact schedule.flagAfter_eq_pressAll flag _
  refine ⟨polls_runSteady text, runScheduled schedule flag text, ?_, ?_⟩
  · rw [← hflag]
    rfl
  · rw [hquiet, ← hcourse.polls, ← schedule.firstStop_map_poll, hrun, Signal.settle]
    cases hstop : (schedule.signal flag).firstStop (xs ++ ys) with
    | none => rfl
    | some x => exact hcourse.interruptedAt (List.mem_of_find?_eq_some hstop)

end ExactCalculator
