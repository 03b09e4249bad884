import ExactCalculator.Proofs.Blame.Parts
import ExactCalculator.Proofs.Trace.Brackets
import ExactCalculator.Proofs.Trace.Ledger
import Mathlib.Data.List.Chain

/-! How open rules are left on a failure. Each is left right after the one inside of it, and a factor
that is left so starts before the expression inside of it, with its parenthesis (`LevelsTrack.chain`). What
was reported right before the failure is that a rule was entered, or that one was left which starts later
than the rule around it or is a factor at the end of a term (`Ledger.Junction`). `Run.Unwinds.adjacent`
says from both what a rule that fails has to do with the rule that was left right before it. -/
namespace ExactCalculator
set_option autoImplicit false

/-! ## Open rules -/

/-- A factor starts before the rule that is open directly inside of it. -/
def OpenRule.Within (inner outer : OpenRule) : Prop :=
  outer.rule = .factor → outer.start < inner.start

section
variable {text w rest before body : List Char} {start start' : Nat} {ds : List DraftLevel}
  {stack : List Level} {e : OpenExpression} {t : OpenTerm} {rules : List OpenRule} {termStart : Nat}

/-- What begins after more visible characters begins later. -/
theorem BeginsAt.lt (h : BeginsAt text start before) (h' : BeginsAt text start' (before ++ body))
    (hbody : body ≠ []) : start < start' := by
  obtain ⟨u, v, htext, rfl, hu, -⟩ := h
  obtain ⟨u', v', htext', rfl, hu', -⟩ := h'
  rcases List.append_eq_append_iff.1 (htext.symm.trans htext') with ⟨a, rfl, -⟩ | ⟨a, rfl, -⟩
  · have ha : a ≠ [] := by
      rintro rfl
      rw [List.append_nil, hu] at hu'
      exact hbody (List.self_eq_append_right.1 hu')
    have hpos : byteLength a ≠ 0 := mt byteLength_eq_zero_iff.1 ha
    rw [byteLength_append]
    omega
  · rw [visible_append, hu'] at hu
    have hlength := congrArg List.length hu
    have hpos := List.length_pos_of_ne_nil hbody
    simp only [List.length_append] at hlength
    omega

namespace OpenRule

theorem chain_term (h : (⟨.expression, e.start⟩ :: rules).IsChain Within) :
    (⟨.term, start⟩ :: ⟨.expression, e.start⟩ :: rules).IsChain Within :=
  List.isChain_cons_cons.2 ⟨by rintro ⟨⟩, h⟩

theorem chain_factor (h : (⟨.expression, e.start⟩ :: rules).IsChain Within) :
    (⟨.factor, start⟩ :: ⟨.term, t.start⟩ :: ⟨.expression, e.start⟩ :: rules).IsChain Within :=
  List.isChain_cons_cons.2 ⟨by rintro ⟨⟩, chain_term h⟩

end OpenRule

/-- Open rules lie one inside the other, and every parenthesis stands before the expression after it. -/
theorem LevelsTrack.chain (h : LevelsTrack text ds stack) (hbegin : BeginsAt text start (levelsText ds)) :
    (⟨.expression, start⟩ :: stack.flatMap Level.openRules).IsChain OpenRule.Within := by
  induction h generalizing start with
  | nil => exact .singleton _
  | @cons d ds level stack hexpression hterm hlevel _ ih =>
    refine List.isChain_cons_cons.2 ⟨fun _ => ?_, OpenRule.chain_factor (ih hexpression.begins)⟩
    exact hlevel.lt hbegin (List.cons_ne_nil _ _)

end

/-! ## Machines that fail -/

/-- What can end a term after a factor with a value, apart from a division by zero. -/
def Failure.EndsTerm (failure : Failure) : Prop :=
  failure.cause = .interrupt ∨ ∃ c, failure.cause = .unexpectedChar c

/-- What was reported last before a failure, and which rules are open then. -/
inductive Ledger.Junction (s : Ledger) (failure : Failure) : Prop
  | entered {before : List Event} {rule : Rule} (hevents : s.events = before ++ [.enter rule])
  | left {before : List Event} {rule : Rule} {span : Span} {outcome : Outcome} {r : OpenRule}
      {rules : List OpenRule} (hevents : s.events = before ++ [.leave rule span outcome])
      (hrules : s.rules = r :: rules) (hstart : r.start < span.start)
  | term {r : OpenRule} {rules : List OpenRule} (hrules : s.rules = r :: rules)
      (hrule : r.rule = .term) (hcause : failure.EndsTerm)
  | closed (hrules : s.rules = [])

/-- What a machine has reported that may fail. The open rules lie one inside the other. -/
structure Ledger.Unwinds (s : Ledger) (failure : Failure) : Prop where
  after : ∃ w, After w s
  chain : s.rules.IsChain OpenRule.Within
  junction : s.Junction failure

/-- A run that leaves its last rules with values, or fails as a machine that may. -/
inductive Run.Unwinds : Run → Prop
  | complete {w : List Char} {s : Ledger} {run : Run} (h : Ledger.After w s)
      (hevents : run.events = s.events) : Unwinds run
  | failed {m : Machine} {failure : Failure} (h : m.ledger.Unwinds failure) :
      Unwinds (m.fail failure)

/-- How a rule that has failed lies to the rule that was left right before it. -/
inductive Failure.LeavesAfter (failure : Failure) (rule : Rule) (span : Span) : Span → Outcome → Prop
  | failed {inner : Span} (hstart : rule = .factor → span.start < inner.start) :
      LeavesAfter failure rule span inner (.failure failure)
  | longer {inner : Span} (v : Fraction) (hstart : span.start < inner.start) :
      LeavesAfter failure rule span inner (.value v)
  | ended {inner : Span} (v : Fraction) (hrule : rule = .term) (hcause : failure.EndsTerm) :
      LeavesAfter failure rule span inner (.value v)

section
variable {m : Machine} {failure : Failure} {run : Run} {before after : List Event} {rule rule' : Rule}
  {span span' : Span} {outcome : Outcome} {rules : List OpenRule}

/-- Rules that are left together on a failure. -/
theorem leavesAfter_of_leavings (h : rules.IsChain OpenRule.Within)
    (hsplit : leavings m failure rules =
      before ++ .leave rule' span' outcome :: .leave rule span (.failure failure) :: after) :
    failure.LeavesAfter rule span span' outcome := by
  obtain ⟨outer, inner, rfl, -, hinner⟩ := List.map_eq_append_iff.1 hsplit
  obtain ⟨r', rest, rfl, hr', hrest⟩ := List.map_eq_cons_iff.1 hinner
  obtain ⟨r, rest, rfl, hr, -⟩ := List.map_eq_cons_iff.1 hrest
  obtain ⟨rfl, rfl, rfl⟩ := Event.leave.inj hr'
  obtain ⟨rfl, rfl, -⟩ := Event.leave.inj hr
  exact .failed (List.isChain_append_cons_cons.1 h).2.1

theorem Ledger.After.leave_failure_notMem {w : List Char} {s : Ledger} (h : After w s) :
    Event.leave rule span (.failure failure) ∉ s.events := by
  intro hmem
  obtain ⟨⟨v, hv⟩, -⟩ := h.placed.left _ _ _ hmem
  cases hv

namespace Ledger.Unwinds

/-- The innermost open rule, left right after what was reported last. -/
theorem leavesAfter_last (h : m.ledger.Unwinds failure)
    (hevents : m.events = before ++ [.leave rule' span' outcome])
    (hsplit : leavings m failure m.openRules = .leave rule span (.failure failure) :: after) :
    failure.LeavesAfter rule span span' outcome := by
  obtain ⟨w, hledger⟩ := h.after
  have hlast : Event.leave rule' span' outcome ∈ m.ledger.events := by
    show _ ∈ m.events
    simp [hevents]
  obtain ⟨⟨v, rfl⟩, -⟩ := hledger.placed.left _ _ _ hlast
  obtain ⟨r, rest, hopen, hr, -⟩ := List.map_eq_cons_iff.1 hsplit
  obtain ⟨rfl, rfl, -⟩ := Event.leave.inj hr
  cases h.junction with
  | entered hevents' => cases (List.append_inj' (hevents.symm.trans hevents') rfl).2
  | left hevents' hrules hstart =>
    obtain ⟨rfl, -⟩ := List.cons.inj (hopen.symm.trans hrules)
    have hsame := (List.append_inj' (hevents.symm.trans hevents') rfl).2
    obtain ⟨-, rfl, -⟩ := Event.leave.inj (List.singleton_inj.1 hsame)
    exact .longer v hstart
  | term hrules hrule hcause =>
    obtain ⟨rfl, -⟩ := List.cons.inj (hopen.symm.trans hrules)
    exact .ended v hrule hcause
  | closed hrules => cases hopen.symm.trans hrules

theorem leavesAfter (h : m.ledger.Unwinds failure)
    (hsplit : m.events ++ leavings m failure m.openRules =
      before ++ .leave rule' span' outcome :: .leave rule span (.failure failure) :: after) :
    failure.LeavesAfter rule span span' outcome := by
  obtain ⟨w, hledger⟩ := h.after
  rcases Trace.split_append_cons hsplit with ⟨rest, hbefore⟩ | ⟨rest, -, hleft⟩
  · rw [hbefore, List.append_assoc] at hsplit
    have hrest := (List.cons.inj (List.append_cancel_left hsplit)).2
    cases rest with
    | nil => exact h.leavesAfter_last hbefore hrest
    | cons event rest =>
      -- the second rule fails, so the machine has not reported it yet
      obtain ⟨rfl, -⟩ := List.cons.inj hrest
      have hmem : Event.leave rule span (.failure failure) ∈ m.events := by simp [hbefore]
      exact absurd hmem hledger.leave_failure_notMem
  · exact leavesAfter_of_leavings h.chain hleft

end Ledger.Unwinds

/-- Of two rules left one right after the other, of which the second one fails, the first one fails as
well, or it starts later, or it ends a term that is then refused or interrupted. -/
theorem Run.Unwinds.adjacent (h : run.Unwinds)
    (hsplit : run.events =
      before ++ .leave rule' span' outcome :: .leave rule span (.failure failure) :: after) :
    failure.LeavesAfter rule span span' outcome := by
  have hsecond : Event.leave rule span (.failure failure) ∈ run.events := by simp [hsplit]
  cases h with
  | complete hledger hevents => exact absurd (hevents ▸ hsecond) hledger.leave_failure_notMem
  | @failed m failure' h =>
    obtain ⟨w, hledger⟩ := h.after
    rw [Machine.fail_events] at hsplit hsecond
    have hleft := (List.mem_append.1 hsecond).resolve_left hledger.leave_failure_notMem
    obtain ⟨r, -, hr⟩ := List.mem_map.1 hleft
    obtain ⟨-, -, hfailure⟩ := Event.leave.inj hr
    obtain rfl := Outcome.failure.inj hfailure
    exact h.leavesAfter hsplit

end

/-! ## Machines at a draft -/

section
variable {limit : Option Nat} {text w rest : List Char} {m m' : Machine} {d : Draft}
  {levels : List DraftLevel} {sum : SumDraft} {product : ProductDraft} {term : Term}
  {digits : List Char} {e : OpenExpression} {t : OpenTerm} {start termStart value : Nat}
  {total : Fraction} {phase : Phase} {failure : Failure} {level : Level} {outer : List Level}
  {xs ys : List Question} {q : Progress} {r : Run} {c : Char} {fault : Fault}

/-- A term starts before its divisor. -/
theorem OpenTerm.Tracks.start_lt {before : List Char} {factor : Factor} {v : Fraction}
    (h : t.Tracks text before product) (hv : v.StandsFor factor.value?)
    (hjoin : t.product.join v = .error fault) (hbegin : BeginsAt text start (before ++ product.text)) :
    t.start < start := by
  obtain ⟨-, hzero⟩ := h.computes.join_error hv hjoin
  refine h.begins.lt hbegin ?_
  intro hnil
  have hlast := hzero.getLast?_text
  rw [hnil] at hlast
  cases hlast

namespace AtDraft

theorem unwinds_operator (h : AtDraft limit text w rest ⟨levels, .operator sum term⟩ m)
    (hledger : Ledger.After w m.ledger) (hphase : m.phase = .operator e termStart total)
    (hcause : failure.EndsTerm) : m.ledger.Unwinds failure := by
  have hpoint := h.reports.tracks.point
  have hrules : m.ledger.rules =
      ⟨.term, termStart⟩ :: ⟨.expression, e.start⟩ :: m.stack.flatMap Level.openRules := by
    rw [Machine.ledger, Machine.openRules, hphase]
    rfl
  rw [hphase] at hpoint
  cases hpoint with
  | operator hexpression =>
    refine ⟨⟨w, hledger⟩, ?_, .term hrules rfl hcause⟩
    rw [hrules]
    exact OpenRule.chain_term (h.reports.tracks.levels.chain hexpression.begins)

theorem unwinds_enterFactor (h : AtDraft limit text w rest ⟨levels, .factor sum product⟩ m)
    (hledger : Ledger.After w m.ledger) (hphase : m.phase = .factor e t) (failure : Failure) :
    (m.enterFactor e t (byteLength w)).ledger.Unwinds failure := by
  have hpoint := h.reports.tracks.point
  rw [hphase] at hpoint
  cases hpoint with
  | factor hexpression =>
    refine ⟨⟨w, Machine.after_enterFactor hledger hphase⟩, ?_, ?_⟩
    · exact OpenRule.chain_factor (h.reports.tracks.levels.chain hexpression.begins)
    · exact .entered (m.events_enterFactor e t (byteLength w))

theorem unwinds_literal (h : AtDraft limit text w rest ⟨levels, .literal sum product digits⟩ m)
    (hledger : Ledger.After w m.ledger) (hphase : m.phase = .literal e t start value)
    (failure : Failure) : m.ledger.Unwinds failure := by
  have hpoint := h.reports.tracks.point
  rw [hphase] at hpoint
  cases hpoint with
  | literal hexpression =>
    refine ⟨⟨w, hledger⟩, ?_, .entered h.reports.events⟩
    rw [Machine.ledger, Machine.openRules, hphase]
    exact OpenRule.chain_factor (h.reports.tracks.levels.chain hexpression.begins)

end AtDraft

/-- A machine that has left a factor which begins later than its term. -/
theorem Machine.unwinds_leaveFactor
    (hledger : ∃ w, Ledger.After w (m.leaveFactor start total (.factor e t)).ledger)
    (hchain : (⟨.expression, e.start⟩ :: m.stack.flatMap Level.openRules).IsChain OpenRule.Within)
    (hstart : t.start < start) (failure : Failure) :
    (m.leaveFactor start total (.factor e t)).ledger.Unwinds failure :=
  ⟨hledger, OpenRule.chain_term hchain, .left (m.events_leaveFactor start total (.factor e t)) rfl hstart⟩

namespace AtDraft

theorem unwinds_leaveLiteral (h : AtDraft limit text w rest ⟨levels, .literal sum product digits⟩ m)
    (hledger : Ledger.After w m.ledger) (hphase : m.phase = .literal e t start value)
    (hjoin : t.product.join (.ofInt value) = .error fault) (failure : Failure) :
    (m.leaveFactor start (.ofInt value) (.factor e t)).ledger.Unwinds failure := by
  have hpoint := h.reports.tracks.point
  rw [hphase] at hpoint
  cases hpoint with
  | literal hexpression hterm hbegins =>
    refine Machine.unwinds_leaveFactor ⟨w, Machine.after_leaveFactor hledger ?_ rfl⟩
      (h.reports.tracks.levels.chain hexpression.begins)
      (hterm.start_lt (Fraction.standsFor_decimal digits) hjoin hbegins) failure
    rw [Machine.openRules, hphase]
    rfl

theorem unwinds_leaveGroup {cs : List Char}
    (h : AtDraft limit text w (')' :: cs) ⟨levels, .operator sum term⟩ m)
    (hledger : Ledger.After w m.ledger) (hphase : m.phase = .operator e termStart total)
    (hstack : m.stack = level :: outer)
    (hjoin : level.term.product.join (e.sum.join total) = .error fault) (failure : Failure) :
    ((m.popLevel e termStart total outer (byteLength w + 1)).leaveFactor level.start
      (e.sum.join total) (.factor level.expression level.term)).ledger.Unwinds failure := by
  have hpoint := h.reports.tracks.point
  have hlevels := h.reports.tracks.levels
  rw [hphase] at hpoint
  rw [hstack] at hlevels
  have hleft : Ledger.AtRest (w ++ [')']) ((m.popLevel e termStart total outer
      (byteLength w + 1)).leaveFactor level.start (e.sum.join total)
      (.factor level.expression level.term)).ledger :=
    Machine.atRest_leaveLevel hledger hphase hstack rfl
  cases hlevels with
  | cons hexpression hterm hbegins houter =>
    cases hpoint with
    | operator hinner _ hvalue =>
      have hgroup : (e.sum.join total).StandsFor (Factor.group (sum.join term)).value? :=
        hinner.computes.join hvalue
      exact Machine.unwinds_leaveFactor ⟨_, hleft.after⟩ (houter.chain hexpression.begins)
        (hterm.start_lt hgroup hjoin hbegins) failure

theorem unwinds_leaveExpression
    (h : AtDraft limit text w rest ⟨levels, .operator sum term⟩ m) (hledger : Ledger.After w m.ledger)
    (hphase : m.phase = .operator e termStart total) (failure : Failure) :
    (m.leaveExpression e termStart total).ledger.Unwinds failure := by
  have hafter : Ledger.After w (m.leaveExpression e termStart total).ledger :=
    Machine.after_leaveExpression hledger hphase
  have hpoint := h.reports.tracks.point
  have hlevels := h.reports.tracks.levels
  have hrules : (m.leaveExpression e termStart total).ledger.rules =
      m.stack.flatMap Level.openRules := rfl
  rw [hphase] at hpoint
  cases hpoint with
  | operator hexpression =>
    have hchain := hlevels.chain hexpression.begins
    refine ⟨⟨w, hafter⟩, hrules ▸ hchain.tail, ?_⟩
    generalize m.stack = stack at hrules hlevels
    cases hlevels with
    | nil => exact .closed hrules
    | cons _ _ hbegins _ =>
      refine .left (m.events_leaveExpression e termStart total) hrules ?_
      exact hbegins.lt hexpression.begins (List.cons_ne_nil _ _)

/-! ### Moves -/

theorem silent_unwinds (h : AtDraft limit text w rest d m) (hledger : Ledger.After w m.ledger)
    (hhead : HeadVisible rest) (move : Machine.SilentMove rest.head? (byteLength w) m xs m') :
    ∀ x ∈ xs, x.asked.ledger.Unwinds ⟨.interrupt, .emptyAt x.offset⟩ := by
  have hadvance := h.silent hhead move
  have hafter := (move.after hledger).1
  obtain ⟨levels, point⟩ := d
  have hpoint := h.reports.tracks.point
  simp only at hpoint
  cases move with
  | enterExpression | enterTerm | beside => exact List.forall_mem_nil _
  | leaveLiteral hphase =>
    rw [hphase] at hpoint
    cases hpoint
    exact List.forall_mem_singleton.2 (hadvance.unwinds_operator hafter rfl (.inl rfl))

theorem take_unwinds {cs : List Char} (h : AtDraft limit text w (c :: cs) d m)
    (hledger : Ledger.After w m.ledger) (move : Machine.TakingMove limit c (byteLength w) m xs m') :
    ∀ x ∈ xs, x.asked.ledger.Unwinds ⟨.interrupt, .emptyAt x.offset⟩ := by
  obtain ⟨levels, point⟩ := d
  have hpoint := h.reports.tracks.point
  simp only at hpoint
  cases move with
  | firstSign | opening | scaling | sign | equals => exact List.forall_mem_nil _
  | firstDigit hphase =>
    rw [hphase] at hpoint
    cases hpoint
    exact List.forall_mem_singleton.2 (h.unwinds_enterFactor hledger hphase _)
  | nextDigit hphase =>
    rw [hphase] at hpoint
    cases hpoint
    exact List.forall_mem_singleton.2 (h.unwinds_literal hledger hphase _)
  | @closing e termStart value level outer product hphase hstack hc =>
    have hlevels := h.reports.tracks.levels
    rw [hstack] at hlevels
    have hleft : Ledger.AtRest (w ++ [')']) ((m.popLevel e termStart value outer
        (byteLength w + 1)).leaveFactor level.start (e.sum.join value)
        (.operator level.expression level.term.start product)).ledger :=
      Machine.atRest_leaveLevel hledger hphase hstack rfl
    cases hlevels with
    | cons hexpression _ _ houter =>
      refine List.forall_mem_singleton.2 ⟨⟨_, hleft.after⟩, ?_, .term rfl rfl (.inl rfl)⟩
      exact OpenRule.chain_term (houter.chain hexpression.begins)

theorem unwinds_questions (h : AtDraft limit text w rest d m) (hledger : Ledger.After w m.ledger)
    (hhead : HeadVisible rest) (moves : Machine.Moves limit rest.head? (byteLength w) m xs q) :
    ∀ x ∈ xs, x.asked.ledger.Unwinds ⟨.interrupt, .emptyAt x.offset⟩ := by
  induction moves generalizing d with
  | silent move _ ih =>
    exact List.forall_mem_append.2 ⟨h.silent_unwinds hledger hhead move,
      ih (h.silent hhead move) (move.after hledger).1⟩
  | take hnext move =>
    obtain ⟨cs, rfl⟩ := List.head?_eq_some_iff.1 hnext
    exact h.take_unwinds hledger move
  | final move => exact List.forall_mem_nil _

theorem final_unwinds (h : AtDraft limit text w rest d m) (hledger : Ledger.After w m.ledger)
    (move : Machine.FinalMove limit rest.head? (byteLength w) m r) : r.Unwinds := by
  obtain ⟨levels, point⟩ := d
  have hpoint := h.reports.tracks.point
  simp only at hpoint
  cases move with
  | refuseFactor hphase | tooDeep hphase =>
    rw [hphase] at hpoint
    cases hpoint
    exact .failed (h.unwinds_enterFactor hledger hphase _)
  | literalFault hphase _ hjoin =>
    rw [hphase] at hpoint
    cases hpoint
    exact .failed (h.unwinds_leaveLiteral hledger hphase hjoin _)
  | closingFault hphase hstack hnext hjoin =>
    obtain ⟨cs, rfl⟩ := List.head?_eq_some_iff.1 ((Symbol.ofNext_eq_iff rfl).1 hnext)
    rw [hphase] at hpoint
    cases hpoint
    exact .failed (h.unwinds_leaveGroup hledger hphase hstack hjoin _)
  | stray hphase hnext =>
    rw [hphase] at hpoint
    cases hpoint
    cases rest with
    | nil => cases hnext
    | cons c cs => exact .failed (h.unwinds_operator hledger hphase (.inr ⟨c, rfl⟩))
  | refuseEnd hphase =>
    rw [hphase] at hpoint
    cases hpoint
    exact .failed (h.unwinds_leaveExpression hledger hphase _)
  | accept hphase => exact .complete (Machine.after_leaveExpression hledger hphase) rfl
  | acceptComplete => exact .complete hledger rfl
  | refuseComplete hphase =>
    rw [hphase] at hpoint
    cases hpoint with
    | complete houtermost =>
      obtain rfl := levelsText_eq_nil_iff.1 houtermost
      have hrules : m.ledger.rules = [] := by
        rw [Machine.ledger, Machine.openRules, hphase, h.reports.tracks.levels.eq_nil_iff.1 rfl]
        rfl
      exact .failed ⟨⟨w, hledger⟩, hrules ▸ .nil, .closed hrules⟩

theorem ended_unwinds (h : AtDraft limit text w rest d m) (hledger : Ledger.After w m.ledger)
    (hhead : HeadVisible rest) (moves : Machine.Moves limit rest.head? (byteLength w) m xs q)
    (hq : q = .ended r) : r.Unwinds := by
  induction moves generalizing d with
  | silent move _ ih => exact ih (h.silent hhead move) (move.after hledger).1 hq
  | take => cases hq
  | final move =>
    cases hq
    exact h.final_unwinds hledger move

end AtDraft

theorem Path.unwinds_questions (path : Path limit w xs m) (hsplit : text = w ++ rest) :
    ∀ x ∈ xs, x.asked.ledger.Unwinds ⟨.interrupt, .emptyAt x.offset⟩ := by
  induction path generalizing rest with
  | start => exact List.forall_mem_nil _
  | skip path _ ih => exact ih (by rw [hsplit, List.append_assoc])
  | read path hc moves _ ih =>
    rw [List.append_assoc, List.singleton_append] at hsplit
    obtain ⟨d, hd⟩ := path.atDraft hsplit
    exact List.forall_mem_append.2
      ⟨ih hsplit, hd.unwinds_questions path.ledger.1.after (.cons hc _) moves⟩

end

/-- Under any policy, whatever the answers to polls are, a run that fails does so as a machine that
may. -/
theorem runWith_unwinds (policy : Policy) (text : String) : (runWith policy text).Unwinds := by
  obtain ⟨w, rest, xs, m, ys, r, hcourse⟩ := exists_course policy.depthLimit text.toList
  obtain ⟨d, hd⟩ := hcourse.path.atDraft hcourse.text_eq
  have hledger := hcourse.path.ledger.1.after
  have hquestions : ∀ x ∈ xs ++ ys, x.asked.ledger.Unwinds ⟨.interrupt, .emptyAt x.offset⟩ :=
    List.forall_mem_append.2 ⟨hcourse.path.unwinds_questions hcourse.text_eq,
      hd.unwinds_questions hledger hcourse.head hcourse.moves⟩
  rcases hcourse.runWith_cases with hrun | ⟨x, hx, hrun⟩
  · rw [hrun]
    exact hd.ended_unwinds hledger hcourse.head hcourse.moves rfl
  · rw [hrun]
    exact .failed (hquestions x hx)

end ExactCalculator
