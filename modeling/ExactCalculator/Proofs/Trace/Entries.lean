import ExactCalculator.Proofs.Text.Places
import ExactCalculator.Proofs.Trace.Brackets
import ExactCalculator.Proofs.Trace.OpenRules

/-! How many rules a run enters. In a trace every expression has a term of its own and every term a
factor. A factor is entered for a parenthesis or for the first digit of a literal, an expression at the
start and after every open parenthesis, a term with every expression and after every sign between terms.
So the part of the text that is read tells how many rules of each kind have been entered (`Tally`), but
for the rules that the next character is to begin. -/
namespace ExactCalculator
set_option autoImplicit false

/-- How often a rule is entered. -/
def entries (rule : Rule) (events : List Event) : Nat := events.count (.enter rule)

section
variable {rule : Rule} {events later : List Event}

@[simp] theorem entries_nil (rule : Rule) : entries rule [] = 0 := rfl

@[simp] theorem entries_append (rule : Rule) (before after : List Event) :
    entries rule (before ++ after) = entries rule before + entries rule after :=
  List.count_append

@[simp] theorem entries_enter (rule entered : Rule) :
    entries rule [.enter entered] = if entered = rule then 1 else 0 := by
  rw [entries, List.count_singleton]
  simp

@[simp] theorem entries_leave (rule left : Rule) (span : Span) (outcome : Outcome) :
    entries rule [.leave left span outcome] = 0 := by
  rw [entries, List.count_singleton]
  simp

theorem OnlyLeaves.entries_eq (h : OnlyLeaves events later) (rule : Rule) :
    entries rule later = entries rule events := by
  induction h with
  | refl => rfl
  | leave _ left span outcome ih => rw [entries_append, entries_leave, Nat.add_zero, ih]

theorem entries_mono (h : events <+: later) : entries rule events ≤ entries rule later :=
  h.sublist.count_le _

end

/-! ## Rules of a trace -/

/-- There are more terms than expressions and more factors than terms, by these numbers at least. -/
structure Surplus (events : List Event) (terms factors : Nat) : Prop where
  expressions_le : entries .expression events + terms ≤ entries .term events
  terms_le : entries .term events + factors ≤ entries .factor events

theorem Surplus.append {before after : List Event} {terms terms' factors factors' : Nat}
    (h : Surplus before terms factors) (h' : Surplus after terms' factors') :
    Surplus (before ++ after) (terms + terms') (factors + factors') := by
  obtain ⟨hterms, hfactors⟩ := h
  obtain ⟨hterms', hfactors'⟩ := h'
  constructor <;> rw [entries_append, entries_append] <;> omega

namespace Trace

theorem entries_node (rule entered : Rule) (span : Span) (outcome : Outcome) (steps : List Trace) :
    entries rule (node entered span outcome steps).events =
      (if entered = rule then 1 else 0) + entries rule (allEvents steps) := by
  rw [events, ← List.singleton_append, entries_append, entries_append, entries_enter, entries_leave,
    Nat.add_zero]

mutual

/-- A trace enters no more expressions than terms and no more terms than factors. A term is itself one
more than the expressions in it, and a factor is one more than the terms in it. -/
theorem surplus : (trace : Trace) → trace.WellShaped →
    Surplus trace.events (if trace.rule = .term then 1 else 0) (if trace.rule = .factor then 1 else 0)
  | node rule span outcome steps, h => by
    obtain ⟨hcount, hsteps⟩ := h
    obtain ⟨hterms, hfactors⟩ := surplus_all steps hsteps
    -- what an expression or a term adds itself is made up for by the first of its steps
    have hone : rule ≠ .factor → 1 ≤ steps.length := by
      intro hrule
      cases rule with
      | expression | term => exact of_decide_eq_true hcount
      | factor => exact absurd rfl hrule
    constructor <;> simp only [entries_node, Trace.rule] <;> grind

theorem surplus_all {rule : Rule} : (traces : List Trace) → AllWithin rule traces →
    Surplus (allEvents traces) (if rule = .expression then traces.length else 0)
      (if rule = .term then traces.length else 0)
  | [], _ => ⟨by simp [allEvents], by simp [allEvents]⟩
  | trace :: rest, h => by
    obtain ⟨hmay, htrace, hrest⟩ := h
    have hboth := (surplus trace htrace).append (surplus_all rest hrest)
    generalize trace.rule = inner at hmay hboth
    cases rule <;> cases inner <;> simp [mayContain] at hmay <;>
      simpa [allEvents, Nat.add_comm] using hboth

end

end Trace

/-! ## The tally of a machine -/

/-- The expressions that are due and not entered yet. -/
def Phase.expressionsDue : Phase → Nat
  | expression => 1
  | _ => 0

/-- The terms that are due and not entered yet. -/
def Phase.termsDue : Phase → Nat
  | term _ => 1
  | _ => 0

/-- No run of digits goes on from one character to the next. -/
def Apart (last next : Option Char) : Prop :=
  last.any Char.isDigit = true → next.any Char.isDigit = false

/-- The characters between which a phase may stand. -/
def Phase.StandsBetween (last next : Option Char) : Phase → Prop
  | expression => last = none ∨ last = some '('
  | term _ | factor _ _ => Apart last next
  | literal _ _ _ _ => last.any Char.isDigit = true
  | operator _ _ _ => last.any (· != '(') = true ∧ Apart last next
  | complete _ => True

/-- The visible characters `v` that have been read account for the rules that have been entered. -/
structure Tally (v : List Char) (next : Option Char) (phase : Phase) (events : List Event) : Prop where
  expressions : entries .expression events + phase.expressionsDue = v.count '(' + 1
  terms : entries .term events + phase.termsDue = entries .expression events + binarySigns v
  factors : entries .factor events = v.count '(' + digitRuns v
  between : phase.StandsBetween v.getLast? next

section
variable {limit : Option Nat} {v w rest text : List Char} {next : Option Char} {c : Char} {p : Nat}
  {m m' : Machine} {xs : List Question} {r : Run} {e : OpenExpression} {t : OpenTerm}
  {events later : List Event} {phase phase' : Phase}

theorem apart_of_not_digit {a : Char} (ha : a.isDigit = false) (next : Option Char) :
    Apart (some a) next := by
  intro h
  rw [Option.any_some, ha] at h
  cases h

theorem any_isDigit_eq_false (h : ∀ digit, Symbol.ofNext next ≠ .digit digit) :
    next.any Char.isDigit = false := by
  cases next with
  | none => rfl
  | some c =>
    by_contra hdigit
    exact h _ (Symbol.ofChar_digit (by simpa using hdigit))

theorem any_ne_of_isDigit {last : Option Char} (h : last.any Char.isDigit = true) :
    last.any (· != '(') = true := by
  cases last with
  | none => cases h
  | some a => exact bne_iff_ne.2 (ne_of_isDigit h rfl)

namespace Tally

theorem start (next : Option Char) : Tally [] next .expression [] :=
  ⟨rfl, rfl, rfl, .inl rfl⟩

theorem leaves (h : Tally v next phase events) (hlater : OnlyLeaves events later) :
    Tally v next phase later := by
  obtain ⟨hexpressions, hterms, hfactors, hbetween⟩ := h
  constructor <;> simpa only [hlater.entries_eq]

theorem enterExpression (h : Tally v next .expression events) :
    Tally v next (.term e) (events ++ [.enter .expression]) := by
  obtain ⟨hexpressions, hterms, hfactors, hbetween⟩ := h
  simp only [Phase.expressionsDue, Phase.termsDue] at hexpressions hterms
  constructor
  · simp [Phase.expressionsDue, hexpressions]
  · simp only [Phase.termsDue, entries_append, entries_enter, reduceCtorEq, if_true, if_false]
    omega
  · simp [hfactors]
  · rcases hbetween with hlast | hlast <;> rw [hlast] <;> intro hdigit <;> cases hdigit

theorem enterTerm (h : Tally v next (.term e) events) :
    Tally v next (.factor e t) (events ++ [.enter .term]) := by
  obtain ⟨hexpressions, hterms, hfactors, hbetween⟩ := h
  simp only [Phase.expressionsDue, Phase.termsDue] at hexpressions hterms
  constructor
  · simp [Phase.expressionsDue, hexpressions]
  · simp only [Phase.termsDue, entries_append, entries_enter, reduceCtorEq, if_true, if_false]
    omega
  · simp [hfactors]
  · exact hbetween

/-- A character that begins no factor is read. -/
theorem read {signs : Nat} (h : Tally v (some c) phase events) (hadds : Adds v c 0 0 signs)
    (hexpression : phase'.expressionsDue = phase.expressionsDue)
    (hterm : phase'.termsDue = phase.termsDue + signs)
    (hbetween : phase'.StandsBetween (some c) next) : Tally (v ++ [c]) next phase' events := by
  constructor
  · rw [hexpression, hadds.openings]
    exact h.expressions
  · rw [hterm, hadds.signs, ← Nat.add_assoc, h.terms, Nat.add_assoc]
  · rw [hadds.openings, hadds.runs]
    exact h.factors
  · rwa [List.getLast?_concat]

/-- A factor is entered and its first character is read. -/
theorem readFactor {openings runs : Nat} (h : Tally v (some c) (.factor e t) events)
    (hadds : Adds v c openings runs 0) (hone : openings + runs = 1)
    (hexpression : phase'.expressionsDue = openings) (hterm : phase'.termsDue = 0)
    (hbetween : phase'.StandsBetween (some c) next) :
    Tally (v ++ [c]) next phase' (events ++ [.enter .factor]) := by
  obtain ⟨hexpressions, hterms, hfactors, -⟩ := h
  simp only [Phase.expressionsDue, Phase.termsDue] at hexpressions hterms
  constructor
  · rw [hexpression, hadds.openings, entries_append, entries_enter, if_neg (by simp)]
    omega
  · rw [hterm, hadds.signs]
    simpa using hterms
  · rw [hadds.openings, hadds.runs, entries_append, entries_enter, if_pos rfl]
    omega
  · rwa [List.getLast?_concat]

end Tally

namespace Machine

theorem SilentMove.tally (move : SilentMove next p m xs m') (h : Tally v next m.phase m.events) :
    Tally v next m'.phase m'.events := by
  cases move with
  | enterExpression hphase =>
    rw [hphase] at h
    exact m.events_record _ ▸ h.enterExpression
  | enterTerm hphase =>
    rw [hphase] at h
    exact m.events_record _ ▸ h.enterTerm
  | @leaveLiteral e t start value product hphase hnext =>
    rw [hphase] at h
    have hdone : Tally v next (.operator e t.start product) m.events := by
      refine ⟨h.expressions, h.terms, h.factors, any_ne_of_isDigit h.between, fun _ => ?_⟩
      exact any_isDigit_eq_false hnext
    exact hdone.leaves (onlyLeaves_leaveFactor .refl start (.ofInt value) (.operator e t.start product))
  | beside hphase =>
    rw [hphase] at h
    exact ⟨h.expressions, h.terms, h.factors, h.between.2⟩

theorem TakingMove.tally (move : TakingMove limit c p m xs m') (h : Tally v (some c) m.phase m.events)
    (next : Option Char) : Tally (v ++ [c]) next m'.phase m'.events := by
  cases move with
  | @firstSign sign hphase hc =>
    obtain rfl := (Symbol.ofChar_eq_iff rfl).1 hc
    rw [hphase] at h
    have hleading : v.getLast?.any (· != '(') = false := by
      rcases h.between with hlast | hlast <;> rw [hlast] <;> rfl
    have hadds : Adds v sign.char 0 0 0 := by simpa [hleading] using adds_sign v sign
    have hentered : Tally v (some sign.char) (.term ⟨p, .start sign⟩)
        (m.events ++ [.enter .expression]) := h.enterExpression
    have hapart : Apart (some sign.char) next := apart_of_not_digit (by cases sign <;> rfl) next
    exact m.events_record _ ▸ hentered.read hadds rfl rfl hapart
  | firstDigit hphase hc =>
    obtain ⟨hdigit, -⟩ := Symbol.ofChar_eq_digit_iff.1 hc
    rw [hphase] at h
    have hfirst : v.getLast?.any Char.isDigit = false := by
      by_contra hlast
      have hno := h.between (by simpa using hlast)
      rw [Option.any_some, hdigit] at hno
      cases hno
    have hadds : Adds v c 0 1 0 := by simpa [hfirst] using adds_digit v hdigit
    exact m.events_record _ ▸ h.readFactor hadds rfl rfl rfl hdigit
  | nextDigit hphase hc =>
    obtain ⟨hdigit, -⟩ := Symbol.ofChar_eq_digit_iff.1 hc
    rw [hphase] at h
    have hlast : v.getLast?.any Char.isDigit = true := h.between
    have hadds : Adds v c 0 0 0 := by simpa [hlast] using adds_digit v hdigit
    exact h.read hadds rfl rfl hdigit
  | opening hphase hc =>
    obtain rfl := (Symbol.ofChar_eq_iff rfl).1 hc
    rw [hphase] at h
    exact m.events_record _ ▸ h.readFactor adds_opening rfl rfl rfl (.inr rfl)
  | @scaling e termStart value scaling hphase hc =>
    obtain rfl := (Symbol.ofChar_eq_iff rfl).1 hc
    rw [hphase] at h
    have hadds : Adds v scaling.char 0 0 0 := adds_of_mem (by cases scaling <;> simp [Scaling.char])
    exact h.read hadds rfl rfl (apart_of_not_digit (by cases scaling <;> rfl) next)
  | @sign e termStart value sign hphase hc =>
    obtain rfl := (Symbol.ofChar_eq_iff rfl).1 hc
    rw [hphase] at h
    have hbinary : v.getLast?.any (· != '(') = true := h.between.1
    have hadds : Adds v sign.char 0 0 1 := by simpa [hbinary] using adds_sign v sign
    have hread : Tally (v ++ [sign.char]) next (.term { e with sum := .after (e.sum.join value) sign })
        m.events :=
      h.read hadds rfl rfl (apart_of_not_digit (by cases sign <;> rfl) next)
    exact m.events_record _ ▸ hread.leaves (.leave .refl ..)
  | @closing e termStart value level outer product hphase hstack hc =>
    obtain rfl := (Symbol.ofChar_eq_iff rfl).1 hc
    rw [hphase] at h
    have hread : Tally (v ++ [')']) next (.operator level.expression level.term.start product) m.events :=
      h.read (adds_of_mem (by simp)) rfl rfl ⟨rfl, apart_of_not_digit rfl next⟩
    exact hread.leaves (m.onlyLeaves_leaveLevel e termStart level.start value (e.sum.join value) outer
      (p + 1) (.operator level.expression level.term.start product))
  | @equals e termStart value hphase hstack hc =>
    obtain rfl := (Symbol.ofChar_eq_iff rfl).1 hc
    rw [hphase] at h
    have hread : Tally (v ++ ['=']) next (.complete (e.sum.join value)) m.events :=
      h.read (adds_of_mem (by simp)) rfl rfl trivial
    exact hread.leaves (m.onlyLeaves_leaveExpression e termStart value)

theorem FinalMove.entries_le (move : FinalMove limit next p m r) :
    entries .factor r.events ≤ entries .factor m.events + 1 := by
  rcases move.onlyLeaves with hleaves | ⟨e, t, -, hleaves⟩
  · rw [hleaves.entries_eq]
    exact Nat.le_succ _
  · rw [hleaves.entries_eq, events_enterFactor, entries_append]
    exact le_of_eq (congrArg _ (entries_enter .factor .factor))

/-- A run is accepted at the end of the text, with nothing due. -/
theorem FinalMove.of_value (move : FinalMove limit next p m r) {value : Fraction}
    (hvalue : r.outcome = .value value) :
    next = none ∧ m.phase.expressionsDue = 0 ∧ m.phase.termsDue = 0 ∧ OnlyLeaves m.events r.events := by
  cases move with
  | refuseFactor | tooDeep | literalFault | closingFault | stray | refuseEnd | refuseComplete =>
    cases hvalue
  | @accept e termStart value hphase hstack hnext =>
    rw [hphase]
    exact ⟨Symbol.ofNext_eq_ending_iff.1 hnext, rfl, rfl, m.onlyLeaves_leaveExpression e termStart value⟩
  | acceptComplete hphase hnext =>
    rw [hphase]
    exact ⟨Symbol.ofNext_eq_ending_iff.1 hnext, rfl, rfl, .refl⟩

theorem Moves.tally (moves : Moves limit (some c) p m xs (.more m'))
    (h : Tally v (some c) m.phase m.events) (next : Option Char) :
    Tally (v ++ [c]) next m'.phase m'.events := by
  obtain ⟨m₀, c', ys, h₀, hc, move⟩ := moves.exists_taking rfl (fun _ _ _ move => move.tally) h
  cases hc
  exact move.tally h₀ next

end Machine

/-- The text tells exactly how many rules have been entered. -/
structure EntriesMatch (text : List Char) (events : List Event) : Prop where
  expressions : entries .expression events = 1 + text.count '('
  factors : entries .factor events = text.count '(' + digitRuns (visible text)
  terms : entries .term events = entries .expression events + binarySigns (visible text)

theorem Machine.Moves.entries_le (moves : Machine.Moves limit next p m xs (.ended r))
    (h : Tally v next m.phase m.events) : entries .factor r.events ≤ v.count '(' + digitRuns v + 1 := by
  obtain ⟨m₀, h₀, move⟩ := moves.exists_final rfl (fun _ _ _ move => move.tally) h
  rw [← h₀.factors]
  exact move.entries_le

theorem Machine.Moves.entriesMatch (moves : Machine.Moves limit next p m xs (.ended r))
    (h : Tally (visible text) next m.phase m.events) {value : Fraction}
    (hvalue : r.outcome = .value value) : next = none ∧ EntriesMatch text r.events := by
  obtain ⟨m₀, h₀, move⟩ := moves.exists_final rfl (fun _ _ _ move => move.tally) h
  obtain ⟨hnext, hexpression, hterm, hleaves⟩ := move.of_value hvalue
  obtain ⟨hexpressions, hterms, hfactors, -⟩ := h₀.leaves hleaves
  have hopenings : (visible text).count '(' = text.count '(' := List.count_filter rfl
  rw [hexpression, hopenings, Nat.add_zero, Nat.add_comm] at hexpressions
  rw [hterm, Nat.add_zero] at hterms
  rw [hopenings] at hfactors
  exact ⟨hnext, hexpressions, hfactors, hterms⟩

theorem Path.tally (path : Path limit w xs m) (next : Option Char) :
    Tally (visible w) next m.phase m.events := by
  induction path generalizing next with
  | start => exact .start next
  | skip _ hc ih =>
    rw [visible_append, visible_cons_of_ignored [] hc, visible_nil, List.append_nil]
    exact ih next
  | @read w _ _ _ _ c _ hc moves _ ih =>
    rw [visible_append, visible_cons_of_visible [] hc, visible_nil]
    exact moves.tally (ih (some c)) next

end

/-! ## Runs -/

/-- The bounds that a text sets to a run on it. -/
structure Run.BoundedBy (text : List Char) (run : Run) : Prop where
  open_le : OpenAtMost (3 * (maxDepth + 1)) run.events
  expressions_le : entries .expression run.events ≤ entries .term run.events
  terms_le : entries .term run.events ≤ entries .factor run.events
  factors_le : entries .factor run.events ≤ (text.countP fun c => c.isDigit || c == '(') + 1
  accepted : ∀ value, run.outcome = .value value → EntriesMatch text run.events

theorem runWith_surplus (policy : Policy) (text : String) : Surplus (runWith policy text).events 0 0 := by
  obtain ⟨trace, hevents, hrecords⟩ := runWith_recorded policy text
  obtain ⟨hterms, hfactors⟩ := trace.surplus hrecords.wellShaped
  rw [hevents] at hterms hfactors
  exact ⟨Nat.le_of_add_right_le hterms, Nat.le_of_add_right_le hfactors⟩

theorem runWith_factors_le (policy : Policy) (text : String) :
    entries .factor (runWith policy text).events ≤
      (text.toList.countP fun c => c.isDigit || c == '(') + 1 := by
  obtain ⟨w, rest, xs, m, ys, r, hcourse⟩ := exists_course policy.depthLimit text.toList
  have hr : entries .factor r.events ≤ (text.toList.countP fun c => c.isDigit || c == '(') + 1 := by
    have hsub : (visible w).Sublist text.toList := by
      rw [hcourse.text_eq]
      exact List.filter_sublist.trans (List.sublist_append_left w rest)
    calc entries .factor r.events
        ≤ (visible w).count '(' + digitRuns (visible w) + 1 :=
          hcourse.moves.entries_le (hcourse.path.tally rest.head?)
      _ ≤ ((visible w).countP fun c => c.isDigit || c == '(') + 1 :=
          Nat.succ_le_succ (openings_add_runs_le (visible w))
      _ ≤ (text.toList.countP fun c => c.isDigit || c == '(') + 1 :=
          Nat.succ_le_succ (hsub.countP_le)
  rcases hcourse.runWith_cases with hrun | ⟨x, hx, hrun⟩
  · rwa [hrun]
  · rw [hrun, x.onlyLeaves_interrupted.entries_eq]
    exact le_trans (entries_mono (hcourse.question_prefix x hx)) hr

theorem runWith_entriesMatch (policy : Policy) (text : String) {value : Fraction}
    (hvalue : (runWith policy text).outcome = .value value) :
    EntriesMatch text.toList (runWith policy text).events := by
  obtain ⟨w, rest, xs, m, ys, r, hcourse⟩ := exists_course policy.depthLimit text.toList
  rcases hcourse.runWith_cases with hrun | ⟨x, hx, hrun⟩
  · rw [hrun] at hvalue ⊢
    obtain ⟨hnext, hmatch⟩ := hcourse.moves.entriesMatch (hcourse.path.tally rest.head?) hvalue
    rw [List.head?_eq_none_iff] at hnext
    rwa [hcourse.text_eq, hnext, List.append_nil]
  · rw [hrun] at hvalue
    cases hvalue

/-- Whatever the schedule does to the stop flag, the text bounds the rules that a run enters and the
rules that it has open at once. -/
theorem runScheduled_boundedBy (schedule : Schedule) (flag : Bool) (text : String) :
    (runScheduled schedule flag text).BoundedBy text.toList where
  open_le := runWith_openAtMost rfl text
  expressions_le := (runWith_surplus _ text).expressions_le
  terms_le := (runWith_surplus _ text).terms_le
  factors_le := runWith_factors_le _ text
  accepted := fun _ hvalue => runWith_entriesMatch _ text hvalue

end ExactCalculator
