import ExactCalculator.Proofs.Trace.Runs

/-! What a run has reported at each point of its text. All that moves do to it is entering a rule where
the reading stands, leaving the innermost rule with a value and taking a character (`Ledger.After`). So
an open rule starts with a visible character that was read, or the reading still stands at its start;
and a run either leaves its last rule with a value or fails and leaves all open rules at once
(`Run.Closes`). -/
namespace ExactCalculator
set_option autoImplicit false

/-- The end of the last character taken, the open rules, the innermost first, and the events so far. -/
structure Ledger where
  mark : Nat
  rules : List OpenRule
  events : List Event

def Machine.ledger (m : Machine) : Ledger := ⟨m.mark, m.openRules, m.events⟩

/-- What a run may have reported when it has read the part `w` of its text. Ignored characters are
skipped only after something is taken. -/
inductive Ledger.After : List Char → Ledger → Prop
  | start : After [] ⟨0, [], []⟩
  | skip {w : List Char} {s : Ledger} {c : Char} (h : After w s)
      (htaken : ∀ r ∈ s.rules, r.start < s.mark) (hc : isIgnored c = true) : After (w ++ [c]) s
  | enter {w : List Char} {mark : Nat} {rules : List OpenRule} {events : List Event} (rule : Rule)
      (h : After w ⟨mark, rules, events⟩) :
      After w ⟨mark, ⟨rule, byteLength w⟩ :: rules, events ++ [.enter rule]⟩
  | leave {w : List Char} {mark : Nat} {r : OpenRule} {rules : List OpenRule} {events : List Event}
      (value : Fraction) (h : After w ⟨mark, r :: rules, events⟩) :
      After w ⟨mark, rules, events ++ [.leave r.rule ⟨r.start, max r.start mark⟩ (.value value)]⟩
  | take {w : List Char} {mark : Nat} {rules : List OpenRule} {events : List Event} {c : Char}
      (h : After w ⟨mark, rules, events⟩) (hc : Symbol.ofChar c ≠ .stray) :
      After (w ++ [c]) ⟨byteLength w + 1, rules, events⟩

/-- Nothing was entered since the last character was taken, so ignored characters may be skipped. -/
structure Ledger.AtRest (w : List Char) (s : Ledger) : Prop where
  after : After w s
  taken : ∀ r ∈ s.rules, r.start < s.mark

/-! ## Starts and ends -/

/-- A visible character of the text begins at the offset. -/
def VisibleAt (text : List Char) (offset : Nat) : Prop :=
  ∃ u c v, text = u ++ c :: v ∧ byteLength u = offset ∧ isIgnored c = false

section
variable {w : List Char} {mark start : Nat} {c : Char}

theorem VisibleAt.concat (h : VisibleAt w start) (c : Char) : VisibleAt (w ++ [c]) start := by
  obtain ⟨u, b, v, rfl, hu, hb⟩ := h
  exact ⟨u, b, v ++ [c], by simp, hu, hb⟩

theorem visibleAt_last (w : List Char) (hc : isIgnored c = false) :
    VisibleAt (w ++ [c]) (byteLength w) :=
  ⟨w, c, [], rfl, rfl, hc⟩

theorem VisibleAt.lt (h : VisibleAt w start) : start < byteLength w := by
  obtain ⟨u, c, v, rfl, rfl, -⟩ := h
  have hpos := c.utf8Size_pos
  rw [byteLength_append, byteLength_cons]
  omega

theorem EndsAt.le (h : EndsAt w mark) : mark ≤ byteLength w := by
  obtain ⟨u, v, rfl, rfl, -, -⟩ := h
  rw [byteLength_append]
  omega

/-- A part of the text read, from a visible character to the last one, with what is skipped after it. -/
theorem VisibleAt.exists_part (h : VisibleAt w start) (hmark : EndsAt w mark) :
    ∃ u b v, w = u ++ b ++ v ∧ byteLength u = start ∧ byteLength (u ++ b) = mark ∧ b ≠ [] ∧
      visible v = [] ∧ HeadVisible b ∧ ∀ c, b.getLast? = some c → isIgnored c = false := by
  obtain ⟨u, c, v, hw, hu, hc⟩ := h
  have hbegin : BeginsAt (w ++ []) start (visible u) :=
    ⟨u, c :: v, by rw [hw, List.append_nil], hu, rfl, .cons hc v⟩
  have hvisible : visible w = visible u ++ c :: visible v := by
    rw [hw, visible_append, visible_cons_of_visible v hc]
  obtain ⟨u', b, z, hsplit, hu', hb, -, hvb, hz, hfirst, hlast⟩ :=
    ExactCalculator.exists_part hbegin hmark hvisible (List.cons_ne_nil c (visible v))
  refine ⟨u', b, z, hsplit, hu', hb, ?_, hz, hfirst, hlast⟩
  rintro rfl
  cases hvb

theorem VisibleAt.lt_mark (h : VisibleAt w start) (hmark : EndsAt w mark) : start < mark := by
  obtain ⟨u, b, v, -, rfl, rfl, hb, -⟩ := h.exists_part hmark
  have hne : byteLength b ≠ 0 := fun hzero => hb (byteLength_eq_zero_iff.1 hzero)
  rw [byteLength_append]
  omega

end

/-! ## Ledgers -/

namespace Ledger

/-- Where the open rules start and the left ones end, in a run that has read the part `w`. -/
structure Placed (w : List Char) (s : Ledger) : Prop where
  mark : EndsAt w s.mark
  starts : ∀ r ∈ s.rules, r.start = byteLength w ∨ VisibleAt w r.start
  nested : s.rules.Pairwise fun inner outer => outer.start ≤ inner.start
  left : ∀ rule span outcome, Event.leave rule span outcome ∈ s.events →
    (∃ v, outcome = .value v) ∧ span.stop ≤ byteLength w

variable {w : List Char} {s : Ledger} {r : OpenRule} {rules : List OpenRule} {events : List Event}
  {mark : Nat} {c : Char}

namespace Placed

theorem start_le (h : Placed w s) (hr : r ∈ s.rules) : r.start ≤ byteLength w := by
  rcases h.starts r hr with heq | hvisible
  · exact heq.le
  · exact hvisible.lt.le

theorem skip (h : Placed w s) (htaken : ∀ r ∈ s.rules, r.start < s.mark) (hc : isIgnored c = true) :
    Placed (w ++ [c]) s where
  mark := h.mark.skip hc
  starts := by
    intro r hr
    have hlt := (htaken r hr).trans_le h.mark.le
    exact .inr (((h.starts r hr).resolve_left hlt.ne).concat c)
  nested := h.nested
  left := by
    intro rule span outcome hevent
    obtain ⟨hvalue, hstop⟩ := h.left rule span outcome hevent
    refine ⟨hvalue, hstop.trans ?_⟩
    rw [byteLength_append]
    omega

theorem enter (h : Placed w ⟨mark, rules, events⟩) (rule : Rule) :
    Placed w ⟨mark, ⟨rule, byteLength w⟩ :: rules, events ++ [.enter rule]⟩ where
  mark := h.mark
  starts := List.forall_mem_cons.2 ⟨.inl rfl, h.starts⟩
  nested := List.pairwise_cons.2 ⟨fun _ => h.start_le, h.nested⟩
  left := by
    intro rule' span outcome hevent
    rcases List.mem_append.1 hevent with hold | hnew
    · exact h.left rule' span outcome hold
    · cases List.mem_singleton.1 hnew

theorem leave (h : Placed w ⟨mark, r :: rules, events⟩) (value : Fraction) :
    Placed w ⟨mark, rules,
      events ++ [.leave r.rule ⟨r.start, max r.start mark⟩ (.value value)]⟩ where
  mark := h.mark
  starts := (List.forall_mem_cons.1 h.starts).2
  nested := (List.pairwise_cons.1 h.nested).2
  left := by
    intro rule span outcome hevent
    rcases List.mem_append.1 hevent with hold | hnew
    · exact h.left rule span outcome hold
    · cases List.mem_singleton.1 hnew
      exact ⟨⟨value, rfl⟩, max_le (h.start_le (List.mem_cons_self ..)) h.mark.le⟩

theorem take (h : Placed w ⟨mark, rules, events⟩) (hc : Symbol.ofChar c ≠ .stray) :
    Placed (w ++ [c]) ⟨byteLength w + 1, rules, events⟩ where
  mark := by
    obtain ⟨hvisible, hsize⟩ := Symbol.visible_of_ofChar_ne_stray hc
    rw [← hsize]
    exact .take hvisible
  starts := by
    intro r hr
    rcases h.starts r hr with heq | hvisible
    · rw [heq]
      exact .inr (visibleAt_last w (Symbol.visible_of_ofChar_ne_stray hc).1)
    · exact .inr (hvisible.concat c)
  nested := h.nested
  left := by
    intro rule span outcome hevent
    obtain ⟨hvalue, hstop⟩ := h.left rule span outcome hevent
    refine ⟨hvalue, hstop.trans ?_⟩
    rw [byteLength_append]
    omega

/-- The range of a rule that is left now, as a part of the text read. -/
theorem exists_part (h : Placed w s) (hr : r ∈ s.rules) :
    ∃ u b v, w = u ++ b ++ v ∧
      (⟨r.start, max r.start s.mark⟩ : Span) = ⟨byteLength u, byteLength (u ++ b)⟩ ∧
      visible v = [] ∧ HeadVisible b ∧ ∀ c, b.getLast? = some c → isIgnored c = false := by
  rcases h.starts r hr with heq | hvisible
  · have hmax : max r.start s.mark = r.start := max_eq_left (heq ▸ h.mark.le)
    exact ⟨w, [], [], by simp, by rw [hmax, heq, List.append_nil], rfl, by simp [HeadVisible], by simp⟩
  · obtain ⟨u, b, v, hw, hu, hb, -, hv, hfirst, hlast⟩ := hvisible.exists_part h.mark
    refine ⟨u, b, v, hw, ?_, hv, hfirst, hlast⟩
    have hmax : max r.start s.mark = s.mark := by
      rw [← hu, ← hb, byteLength_append]
      omega
    rw [hmax, hu, hb]

end Placed

theorem After.placed (h : After w s) : Placed w s := by
  induction h with
  | start => exact ⟨.nil, List.forall_mem_nil _, .nil, nofun⟩
  | skip _ htaken hc ih => exact ih.skip htaken hc
  | enter rule _ ih => exact ih.enter rule
  | leave value _ ih => exact ih.leave value
  | take _ hc ih => exact ih.take hc

theorem After.take_atRest (h : After w ⟨mark, rules, events⟩) (hc : Symbol.ofChar c ≠ .stray) :
    AtRest (w ++ [c]) ⟨byteLength w + 1, rules, events⟩ :=
  ⟨h.take hc, fun _ hr => Nat.lt_succ_of_le (h.placed.start_le hr)⟩

/-- An escape character is neither skipped nor taken. -/
theorem After.escape_not_mem (h : After w s) : '\x1b' ∉ w := by
  have hstray : Symbol.ofChar '\x1b' = .stray := rfl
  induction h with
  | start => exact List.not_mem_nil
  | enter _ _ ih | leave _ _ ih => exact ih
  | skip _ _ hc ih =>
    intro hmem
    rcases List.mem_append.1 hmem with hbefore | hlast
    · exact ih hbefore
    · rw [← List.mem_singleton.1 hlast] at hc
      cases hc
  | take _ hc ih =>
    intro hmem
    rcases List.mem_append.1 hmem with hbefore | hlast
    · exact ih hbefore
    · exact hc (List.mem_singleton.1 hlast ▸ hstray)

theorem AtRest.leave (value : Fraction) (h : AtRest w ⟨mark, r :: rules, events⟩) :
    AtRest w
      ⟨mark, rules, events ++ [.leave r.rule ⟨r.start, max r.start mark⟩ (.value value)]⟩ :=
  ⟨h.after.leave value, (List.forall_mem_cons.1 h.taken).2⟩

end Ledger

/-! ## Ends of runs -/

/-- A failure is to blame where the reading stands; or on a divisor that ends with the last character
taken, in all open rules. -/
inductive Failure.FoundAt (w : List Char) (s : Ledger) : Failure → Prop
  | here {failure : Failure} (hcause : ∀ fault, failure.cause ≠ .arithmetic fault)
      (hstart : failure.span.start = byteLength w) : FoundAt w s failure
  | divisor {fault : Fault} {start : Nat} (hlt : start < s.mark)
      (hrules : ∀ r ∈ s.rules, r.start ≤ start) :
      FoundAt w s ⟨.arithmetic fault, ⟨start, max start s.mark⟩⟩

/-- The run has left all rules with values, or it has failed and left the open ones with the failure. -/
inductive Run.Closes (text : List Char) : Run → Prop
  | complete {w rest : List Char} {mark : Nat} {run : Run} (htext : text = w ++ rest)
      (h : Ledger.After w ⟨mark, [], run.events⟩) : Closes text run
  | failed {w rest : List Char} {m : Machine} {failure : Failure} (htext : text = w ++ rest)
      (h : Ledger.After w m.ledger) (hfound : failure.FoundAt w m.ledger) :
      Closes text (m.fail failure)

section
variable {limit : Option Nat} {next : Option Char} {c : Char} {p : Nat} {m m' : Machine}
  {e : OpenExpression} {t : OpenTerm} {start termStart : Nat} {value : Fraction} {level : Level}
  {outer : List Level} {failure : Failure} {xs ys : List Question} {q : Progress} {r : Run}
  {text w rest : List Char}

/-- The question is asked after the part `w` of the text. -/
structure Question.AskedAfter (w : List Char) (x : Question) : Prop where
  offset : x.offset = byteLength w
  after : Ledger.After w x.machine.ledger

namespace Machine

/-! ## Entering and leaving -/

theorem after_enterFactor (h : Ledger.After w m.ledger) (hphase : m.phase = .factor e t) :
    Ledger.After w (m.enterFactor e t (byteLength w)).ledger := by
  rw [ledger, openRules, hphase] at h
  have henter := h.enter .factor
  rw [← events_enterFactor m e t (byteLength w)] at henter
  exact henter

theorem after_leaveFactor {rules : List OpenRule} {phase : Phase} (h : Ledger.After w m.ledger)
    (hbefore : m.openRules = ⟨.factor, start⟩ :: rules)
    (hafter : (m.leaveFactor start value phase).openRules = rules) :
    Ledger.After w (m.leaveFactor start value phase).ledger := by
  rw [ledger, hbefore] at h
  rw [ledger, hafter, events_leaveFactor]
  exact h.leave value

/-- Leaving an expression and its last term. -/
theorem after_leaveExpression (h : Ledger.After w m.ledger)
    (hphase : m.phase = .operator e termStart value) :
    Ledger.After w ⟨m.mark, m.stack.flatMap Level.openRules,
      (m.leaveExpression e termStart value).events⟩ := by
  rw [ledger, openRules, hphase] at h
  rw [events_leaveExpression]
  exact (h.leave value).leave (e.sum.join value)

/-- The parentheses of a level when the one that closes them is taken. -/
theorem atRest_popLevel (h : Ledger.After w m.ledger) (hphase : m.phase = .operator e termStart value)
    (hstack : m.stack = level :: outer) :
    Ledger.AtRest (w ++ [')']) ⟨byteLength w + 1, level.openRules ++ outer.flatMap Level.openRules,
      (m.popLevel e termStart value outer (byteLength w + 1)).events⟩ := by
  have hexpression := after_leaveExpression h hphase
  rw [hstack] at hexpression
  exact hexpression.take_atRest nofun

/-- The closing parenthesis of a level ends its factor. -/
theorem atRest_leaveLevel (h : Ledger.After w m.ledger)
    (hphase : m.phase = .operator e termStart value) (hstack : m.stack = level :: outer)
    {after : Phase} (hafter : after.openRules =
      [⟨.term, level.term.start⟩, ⟨.expression, level.expression.start⟩]) :
    Ledger.AtRest (w ++ [')']) ((m.popLevel e termStart value outer (byteLength w + 1)).leaveFactor
      level.start (e.sum.join value) after).ledger := by
  have hpop := atRest_popLevel h hphase hstack
  have hrules : ((m.popLevel e termStart value outer (byteLength w + 1)).leaveFactor level.start
      (e.sum.join value) after).openRules = after.openRules ++ outer.flatMap Level.openRules := rfl
  rw [ledger, events_leaveFactor, hrules, hafter]
  exact hpop.leave (e.sum.join value)

/-! ## Moves -/

theorem SilentMove.after (move : SilentMove next (byteLength w) m xs m')
    (h : Ledger.After w m.ledger) :
    Ledger.After w m'.ledger ∧ ∀ x ∈ xs, x.AskedAfter w := by
  cases move with
  | enterExpression hphase =>
    rw [ledger, openRules, hphase] at h
    have henter := h.enter .expression
    rw [← events_record] at henter
    exact ⟨henter, List.forall_mem_nil _⟩
  | enterTerm hphase =>
    rw [ledger, openRules, hphase] at h
    have henter := h.enter .term
    rw [← events_record] at henter
    exact ⟨henter, List.forall_mem_nil _⟩
  | @leaveLiteral e t start value product hphase =>
    have hleft : Ledger.After w
        (m.leaveFactor start (.ofInt value) (.operator e t.start product)).ledger := by
      refine after_leaveFactor h ?_ rfl
      rw [openRules, hphase]
      rfl
    exact ⟨hleft, List.forall_mem_singleton.2 ⟨rfl, hleft⟩⟩
  | beside hphase =>
    rw [ledger, openRules, hphase] at h
    exact ⟨h, List.forall_mem_nil _⟩

theorem TakingMove.after (move : TakingMove limit c (byteLength w) m xs m')
    (h : Ledger.After w m.ledger) :
    Ledger.AtRest (w ++ [c]) m'.ledger ∧ ∀ x ∈ xs, x.AskedAfter w ∨ x.AskedAfter (w ++ [c]) := by
  have hc := move.ofChar_ne_stray
  cases move with
  | firstSign hphase =>
    rw [ledger, openRules, hphase] at h
    have henter := h.enter .expression
    rw [← events_record] at henter
    exact ⟨henter.take_atRest hc, List.forall_mem_nil _⟩
  | firstDigit hphase =>
    have henter := after_enterFactor h hphase
    exact ⟨henter.take_atRest hc, List.forall_mem_singleton.2 (.inl ⟨rfl, henter⟩)⟩
  | nextDigit hphase =>
    have htake := h
    rw [ledger, openRules, hphase] at htake
    exact ⟨htake.take_atRest hc, List.forall_mem_singleton.2 (.inl ⟨rfl, h⟩)⟩
  | opening hphase =>
    exact ⟨(after_enterFactor h hphase).take_atRest hc, List.forall_mem_nil _⟩
  | scaling hphase =>
    rw [ledger, openRules, hphase] at h
    exact ⟨h.take_atRest hc, List.forall_mem_nil _⟩
  | @sign e termStart value sign hphase =>
    rw [ledger, openRules, hphase] at h
    have hleave : Ledger.After w ⟨m.mark, ⟨.expression, e.start⟩ :: m.stack.flatMap Level.openRules,
        m.events ++ [.leave .term (m.spanFrom termStart) (.value value)]⟩ := h.leave value
    rw [← events_record] at hleave
    exact ⟨hleave.take_atRest hc, List.forall_mem_nil _⟩
  | @closing e termStart value level outer product hphase hstack hsymbol =>
    obtain rfl : c = ')' := (Symbol.ofChar_eq_iff rfl).1 hsymbol
    have hleft : Ledger.AtRest (w ++ [')']) ((m.popLevel e termStart value outer
        (byteLength w + 1)).leaveFactor level.start (e.sum.join value)
        (.operator level.expression level.term.start product)).ledger :=
      atRest_leaveLevel h hphase hstack rfl
    refine ⟨hleft, List.forall_mem_singleton.2 (.inr ⟨?_, hleft.after⟩)⟩
    rw [byteLength_append]
    rfl
  | equals hphase hstack =>
    exact ⟨(after_leaveExpression h hphase).take_atRest hc, List.forall_mem_nil _⟩

theorem foundAt_next (next : Option Char) (w : List Char) (s : Ledger) :
    (Failure.atNext next (byteLength w)).FoundAt w s := by
  cases next <;> exact .here nofun rfl

theorem FinalMove.closes (move : FinalMove limit rest.head? (byteLength w) m r)
    (h : Ledger.After w m.ledger) (htext : text = w ++ rest) (htraced : m.Traced)
    (hliteral : ∀ e t start value, m.phase = .literal e t start value → start < m.mark) :
    r.Closes text := by
  cases move with
  | refuseFactor hphase => exact .failed htext (after_enterFactor h hphase) (foundAt_next ..)
  | tooDeep hphase => exact .failed htext (after_enterFactor h hphase) (.here nofun rfl)
  | @literalFault e t start value fault hphase =>
    have hbefore : m.openRules = ⟨.factor, start⟩ :: ⟨.term, t.start⟩ :: ⟨.expression, e.start⟩ ::
        m.stack.flatMap Level.openRules := by
      rw [openRules, hphase]
      rfl
    have hnested := h.placed.nested
    rw [ledger, hbefore] at hnested
    exact .failed htext (after_leaveFactor h hbefore rfl)
      (.divisor (hliteral e t start value hphase) (List.pairwise_cons.1 hnested).1)
  | @closingFault e termStart value level outer fault hphase hstack hnext =>
    obtain ⟨cs, rfl⟩ := List.head?_eq_some_iff.1 ((Symbol.ofNext_eq_iff rfl).1 hnext)
    have hpop := atRest_popLevel h hphase hstack
    have hleft : Ledger.AtRest (w ++ [')']) ((m.popLevel e termStart value outer
        (byteLength w + 1)).leaveFactor level.start (e.sum.join value)
        (.factor level.expression level.term)).ledger := atRest_leaveLevel h hphase hstack rfl
    have htext' : text = (w ++ [')']) ++ cs := by rw [htext]; simp
    exact .failed htext' hleft.after (.divisor (hpop.taken _ (List.mem_cons_self ..))
      (List.pairwise_cons.1 hpop.after.placed.nested).1)
  | stray hphase => exact .failed htext h (foundAt_next ..)
  | refuseEnd hphase => exact .failed htext (after_leaveExpression h hphase) (foundAt_next ..)
  | accept hphase hstack =>
    have hleft := after_leaveExpression h hphase
    rw [hstack] at hleft
    exact .complete htext hleft
  | acceptComplete hphase =>
    simp only [Traced, hphase] at htraced
    rw [ledger, openRules, hphase, htraced.1] at h
    exact .complete htext h
  | refuseComplete hphase => exact .failed htext h (foundAt_next ..)

/-- Silent moves never come to a literal, so one that ends in this step was there before it. -/
theorem SilentMove.not_literal (move : SilentMove next p m xs m') (e : OpenExpression) (t : OpenTerm)
    (start value : Nat) : m'.phase ≠ .literal e t start value := by
  cases move <;> exact nofun

theorem Moves.more_after (moves : Moves limit (some c) (byteLength w) m xs q)
    (h : Ledger.After w m.ledger) (hq : q = .more m') :
    Ledger.AtRest (w ++ [c]) m'.ledger ∧ ∀ x ∈ xs, x.AskedAfter w ∨ x.AskedAfter (w ++ [c]) := by
  induction moves with
  | silent move _ ih =>
    obtain ⟨hm', hxs⟩ := move.after h
    obtain ⟨hrest, hys⟩ := ih hm' hq
    exact ⟨hrest, List.forall_mem_append.2 ⟨fun x hx => .inl (hxs x hx), hys⟩⟩
  | take hnext move =>
    cases hnext
    cases hq
    exact move.after h
  | final => cases hq

theorem Moves.ended_closes (moves : Moves limit rest.head? (byteLength w) m xs q)
    (h : Ledger.After w m.ledger) (htext : text = w ++ rest) (htraced : m.Traced)
    (hliteral : ∀ e t start value, m.phase = .literal e t start value → start < m.mark)
    (hq : q = .ended r) : r.Closes text ∧ ∀ x ∈ xs, x.AskedAfter w := by
  induction moves with
  | silent move _ ih =>
    obtain ⟨hm', hxs⟩ := move.after h
    obtain ⟨hr, hys⟩ := ih hm' (move.traced htraced).1
      (fun e t start value hphase => absurd hphase (move.not_literal e t start value)) hq
    exact ⟨hr, List.forall_mem_append.2 ⟨hxs, hys⟩⟩
  | take => cases hq
  | final move =>
    cases hq
    exact ⟨move.closes h htext htraced hliteral, List.forall_mem_nil _⟩

end Machine

/-! ## Whole runs -/

/-- The question is asked after some first part of the text. -/
def Question.AskedWithin (text : List Char) (x : Question) : Prop :=
  ∃ u v, text = u ++ v ∧ x.AskedAfter u

theorem Question.AskedAfter.within {x : Question} (h : x.AskedAfter w) (rest : List Char) :
    x.AskedWithin (w ++ rest) :=
  ⟨w, rest, rfl, h⟩

theorem Path.ledger (path : Path limit w xs m) :
    Ledger.AtRest w m.ledger ∧ ∀ x ∈ xs, x.AskedWithin w := by
  have hlater : ∀ {w : List Char} {x : Question} (c : Char), x.AskedWithin w →
      x.AskedWithin (w ++ [c]) := by
    rintro w x c ⟨u, v, rfl, hx⟩
    exact ⟨u, v ++ [c], by simp, hx⟩
  induction path with
  | start => exact ⟨⟨.start, List.forall_mem_nil _⟩, List.forall_mem_nil _⟩
  | @skip w xs m c _ hc ih =>
    exact ⟨⟨ih.1.after.skip ih.1.taken hc, ih.1.taken⟩, fun x hx => hlater c (ih.2 x hx)⟩
  | @read w xs ys m m' c _ _ moves _ ih =>
    obtain ⟨hm', hys⟩ := moves.more_after ih.1.after rfl
    refine ⟨hm', List.forall_mem_append.2 ⟨fun x hx => hlater c (ih.2 x hx), fun x hx => ?_⟩⟩
    rcases hys x hx with hbefore | hafter
    · exact hbefore.within [c]
    · exact ⟨w ++ [c], [], by simp, hafter⟩

theorem Course.closes (h : Course limit text w rest xs m ys r) :
    r.Closes text ∧ ∀ x ∈ xs ++ ys, x.AskedWithin text := by
  obtain ⟨hrest, hxs⟩ := h.path.ledger
  have hliteral : ∀ e t start value, m.phase = .literal e t start value → start < m.mark := by
    intro e t start value hphase
    refine hrest.taken ⟨.factor, start⟩ ?_
    rw [Machine.ledger, Machine.openRules, hphase]
    exact List.mem_cons_self ..
  obtain ⟨hr, hys⟩ := h.moves.ended_closes hrest.after h.text_eq h.path.traced.1 hliteral rfl
  refine ⟨hr, List.forall_mem_append.2 ⟨fun x hx => ?_, fun x hx => ?_⟩⟩
  · obtain ⟨u, v, hw, hasked⟩ := hxs x hx
    exact ⟨u, v ++ rest, by rw [h.text_eq, hw, List.append_assoc], hasked⟩
  · rw [h.text_eq]
    exact (hys x hx).within rest

theorem Question.AskedWithin.closes {x : Question} (h : x.AskedWithin text) :
    x.interrupted.Closes text := by
  obtain ⟨u, v, htext, hoffset, hafter⟩ := h
  have hasked : Ledger.After u x.asked.ledger := hafter
  exact .failed htext hasked (.here nofun hoffset)

end

/-- However a run ends, it has left its rules with values up to some point of its text, and the rules
open there, if any, with its failure. -/
theorem runWith_closes (policy : Policy) (text : String) :
    (runWith policy text).Closes text.toList := by
  obtain ⟨w, rest, xs, m, ys, r, hcourse⟩ := exists_course policy.depthLimit text.toList
  obtain ⟨hr, hquestions⟩ := hcourse.closes
  rcases hcourse.runWith_cases with hrun | ⟨x, hx, hrun⟩
  · rw [hrun]
    exact hr
  · rw [hrun]
    exact (hquestions x hx).closes

end ExactCalculator
