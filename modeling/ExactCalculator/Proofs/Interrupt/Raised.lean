import ExactCalculator.Proofs.DepthLimit
import ExactCalculator.Proofs.Interrupt.Later
import ExactCalculator.Proofs.Trace.Ledger
import Mathlib.Data.List.TakeWhile

/-! A flag that is up from the beginning. Before its first number a run asks nothing: it reads signs and
opening parentheses, and enters rules without leaving any (`Machine.AwaitsNumber`). So either it comes
to the first digit of the text and stops there, or it fails earlier, as the run that is never stopped
does. Which of the two is decided by the visible characters before that digit. -/
namespace ExactCalculator
set_option autoImplicit false

/-! ## Before the first number -/

/-- The part of a text before its first digit. -/
def lead (text : List Char) : List Char := text.takeWhile fun c => !c.isDigit

/-- Optional signs, each but the last before an opening parenthesis. -/
def openingText (signs : List (Option Sign)) (last : Option Sign) : List Char :=
  signs.flatMap (fun sign => (sign.map Sign.char).toList ++ ['(']) ++ (last.map Sign.char).toList

/-- A number may come after these characters. -/
def LeadsToNumber (u : List Char) : Prop :=
  ∃ signs last, signs.length ≤ maxDepth ∧ u = openingText signs last

example : LeadsToNumber "-(+(".toList := ⟨[some .minus, some .plus], none, by decide, rfl⟩

section
variable {text u v w z rest : List Char} {c : Char} {signs : List (Option Sign)} {last : Option Sign}
  {d d' : Draft}

theorem lead_append (h : ∀ b ∈ u, b.isDigit = false) (v : List Char) :
    lead (u ++ v) = u ++ lead v := by
  refine List.takeWhile_append_of_pos ?_
  intro b hb
  rw [h b hb]
  rfl

theorem lead_cons_of_digit (hc : c.isDigit = true) (v : List Char) : lead (c :: v) = [] := by
  rw [lead, List.takeWhile_cons_of_neg]
  simp [hc]

theorem not_isDigit_of_mem_lead {b : Char} (h : b ∈ lead text) : b.isDigit = false := by
  have hb := List.mem_takeWhile_imp h
  simpa using hb

theorem exists_split_lead (h : ∃ c ∈ text, c.isDigit = true) :
    ∃ c z, text = lead text ++ c :: z ∧ c.isDigit = true := by
  have hsplit : lead text ++ text.dropWhile (fun c => !c.isDigit) = text :=
    List.takeWhile_append_dropWhile
  have hhead := List.head?_dropWhile_not (fun c : Char => !c.isDigit) text
  cases hrest : text.dropWhile fun c => !c.isDigit with
  | nil =>
    obtain ⟨c, hc, hdigit⟩ := h
    rw [hrest, List.append_nil] at hsplit
    rw [← hsplit] at hc
    rw [not_isDigit_of_mem_lead hc] at hdigit
    cases hdigit
  | cons c z =>
    rw [hrest] at hsplit hhead
    exact ⟨c, z, hsplit.symm, by simpa using hhead⟩

/-! ## Drafts without a number -/

theorem openingText_cons (sign : Option Sign) :
    openingText (sign :: signs) last =
      (sign.map Sign.char).toList ++ '(' :: openingText signs last := by
  simp [openingText]

theorem count_openingText : (openingText signs last).count '(' = signs.length := by
  have hsign : ∀ sign : Option Sign, (sign.map Sign.char).toList.count '(' = 0 := by
    rintro (_ | _ | _) <;> rfl
  induction signs with
  | nil => exact hsign last
  | cons sign signs ih =>
    rw [openingText_cons, List.count_append, hsign, List.count_cons_self, ih, List.length_cons]
    omega

namespace Draft

/-- No number is in the draft yet. -/
structure Opening (d : Draft) : Prop where
  levels : ∀ level ∈ d.levels, ∃ sign, level = ⟨.start sign, .start⟩
  point : d.point = .expression ∨ ∃ sign, d.point = .factor (.start sign) .start

theorem Opening.read (h : d.Opening) (hc : c.isDigit = false) (hread : d.read c = some d') :
    d'.Opening := by
  have hfactor : ∀ sign, readFactor d.levels (.start sign) .start c = some d' → d'.Opening := by
    intro sign hd'
    unfold readFactor at hd'
    split at hd'
    · next hdigit =>
      rw [(Symbol.ofChar_eq_digit_iff.1 hdigit).1] at hc
      cases hc
    · cases hd'
      exact ⟨List.forall_mem_cons.2 ⟨⟨sign, rfl⟩, h.levels⟩, .inl rfl⟩
    · cases hd'
  unfold Draft.read at hread
  rcases h.point with hpoint | ⟨sign, hpoint⟩
  · rw [hpoint] at hread
    simp only [readExpression] at hread
    split at hread
    · next sign _ =>
      cases hread
      exact ⟨h.levels, .inr ⟨some sign, rfl⟩⟩
    · exact hfactor none hread
  · rw [hpoint] at hread
    exact hfactor sign hread

theorem Opening.readAll (h : d.Opening) (hv : ∀ b ∈ v, b.isDigit = false)
    (hread : d.readAll v = some d') : d'.Opening := by
  induction v generalizing d with
  | nil =>
    cases hread
    exact h
  | cons c cs ih =>
    obtain ⟨d₁, hd₁, hrest⟩ := Option.bind_eq_some_iff.1 hread
    obtain ⟨hc, hcs⟩ := List.forall_mem_cons.1 hv
    exact ih (h.read hc hd₁) hcs hrest

theorem start_opening : start.Opening := ⟨List.forall_mem_nil _, .inl rfl⟩

theorem Opening.read_closing (h : d.Opening) : d.read ')' = none := by
  obtain ⟨levels, point⟩ := d
  rcases h.point with rfl | ⟨sign, rfl⟩ <;> rfl

theorem Opening.text_eq (h : d.Opening) :
    ∃ signs last, signs.length = d.levels.length ∧ d.text = openingText signs last := by
  obtain ⟨levels, point⟩ := d
  obtain ⟨hlevels, hpoint⟩ := h
  have hopen : ∃ signs, signs.length = levels.length ∧ levelsText levels = openingText signs none := by
    clear hpoint
    induction levels with
    | nil => exact ⟨[], rfl, rfl⟩
    | cons level levels ih =>
      obtain ⟨⟨sign, rfl⟩, houter⟩ := List.forall_mem_cons.1 hlevels
      obtain ⟨signs, hlength, htext⟩ := ih houter
      refine ⟨signs ++ [sign], by simp [hlength], ?_⟩
      simp [levelsText, htext, openingText, SumDraft.text, ProductDraft.text]
  obtain ⟨signs, hlength, htext⟩ := hopen
  rcases hpoint with rfl | ⟨sign, rfl⟩
  · exact ⟨signs, none, hlength, by simp [Draft.text, DraftPoint.text, htext]⟩
  · refine ⟨signs, sign, hlength, ?_⟩
    simp [Draft.text, DraftPoint.text, htext, openingText, SumDraft.text, ProductDraft.text]

/-- Signs and opening parentheses can be read wherever an expression begins. -/
theorem exists_readAll_openingText (levels : List DraftLevel) :
    ∃ d, Draft.readAll ⟨levels, .expression⟩ (openingText signs last) = some d := by
  induction signs generalizing levels with
  | nil => rcases last with _ | _ | _ <;> exact ⟨_, rfl⟩
  | cons sign signs ih =>
    obtain ⟨d, hd⟩ := ih (⟨.start sign, .start⟩ :: levels)
    refine ⟨d, ?_⟩
    rw [openingText_cons]
    rcases sign with _ | _ | _ <;> exact hd

/-- What keeps a draft without a number from reading on to one is the depth limit. -/
theorem Ending.maxDepth_lt {outcome : Outcome} (h : d.Opening) {m : Machine}
    (hstands : Stands (some maxDepth) text w d m)
    (hending : d.Ending (some maxDepth) text w (some c) outcome)
    (htext : visible w ++ c :: z = openingText signs last) : maxDepth < signs.length := by
  obtain ⟨d₂, hd₂⟩ : ∃ d₂, Draft.start.readAll (visible w ++ c :: z) = some d₂ := by
    rw [htext]
    exact exists_readAll_openingText []
  rw [readAll_append, hstands.readAll, Option.bind_some] at hd₂
  obtain ⟨d₁, hd₁, -⟩ := Option.bind_eq_some_iff.1 hd₂
  cases hending with
  | accepted hnext => cases hnext
  | refused hread =>
    rw [hread c rfl] at hd₁
    cases hd₁
  | tooDeep hnext hlimit hdepth =>
    cases hnext
    cases hlimit
    have hcount := congrArg (List.count '(') htext
    rw [count_openingText, List.count_append, List.count_cons_self,
      count_visible rfl w] at hcount
    have hlevels := hstands.count_levels
    omega
  | literalFault hpoint =>
    rcases h.point with hexpression | ⟨sign, hfactor⟩
    · rw [hexpression] at hpoint
      cases hpoint
    · rw [hfactor] at hpoint
      cases hpoint
  | groupFault hnext _ hread =>
    rw [h.read_closing] at hread
    cases hread

end Draft

end

/-! ## Runs without a number -/

def Phase.awaitsNumber : Phase → Bool
  | .expression | .term _ | .factor _ _ => true
  | .literal _ _ _ _ | .operator _ _ _ | .complete _ => false

/-- Rules were entered, and none of them left. -/
def Machine.OnlyEnters (m : Machine) : Prop := ∀ event ∈ m.events, ∃ rule, event = .enter rule

/-- The reading waits for its first number. -/
structure Machine.AwaitsNumber (w : List Char) (m : Machine) : Prop where
  phase : m.phase.awaitsNumber = true
  after : Ledger.After w m.ledger
  entered : m.OnlyEnters

/-- The run fails after the part `w` of the text, before it has left a rule. -/
inductive Run.FailsUnread (w : List Char) : Run → Prop
  | intro {m : Machine} {failure : Failure} (after : Ledger.After w m.ledger)
      (entered : m.OnlyEnters) (hcause : ∀ fault, failure.cause ≠ .arithmetic fault) :
      FailsUnread w (m.fail failure)

section
variable {limit : Option Nat} {next : Option Char} {c : Char} {m m' : Machine} {e : OpenExpression}
  {t : OpenTerm} {xs ys : List Question} {q : Progress} {r : Run} {text u w rest : List Char}

theorem Run.FailsUnread.left (h : r.FailsUnread w) {rule : Rule} {span : Span} {outcome : Outcome}
    (hevent : Event.leave rule span outcome ∈ r.events) :
    outcome = r.outcome ∧ span.stop ≤ byteLength w := by
  obtain ⟨hafter, hentered, -⟩ := h
  rw [Machine.fail_events] at hevent
  rcases List.mem_append.1 hevent with hbefore | hleft
  · obtain ⟨rule', hrule⟩ := hentered _ hbefore
    cases hrule
  · obtain ⟨o, ho, hleave⟩ := List.mem_map.1 hleft
    cases hleave
    exact ⟨rfl, max_le (hafter.placed.start_le ho) hafter.placed.mark.le⟩

namespace Machine

theorem OnlyEnters.enter (h : m.OnlyEnters) {rule : Rule}
    (hevents : m'.events = m.events ++ [.enter rule]) : m'.OnlyEnters := by
  unfold OnlyEnters
  rw [hevents]
  exact List.forall_mem_append.2 ⟨h, List.forall_mem_singleton.2 ⟨rule, rfl⟩⟩

namespace AwaitsNumber

theorem false_of_phase (h : m.AwaitsNumber w) {phase : Phase} (hphase : m.phase = phase)
    (hno : phase.awaitsNumber = false) : False := by
  have hawaits := h.phase
  rw [hphase, hno] at hawaits
  cases hawaits

theorem enterFactor (h : m.AwaitsNumber w) (e : OpenExpression) (t : OpenTerm) (p : Nat) :
    (m.enterFactor e t p).OnlyEnters :=
  h.entered.enter (m.events_enterFactor e t p)

theorem silent (h : m.AwaitsNumber w) (move : SilentMove next (byteLength w) m xs m') :
    xs = [] ∧ m'.AwaitsNumber w := by
  have hafter := (move.after h.after).1
  cases move with
  | enterExpression | enterTerm =>
    exact ⟨rfl, rfl, hafter, h.entered.enter (m.events_record _)⟩
  | leaveLiteral hphase | beside hphase => exact (h.false_of_phase hphase rfl).elim

theorem take (h : m.AwaitsNumber w) (move : TakingMove limit c (byteLength w) m xs m')
    (hc : c.isDigit = false) : xs = [] ∧ m'.AwaitsNumber (w ++ [c]) := by
  have hafter := (move.after h.after).1.after
  cases move with
  | firstSign => exact ⟨rfl, rfl, hafter, h.entered.enter (m.events_record _)⟩
  | @opening e t => exact ⟨rfl, rfl, hafter, h.enterFactor e t (byteLength w)⟩
  | firstDigit _ hdigit =>
    rw [(Symbol.ofChar_eq_digit_iff.1 hdigit).1] at hc
    cases hc
  | nextDigit hphase | scaling hphase | sign hphase | closing hphase | equals hphase =>
    exact (h.false_of_phase hphase rfl).elim

theorem take_digit (h : m.AwaitsNumber w) (move : TakingMove limit c (byteLength w) m xs m')
    (hc : c.isDigit = true) :
    ∃ x, xs = [x] ∧ x.offset = byteLength w ∧ x.interrupted.FailsUnread w := by
  cases move with
  | @firstDigit e t digit hphase =>
    have hafter : Ledger.After w (Question.asked ⟨m.enterFactor e t (byteLength w),
        byteLength w⟩).ledger := after_enterFactor h.after hphase
    exact ⟨_, rfl, rfl, .intro hafter (h.enterFactor e t (byteLength w)) nofun⟩
  | firstSign _ hno | opening _ hno =>
    rw [Symbol.ofChar_digit hc] at hno
    cases hno
  | nextDigit hphase | scaling hphase | sign hphase | closing hphase | equals hphase =>
    exact (h.false_of_phase hphase rfl).elim

theorem final (h : m.AwaitsNumber w) (move : FinalMove limit next (byteLength w) m r) :
    r.FailsUnread w ∧ ∀ digit, Symbol.ofNext next ≠ .digit digit := by
  cases move with
  | refuseFactor hphase hdigit =>
    refine ⟨.intro (after_enterFactor h.after hphase) (h.enterFactor _ _ _) ?_, hdigit⟩
    cases next <;> exact nofun
  | tooDeep hphase hnext =>
    refine ⟨.intro (after_enterFactor h.after hphase) (h.enterFactor _ _ _) nofun, ?_⟩
    rw [hnext]
    exact nofun
  | literalFault hphase | closingFault hphase | stray hphase | refuseEnd hphase | accept hphase
  | acceptComplete hphase | refuseComplete hphase => exact (h.false_of_phase hphase rfl).elim

/-- Silent moves go on waiting, so nothing is asked before the last move of a step. -/
theorem last_move (h : m.AwaitsNumber w) (moves : Moves limit next (byteLength w) m xs q) :
    ∃ m₀ : Machine, m₀.AwaitsNumber w ∧
      ((∃ c m', next = some c ∧ q = .more m' ∧ TakingMove limit c (byteLength w) m₀ xs m') ∨
        ∃ r, xs = [] ∧ q = .ended r ∧ FinalMove limit next (byteLength w) m₀ r) := by
  induction moves with
  | silent move _ ih =>
    obtain ⟨rfl, hm⟩ := h.silent move
    exact ih hm
  | take hnext move => exact ⟨_, h, .inl ⟨_, _, hnext, rfl, move⟩⟩
  | final move => exact ⟨_, h, .inr ⟨_, rfl, rfl, move⟩⟩

theorem more (h : m.AwaitsNumber w)
    (moves : Moves limit (some c) (byteLength w) m xs (.more m')) (hc : c.isDigit = false) :
    xs = [] ∧ m'.AwaitsNumber (w ++ [c]) := by
  obtain ⟨m₀, h₀, ⟨c', m'', hnext, hq, move⟩ | ⟨r, -, hq, -⟩⟩ := h.last_move moves
  · cases hnext
    cases hq
    exact h₀.take move hc
  · cases hq

theorem more_digit (h : m.AwaitsNumber w) (moves : Moves limit (some c) (byteLength w) m xs q)
    (hc : c.isDigit = true) :
    ∃ x, xs = [x] ∧ x.offset = byteLength w ∧ x.interrupted.FailsUnread w := by
  obtain ⟨m₀, h₀, ⟨c', m', hnext, -, move⟩ | ⟨r, -, -, move⟩⟩ := h.last_move moves
  · cases hnext
    exact h₀.take_digit move hc
  · exact absurd (Symbol.ofChar_digit hc) ((h₀.final move).2 _)

theorem ended (h : m.AwaitsNumber w) (moves : Moves limit next (byteLength w) m xs (.ended r)) :
    xs = [] ∧ r.FailsUnread w := by
  obtain ⟨m₀, h₀, ⟨c, m', -, hq, -⟩ | ⟨r', hxs, hq, move⟩⟩ := h.last_move moves
  · cases hq
  · cases hq
    exact ⟨hxs, (h₀.final move).1⟩

end AwaitsNumber

end Machine

theorem Path.awaitsNumber (path : Path limit w xs m) (hw : ∀ b ∈ w, b.isDigit = false) :
    xs = [] ∧ m.AwaitsNumber w := by
  induction path with
  | start => exact ⟨rfl, rfl, .start, List.forall_mem_nil _⟩
  | @skip w xs m c path hc ih =>
    obtain ⟨rfl, hm⟩ := ih (List.forall_mem_append.1 hw).1
    exact ⟨rfl, hm.phase, hm.after.skip path.ledger.1.taken hc, hm.entered⟩
  | read path hc moves hread ih =>
    obtain ⟨hbefore, hlast⟩ := List.forall_mem_append.1 hw
    obtain ⟨rfl, hm⟩ := ih hbefore
    exact hm.more moves (hlast _ (List.mem_singleton_self _))

theorem Stands.leadsToNumber {d : Draft} (h : Stands (some maxDepth) text w d m)
    (hw : ∀ b ∈ w, b.isDigit = false) : LeadsToNumber (visible w) := by
  have hvisible : ∀ b ∈ visible w, b.isDigit = false := fun b hb => hw b (List.mem_of_mem_filter hb)
  obtain ⟨signs, last, hlength, htext⟩ :=
    (Draft.start_opening.readAll hvisible h.readAll).text_eq
  refine ⟨signs, last, ?_, h.tracks.text_eq.trans htext⟩
  rw [hlength]
  exact d.length_levels_le_depth.trans (h.depth_le maxDepth rfl)

/-- A course that reads a digit asks its first question at the first one. -/
theorem Course.stops_at_number (h : Course (some maxDepth) text w rest xs m ys r)
    (hw : ∃ c ∈ w, c.isDigit = true) :
    ∃ x more, xs ++ ys = x :: more ∧ x.offset = byteLength (lead text) ∧
      x.interrupted.FailsUnread (lead text) ∧ LeadsToNumber (visible (lead text)) := by
  obtain ⟨c, z, hsplit, hc⟩ := exists_split_lead hw
  have hunread : ∀ b ∈ lead w, b.isDigit = false := fun b hb => not_isDigit_of_mem_lead hb
  have htext : text = lead w ++ c :: (z ++ rest) := by
    rw [h.text_eq, ← List.cons_append, ← List.append_assoc, ← hsplit]
  have hlead : lead text = lead w := by
    rw [htext, lead_append hunread, lead_cons_of_digit hc, List.append_nil]
  have hpath := h.path
  rw [hsplit] at hpath
  obtain ⟨xs', m₀, ys', m₁, hu, hmoves, more, hxs⟩ := hpath.exists_read (isIgnored_of_isDigit hc)
  obtain ⟨rfl, hm₀⟩ := hu.awaitsNumber hunread
  obtain ⟨x, rfl, hoffset, hfails⟩ := hm₀.more_digit hmoves hc
  obtain ⟨d, hstands⟩ := hu.stands htext
  rw [hlead]
  exact ⟨x, more ++ ys, by rw [← hxs]; rfl, hoffset, hfails, hstands.leadsToNumber hunread⟩

/-- A course that reads no digit asks nothing, and a number could not come where it fails. -/
theorem Course.fails_before_number (h : Course (some maxDepth) text w rest xs m ys r)
    (hw : ∀ b ∈ w, b.isDigit = false) :
    xs ++ ys = [] ∧ r.FailsUnread w ∧
      ((∃ c ∈ text, c.isDigit = true) → ¬ LeadsToNumber (visible (lead text))) := by
  obtain ⟨rfl, hm⟩ := h.path.awaitsNumber hw
  obtain ⟨rfl, hr⟩ := hm.ended h.moves
  refine ⟨rfl, hr, ?_⟩
  rintro ⟨c, hc, hdigit⟩ ⟨signs, last, hlength, hleads⟩
  rw [h.text_eq, lead_append hw, visible_append] at hleads
  cases hrest : rest with
  | nil =>
    rw [h.text_eq, hrest, List.append_nil] at hc
    rw [hw c hc] at hdigit
    cases hdigit
  | cons b rest =>
    have hmoves := h.moves
    rw [hrest] at hleads hmoves
    have hb : isIgnored b = false := h.head b (by rw [hrest]; rfl)
    by_cases hbdigit : b.isDigit = true
    · -- the step that reads a digit asks first, but this course asks nothing
      obtain ⟨x, hx, -⟩ := hm.more_digit hmoves hbdigit
      cases hx
    · obtain ⟨d, hstands, hending⟩ := h.ending
      have hopening := Draft.start_opening.readAll
        (fun b hb => hw b (List.mem_of_mem_filter hb)) hstands.readAll
      have hlead : lead (b :: rest) = b :: lead rest := by simp [lead, hbdigit]
      rw [hlead, visible_cons_of_visible _ hb] at hleads
      rw [hrest] at hending
      have hlt := Draft.Ending.maxDepth_lt hopening hstands hending hleads
      omega

end

/-! ## Flags that are up -/

/-- The flag is up at the beginning of the run and after each of its events. -/
def Schedule.HoldsUp (schedule : Schedule) (flag : Bool) (run : Run) : Prop :=
  ∀ count ≤ run.events.length, schedule.pressAll flag count = true

/-- With the flag up the first question of a course stops it. -/
theorem Course.run_of_holdsUp {text : String} {w rest : List Char} {xs ys : List Question}
    {m : Machine} {r : Run} {schedule : Schedule} {flag : Bool}
    (h : Course (some maxDepth) text.toList w rest xs m ys r)
    (hup : schedule.HoldsUp flag (runScheduled schedule flag text)) :
    runScheduled schedule flag text = (Signal.constant true).settle (xs ++ ys) r := by
  have hrun : runScheduled schedule flag text = (schedule.signal flag).settle (xs ++ ys) r :=
    h.run (schedule.signal flag)
  have hordered := h.ordered
  have hprefix := h.question_prefix
  cases hquestions : xs ++ ys with
  | nil =>
    rw [hrun, hquestions]
    rfl
  | cons x more =>
    rw [hquestions] at hrun hordered hprefix
    -- wherever the run ends, the events before the first question have come
    have hknown : x.machine.events <+: (runScheduled schedule flag text).events := by
      rw [hrun]
      rcases (schedule.signal flag).settle_cases (x :: more) r with hr | ⟨y, hy, hr⟩
      · rw [hr]
        exact hprefix x (List.mem_cons_self ..)
      · rw [hr]
        rcases List.mem_cons.1 hy with rfl | hmore
        · exact y.asked_events
        · exact ((List.pairwise_cons.1 hordered).1 y hmore).events.trans y.asked_events
    have hstop : schedule.signal flag x.asked.journal = true := by
      rw [Schedule.signal, x.asked_size, schedule.flagAfter_eq_pressAll]
      exact hup _ hknown.length_le
    rw [hrun]
    simp [Signal.settle, Signal.firstStop, Signal.constant, hstop]

/-- The run fails, not over a number, and leaves every rule with its failure and before the first
digit of the text. -/
structure Run.ReadsNoDigit (text : List Char) (run : Run) : Prop where
  failed : ∃ failure, run.outcome = .failure failure ∧ ∀ fault, failure.cause ≠ .arithmetic fault
  left : ∀ rule span outcome, Event.leave rule span outcome ∈ run.events →
    outcome = run.outcome ∧ span.stop ≤ byteLength (lead text)

theorem Run.FailsUnread.readsNoDigit {run : Run} {text w : List Char} (h : run.FailsUnread w)
    (hw : byteLength w ≤ byteLength (lead text)) : run.ReadsNoDigit text where
  failed := by
    obtain ⟨_, _, hcause⟩ := h
    exact ⟨_, rfl, hcause⟩
  left := by
    intro rule span outcome hevent
    obtain ⟨houtcome, hstop⟩ := h.left hevent
    exact ⟨houtcome, hstop.trans hw⟩

/-- With the flag up from the beginning no run gets past a digit. It is interrupted at the first digit
if a number may come there, and else it fails as the run that is never stopped does. -/
theorem runScheduled_raised {schedule : Schedule} {flag : Bool} {text : String}
    (hup : schedule.HoldsUp flag (runScheduled schedule flag text)) :
    (runScheduled schedule flag text).ReadsNoDigit text.toList ∧
      ((∃ c ∈ text.toList, c.isDigit = true) ∧ LeadsToNumber (visible (lead text.toList)) →
        (runScheduled schedule flag text).outcome =
          .failure ⟨.interrupt, .emptyAt (byteLength (lead text.toList))⟩) ∧
      (¬((∃ c ∈ text.toList, c.isDigit = true) ∧ LeadsToNumber (visible (lead text.toList))) →
        runScheduled schedule flag text = runSteady false text) := by
  obtain ⟨w, rest, xs, m, ys, r, hcourse⟩ := exists_course (some maxDepth) text.toList
  have hrun := hcourse.run_of_holdsUp hup
  by_cases hw : ∃ c ∈ w, c.isDigit = true
  · obtain ⟨x, more, hquestions, hoffset, hfails, hleads⟩ := hcourse.stops_at_number hw
    have hx : runScheduled schedule flag text = x.interrupted := by
      rw [hrun, hquestions]
      rfl
    obtain ⟨c, hc, hdigit⟩ := hw
    have hmem : c ∈ text.toList := by
      rw [hcourse.text_eq]
      exact List.mem_append_left _ hc
    rw [hx]
    refine ⟨hfails.readsNoDigit le_rfl, fun _ => ?_, fun hno => ?_⟩
    · rw [← hoffset]
      rfl
    · exact absurd ⟨⟨c, hmem, hdigit⟩, hleads⟩ hno
  · have hunread : ∀ b ∈ w, b.isDigit = false := by
      intro b hb
      by_contra hdigit
      exact hw ⟨b, hb, Bool.not_eq_false _ ▸ hdigit⟩
    obtain ⟨hquestions, hfails, hno⟩ := hcourse.fails_before_number hunread
    have hr : runScheduled schedule flag text = r := by
      rw [hrun, hquestions]
      rfl
    have hle : byteLength w ≤ byteLength (lead text.toList) := by
      rw [hcourse.text_eq, lead_append hunread, byteLength_append]
      omega
    rw [hr]
    refine ⟨hfails.readsNoDigit hle, fun hnumber => ?_, fun _ => hcourse.runSteady_eq.symm⟩
    exact absurd hnumber.2 (hno hnumber.1)

/-- Two groups are entered, and the run stops before the digit in them; the schedule would clear the flag
after event 50, which does not come. -/
theorem runScheduled_raised_of_groups :
    (({ raiseAt := some 2, clearAt := some 50 } : Schedule).HoldsUp true
        (runScheduled { raiseAt := some 2, clearAt := some 50 } true "-( + x(1)/0)") ∧
      ((∃ c ∈ "-( + x(1)/0)".toList, c.isDigit = true) ∧
        LeadsToNumber (visible (lead "-( + x(1)/0)".toList)))) ∧
    (runScheduled { raiseAt := some 2, clearAt := some 50 } true "-( + x(1)/0)").outcome =
      .failure ⟨.interrupt, .emptyAt 7⟩ :=
  have hup : ({ raiseAt := some 2, clearAt := some 50 } : Schedule).HoldsUp true
      (runScheduled { raiseAt := some 2, clearAt := some 50 } true "-( + x(1)/0)") := by
    unfold Schedule.HoldsUp
    decide
  have hnumber : (∃ c ∈ "-( + x(1)/0)".toList, c.isDigit = true) ∧
      LeadsToNumber (visible (lead "-( + x(1)/0)".toList)) :=
    ⟨⟨'1', by decide, rfl⟩, [some .minus, some .plus], none, by decide, by rfl⟩
  ⟨⟨hup, hnumber⟩, (runScheduled_raised hup).2.1 hnumber⟩

end ExactCalculator
