import ExactCalculator.Proofs.Machine.Paths
import Mathlib.Order.Monotone.Basic

/-! Runs that differ in their offsets only. The machine never computes with offsets beyond going past
the character that it reads and taking the later of two; so if a monotone map carries the offset of
the next character, and the one after it, over to another text, it carries the whole step over
(`read_relocate`), and from step to step the whole run (`run_relocate`). The other text may lack
ignored characters. Answers to polls must not depend on offsets either. -/
namespace ExactCalculator
set_option autoImplicit false

/-! ## Relocating -/

section
variable (f : Nat → Nat)

def Span.relocate (span : Span) : Span := ⟨f span.start, f span.stop⟩

def Failure.relocate (failure : Failure) : Failure := ⟨failure.cause, failure.span.relocate f⟩

def Outcome.relocate : Outcome → Outcome
  | .value v => .value v
  | .failure x => .failure (x.relocate f)

def Event.relocate : Event → Event
  | enter rule => enter rule
  | leave rule span outcome => leave rule (span.relocate f) (outcome.relocate f)

def Poll.relocate (poll : Poll) : Poll := ⟨f poll.offset, poll.eventsBefore⟩

def Journal.relocate (journal : Journal) : Journal :=
  ⟨journal.events.map (Event.relocate f), journal.polls.map (Poll.relocate f)⟩

/-- The run with every offset in it mapped. Rules, values, causes and their order stay. -/
def Run.relocate (run : Run) : Run := ⟨run.outcome.relocate f, run.journal.relocate f⟩

def OpenExpression.relocate (e : OpenExpression) : OpenExpression := ⟨f e.start, e.sum⟩

def OpenTerm.relocate (t : OpenTerm) : OpenTerm := ⟨f t.start, t.product⟩

def OpenRule.relocate (r : OpenRule) : OpenRule := ⟨r.rule, f r.start⟩

def Level.relocate (level : Level) : Level :=
  ⟨level.expression.relocate f, level.term.relocate f, f level.start⟩

def Phase.relocate : Phase → Phase
  | expression => expression
  | term e => term (e.relocate f)
  | factor e t => factor (e.relocate f) (t.relocate f)
  | literal e t start value => literal (e.relocate f) (t.relocate f) (f start) value
  | operator e termStart value => operator (e.relocate f) (f termStart) value
  | complete value => complete value

def Machine.relocate (m : Machine) : Machine :=
  ⟨m.journal.relocate f, f m.mark, m.stack.map (Level.relocate f), m.phase.relocate f⟩

def Progress.relocate : Progress → Progress
  | more m => more (m.relocate f)
  | ended run => ended (run.relocate f)

end

/-- The map carries the offset of the next character, and of its end, over to another text. -/
structure Carries (f : Nat → Nat) (next : Option Char) (p : Nat) : Prop where
  mono : Monotone f
  next : ∀ c, next = some c → f (p + c.utf8Size) = f p + c.utf8Size

variable {f : Nat → Nat} {policy : Policy} {next : Option Char} {p : Nat}

/-- Characters with a meaning take one byte. -/
theorem Carries.symbol (h : Carries f next p) (hstray : Symbol.ofNext next ≠ .stray)
    (hending : Symbol.ofNext next ≠ .ending) : f (p + 1) = f p + 1 := by
  cases next with
  | none => exact absurd rfl hending
  | some c =>
    have hsize := (Symbol.visible_of_ofChar_ne_stray hstray).2
    have hnext := h.next c rfl
    rwa [hsize] at hnext

/-! ## Reports -/

@[simp] theorem Journal.record_relocate (journal : Journal) (event : Event) :
    (journal.record event).relocate f = (journal.relocate f).record (event.relocate f) := by
  simp [relocate, record]

@[simp] theorem Journal.ask_relocate (journal : Journal) (offset : Nat) :
    (journal.ask offset).relocate f = (journal.relocate f).ask (f offset) := by
  simp [relocate, ask, Poll.relocate]

namespace Machine

theorem openRules_relocate (m : Machine) :
    (m.relocate f).openRules = m.openRules.map (OpenRule.relocate f) := by
  have hphase : (m.phase.relocate f).openRules = m.phase.openRules.map (OpenRule.relocate f) := by
    cases m.phase <;> rfl
  have hstack : (m.stack.map (Level.relocate f)).flatMap Level.openRules =
      (m.stack.flatMap Level.openRules).map (OpenRule.relocate f) := by
    rw [List.flatMap_map, List.map_flatMap]
    rfl
  rw [openRules, openRules, List.map_append, ← hphase, ← hstack]
  rfl

theorem spanFrom_relocate (hf : Monotone f) (m : Machine) (start : Nat) :
    (m.relocate f).spanFrom (f start) = (m.spanFrom start).relocate f := by
  have hmax : max (f start) (f m.mark) = f (max start m.mark) := (hf.map_max ..).symm
  simp only [spanFrom, Span.relocate, relocate, hmax]

theorem enter_relocate (m : Machine) (rule : Rule) :
    (m.enter rule).relocate f = (m.relocate f).enter rule := by
  simp [relocate, enter, Event.relocate]

theorem leave_relocate (hf : Monotone f) (m : Machine) (rule : Rule) (start : Nat)
    (outcome : Outcome) :
    (m.leave rule start outcome).relocate f =
      (m.relocate f).leave rule (f start) (outcome.relocate f) := by
  rw [leave, leave, spanFrom_relocate hf]
  simp [relocate, Event.relocate]

theorem take_relocate (m : Machine) (mark : Nat) (phase : Phase) :
    (m.take mark phase).relocate f = (m.relocate f).take (f mark) (phase.relocate f) := rfl

theorem fail_relocate (hf : Monotone f) (m : Machine) (failure : Failure) :
    (m.relocate f).fail (failure.relocate f) = (m.fail failure).relocate f := by
  have hleave : ∀ (rules : List OpenRule) (m : Machine),
      (rules.map (OpenRule.relocate f)).foldl
          (fun m r => m.leave r.rule r.start (.failure (failure.relocate f))) (m.relocate f) =
        (rules.foldl (fun m r => m.leave r.rule r.start (.failure failure)) m).relocate f := by
    intro rules
    induction rules with
    | nil => exact fun _ => rfl
    | cons r rest ih =>
      intro m
      rw [List.map_cons, List.foldl_cons, List.foldl_cons, ← ih, leave_relocate hf]
      rfl
  simp only [fail, openRules_relocate, hleave]
  rfl

theorem refuse_relocate (h : Carries f next p) (m : Machine) :
    (m.relocate f).refuse next (f p) = (m.refuse next p).relocate f := by
  have hfailure : Failure.atNext next (f p) = (Failure.atNext next p).relocate f := by
    cases next with
    | none => rfl
    | some c =>
      simp only [Failure.atNext, Failure.relocate, Span.ofChar, Span.relocate, h.next c rfl]
  rw [refuse, refuse, hfailure, fail_relocate h.mono]
  rfl

end Machine

/-! ## Polls -/

/-- Answers to polls that do not depend on offsets. -/
def Policy.IgnoresOffsets (policy : Policy) (f : Nat → Nat) : Prop :=
  ∀ journal : Journal, policy.signal (journal.relocate f) = policy.signal journal

theorem Progress.andThen_relocate {goOn goOn' : Machine → Progress}
    (h : ∀ m, goOn' (m.relocate f) = (goOn m).relocate f) (q : Progress) :
    (q.relocate f).andThen goOn' = (q.andThen goOn).relocate f := by
  cases q with
  | more m => exact h m
  | ended run => rfl

namespace Machine

theorem poll_relocate (hf : Monotone f) (hpolicy : policy.IgnoresOffsets f) (m : Machine)
    (offset : Nat) : (m.relocate f).poll policy (f offset) = (m.poll policy offset).relocate f := by
  have hasked : ({ m.relocate f with journal := (m.relocate f).journal.ask (f offset) } : Machine) =
      relocate f { m with journal := m.journal.ask offset } := by
    simp [relocate]
  have hfail := fail_relocate hf { m with journal := m.journal.ask offset }
    ⟨.interrupt, .emptyAt offset⟩
  have hsignal := hpolicy (m.journal.ask offset)
  rw [poll, poll, hasked]
  show (if policy.signal ((m.journal.ask offset).relocate f) = true then _ else _) = _
  rw [hsignal]
  split
  · exact congrArg Progress.ended hfail
  · rfl

/-! ## Steps -/

theorem readDigit_relocate (h : Carries f next p) (hpolicy : policy.IgnoresOffsets f)
    (hp : f (p + 1) = f p + 1) (m : Machine) (e : OpenExpression) (t : OpenTerm)
    (start value digit : Nat) :
    (m.relocate f).readDigit policy (e.relocate f) (t.relocate f) (f start) value digit (f p) =
      (m.readDigit policy e t start value digit p).relocate f := by
  rw [readDigit, readDigit, poll_relocate h.mono hpolicy]
  refine Progress.andThen_relocate ?_ _
  intro m
  rw [← hp]
  rfl

theorem enterFactor_relocate (m : Machine) (e : OpenExpression) (t : OpenTerm) (p : Nat) :
    (m.enterFactor e t p).relocate f =
      (m.relocate f).enterFactor (e.relocate f) (t.relocate f) (f p) := by
  simp [relocate, enterFactor, enter, Event.relocate, Phase.relocate]

theorem readFactor_eq (policy : Policy) (m : Machine) (e : OpenExpression) (t : OpenTerm)
    (next : Option Char) (p : Nat) :
    m.readFactor policy e t next p =
      match Symbol.ofNext next with
      | .digit digit => (m.enterFactor e t p).readDigit policy e t p 0 digit p
      | .opening =>
        if policy.admits m.stack.length then
          .more { (m.enterFactor e t p).take (p + 1) .expression with
            stack := ⟨e, t, p⟩ :: m.stack }
        else .ended ((m.enterFactor e t p).fail ⟨.tooDeep, .ofChar '(' p⟩)
      | _ => (m.enterFactor e t p).refuse next p := rfl

theorem readFactor_relocate (h : Carries f next p) (hpolicy : policy.IgnoresOffsets f)
    (m : Machine) (e : OpenExpression) (t : OpenTerm) :
    (m.relocate f).readFactor policy (e.relocate f) (t.relocate f) next (f p) =
      (m.readFactor policy e t next p).relocate f := by
  rw [readFactor_eq, readFactor_eq, ← enterFactor_relocate]
  cases hs : Symbol.ofNext next with
  | digit digit => exact readDigit_relocate h hpolicy (h.symbol (by simp [hs]) (by simp [hs])) ..
  | opening =>
    have hp : f (p + 1) = f p + 1 := h.symbol (by simp [hs]) (by simp [hs])
    have hlength : (m.relocate f).stack.length = m.stack.length := List.length_map ..
    simp only [hlength]
    split
    · rw [← hp]
      rfl
    · have hfailure : (⟨.tooDeep, .ofChar '(' (f p)⟩ : Failure) =
          Failure.relocate f ⟨.tooDeep, .ofChar '(' p⟩ := by
        have hsize : '('.utf8Size = 1 := rfl
        simp only [Failure.relocate, Span.ofChar, Span.relocate, hsize, hp]
      rw [hfailure, fail_relocate h.mono]
      rfl
  | sign | scaling | closing | equals | stray | ending =>
    exact refuse_relocate h (m.enterFactor e t p)

theorem readTerm_relocate (h : Carries f next p) (hpolicy : policy.IgnoresOffsets f)
    (m : Machine) (e : OpenExpression) :
    (m.relocate f).readTerm policy (e.relocate f) next (f p) =
      (m.readTerm policy e next p).relocate f := by
  have hterm := readFactor_relocate h hpolicy
    { m.enter .term with phase := .factor e ⟨p, .start⟩ } e ⟨p, .start⟩
  rw [readTerm, readTerm, ← hterm]
  congr 1
  simp [relocate, enter, Event.relocate, Phase.relocate, OpenTerm.relocate]

theorem readExpression_relocate (h : Carries f next p) (hpolicy : policy.IgnoresOffsets f)
    (m : Machine) :
    (m.relocate f).readExpression policy next (f p) =
      (m.readExpression policy next p).relocate f := by
  have hfirst := readTerm_relocate h hpolicy (m.enter .expression) ⟨p, .start .plus⟩
  rw [enter_relocate] at hfirst
  unfold readExpression
  cases hs : Symbol.ofNext next with
  | sign sign =>
    have hp : f (p + 1) = f p + 1 := h.symbol (by simp [hs]) (by simp [hs])
    simp only [Progress.relocate, take_relocate, enter_relocate, hp]
    rfl
  | digit | scaling | opening | closing | equals | stray | ending => exact hfirst

theorem leaveFactor_relocate (hf : Monotone f) (m : Machine) (start : Nat) (value : Fraction)
    (phase : Phase) :
    (m.leaveFactor start value phase).relocate f =
      (m.relocate f).leaveFactor (f start) value (phase.relocate f) := by
  have hleave : (m.leave .factor start (.value value)).relocate f =
      (m.relocate f).leave .factor (f start) (.value value) := leave_relocate hf m ..
  rw [leaveFactor, leaveFactor, ← hleave]
  rfl

theorem closeFactor_eq (policy : Policy) (m : Machine) (e : OpenExpression) (t : OpenTerm)
    (start : Nat) (value : Fraction) (p : Nat) (goOn : Fraction → Machine → Progress) :
    m.closeFactor policy e t start value p goOn =
      match t.product.join value with
      | .ok product =>
        ((m.leaveFactor start value (.operator e t.start product)).poll policy p).andThen
          (goOn product)
      | .error fault =>
        .ended ((m.leaveFactor start value (.factor e t)).fail
          ⟨.arithmetic fault, m.spanFrom start⟩) := rfl

theorem closeFactor_relocate (hf : Monotone f) (hpolicy : policy.IgnoresOffsets f)
    (goOn goOn' : Fraction → Machine → Progress)
    (hgoOn : ∀ product m, goOn' product (m.relocate f) = (goOn product m).relocate f)
    (m : Machine) (e : OpenExpression) (t : OpenTerm) (start : Nat) (value : Fraction) (p : Nat) :
    (m.relocate f).closeFactor policy (e.relocate f) (t.relocate f) (f start) value (f p) goOn' =
      (m.closeFactor policy e t start value p goOn).relocate f := by
  have hproduct : (t.relocate f).product = t.product := rfl
  rw [closeFactor_eq, closeFactor_eq, hproduct]
  cases t.product.join value with
  | ok product =>
    have hleave := leaveFactor_relocate hf m start value (.operator e t.start product)
    have hpoll := poll_relocate hf hpolicy (m.leaveFactor start value (.operator e t.start product)) p
    rw [hleave] at hpoll
    exact (congrArg (Progress.andThen · (goOn' product)) hpoll).trans
      (Progress.andThen_relocate (hgoOn product) _)
  | error fault =>
    have hleave := leaveFactor_relocate hf m start value (.factor e t)
    have hfail := fail_relocate hf (m.leaveFactor start value (.factor e t))
      ⟨.arithmetic fault, m.spanFrom start⟩
    rw [hleave, Failure.relocate, ← spanFrom_relocate hf] at hfail
    exact congrArg Progress.ended hfail

/-! ## The end of a term and an expression -/

theorem leaveExpression_relocate (hf : Monotone f) (m : Machine) (e : OpenExpression)
    (termStart : Nat) (value : Fraction) :
    (m.leaveExpression e termStart value).relocate f =
      (m.relocate f).leaveExpression (e.relocate f) (f termStart) value := by
  have hterm : (m.leave .term termStart (.value value)).relocate f =
      (m.relocate f).leave .term (f termStart) (.value value) := leave_relocate hf m ..
  have hexpression := leave_relocate hf (m.leave .term termStart (.value value)) .expression e.start
    (.value (e.sum.join value))
  rw [hterm] at hexpression
  exact congrArg
    (fun m : Machine => { m with phase := .complete (e.sum.join value) }) hexpression

theorem popLevel_relocate (hf : Monotone f) (m : Machine) (e : OpenExpression) (termStart : Nat)
    (value : Fraction) (rest : List Level) (mark : Nat) :
    (m.popLevel e termStart value rest mark).relocate f =
      (m.relocate f).popLevel (e.relocate f) (f termStart) value (rest.map (Level.relocate f))
        (f mark) := by
  have hleave := leaveExpression_relocate hf m e termStart value
  exact congrArg
    (fun m : Machine => { m with mark := f mark, stack := rest.map (Level.relocate f) }) hleave

theorem closeExpression_relocate (h : Carries f next p) (hpolicy : policy.IgnoresOffsets f)
    (m : Machine) (e : OpenExpression) (termStart : Nat) (value : Fraction) :
    ((m.relocate f).leave .term (f termStart) (.value value)).closeExpression policy
        (e.relocate f) ((e.relocate f).sum.join value) next (f p) =
      ((m.leave .term termStart (.value value)).closeExpression policy e (e.sum.join value)
        next p).relocate f := by
  have hleave := leaveExpression_relocate h.mono m e termStart value
  have hrefuse := refuse_relocate h (m.leaveExpression e termStart value)
  rw [hleave] at hrefuse
  have hstack : (m.relocate f).stack = m.stack.map (Level.relocate f) := rfl
  rw [closeExpression_eq, closeExpression_eq, hstack]
  cases m.stack with
  | nil =>
    cases hs : Symbol.ofNext next with
    | equals =>
      have hp : f (p + 1) = f p + 1 := h.symbol (by simp [hs]) (by simp [hs])
      simp only [List.map_nil, Progress.relocate, take_relocate, hleave, hp]
      rfl
    | ending =>
      simp only [List.map_nil, Progress.relocate, Run.relocate, ← hleave]
      rfl
    | digit | sign | scaling | opening | closing | stray => exact hrefuse
  | cons level rest =>
    cases hs : Symbol.ofNext next with
    | closing =>
      have hp : f (p + 1) = f p + 1 := h.symbol (by simp [hs]) (by simp [hs])
      have hclose := closeFactor_relocate h.mono hpolicy (fun _ m => .more m)
        (fun _ m => .more m) (fun _ _ => rfl) (m.popLevel e termStart value rest (p + 1))
        level.expression level.term level.start (e.sum.join value) (p + 1)
      rw [popLevel_relocate h.mono, hp] at hclose
      exact hclose
    | digit | sign | scaling | opening | equals | stray | ending => exact hrefuse

theorem closeTerm_relocate (h : Carries f next p) (hpolicy : policy.IgnoresOffsets f)
    (m : Machine) (e : OpenExpression) (termStart : Nat) (value : Fraction) :
    (m.relocate f).closeTerm policy (e.relocate f) (f termStart) value next (f p) =
      (m.closeTerm policy e termStart value next p).relocate f := by
  have hclose := closeExpression_relocate h hpolicy m e termStart value
  unfold closeTerm
  cases hs : Symbol.ofNext next with
  | sign sign =>
    have hp : f (p + 1) = f p + 1 := h.symbol (by simp [hs]) (by simp [hs])
    have hleave : (m.leave .term termStart (.value value)).relocate f =
        (m.relocate f).leave .term (f termStart) (.value value) := leave_relocate h.mono m ..
    simp only [Progress.relocate, take_relocate, hleave, hp]
    rfl
  | digit | scaling | opening | closing | equals | stray | ending => exact hclose

theorem readOperator_relocate (h : Carries f next p) (hpolicy : policy.IgnoresOffsets f)
    (m : Machine) (e : OpenExpression) (termStart : Nat) (value : Fraction) :
    (m.relocate f).readOperator policy (e.relocate f) (f termStart) value next (f p) =
      (m.readOperator policy e termStart value next p).relocate f := by
  unfold readOperator
  cases hs : Symbol.ofNext next with
  | digit | opening =>
    exact readFactor_relocate h hpolicy m e ⟨termStart, .after value .multiply⟩
  | scaling scaling =>
    have hp : f (p + 1) = f p + 1 := h.symbol (by simp [hs]) (by simp [hs])
    simp only [Progress.relocate, take_relocate, hp]
    rfl
  | stray => exact refuse_relocate h m
  | sign | closing | equals | ending => exact closeTerm_relocate h hpolicy m e termStart value

theorem readLiteral_relocate (h : Carries f next p) (hpolicy : policy.IgnoresOffsets f)
    (m : Machine) (e : OpenExpression) (t : OpenTerm) (start value : Nat) :
    (m.relocate f).readLiteral policy (e.relocate f) (t.relocate f) (f start) value next (f p) =
      (m.readLiteral policy e t start value next p).relocate f := by
  have hclose := closeFactor_relocate h.mono hpolicy
    (fun product m => m.readOperator policy e t.start product next p)
    (fun product m => m.readOperator policy (e.relocate f) (f t.start) product next (f p))
    (fun product m => readOperator_relocate h hpolicy m e t.start product) m e t start
    (.ofInt value) p
  unfold readLiteral
  cases hs : Symbol.ofNext next with
  | digit digit =>
    have hp : f (p + 1) = f p + 1 := h.symbol (by simp [hs]) (by simp [hs])
    exact readDigit_relocate h hpolicy hp m e t start value digit
  | sign | scaling | opening | closing | equals | stray | ending => exact hclose

theorem readRest_relocate (h : Carries f next p) (m : Machine) (value : Fraction) :
    (m.relocate f).readRest value next (f p) = (m.readRest value next p).relocate f := by
  unfold readRest
  cases hs : Symbol.ofNext next with
  | ending => rfl
  | digit | sign | scaling | opening | closing | equals | stray => exact refuse_relocate h m

/-- A map of offsets that carries the next character over carries the step over. -/
theorem read_relocate (h : Carries f next p) (hpolicy : policy.IgnoresOffsets f) (m : Machine) :
    (m.relocate f).read policy next (f p) = (m.read policy next p).relocate f := by
  have hphase : (m.relocate f).phase = m.phase.relocate f := rfl
  rw [read, read, hphase]
  cases m.phase with
  | expression => exact readExpression_relocate h hpolicy m
  | term e => exact readTerm_relocate h hpolicy m e
  | factor e t => exact readFactor_relocate h hpolicy m e t
  | literal e t start value => exact readLiteral_relocate h hpolicy m e t start value
  | operator e termStart value => exact readOperator_relocate h hpolicy m e termStart value
  | complete value => exact readRest_relocate h m value

end Machine

/-! ## Runs -/

/-- The map carries the characters of a text, which begins at an offset, over to another text. The
other text may lack ignored characters. -/
inductive CarriesText (f : Nat → Nat) : Nat → List Char → List Char → Prop
  | nil (p : Nat) : CarriesText f p [] []
  | keep {p : Nat} {c : Char} {cs cs' : List Char} (hc : f (p + c.utf8Size) = f p + c.utf8Size)
      (rest : CarriesText f (p + c.utf8Size) cs cs') : CarriesText f p (c :: cs) (c :: cs')
  | drop {p : Nat} {c : Char} {cs cs' : List Char} (hignored : isIgnored c = true)
      (hc : f (p + c.utf8Size) = f p) (rest : CarriesText f (p + c.utf8Size) cs cs') :
      CarriesText f p (c :: cs) cs'

/-- A map of offsets that carries a text over to another carries the run over. -/
theorem Machine.run_relocate {text text' : List Char} (hf : Monotone f)
    (hpolicy : policy.IgnoresOffsets f) (h : CarriesText f p text text') (m : Machine) :
    (m.relocate f).run policy (f p) text' = (m.run policy p text).relocate f := by
  induction h generalizing m with
  | nil p =>
    have hcarries : Carries f none p := ⟨hf, nofun⟩
    have hread := read_relocate hcarries hpolicy m
    obtain ⟨run, hrun⟩ := m.read_none policy p
    rw [hrun] at hread
    simp only [Machine.run, hread, hrun, Progress.relocate]
  | @keep p c cs cs' hc rest ih =>
    cases hignored : isIgnored c with
    | true => rw [run_of_ignored hignored, run_of_ignored hignored, ← hc, ih]
    | false =>
      have hcarries : Carries f (some c) p := by
        refine ⟨hf, ?_⟩
        rintro _ ⟨⟩
        exact hc
      have hread := read_relocate hcarries hpolicy m
      simp only [Machine.run, hignored, Bool.false_eq_true, if_false, hread, ← hc]
      cases m.read policy (some c) p with
      | more m' => exact ih m'
      | ended run => rfl
  | drop hignored hc rest ih => rw [run_of_ignored hignored, ← hc, ih]

theorem Machine.relocate_start (hf : f 0 = 0) : (({} : Machine).relocate f) = {} := by
  simp [relocate, Journal.relocate, Phase.relocate, hf]

theorem Schedule.ignoresOffsets (schedule : Schedule) (flag : Bool) (f : Nat → Nat) :
    (Policy.standard (schedule.signal flag)).IgnoresOffsets f := by
  intro journal
  show schedule.flagAfter flag (journal.events.map (Event.relocate f)).size = _
  rw [Array.size_map]
  rfl

/-- A map of offsets that carries a text over to another carries its whole run over. -/
theorem runWith_relocate {text text' : String} (hf : Monotone f) (hzero : f 0 = 0)
    (hpolicy : policy.IgnoresOffsets f) (h : CarriesText f 0 text.toList text'.toList) :
    runWith policy text' = (runWith policy text).relocate f := by
  have hrun := Machine.run_relocate hf hpolicy h {}
  rwa [Machine.relocate_start hzero, hzero] at hrun

end ExactCalculator
