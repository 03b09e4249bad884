import ExactCalculator.Evaluation.Journal
import ExactCalculator.Evaluation.Symbol

/-! The evaluator: a machine that reads an expression from left to right, one character at a time.

The grammar has three levels,

    expression := [sign] term { sign term }
    term       := factor { ['*' | '/'] factor }
    factor     := digit { digit } | '(' expression ')'

and one `=` may follow the whole expression. The machine's phase says where it stands in the
innermost expression; every open parenthesis keeps the place that the reading returns to on a
stack. `Machine.read` is the effect of the next character or of the end of the input,
`Machine.run` reads a text. Ignored characters never reach the machine. -/
namespace ExactCalculator
set_option autoImplicit false

/-! ## Unfinished sums and products -/

/-- The part of an expression before one of its terms. -/
inductive PartialSum
  | start (sign : Sign)
  | after (total : Fraction) (sign : Sign)
deriving DecidableEq, Repr

/-- The part of a term before one of its factors. -/
inductive PartialProduct
  | start
  | after (total : Fraction) (scaling : Scaling)
deriving DecidableEq, Repr

/-- The sum up to and with a term. -/
def PartialSum.join : PartialSum → Fraction → Fraction
  | start .plus, v => v
  | start .minus, v => -v
  | after total .plus, v => total + v
  | after total .minus, v => total - v

/-- The product up to and with a factor. -/
def PartialProduct.join : PartialProduct → Fraction → Except Fault Fraction
  | start, v => .ok v
  | after total .multiply, v => .ok (total * v)
  | after total .divide, v => total.div v

/-! ## The state of the machine -/

/-- An expression whose next term is not complete yet. -/
structure OpenExpression where
  start : Nat
  sum : PartialSum
deriving DecidableEq, Repr

/-- A term whose next factor is not complete yet. -/
structure OpenTerm where
  start : Nat
  product : PartialProduct
deriving DecidableEq, Repr

/-- A rule that is entered and not left, and where it starts. -/
structure OpenRule where
  rule : Rule
  start : Nat
deriving DecidableEq, Repr

/-- An open parenthesis: the factor that starts with it, in its term and expression. -/
structure Level where
  expression : OpenExpression
  term : OpenTerm
  start : Nat
deriving DecidableEq, Repr

/-- Where the reading stands in the innermost expression. -/
inductive Phase
  /-- Before an expression. -/
  | expression
  /-- After a sign, before a term. -/
  | term (e : OpenExpression)
  /-- Before a factor. -/
  | factor (e : OpenExpression) (t : OpenTerm)
  /-- In a factor; `value` is the number that its digits so far stand for. -/
  | literal (e : OpenExpression) (t : OpenTerm) (start value : Nat)
  /-- After a factor; `value` is the product up to and with it. -/
  | operator (e : OpenExpression) (termStart : Nat) (value : Fraction)
  /-- After an expression. -/
  | complete (value : Fraction)
deriving DecidableEq, Repr

/-- The rules open in the innermost expression, innermost first. -/
def Phase.openRules : Phase → List OpenRule
  | expression => []
  | term e => [⟨.expression, e.start⟩]
  | factor e t => [⟨.term, t.start⟩, ⟨.expression, e.start⟩]
  | literal e t start _ => [⟨.factor, start⟩, ⟨.term, t.start⟩, ⟨.expression, e.start⟩]
  | operator e termStart _ => [⟨.term, termStart⟩, ⟨.expression, e.start⟩]
  | complete _ => []

/-- The rules that wait for a parenthesis to close, innermost first. -/
def Level.openRules (level : Level) : List OpenRule :=
  [⟨.factor, level.start⟩, ⟨.term, level.term.start⟩, ⟨.expression, level.expression.start⟩]

/-- How deep parentheses may nest, and the answer to polls. -/
structure Policy where
  depthLimit : Option Nat
  signal : Signal

/-- Whether another parenthesis may open inside `depth` open ones. -/
def Policy.admits (policy : Policy) (depth : Nat) : Bool :=
  match policy.depthLimit with
  | some limit => decide (depth < limit)
  | none => true

/-- The evaluator in the middle of a text. `mark` is the end of the last character it took, and
the top of the stack is the innermost open parenthesis. -/
structure Machine where
  journal : Journal := {}
  mark : Nat := 0
  stack : List Level := []
  phase : Phase := .expression
deriving DecidableEq, Repr

/-- What a step leads to: another state, or the end of the run. -/
inductive Progress
  | more (machine : Machine)
  | ended (run : Run)
deriving DecidableEq, Repr

/-- Goes on with a further step if the run has not ended. -/
def Progress.andThen : Progress → (Machine → Progress) → Progress
  | more machine, step => step machine
  | ended run, _ => ended run

namespace Machine

/-! ## Reporting -/

/-- All open rules, innermost first. -/
def openRules (m : Machine) : List OpenRule :=
  m.phase.openRules ++ m.stack.flatMap Level.openRules

/-- The range of a rule that is left now: from its start to the last character taken. -/
def spanFrom (m : Machine) (start : Nat) : Span := ⟨start, max start m.mark⟩

/-- Reports that a rule is entered. -/
def enter (m : Machine) (rule : Rule) : Machine :=
  { m with journal := m.journal.record (.enter rule) }

/-- Reports that a rule is left. -/
def leave (m : Machine) (rule : Rule) (start : Nat) (outcome : Outcome) : Machine :=
  { m with journal := m.journal.record (.leave rule (m.spanFrom start) outcome) }

/-- Takes a character that ends at an offset and goes over to a phase. -/
def take (m : Machine) (mark : Nat) (phase : Phase) : Machine :=
  { m with mark := mark, phase := phase }

/-- Ends the run with a failure, on which every open rule is left, the innermost first. -/
def fail (m : Machine) (failure : Failure) : Run :=
  let left := m.openRules.foldl (fun m r => m.leave r.rule r.start (.failure failure)) m
  ⟨.failure failure, left.journal⟩

/-- Fails because of the next character or the end of the input. -/
def refuse (m : Machine) (next : Option Char) (p : Nat) : Progress :=
  .ended (m.fail (.atNext next p))

/-- Asks whether to stop, with the reading at an offset. -/
def poll (policy : Policy) (m : Machine) (offset : Nat) : Progress :=
  let asked := { m with journal := m.journal.ask offset }
  if policy.signal asked.journal then
    .ended (asked.fail ⟨.interrupt, .emptyAt offset⟩)
  else .more asked

/-! ## Steps

In every step `next` is the next character that is not ignored, and `p` is its offset. At the end of
the input there is no such character, and `p` is the length of the input. -/

/-- Takes a digit of a literal. Each digit is preceded by a poll. -/
def readDigit (policy : Policy) (m : Machine) (e : OpenExpression) (t : OpenTerm)
    (start value digit p : Nat) : Progress :=
  (m.poll policy p).andThen fun m =>
    .more (m.take (p + 1) (.literal e t start (10 * value + digit)))

/-- Enters a factor. -/
def readFactor (policy : Policy) (m : Machine) (e : OpenExpression) (t : OpenTerm)
    (next : Option Char) (p : Nat) : Progress :=
  let m := { m.enter .factor with phase := .literal e t p 0 }
  match Symbol.ofNext next with
  | .digit digit => m.readDigit policy e t p 0 digit p
  | .opening =>
    if policy.admits m.stack.length then
      .more { m.take (p + 1) .expression with stack := ⟨e, t, p⟩ :: m.stack }
    else .ended (m.fail ⟨.tooDeep, .ofChar '(' p⟩)
  | _ => m.refuse next p

/-- Enters a term and its first factor. -/
def readTerm (policy : Policy) (m : Machine) (e : OpenExpression) (next : Option Char) (p : Nat) :
    Progress :=
  let t : OpenTerm := ⟨p, .start⟩
  { m.enter .term with phase := .factor e t }.readFactor policy e t next p

/-- Enters an expression. It may begin with a sign. -/
def readExpression (policy : Policy) (m : Machine) (next : Option Char) (p : Nat) : Progress :=
  let m := m.enter .expression
  match Symbol.ofNext next with
  | .sign sign => .more (m.take (p + 1) (.term ⟨p, .start sign⟩))
  | _ => m.readTerm policy ⟨p, .start .plus⟩ next p

/-- Leaves a factor, joins it to its term and goes on with the product. Before that there is a poll.
A divisor that is zero is to blame for the division. -/
def closeFactor (policy : Policy) (m : Machine) (e : OpenExpression) (t : OpenTerm) (start : Nat)
    (value : Fraction) (p : Nat) (goOn : Fraction → Machine → Progress) : Progress :=
  let m := { m.leave .factor start (.value value) with phase := .factor e t }
  match t.product.join value with
  | .ok product =>
    ({ m with phase := .operator e t.start product }.poll policy p).andThen (goOn product)
  | .error fault => .ended (m.fail ⟨.arithmetic fault, m.spanFrom start⟩)

/-- Leaves an expression. What follows it closes a parenthesis or ends the input. -/
def closeExpression (policy : Policy) (m : Machine) (e : OpenExpression) (value : Fraction)
    (next : Option Char) (p : Nat) : Progress :=
  let m := { m.leave .expression e.start (.value value) with phase := .complete value }
  match m.stack, Symbol.ofNext next with
  | [], .equals => .more (m.take (p + 1) (.complete value))
  | [], .ending => .ended ⟨.value value, m.journal⟩
  | level :: rest, .closing =>
    { m with mark := p + 1, stack := rest }.closeFactor policy level.expression level.term
      level.start value (p + 1) fun _ m => .more m
  | _, _ => m.refuse next p

/-- Leaves a term and joins it to its expression. -/
def closeTerm (policy : Policy) (m : Machine) (e : OpenExpression) (termStart : Nat)
    (value : Fraction) (next : Option Char) (p : Nat) : Progress :=
  let m := m.leave .term termStart (.value value)
  let total := e.sum.join value
  match Symbol.ofNext next with
  | .sign sign => .more (m.take (p + 1) (.term { e with sum := .after total sign }))
  | _ => m.closeExpression policy e total next p

/-- After a factor: another factor follows, or the term ends. -/
def readOperator (policy : Policy) (m : Machine) (e : OpenExpression) (termStart : Nat)
    (value : Fraction) (next : Option Char) (p : Nat) : Progress :=
  match Symbol.ofNext next with
  | .digit _ | .opening => m.readFactor policy e ⟨termStart, .after value .multiply⟩ next p
  | .scaling scaling => .more (m.take (p + 1) (.factor e ⟨termStart, .after value scaling⟩))
  | .stray => m.refuse next p
  | .sign _ | .closing | .equals | .ending => m.closeTerm policy e termStart value next p

/-- In a factor: another digit follows, or the literal ends. -/
def readLiteral (policy : Policy) (m : Machine) (e : OpenExpression) (t : OpenTerm)
    (start value : Nat) (next : Option Char) (p : Nat) : Progress :=
  match Symbol.ofNext next with
  | .digit digit => m.readDigit policy e t start value digit p
  | _ =>
    m.closeFactor policy e t start (.ofInt value) p fun product m =>
      m.readOperator policy e t.start product next p

/-- After a whole expression and its `=`: nothing may follow. -/
def readRest (m : Machine) (value : Fraction) (next : Option Char) (p : Nat) : Progress :=
  match Symbol.ofNext next with
  | .ending => .ended ⟨.value value, m.journal⟩
  | _ => m.refuse next p

/-- The effect of the next character or of the end of the input. -/
def read (policy : Policy) (m : Machine) (next : Option Char) (p : Nat) : Progress :=
  match m.phase with
  | .expression => m.readExpression policy next p
  | .term e => m.readTerm policy e next p
  | .factor e t => m.readFactor policy e t next p
  | .literal e t start value => m.readLiteral policy e t start value next p
  | .operator e termStart value => m.readOperator policy e termStart value next p
  | .complete value => m.readRest value next p

/-! ## The end of the input -/

theorem readFactor_none (policy : Policy) (m : Machine) (e : OpenExpression) (t : OpenTerm)
    (p : Nat) : ∃ run, m.readFactor policy e t none p = .ended run := ⟨_, rfl⟩

theorem readOperator_none (policy : Policy) (m : Machine) (e : OpenExpression) (termStart : Nat)
    (value : Fraction) (p : Nat) :
    ∃ run, m.readOperator policy e termStart value none p = .ended run := by
  show ∃ run, m.closeTerm policy e termStart value none p = .ended run
  unfold closeTerm closeExpression
  dsimp only [Symbol.ofNext, leave]
  split
  · next h => cases h
  · exact ⟨_, rfl⟩
  · next h => cases h
  · exact ⟨_, rfl⟩

/-- At the end of the input the run ends, whatever the phase. -/
theorem read_none (policy : Policy) (m : Machine) (p : Nat) :
    ∃ run, m.read policy none p = .ended run := by
  unfold read
  split
  · exact ⟨_, rfl⟩
  · exact ⟨_, rfl⟩
  · exact readFactor_none policy m _ _ p
  · next e t start value _ =>
    show ∃ run, m.closeFactor policy e t start (.ofInt value) p _ = .ended run
    unfold closeFactor poll
    dsimp only
    split
    · split
      · exact ⟨_, rfl⟩
      · exact readOperator_none policy _ e t.start _ p
    · exact ⟨_, rfl⟩
  · exact readOperator_none policy m _ _ _ p
  · exact ⟨_, rfl⟩

/-! ## Runs -/

/-- Reads the rest of the input, which begins at an offset. By `read_none` the run has always ended
with the input; a machine that went on would have to report a missing character. -/
def run (policy : Policy) (m : Machine) (p : Nat) : List Char → Run
  | [] =>
    match m.read policy none p with
    | .more m => m.fail (.atNext none p)
    | .ended run => run
  | c :: cs =>
    if isIgnored c then m.run policy (p + c.utf8Size) cs
    else
      match m.read policy (some c) p with
      | .more m => m.run policy (p + c.utf8Size) cs
      | .ended run => run

end Machine

end ExactCalculator
