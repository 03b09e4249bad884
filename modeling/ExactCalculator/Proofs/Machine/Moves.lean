import ExactCalculator.Evaluation.Machine
import Mathlib.Data.List.Basic

/-! The moves of the machine. `Machine.read` is a sequence of moves: silent ones, which enter and
leave rules before the next character is taken, and at the end either a move that takes the character
or one that ends the run. What a run keeps is settled by looking at each move.

Moves do not depend on the answers to polls. They collect the polls as questions, and
`Signal.answer` turns the questions and the end that is reached without interruption into what the
machine does under a signal. -/
namespace ExactCalculator
set_option autoImplicit false

/-! ## Questions -/

/-- A poll with the machine that asks it. -/
structure Question where
  machine : Machine
  offset : Nat

namespace Question

/-- The machine after it has asked. -/
def asked (x : Question) : Machine :=
  { x.machine with journal := x.machine.journal.ask x.offset }

/-- The poll as it is reported. -/
def poll (x : Question) : Poll := ⟨x.offset, x.machine.journal.events.size⟩

/-- The run that ends here because the answer is to stop. -/
def interrupted (x : Question) : Run := x.asked.fail ⟨.interrupt, .emptyAt x.offset⟩

end Question

namespace Signal

/-- The first question that is answered by stopping. -/
def firstStop (signal : Signal) (questions : List Question) : Option Question :=
  questions.find? fun x => signal x.asked.journal

/-- What becomes of a step that asks questions. -/
def answer (signal : Signal) (questions : List Question) (q : Progress) : Progress :=
  match signal.firstStop questions with
  | some x => .ended x.interrupted
  | none => q

/-- What becomes of a run that asks questions. -/
def settle (signal : Signal) (questions : List Question) (run : Run) : Run :=
  match signal.firstStop questions with
  | some x => x.interrupted
  | none => run

theorem answer_append (signal : Signal) (xs ys : List Question) (q : Progress) :
    signal.answer (xs ++ ys) q = signal.answer xs (signal.answer ys q) := by
  simp only [answer, firstStop, List.find?_append]
  cases List.find? (fun x => signal x.asked.journal) xs <;> rfl

theorem settle_append (signal : Signal) (xs ys : List Question) (run : Run) :
    signal.settle (xs ++ ys) run = signal.settle xs (signal.settle ys run) := by
  simp only [settle, firstStop, List.find?_append]
  cases List.find? (fun x => signal x.asked.journal) xs <;> rfl

end Signal

namespace Machine

theorem poll_andThen (limit : Option Nat) (signal : Signal) (m : Machine) (offset : Nat)
    (goOn : Machine → Progress) :
    (m.poll ⟨limit, signal⟩ offset).andThen goOn =
      signal.answer [⟨m, offset⟩] (goOn (Question.asked ⟨m, offset⟩)) := by
  simp only [poll, Signal.answer, Signal.firstStop, List.find?_cons, List.find?_nil]
  show Progress.andThen (if signal (Question.asked ⟨m, offset⟩).journal = true then _ else _) _ = _
  cases signal (Question.asked ⟨m, offset⟩).journal <;> rfl

/-! ## Moves -/

/-- The machine in a new factor. -/
def enterFactor (m : Machine) (e : OpenExpression) (t : OpenTerm) (p : Nat) : Machine :=
  { m.enter .factor with phase := .literal e t p 0 }

/-- The machine after a factor. -/
def leaveFactor (m : Machine) (start : Nat) (value : Fraction) (phase : Phase) : Machine :=
  { m.leave .factor start (.value value) with phase := phase }

/-- The machine after the last term of an expression and the expression. -/
def leaveExpression (m : Machine) (e : OpenExpression) (termStart : Nat) (value : Fraction) :
    Machine :=
  { (m.leave .term termStart (.value value)).leave .expression e.start
      (.value (e.sum.join value)) with
    phase := .complete (e.sum.join value) }

/-- The machine that has taken the parenthesis after an expression. -/
def popLevel (m : Machine) (e : OpenExpression) (termStart : Nat) (value : Fraction)
    (rest : List Level) (mark : Nat) : Machine :=
  { m.leaveExpression e termStart value with mark := mark, stack := rest }

/-- A move that takes no character. `next` is the next visible character, at `p`. -/
inductive SilentMove (next : Option Char) (p : Nat) : Machine → List Question → Machine → Prop
  | enterExpression {m : Machine} (hphase : m.phase = .expression)
      (hnext : ∀ sign, Symbol.ofNext next ≠ .sign sign) :
      SilentMove next p m [] { m.enter .expression with phase := .term ⟨p, .start .plus⟩ }
  | enterTerm {m : Machine} {e : OpenExpression} (hphase : m.phase = .term e) :
      SilentMove next p m [] { m.enter .term with phase := .factor e ⟨p, .start⟩ }
  | leaveLiteral {m : Machine} {e : OpenExpression} {t : OpenTerm} {start value : Nat}
      {product : Fraction} (hphase : m.phase = .literal e t start value)
      (hnext : ∀ digit, Symbol.ofNext next ≠ .digit digit)
      (hjoin : t.product.join (.ofInt value) = .ok product) :
      SilentMove next p m
        [⟨m.leaveFactor start (.ofInt value) (.operator e t.start product), p⟩]
        (Question.asked ⟨m.leaveFactor start (.ofInt value) (.operator e t.start product), p⟩)
  | beside {m : Machine} {e : OpenExpression} {termStart : Nat} {value : Fraction}
      (hphase : m.phase = .operator e termStart value)
      (hnext : (∃ digit, Symbol.ofNext next = .digit digit) ∨ Symbol.ofNext next = .opening) :
      SilentMove next p m [] { m with phase := .factor e ⟨termStart, .after value .multiply⟩ }

/-- A move that takes the character `c`, which stands at `p`. -/
inductive TakingMove (limit : Option Nat) (c : Char) (p : Nat) :
    Machine → List Question → Machine → Prop
  | firstSign {m : Machine} {sign : Sign} (hphase : m.phase = .expression)
      (hc : Symbol.ofChar c = .sign sign) :
      TakingMove limit c p m [] ((m.enter .expression).take (p + 1) (.term ⟨p, .start sign⟩))
  | firstDigit {m : Machine} {e : OpenExpression} {t : OpenTerm} {digit : Nat}
      (hphase : m.phase = .factor e t) (hc : Symbol.ofChar c = .digit digit) :
      TakingMove limit c p m [⟨m.enterFactor e t p, p⟩]
        ((Question.asked ⟨m.enterFactor e t p, p⟩).take (p + 1) (.literal e t p (10 * 0 + digit)))
  | nextDigit {m : Machine} {e : OpenExpression} {t : OpenTerm} {start value digit : Nat}
      (hphase : m.phase = .literal e t start value) (hc : Symbol.ofChar c = .digit digit) :
      TakingMove limit c p m [⟨m, p⟩]
        ((Question.asked ⟨m, p⟩).take (p + 1) (.literal e t start (10 * value + digit)))
  | opening {m : Machine} {e : OpenExpression} {t : OpenTerm} (hphase : m.phase = .factor e t)
      (hc : Symbol.ofChar c = .opening) (hdepth : ∀ n, limit = some n → m.stack.length < n) :
      TakingMove limit c p m []
        { (m.enterFactor e t p).take (p + 1) .expression with stack := ⟨e, t, p⟩ :: m.stack }
  | scaling {m : Machine} {e : OpenExpression} {termStart : Nat} {value : Fraction}
      {scaling : Scaling} (hphase : m.phase = .operator e termStart value)
      (hc : Symbol.ofChar c = .scaling scaling) :
      TakingMove limit c p m [] (m.take (p + 1) (.factor e ⟨termStart, .after value scaling⟩))
  | sign {m : Machine} {e : OpenExpression} {termStart : Nat} {value : Fraction} {sign : Sign}
      (hphase : m.phase = .operator e termStart value) (hc : Symbol.ofChar c = .sign sign) :
      TakingMove limit c p m []
        ((m.leave .term termStart (.value value)).take (p + 1)
          (.term { e with sum := .after (e.sum.join value) sign }))
  | closing {m : Machine} {e : OpenExpression} {termStart : Nat} {value : Fraction}
      {level : Level} {rest : List Level} {product : Fraction}
      (hphase : m.phase = .operator e termStart value) (hstack : m.stack = level :: rest)
      (hc : Symbol.ofChar c = .closing)
      (hjoin : level.term.product.join (e.sum.join value) = .ok product) :
      TakingMove limit c p m
        [⟨(m.popLevel e termStart value rest (p + 1)).leaveFactor level.start (e.sum.join value)
          (.operator level.expression level.term.start product), p + 1⟩]
        (Question.asked ⟨(m.popLevel e termStart value rest (p + 1)).leaveFactor level.start
          (e.sum.join value) (.operator level.expression level.term.start product), p + 1⟩)
  | equals {m : Machine} {e : OpenExpression} {termStart : Nat} {value : Fraction}
      (hphase : m.phase = .operator e termStart value) (hstack : m.stack = [])
      (hc : Symbol.ofChar c = .equals) :
      TakingMove limit c p m []
        ((m.leaveExpression e termStart value).take (p + 1) (.complete (e.sum.join value)))

/-- A move that ends the run. -/
inductive FinalMove (limit : Option Nat) (next : Option Char) (p : Nat) : Machine → Run → Prop
  | refuseFactor {m : Machine} {e : OpenExpression} {t : OpenTerm} (hphase : m.phase = .factor e t)
      (hdigit : ∀ digit, Symbol.ofNext next ≠ .digit digit)
      (hopening : Symbol.ofNext next ≠ .opening) :
      FinalMove limit next p m ((m.enterFactor e t p).fail (.atNext next p))
  | tooDeep {m : Machine} {e : OpenExpression} {t : OpenTerm} {n : Nat}
      (hphase : m.phase = .factor e t) (hnext : Symbol.ofNext next = .opening)
      (hlimit : limit = some n) (hdepth : n ≤ m.stack.length) :
      FinalMove limit next p m ((m.enterFactor e t p).fail ⟨.tooDeep, .ofChar '(' p⟩)
  | literalFault {m : Machine} {e : OpenExpression} {t : OpenTerm} {start value : Nat}
      {fault : Fault} (hphase : m.phase = .literal e t start value)
      (hnext : ∀ digit, Symbol.ofNext next ≠ .digit digit)
      (hjoin : t.product.join (.ofInt value) = .error fault) :
      FinalMove limit next p m
        ((m.leaveFactor start (.ofInt value) (.factor e t)).fail
          ⟨.arithmetic fault, m.spanFrom start⟩)
  | closingFault {m : Machine} {e : OpenExpression} {termStart : Nat} {value : Fraction}
      {level : Level} {rest : List Level} {fault : Fault}
      (hphase : m.phase = .operator e termStart value) (hstack : m.stack = level :: rest)
      (hnext : Symbol.ofNext next = .closing)
      (hjoin : level.term.product.join (e.sum.join value) = .error fault) :
      FinalMove limit next p m
        (((m.popLevel e termStart value rest (p + 1)).leaveFactor level.start (e.sum.join value)
          (.factor level.expression level.term)).fail
            ⟨.arithmetic fault, ⟨level.start, max level.start (p + 1)⟩⟩)
  | stray {m : Machine} {e : OpenExpression} {termStart : Nat} {value : Fraction}
      (hphase : m.phase = .operator e termStart value) (hnext : Symbol.ofNext next = .stray) :
      FinalMove limit next p m (m.fail (.atNext next p))
  | refuseEnd {m : Machine} {e : OpenExpression} {termStart : Nat} {value : Fraction}
      (hphase : m.phase = .operator e termStart value)
      (hnext : (Symbol.ofNext next = .closing ∧ m.stack = []) ∨
        (Symbol.ofNext next = .equals ∧ m.stack ≠ []) ∨
        (Symbol.ofNext next = .ending ∧ m.stack ≠ [])) :
      FinalMove limit next p m ((m.leaveExpression e termStart value).fail (.atNext next p))
  | accept {m : Machine} {e : OpenExpression} {termStart : Nat} {value : Fraction}
      (hphase : m.phase = .operator e termStart value) (hstack : m.stack = [])
      (hnext : Symbol.ofNext next = .ending) :
      FinalMove limit next p m
        ⟨.value (e.sum.join value), (m.leaveExpression e termStart value).journal⟩
  | acceptComplete {m : Machine} {value : Fraction} (hphase : m.phase = .complete value)
      (hnext : Symbol.ofNext next = .ending) :
      FinalMove limit next p m ⟨.value value, m.journal⟩
  | refuseComplete {m : Machine} {value : Fraction} (hphase : m.phase = .complete value)
      (hnext : Symbol.ofNext next ≠ .ending) :
      FinalMove limit next p m (m.fail (.atNext next p))

/-- The moves of one step, with the questions that they ask. -/
inductive Moves (limit : Option Nat) (next : Option Char) (p : Nat) :
    Machine → List Question → Progress → Prop
  | silent {m m' : Machine} {xs ys : List Question} {q : Progress}
      (move : SilentMove next p m xs m') (rest : Moves limit next p m' ys q) :
      Moves limit next p m (xs ++ ys) q
  | take {m m' : Machine} {c : Char} {xs : List Question} (hnext : next = some c)
      (move : TakingMove limit c p m xs m') : Moves limit next p m xs (.more m')
  | final {m : Machine} {run : Run} (move : FinalMove limit next p m run) :
      Moves limit next p m [] (.ended run)

/-! ## The last move -/

section
variable {limit : Option Nat} {next : Option Char} {p : Nat} {m m' : Machine} {xs : List Question}
  {q : Progress} {run : Run} {P : Machine → Prop}

/-- What silent moves keep still holds where the step takes a character. -/
theorem Moves.exists_taking (moves : Moves limit next p m xs q) (hq : q = .more m')
    (hsilent : ∀ m xs m', SilentMove next p m xs m' → P m → P m') (h : P m) :
    ∃ m₀ c ys, P m₀ ∧ next = some c ∧ TakingMove limit c p m₀ ys m' := by
  induction moves with
  | silent move _ ih => exact ih hq (hsilent _ _ _ move h)
  | take hnext move =>
    cases hq
    exact ⟨_, _, _, h, hnext, move⟩
  | final => cases hq

/-- What silent moves keep still holds where the step ends the run. -/
theorem Moves.exists_final (moves : Moves limit next p m xs q) (hq : q = .ended run)
    (hsilent : ∀ m xs m', SilentMove next p m xs m' → P m → P m') (h : P m) :
    ∃ m₀, P m₀ ∧ FinalMove limit next p m₀ run := by
  induction moves with
  | silent move _ ih => exact ih hq (hsilent _ _ _ move h)
  | take => cases hq
  | final move =>
    cases hq
    exact ⟨_, h, move⟩

end

end Machine

end ExactCalculator
