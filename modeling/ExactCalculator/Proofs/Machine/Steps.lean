import ExactCalculator.Proofs.Machine.Moves

/-! Moves are exactly what a step of the machine does. A silent move is the beginning of the step, a
taking or final move is all of it (`Moves.read_eq`); and every machine has moves for every next
character (`exists_moves`), the first of them settled by its phase. So every step is made of moves
(`read_steps`). -/
namespace ExactCalculator.Machine
set_option autoImplicit false

/-- A step, given by what it leads to under each signal, is made of moves. -/
def Steps (limit : Option Nat) (next : Option Char) (p : Nat) (m : Machine)
    (step : Signal → Progress) : Prop :=
  ∃ xs q, Moves limit next p m xs q ∧ ∀ signal : Signal, step signal = signal.answer xs q

variable {limit : Option Nat} {next : Option Char} {c : Char} {p : Nat} {m m' : Machine}
  {e : OpenExpression} {t : OpenTerm} {xs : List Question} {q : Progress} {run : Run}

theorem exists_of_ofNext {s : Symbol} (h : Symbol.ofNext next = s) (hs : s ≠ .ending) :
    ∃ c, next = some c ∧ Symbol.ofChar c = s := by
  cases next with
  | none => exact absurd h.symm hs
  | some c => exact ⟨c, rfl, h⟩

theorem admits_iff {signal : Signal} {depth : Nat} :
    (Policy.mk limit signal).admits depth = true ↔ ∀ n, limit = some n → depth < n := by
  cases limit <;> simp [Policy.admits]

theorem closeExpression_eq (policy : Policy) (m : Machine) (e : OpenExpression) (termStart : Nat)
    (value : Fraction) (next : Option Char) (p : Nat) :
    (m.leave .term termStart (.value value)).closeExpression policy e (e.sum.join value) next p =
      match m.stack, Symbol.ofNext next with
      | [], .equals =>
        .more ((m.leaveExpression e termStart value).take (p + 1) (.complete (e.sum.join value)))
      | [], .ending =>
        .ended ⟨.value (e.sum.join value), (m.leaveExpression e termStart value).journal⟩
      | level :: rest, .closing =>
        (m.popLevel e termStart value rest (p + 1)).closeFactor policy level.expression level.term
          level.start (e.sum.join value) (p + 1) fun _ m => .more m
      | _, _ => (m.leaveExpression e termStart value).refuse next p := rfl

/-! ## Moves do what the step does -/

/-- A silent move is the beginning of the step. -/
theorem SilentMove.read_eq (move : SilentMove next p m xs m') (signal : Signal) :
    m.read ⟨limit, signal⟩ next p = signal.answer xs (m'.read ⟨limit, signal⟩ next p) := by
  cases move with
  | enterExpression hphase hnext =>
    simp only [read, hphase, readExpression]
    rfl
  | enterTerm hphase =>
    simp only [read, hphase]
    rfl
  | @leaveLiteral e t start value product hphase hnext hjoin =>
    have hread : m.read ⟨limit, signal⟩ next p =
        m.closeFactor ⟨limit, signal⟩ e t start (.ofInt value) p fun product m =>
          m.readOperator ⟨limit, signal⟩ e t.start product next p := by
      simp only [read, hphase, readLiteral]
    rw [hread]
    simp only [closeFactor, hjoin]
    exact poll_andThen limit signal _ _ _
  | beside hphase hnext =>
    simp only [read, hphase, readOperator]
    rcases hnext with ⟨digit, hs⟩ | hs
    · simp only [hs]
      rfl
    · simp only [hs]
      rfl

theorem TakingMove.read_eq (move : TakingMove limit c p m xs m') (signal : Signal) :
    m.read ⟨limit, signal⟩ (some c) p = signal.answer xs (.more m') := by
  cases move with
  | firstSign hphase hc =>
    simp only [read, hphase, readExpression, Symbol.ofNext, hc]
    rfl
  | @firstDigit e t digit hphase hc =>
    simp only [read, hphase, readFactor, Symbol.ofNext, hc, readDigit]
    exact poll_andThen limit signal (m.enterFactor e t p) p _
  | nextDigit hphase hc =>
    simp only [read, hphase, readLiteral, Symbol.ofNext, hc, readDigit]
    exact poll_andThen limit signal m p _
  | opening hphase hc hdepth =>
    simp only [read, hphase, readFactor, Symbol.ofNext, hc, enter, admits_iff.2 hdepth, if_true]
    rfl
  | scaling hphase hc =>
    simp only [read, hphase, readOperator, Symbol.ofNext, hc]
    rfl
  | sign hphase hc =>
    simp only [read, hphase, readOperator, Symbol.ofNext, hc, closeTerm]
    rfl
  | closing hphase hstack hc hjoin =>
    simp only [read, hphase, readOperator, Symbol.ofNext, hc, closeTerm, closeExpression_eq, hstack,
      closeFactor, hjoin]
    exact poll_andThen limit signal _ _ _
  | equals hphase hstack hc =>
    simp only [read, hphase, readOperator, Symbol.ofNext, hc, closeTerm, closeExpression_eq, hstack]
    rfl

theorem FinalMove.read_eq (move : FinalMove limit next p m run) (signal : Signal) :
    m.read ⟨limit, signal⟩ next p = .ended run := by
  cases move with
  | refuseFactor hphase hdigit hopening =>
    simp only [read, hphase, readFactor]
    rfl
  | @tooDeep e t n hphase hnext hlimit hdepth =>
    have hno : (Policy.mk limit signal).admits m.stack.length = false := by
      simp [Policy.admits, hlimit, hdepth]
    simp only [read, hphase, readFactor, hnext, enter, hno, Bool.false_eq_true, if_false]
    rfl
  | literalFault hphase hnext hjoin =>
    simp only [read, hphase, readLiteral, closeFactor, hjoin]
    rfl
  | closingFault hphase hstack hnext hjoin =>
    simp only [read, hphase, readOperator, hnext, closeTerm, closeExpression_eq, hstack,
      closeFactor, hjoin]
    rfl
  | stray hphase hnext =>
    simp only [read, hphase, readOperator, hnext]
    rfl
  | refuseEnd hphase hnext =>
    rcases hnext with ⟨hs, hstack⟩ | ⟨hs, hstack⟩ | ⟨hs, hstack⟩
    · simp only [read, hphase, readOperator, hs, closeTerm, closeExpression_eq, hstack]
      rfl
    · obtain ⟨level, rest, hstack⟩ := List.exists_cons_of_ne_nil hstack
      simp only [read, hphase, readOperator, hs, closeTerm, closeExpression_eq, hstack]
      rfl
    · obtain ⟨level, rest, hstack⟩ := List.exists_cons_of_ne_nil hstack
      simp only [read, hphase, readOperator, hs, closeTerm, closeExpression_eq, hstack]
      rfl
  | accept hphase hstack hnext =>
    simp only [read, hphase, readOperator, hnext, closeTerm, closeExpression_eq, hstack]
  | acceptComplete hphase hnext =>
    simp only [read, hphase, readRest, hnext]
  | refuseComplete hphase hnext =>
    simp only [read, hphase, readRest]
    rfl

/-- The moves together are the step. -/
theorem Moves.read_eq (moves : Moves limit next p m xs q) (signal : Signal) :
    m.read ⟨limit, signal⟩ next p = signal.answer xs q := by
  induction moves with
  | silent move _ ih => rw [move.read_eq, ih, Signal.answer_append]
  | take hnext move =>
    rw [hnext]
    exact move.read_eq signal
  | final move => exact move.read_eq signal

/-! ## Every machine has moves -/

theorem exists_moves_of_silent (move : SilentMove next p m xs m')
    (rest : ∃ ys q, Moves limit next p m' ys q) : ∃ ys q, Moves limit next p m ys q := by
  obtain ⟨ys, q, moves⟩ := rest
  exact ⟨xs ++ ys, q, .silent move moves⟩

theorem exists_moves_factor (hphase : m.phase = .factor e t) :
    ∃ xs q, Moves limit next p m xs q := by
  cases hs : Symbol.ofNext next with
  | digit digit =>
    obtain ⟨c, hnext, hc⟩ := exists_of_ofNext hs (by simp)
    exact ⟨_, _, .take hnext (.firstDigit hphase hc)⟩
  | opening =>
    by_cases hdepth : ∀ n, limit = some n → m.stack.length < n
    · obtain ⟨c, hnext, hc⟩ := exists_of_ofNext hs (by simp)
      exact ⟨_, _, .take hnext (.opening hphase hc hdepth)⟩
    · obtain ⟨n, hlimit, hn⟩ : ∃ n, limit = some n ∧ n ≤ m.stack.length := by
        by_contra hno
        exact hdepth fun n hlimit => Nat.lt_of_not_le fun hle => hno ⟨n, hlimit, hle⟩
      exact ⟨_, _, .final (.tooDeep hphase hs hlimit hn)⟩
  | sign | scaling | closing | equals | stray | ending =>
    exact ⟨_, _, .final (.refuseFactor hphase (by simp [hs]) (by simp [hs]))⟩

theorem exists_moves_term (hphase : m.phase = .term e) : ∃ xs q, Moves limit next p m xs q :=
  exists_moves_of_silent (.enterTerm hphase) (exists_moves_factor rfl)

theorem exists_moves_expression (hphase : m.phase = .expression) :
    ∃ xs q, Moves limit next p m xs q := by
  cases hs : Symbol.ofNext next with
  | sign sign =>
    obtain ⟨c, hnext, hc⟩ := exists_of_ofNext hs (by simp)
    exact ⟨_, _, .take hnext (.firstSign hphase hc)⟩
  | digit | scaling | opening | closing | equals | stray | ending =>
    exact exists_moves_of_silent (.enterExpression hphase (by simp [hs])) (exists_moves_term rfl)

theorem exists_moves_closing {termStart : Nat} {value : Fraction}
    (hphase : m.phase = .operator e termStart value) (hs : Symbol.ofNext next = .closing) :
    ∃ xs q, Moves limit next p m xs q := by
  cases hstack : m.stack with
  | nil => exact ⟨_, _, .final (.refuseEnd hphase (.inl ⟨hs, hstack⟩))⟩
  | cons level rest =>
    obtain ⟨c, hnext, hc⟩ := exists_of_ofNext hs (by simp)
    cases hjoin : level.term.product.join (e.sum.join value) with
    | ok product => exact ⟨_, _, .take hnext (.closing hphase hstack hc hjoin)⟩
    | error fault => exact ⟨_, _, .final (.closingFault hphase hstack hs hjoin)⟩

theorem exists_moves_operator {termStart : Nat} {value : Fraction}
    (hphase : m.phase = .operator e termStart value) : ∃ xs q, Moves limit next p m xs q := by
  cases hs : Symbol.ofNext next with
  | digit digit =>
    exact exists_moves_of_silent (.beside hphase (.inl ⟨digit, hs⟩)) (exists_moves_factor rfl)
  | opening => exact exists_moves_of_silent (.beside hphase (.inr hs)) (exists_moves_factor rfl)
  | scaling scaling =>
    obtain ⟨c, hnext, hc⟩ := exists_of_ofNext hs (by simp)
    exact ⟨_, _, .take hnext (.scaling hphase hc)⟩
  | sign sign =>
    obtain ⟨c, hnext, hc⟩ := exists_of_ofNext hs (by simp)
    exact ⟨_, _, .take hnext (.sign hphase hc)⟩
  | stray => exact ⟨_, _, .final (.stray hphase hs)⟩
  | closing => exact exists_moves_closing hphase hs
  | equals =>
    by_cases hstack : m.stack = []
    · obtain ⟨c, hnext, hc⟩ := exists_of_ofNext hs (by simp)
      exact ⟨_, _, .take hnext (.equals hphase hstack hc)⟩
    · exact ⟨_, _, .final (.refuseEnd hphase (.inr (.inl ⟨hs, hstack⟩)))⟩
  | ending =>
    by_cases hstack : m.stack = []
    · exact ⟨_, _, .final (.accept hphase hstack hs)⟩
    · exact ⟨_, _, .final (.refuseEnd hphase (.inr (.inr ⟨hs, hstack⟩)))⟩

theorem exists_moves_literal {start value : Nat} (hphase : m.phase = .literal e t start value) :
    ∃ xs q, Moves limit next p m xs q := by
  by_cases hdigit : ∃ digit, Symbol.ofNext next = .digit digit
  · obtain ⟨digit, hs⟩ := hdigit
    obtain ⟨c, hnext, hc⟩ := exists_of_ofNext hs (by simp)
    exact ⟨_, _, .take hnext (.nextDigit hphase hc)⟩
  · have hdigit : ∀ digit, Symbol.ofNext next ≠ .digit digit := not_exists.mp hdigit
    cases hjoin : t.product.join (.ofInt value) with
    | ok product =>
      exact exists_moves_of_silent (.leaveLiteral hphase hdigit hjoin) (exists_moves_operator rfl)
    | error fault => exact ⟨_, _, .final (.literalFault hphase hdigit hjoin)⟩

theorem exists_moves_complete {value : Fraction} (hphase : m.phase = .complete value) :
    ∃ xs q, Moves limit next p m xs q := by
  by_cases hs : Symbol.ofNext next = .ending
  · exact ⟨_, _, .final (.acceptComplete hphase hs)⟩
  · exact ⟨_, _, .final (.refuseComplete hphase hs)⟩

theorem exists_moves (limit : Option Nat) (next : Option Char) (p : Nat) (m : Machine) :
    ∃ xs q, Moves limit next p m xs q := by
  cases hphase : m.phase with
  | expression => exact exists_moves_expression hphase
  | term e => exact exists_moves_term hphase
  | factor e t => exact exists_moves_factor hphase
  | literal e t start value => exact exists_moves_literal hphase
  | operator e termStart value => exact exists_moves_operator hphase
  | complete value => exact exists_moves_complete hphase

/-- Every step is made of moves, which do not depend on the signal. -/
theorem read_steps (limit : Option Nat) (next : Option Char) (p : Nat) (m : Machine) :
    Steps limit next p m fun signal => m.read ⟨limit, signal⟩ next p := by
  obtain ⟨xs, q, moves⟩ := exists_moves limit next p m
  exact ⟨xs, q, moves, moves.read_eq⟩

end ExactCalculator.Machine
