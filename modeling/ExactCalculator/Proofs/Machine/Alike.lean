import ExactCalculator.Proofs.Fraction.Numbers
import ExactCalculator.Proofs.Machine.Quiet

/-! Machines with the same prospects. What a machine has reported, where its terms and expressions
begin and how its sums came about do not matter to how the run ends. Machines that agree in all else
are `Alike`: every move of the one is a move of the other and leads to machines that are alike again
(`Moves.alike`), so whatever they read they end with the same outcome (`Alike.outcome_eq`). -/
namespace ExactCalculator
set_option autoImplicit false

/-! ## What matters to a run -/

/-- The sums agree for every term that may come, and stay in lowest terms. -/
def PartialSum.Alike (s s' : PartialSum) : Prop :=
  ∀ v : Fraction, v.Reduced → s.join v = s'.join v ∧ (s.join v).Reduced

/-- The products agree for every factor that may come, and stay in lowest terms. -/
def PartialProduct.Alike (s s' : PartialProduct) : Prop :=
  ∀ v : Fraction, v.Reduced → s.join v = s'.join v ∧ ∀ w, s.join v = .ok w → w.Reduced

/-- An open parenthesis may be blamed together with what it encloses, so its place matters. -/
structure Level.Alike (level level' : Level) : Prop where
  sum : level.expression.sum.Alike level'.expression.sum
  product : level.term.product.Alike level'.term.product
  start : level.start = level'.start

inductive Phase.Alike : Phase → Phase → Prop
  | expression : Alike .expression .expression
  | term {e e' : OpenExpression} (sum : e.sum.Alike e'.sum) : Alike (.term e) (.term e')
  | factor {e e' : OpenExpression} {t t' : OpenTerm} (sum : e.sum.Alike e'.sum)
      (product : t.product.Alike t'.product) : Alike (.factor e t) (.factor e' t')
  | literal {e e' : OpenExpression} {t t' : OpenTerm} {start value : Nat}
      (sum : e.sum.Alike e'.sum) (product : t.product.Alike t'.product) :
      Alike (.literal e t start value) (.literal e' t' start value)
  | operator {e e' : OpenExpression} {termStart termStart' : Nat} {value : Fraction}
      (sum : e.sum.Alike e'.sum) (reduced : value.Reduced) :
      Alike (.operator e termStart value) (.operator e' termStart' value)
  | complete (value : Fraction) : Alike (.complete value) (.complete value)

/-- Machines with the same prospects. Where the last character ends matters to a literal only, which
may be blamed up to there. -/
structure Machine.Alike (m m' : Machine) : Prop where
  stack : List.Forall₂ Level.Alike m.stack m'.stack
  phase : m.phase.Alike m'.phase
  mark : ∀ e t start value, m.phase = .literal e t start value → m.mark = m'.mark

inductive Progress.Alike : Progress → Progress → Prop
  | more {m m' : Machine} (h : m.Alike m') : Alike (.more m) (.more m')
  | ended {r r' : Run} (h : r.outcome = r'.outcome) : Alike (.ended r) (.ended r')

/-! ## Sums and products -/

theorem PartialSum.alike_start (sign : Sign) : (start sign).Alike (start sign) := by
  intro v hv
  cases sign with
  | plus => exact ⟨rfl, hv⟩
  | minus => exact ⟨rfl, hv.neg⟩

theorem PartialSum.alike_after {total : Fraction} (h : total.Reduced) (sign : Sign) :
    (after total sign).Alike (after total sign) := by
  intro v hv
  cases sign with
  | plus => exact ⟨rfl, h.add hv⟩
  | minus => exact ⟨rfl, h.sub hv⟩

/-- A sign before the first term is an operator after zero. -/
theorem PartialSum.alike_zero (sign : Sign) : (start sign).Alike (after .zero sign) := by
  intro v hv
  refine ⟨?_, (alike_start sign v hv).2⟩
  obtain ⟨q, rfl⟩ := hv.exists_ofRat
  cases sign with
  | plus => simp [join, Fraction.zero_eq_ofRat]
  | minus => simp [join, Fraction.zero_eq_ofRat]

theorem PartialProduct.alike_start : start.Alike start := by
  intro v hv
  refine ⟨rfl, ?_⟩
  rintro _ ⟨⟩
  exact hv

theorem PartialProduct.alike_after {total : Fraction} (h : total.Reduced) (scaling : Scaling) :
    (after total scaling).Alike (after total scaling) := by
  intro v hv
  refine ⟨rfl, ?_⟩
  cases scaling with
  | multiply =>
    rintro _ ⟨⟩
    exact h.mul hv
  | divide =>
    intro w hw
    exact (h.div hv hw).2.1

section
variable {limit : Option Nat} {next : Option Char} {c : Char} {p : Nat} {m m' n : Machine}
  {e : OpenExpression} {t : OpenTerm} {xs : List Question} {q : Progress} {r : Run}

/-! ## The phase and the stack of the other machine -/

namespace Machine

namespace Alike

theorem of_phase (hstack : List.Forall₂ Level.Alike m.stack m'.stack)
    (hphase : m.phase.Alike m'.phase)
    (hno : ∀ e t start value, m.phase ≠ .literal e t start value) : m.Alike m' :=
  ⟨hstack, hphase, fun e t start value hliteral => absurd hliteral (hno e t start value)⟩

theorem expression (h : m.Alike m') (hphase : m.phase = .expression) : m'.phase = .expression := by
  have hphases := h.phase
  rw [hphase] at hphases
  generalize m'.phase = phase at hphases ⊢
  cases hphases
  rfl

theorem term (h : m.Alike m') (hphase : m.phase = .term e) :
    ∃ e', m'.phase = .term e' ∧ e.sum.Alike e'.sum := by
  have hphases := h.phase
  rw [hphase] at hphases
  generalize m'.phase = phase at hphases ⊢
  cases hphases with
  | term hsum => exact ⟨_, rfl, hsum⟩

theorem factor (h : m.Alike m') (hphase : m.phase = .factor e t) :
    ∃ e' t', m'.phase = .factor e' t' ∧ e.sum.Alike e'.sum ∧ t.product.Alike t'.product := by
  have hphases := h.phase
  rw [hphase] at hphases
  generalize m'.phase = phase at hphases ⊢
  cases hphases with
  | factor hsum hproduct => exact ⟨_, _, rfl, hsum, hproduct⟩

theorem literal {start value : Nat} (h : m.Alike m') (hphase : m.phase = .literal e t start value) :
    ∃ e' t', m'.phase = .literal e' t' start value ∧ e.sum.Alike e'.sum ∧
      t.product.Alike t'.product ∧ m.mark = m'.mark := by
  have hmark := h.mark _ _ _ _ hphase
  have hphases := h.phase
  rw [hphase] at hphases
  generalize m'.phase = phase at hphases ⊢
  cases hphases with
  | literal hsum hproduct => exact ⟨_, _, rfl, hsum, hproduct, hmark⟩

theorem operator {termStart : Nat} {value : Fraction} (h : m.Alike m')
    (hphase : m.phase = .operator e termStart value) :
    ∃ e' termStart', m'.phase = .operator e' termStart' value ∧ e.sum.Alike e'.sum ∧
      value.Reduced := by
  have hphases := h.phase
  rw [hphase] at hphases
  generalize m'.phase = phase at hphases ⊢
  cases hphases with
  | operator hsum hreduced => exact ⟨_, _, rfl, hsum, hreduced⟩

theorem complete {value : Fraction} (h : m.Alike m') (hphase : m.phase = .complete value) :
    m'.phase = .complete value := by
  have hphases := h.phase
  rw [hphase] at hphases
  generalize m'.phase = phase at hphases ⊢
  cases hphases
  rfl

theorem stack_nil (h : m.Alike m') : m.stack = [] ↔ m'.stack = [] := by
  rw [← List.length_eq_zero_iff, h.stack.length_eq, List.length_eq_zero_iff]

theorem stack_cons {level : Level} {levels : List Level} (h : m.Alike m')
    (hstack : m.stack = level :: levels) :
    ∃ level' levels', m'.stack = level' :: levels' ∧ level.Alike level' ∧
      List.Forall₂ Level.Alike levels levels' := by
  have hstacks := h.stack
  rw [hstack] at hstacks
  generalize m'.stack = stack at hstacks ⊢
  cases hstacks with
  | cons hlevel hlevels => exact ⟨_, _, rfl, hlevel, hlevels⟩

end Alike

/-! ## Moves -/

theorem SilentMove.alike (move : SilentMove next p m xs n) (h : m.Alike m') :
    ∃ ys n', SilentMove next p m' ys n' ∧ n.Alike n' := by
  cases move with
  | enterExpression hphase hnext =>
    exact ⟨_, _, .enterExpression (h.expression hphase) hnext,
      .of_phase h.stack (.term (PartialSum.alike_start .plus)) nofun⟩
  | enterTerm hphase =>
    obtain ⟨e', hphase', hsum⟩ := h.term hphase
    exact ⟨_, _, .enterTerm hphase',
      .of_phase h.stack (.factor hsum PartialProduct.alike_start) nofun⟩
  | leaveLiteral hphase hnext hjoin =>
    obtain ⟨e', t', hphase', hsum, hproduct, -⟩ := h.literal hphase
    obtain ⟨hsame, hreduced⟩ := hproduct _ (Fraction.ofInt_reduced _)
    exact ⟨_, _, .leaveLiteral hphase' hnext (hsame.symm.trans hjoin),
      .of_phase h.stack (.operator hsum (hreduced _ hjoin)) nofun⟩
  | beside hphase hnext =>
    obtain ⟨e', termStart', hphase', hsum, hreduced⟩ := h.operator hphase
    exact ⟨_, _, .beside hphase' hnext,
      .of_phase h.stack (.factor hsum (PartialProduct.alike_after hreduced .multiply)) nofun⟩

theorem TakingMove.alike (move : TakingMove limit c p m xs n) (h : m.Alike m') :
    ∃ ys n', TakingMove limit c p m' ys n' ∧ n.Alike n' := by
  cases move with
  | @firstSign sign hphase hc =>
    exact ⟨_, _, .firstSign (h.expression hphase) hc,
      .of_phase h.stack (.term (PartialSum.alike_start sign)) nofun⟩
  | firstDigit hphase hc =>
    obtain ⟨e', t', hphase', hsum, hproduct⟩ := h.factor hphase
    exact ⟨_, _, .firstDigit hphase' hc, h.stack, .literal hsum hproduct, fun _ _ _ _ _ => rfl⟩
  | nextDigit hphase hc =>
    obtain ⟨e', t', hphase', hsum, hproduct, -⟩ := h.literal hphase
    exact ⟨_, _, .nextDigit hphase' hc, h.stack, .literal hsum hproduct, fun _ _ _ _ _ => rfl⟩
  | opening hphase hc hdepth =>
    obtain ⟨e', t', hphase', hsum, hproduct⟩ := h.factor hphase
    rw [h.stack.length_eq] at hdepth
    exact ⟨_, _, .opening hphase' hc hdepth,
      .of_phase (.cons ⟨hsum, hproduct, rfl⟩ h.stack) .expression nofun⟩
  | scaling hphase hc =>
    obtain ⟨e', termStart', hphase', hsum, hreduced⟩ := h.operator hphase
    exact ⟨_, _, .scaling hphase' hc,
      .of_phase h.stack (.factor hsum (PartialProduct.alike_after hreduced _)) nofun⟩
  | @sign _ _ value sign hphase hc =>
    obtain ⟨e', termStart', hphase', hsum, hreduced⟩ := h.operator hphase
    obtain ⟨hsame, htotal⟩ := hsum value hreduced
    refine ⟨_, _, .sign hphase' hc, .of_phase h.stack (.term ?_) nofun⟩
    rw [← hsame]
    exact PartialSum.alike_after htotal sign
  | @closing _ _ value level _ product hphase hstack hc hjoin =>
    obtain ⟨e', termStart', hphase', hsum, hreduced⟩ := h.operator hphase
    obtain ⟨level', levels', hstack', hlevel, hlevels⟩ := h.stack_cons hstack
    obtain ⟨hsame, htotal⟩ := hsum value hreduced
    obtain ⟨hjoins, hproduct⟩ := hlevel.product _ htotal
    have hjoin' : level'.term.product.join (e'.sum.join value) = .ok product := by
      rw [← hsame, ← hjoins, hjoin]
    exact ⟨_, _, .closing hphase' hstack' hc hjoin',
      .of_phase hlevels (.operator hlevel.sum (hproduct _ hjoin)) nofun⟩
  | @equals _ _ value hphase hstack hc =>
    obtain ⟨e', termStart', hphase', hsum, hreduced⟩ := h.operator hphase
    refine ⟨_, _, .equals hphase' (h.stack_nil.1 hstack) hc, .of_phase h.stack ?_ nofun⟩
    show (Phase.complete _).Alike (.complete _)
    rw [(hsum value hreduced).1]
    exact .complete _

theorem FinalMove.alike (move : FinalMove limit next p m r) (h : m.Alike m') :
    ∃ r', FinalMove limit next p m' r' ∧ r.outcome = r'.outcome := by
  cases move with
  | refuseFactor hphase hdigit hopening =>
    obtain ⟨e', t', hphase', -⟩ := h.factor hphase
    exact ⟨_, .refuseFactor hphase' hdigit hopening, rfl⟩
  | tooDeep hphase hnext hlimit hdepth =>
    obtain ⟨e', t', hphase', -⟩ := h.factor hphase
    rw [h.stack.length_eq] at hdepth
    exact ⟨_, .tooDeep hphase' hnext hlimit hdepth, rfl⟩
  | @literalFault _ t start value fault hphase hnext hjoin =>
    obtain ⟨e', t', hphase', -, hproduct, hmark⟩ := h.literal hphase
    have hjoin' : t'.product.join (.ofInt value) = .error fault := by
      rw [← (hproduct _ (Fraction.ofInt_reduced _)).1, hjoin]
    refine ⟨_, .literalFault hphase' hnext hjoin', ?_⟩
    show Outcome.failure ⟨_, m.spanFrom start⟩ = .failure ⟨_, m'.spanFrom start⟩
    rw [spanFrom, spanFrom, hmark]
  | @closingFault _ _ value level _ fault hphase hstack hnext hjoin =>
    obtain ⟨e', termStart', hphase', hsum, hreduced⟩ := h.operator hphase
    obtain ⟨level', levels', hstack', hlevel, hlevels⟩ := h.stack_cons hstack
    obtain ⟨hsame, htotal⟩ := hsum value hreduced
    have hjoin' : level'.term.product.join (e'.sum.join value) = .error fault := by
      rw [← hsame, ← (hlevel.product _ htotal).1, hjoin]
    refine ⟨_, .closingFault hphase' hstack' hnext hjoin', ?_⟩
    show Outcome.failure ⟨_, ⟨level.start, _⟩⟩ = .failure ⟨_, ⟨level'.start, _⟩⟩
    rw [hlevel.start]
  | stray hphase hnext =>
    obtain ⟨e', termStart', hphase', -⟩ := h.operator hphase
    exact ⟨_, .stray hphase' hnext, rfl⟩
  | refuseEnd hphase hnext =>
    obtain ⟨e', termStart', hphase', -⟩ := h.operator hphase
    rw [Ne, h.stack_nil] at hnext
    exact ⟨_, .refuseEnd hphase' hnext, rfl⟩
  | @accept _ _ value hphase hstack hnext =>
    obtain ⟨e', termStart', hphase', hsum, hreduced⟩ := h.operator hphase
    exact ⟨_, .accept hphase' (h.stack_nil.1 hstack) hnext,
      congrArg Outcome.value (hsum value hreduced).1⟩
  | acceptComplete hphase hnext => exact ⟨_, .acceptComplete (h.complete hphase) hnext, rfl⟩
  | refuseComplete hphase hnext => exact ⟨_, .refuseComplete (h.complete hphase) hnext, rfl⟩

/-- The steps of machines that are alike lead to machines that are, or to the same outcome. -/
theorem Moves.alike (moves : Moves limit next p m xs q) (h : m.Alike m') :
    ∃ ys q', Moves limit next p m' ys q' ∧ q.Alike q' := by
  induction moves generalizing m' with
  | silent move _ ih =>
    obtain ⟨ys, n', hmove, hn⟩ := move.alike h
    obtain ⟨zs, q', hrest, hq⟩ := ih hn
    exact ⟨_, q', .silent hmove hrest, hq⟩
  | take hnext move =>
    obtain ⟨ys, n', hmove, hn⟩ := move.alike h
    exact ⟨_, _, .take hnext hmove, .more hn⟩
  | final move =>
    obtain ⟨r', hmove, hr⟩ := move.alike h
    exact ⟨_, _, .final hmove, .ended hr⟩

end Machine

/-! ## Runs -/

namespace Machine

theorem Alike.read (h : m.Alike m') (limit : Option Nat) (next : Option Char) (p : Nat) :
    (m.read ⟨limit, .constant false⟩ next p).Alike (m'.read ⟨limit, .constant false⟩ next p) := by
  obtain ⟨xs, q, moves⟩ := exists_moves limit next p m
  obtain ⟨ys, q', moves', hq⟩ := moves.alike h
  rwa [moves.read_quiet, moves'.read_quiet]

/-- Machines that are alike end with the same outcome, whatever they read. -/
theorem Alike.outcome_eq (h : m.Alike m') (limit : Option Nat) (p : Nat) (text : List Char) :
    (m.run ⟨limit, .constant false⟩ p text).outcome =
      (m'.run ⟨limit, .constant false⟩ p text).outcome := by
  induction text generalizing m m' p with
  | nil =>
    have hread := h.read limit none p
    rw [run, run]
    generalize m.read _ none p = q at hread
    generalize m'.read _ none p = q' at hread
    cases hread with
    | more _ => rfl
    | ended hr => exact hr
  | cons c cs ih =>
    cases hc : isIgnored c with
    | true => rw [run_of_ignored hc, run_of_ignored hc, ih h]
    | false =>
      have hread := h.read limit (some c) p
      simp only [run, hc, Bool.false_eq_true, if_false]
      generalize m.read _ (some c) p = q at hread
      generalize m'.read _ (some c) p = q' at hread
      cases hread with
      | more hm => exact ih hm _
      | ended hr => exact hr

end Machine

end

end ExactCalculator
