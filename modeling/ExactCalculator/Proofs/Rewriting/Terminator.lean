import ExactCalculator.Proofs.Blame.ViablePrefix
import ExactCalculator.Proofs.Machine.Quiet

/-! The sign `=` after a text means the end of the input. The step that finds the end of the input is, with
an `=` in its place, made of the same moves up to the last one (`Moves.terminated`): where the one accepts
a value the other takes the sign and has the value complete, where the one misses something the other
refuses the sign, and where the one finds a divisor that is zero so does the other. -/
namespace ExactCalculator
set_option autoImplicit false

/-- What becomes of a failure at the end of the input when an `=` comes there, at the offset `p`. -/
def Failure.terminated (p : Nat) (failure : Failure) : Failure :=
  if failure.cause = .endOfInput then ⟨.unexpectedChar '=', .ofChar '=' p⟩ else failure

/-- How a step with an `=` at `p` goes on, when the run without it ends there. -/
inductive Run.Terminated (p : Nat) (r : Run) : Progress → Prop
  | complete {v : Fraction} {m : Machine} (hr : r.outcome = .value v)
      (hphase : m.phase = .complete v) : Terminated p r (.more m)
  | failed {failure : Failure} {r' : Run} (hr : r.outcome = .failure failure)
      (hr' : r'.outcome = .failure (failure.terminated p)) : Terminated p r (.ended r')

section
variable {limit : Option Nat} {p : Nat} {m m' : Machine} {xs : List Question} {q : Progress}
  {r : Run} {v : Fraction} {w z rest : List Char} {c : Char}

namespace Machine

theorem SilentMove.terminated (move : SilentMove none p m xs m') :
    SilentMove (some '=') p m xs m' ∧ ∀ v, m'.phase ≠ .complete v := by
  cases move with
  | enterExpression hphase => exact ⟨.enterExpression hphase nofun, nofun⟩
  | enterTerm hphase => exact ⟨.enterTerm hphase, nofun⟩
  | leaveLiteral hphase hnext hjoin => exact ⟨.leaveLiteral hphase nofun hjoin, nofun⟩
  | beside hphase hnext =>
    rcases hnext with ⟨digit, hs⟩ | hs
    · cases hs
    · cases hs

theorem FinalMove.terminated (move : FinalMove limit none p m r)
    (hphase : ∀ v, m.phase ≠ .complete v) :
    ∃ ys q, Moves limit (some '=') p m ys q ∧ r.Terminated p q := by
  cases move with
  | refuseFactor hphase =>
    exact ⟨_, _, .final (.refuseFactor hphase nofun nofun), .failed rfl rfl⟩
  | tooDeep _ hnext => cases hnext
  | literalFault hphase hnext hjoin =>
    exact ⟨_, _, .final (.literalFault hphase nofun hjoin), .failed rfl rfl⟩
  | closingFault _ _ hnext => cases hnext
  | stray _ hnext => cases hnext
  | refuseEnd hphase hnext =>
    rcases hnext with ⟨hs, -⟩ | ⟨hs, -⟩ | ⟨-, hstack⟩
    · cases hs
    · cases hs
    · exact ⟨_, _, .final (.refuseEnd hphase (.inr (.inl ⟨rfl, hstack⟩))), .failed rfl rfl⟩
  | accept hphase hstack =>
    exact ⟨_, _, .take rfl (.equals hphase hstack rfl), .complete rfl rfl⟩
  | acceptComplete hcomplete => exact absurd hcomplete (hphase _)
  | refuseComplete hcomplete => exact absurd hcomplete (hphase _)

/-- The step that ends a run with the input, with an `=` in the place of the end. -/
theorem Moves.terminated (moves : Moves limit none p m xs q) (hq : q = .ended r)
    (hphase : ∀ v, m.phase ≠ .complete v) :
    ∃ ys q', Moves limit (some '=') p m ys q' ∧ r.Terminated p q' := by
  induction moves with
  | silent move _ ih =>
    obtain ⟨hmove, hcomplete⟩ := move.terminated
    obtain ⟨ys, q', hmoves, hq'⟩ := ih hq hcomplete
    exact ⟨_, q', .silent hmove hmoves, hq'⟩
  | take hnext => cases hnext
  | final move =>
    cases hq
    exact move.terminated hphase

/-- After the `=` nothing but ignored characters may come. -/
theorem run_of_complete (hphase : m.phase = .complete v) (hz : visible z = []) :
    (m.run ⟨limit, .constant false⟩ p z).outcome = .value v := by
  have hfinal : Moves limit [].head? (p + byteLength z) m [] (.ended ⟨.value v, m.journal⟩) :=
    .final (.acceptComplete hphase rfl)
  have hrun := run_append_ignored hz ⟨limit, .constant false⟩ m p []
  rw [List.append_nil] at hrun
  rw [hrun, hfinal.run_eq_of_ended nofun]

theorem run_of_complete_visible (hphase : m.phase = .complete v) (hz : visible z = [])
    (hc : isIgnored c = false) :
    (m.run ⟨limit, .constant false⟩ p (z ++ c :: rest)).outcome =
      .failure ⟨.unexpectedChar c, .ofChar c (p + byteLength z)⟩ := by
  have hno : Symbol.ofNext (some c) ≠ .ending := Symbol.ofChar_ne_ending c
  have hfinal : Moves limit (c :: rest).head? (p + byteLength z) m [] (.ended _) :=
    .final (.refuseComplete hphase hno)
  rw [run_append_ignored hz, hfinal.run_eq_of_ended (.cons hc rest)]
  rfl

end Machine

/-- Before an `=` no run has a value complete. -/
theorem Path.phase_ne_complete (path : Path limit w xs m) (hw : '=' ∉ w) (v : Fraction) :
    m.phase ≠ .complete v := by
  intro hphase
  obtain ⟨d, hstands⟩ := path.stands (List.append_nil w).symm
  have hpoint := hstands.tracks.point
  have htext := hstands.tracks.text_eq
  rw [Draft.text] at htext
  rw [hphase] at hpoint
  generalize d.point = point at hpoint htext
  cases hpoint with
  | complete =>
    have hmem : '=' ∈ visible w := by
      rw [htext]
      simp [DraftPoint.text]
    exact hw (List.mem_of_mem_filter hmem)

end

/-- What an `=` and more text after it do to the evaluation of a text. -/
theorem evaluate_append_equals {text : String} (h : '=' ∉ text.toList) (more : String) :
    (∃ v m, evaluate text = .value v ∧ m.phase = .complete v ∧
        evaluate (text ++ "=" ++ more) =
          (Machine.run (.standard (.constant false)) m (byteLength text.toList + 1)
            more.toList).outcome) ∨
      ∃ failure, evaluate text = .failure failure ∧
        evaluate (text ++ "=" ++ more) =
          .failure (failure.terminated (byteLength text.toList)) := by
  have hequals : (text ++ "=" ++ more).toList = text.toList ++ '=' :: more.toList := by
    rw [String.toList_append, String.toList_append, List.append_assoc]
    rfl
  obtain ⟨w, rest, xs, m, ys, r, hcourse⟩ := exists_course (some maxDepth) text.toList
  have heval := hcourse.evaluate_eq
  cases rest with
  | nil =>
    obtain rfl : text.toList = w := hcourse.text_eq.trans (List.append_nil w)
    have hphase := hcourse.path.phase_ne_complete h
    obtain ⟨zs, q, hmoves, hq⟩ := hcourse.moves.terminated rfl hphase
    have hrun := hcourse.path.evaluate_eq hequals
    cases hq with
    | complete hr hcomplete =>
      rw [Policy.standard, hmoves.run_eq rfl] at hrun
      exact .inl ⟨_, _, heval.trans hr, hcomplete, hrun⟩
    | @failed failure r' hr hr' =>
      have hended : Machine.Moves (some maxDepth) ('=' :: more.toList).head? (byteLength text.toList)
          m zs (.ended r') := hmoves
      rw [Policy.standard, hended.run_eq_of_ended (.cons rfl _)] at hrun
      exact .inr ⟨failure, heval.trans hr, hrun.trans hr'⟩
  | cons b rest =>
    -- the run ends before a character of the text and does not look as far as the `=`
    obtain ⟨failure, hr⟩ := hcourse.exists_failure
    obtain ⟨d, cut, -, -, hblamed⟩ := hcourse.blamed hr
    have hkeep : failure.terminated (byteLength text.toList) = failure := by
      cases hblamed with
      | ending hnil => cases hnil
      | char | opening | literal | group => rfl
    have hmore : Course (some maxDepth) (w ++ b :: (rest ++ '=' :: more.toList)) w
        (b :: (rest ++ '=' :: more.toList)) xs m ys r := hcourse.congr rfl
    rw [← List.cons_append, ← List.append_assoc, ← hcourse.text_eq, ← hequals] at hmore
    refine .inr ⟨failure, heval.trans hr, ?_⟩
    rw [hkeep, hmore.evaluate_eq, hr]

/-- An `=` at the end is neutral. A text with a value keeps it, ignored characters may follow and any
other character is refused; a text that ends too early has the `=` refused; any other failure stays. -/
theorem evaluate_terminated {text : String} (h : '=' ∉ text.toList) :
    (∀ v, evaluate text = .value v → ∀ w : String, visible w.toList = [] →
        evaluate (text ++ "=" ++ w) = .value v ∧
        ∀ (c : Char) (more : String), isIgnored c = false →
          evaluate (text ++ "=" ++ w ++ String.singleton c ++ more) =
            .failure ⟨.unexpectedChar c, .ofChar c (byteLength (text ++ "=" ++ w).toList)⟩) ∧
      ∀ failure, evaluate text = .failure failure →
        evaluate (text ++ "=") = .failure (failure.terminated (byteLength text.toList)) := by
  have hlength : ∀ w : String, byteLength (text ++ "=" ++ w).toList =
      byteLength text.toList + 1 + byteLength w.toList := by
    intro w
    rw [String.toList_append, String.toList_append, byteLength_append, byteLength_append]
    rfl
  refine ⟨?_, ?_⟩
  · intro v hv w hw
    have hcomplete : ∀ more : String, ∃ m : Machine, m.phase = .complete v ∧
        evaluate (text ++ "=" ++ more) = (m.run (.standard (.constant false))
          (byteLength text.toList + 1) more.toList).outcome := by
      intro more
      rcases evaluate_append_equals h more with ⟨v', m, hv', hphase, hrun⟩ | ⟨failure, hx, -⟩
      · obtain rfl := Outcome.value.inj (hv.symm.trans hv')
        exact ⟨m, hphase, hrun⟩
      · cases hv.symm.trans hx
    refine ⟨?_, ?_⟩
    · obtain ⟨m, hphase, hrun⟩ := hcomplete w
      exact hrun.trans (Machine.run_of_complete hphase hw)
    · intro c more hc
      obtain ⟨m, hphase, hrun⟩ := hcomplete (w ++ String.singleton c ++ more)
      have hrest : (w ++ String.singleton c ++ more).toList = w.toList ++ c :: more.toList := by
        rw [String.toList_append, String.toList_append, List.append_assoc]
        simp
      rw [← String.append_assoc, ← String.append_assoc, hrest] at hrun
      rw [hrun, hlength]
      exact Machine.run_of_complete_visible hphase hw hc
  · intro failure hfailure
    rcases evaluate_append_equals h "" with ⟨v, m, hv, -⟩ | ⟨x, hx, hsame⟩
    · cases hfailure.symm.trans hv
    · obtain rfl := Outcome.failure.inj (hfailure.symm.trans hx)
      rwa [String.append_empty] at hsame

/-- After `6/4=` a letter is ignored and a second `=` is not, and the literal that `5/0` divides by ends
with the `=`. -/
theorem evaluate_terminated_of_quotients :
    ('=' ∉ "6/4".toList ∧ evaluate "6/4" = .value ⟨3, 2⟩ ∧ evaluate "6/4= x" = .value ⟨3, 2⟩ ∧
        evaluate "6/4= x=1" = .failure ⟨.unexpectedChar '=', ⟨6, 7⟩⟩) ∧
      '=' ∉ "5/0".toList ∧ evaluate "5/0" = .failure ⟨.arithmetic .divisionByZero, ⟨2, 3⟩⟩ ∧
        evaluate "5/0=" = .failure ⟨.arithmetic .divisionByZero, ⟨2, 3⟩⟩ := by
  have hno : '=' ∉ "6/4".toList := by decide
  have hvalue : evaluate "6/4" = .value ⟨3, 2⟩ := by rfl
  obtain ⟨hsame, hrefused⟩ := (evaluate_terminated hno).1 _ hvalue " x" (by rfl)
  have hno' : '=' ∉ "5/0".toList := by decide
  have hfailure : evaluate "5/0" = .failure ⟨.arithmetic .divisionByZero, ⟨2, 3⟩⟩ := by rfl
  exact ⟨⟨hno, hvalue, hsame, hrefused '=' "1" rfl⟩, hno', hfailure,
    (evaluate_terminated hno').2 _ hfailure⟩

end ExactCalculator
