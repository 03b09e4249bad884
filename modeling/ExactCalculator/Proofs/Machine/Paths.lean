import ExactCalculator.Evaluation
import ExactCalculator.Proofs.Derivation.Growth
import ExactCalculator.Proofs.Machine.Endings
import ExactCalculator.Proofs.Machine.Steps
import Mathlib.Data.List.Induction

/-! Whole runs. A `Path` leads from the beginning of a text to the machine that has read some part of
it, and a `Course` is a path with the step that ends the run. Both are the same for every signal: what
a signal does to them is in their questions (`Path.run`, `Course.run`). A course does not look further
than the next visible character, so texts that begin alike have the same course (`Course.congr`). -/
namespace ExactCalculator
set_option autoImplicit false

/-! ## Settled runs -/

theorem Signal.settle_quiet (questions : List Question) (run : Run) :
    (Signal.constant false).settle questions run = run := by
  have hnone : (Signal.constant false).firstStop questions = none := by
    simp [firstStop, constant]
  rw [settle, hnone]

theorem Signal.settle_cases (signal : Signal) (xs : List Question) (r : Run) :
    signal.settle xs r = r ∨ ∃ x ∈ xs, signal.settle xs r = x.interrupted := by
  cases hstop : signal.firstStop xs with
  | none =>
    left
    rw [settle, hstop]
  | some x =>
    right
    refine ⟨x, List.mem_of_find?_eq_some hstop, ?_⟩
    rw [settle, hstop]

namespace Machine

theorem run_of_ignored {c : Char} (hc : isIgnored c = true) (policy : Policy) (m : Machine)
    (p : Nat) (cs : List Char) :
    m.run policy p (c :: cs) = m.run policy (p + c.utf8Size) cs := by
  simp [run, hc]

/-- A step that goes on, followed by the rest of the run. -/
theorem run_of_more {limit : Option Nat} {signal : Signal} {c : Char} {p : Nat} {m m' : Machine}
    {ys : List Question} (hc : isIgnored c = false)
    (hread : m.read ⟨limit, signal⟩ (some c) p = signal.answer ys (.more m')) (cs : List Char) :
    m.run ⟨limit, signal⟩ p (c :: cs) =
      signal.settle ys (m'.run ⟨limit, signal⟩ (p + c.utf8Size) cs) := by
  simp only [run, hc, Bool.false_eq_true, if_false, hread, Signal.answer, Signal.settle]
  cases signal.firstStop ys <;> rfl

/-- A step that ends the run. -/
theorem run_of_ended {limit : Option Nat} {signal : Signal} {p : Nat} {m : Machine}
    {rest : List Char} {ys : List Question} {run : Run} (hhead : HeadVisible rest)
    (hread : m.read ⟨limit, signal⟩ rest.head? p = signal.answer ys (.ended run)) :
    m.run ⟨limit, signal⟩ p rest = signal.settle ys run := by
  cases rest with
  | nil =>
    have hread : m.read ⟨limit, signal⟩ none p = signal.answer ys (.ended run) := hread
    simp only [Machine.run, hread, Signal.answer, Signal.settle]
    cases signal.firstStop ys <;> rfl
  | cons c cs =>
    have hc : isIgnored c = false := hhead c rfl
    have hread : m.read ⟨limit, signal⟩ (some c) p = signal.answer ys (.ended run) := hread
    simp only [Machine.run, hc, Bool.false_eq_true, if_false, hread, Signal.answer, Signal.settle]
    cases signal.firstStop ys <;> rfl

theorem Moves.exists_next {limit : Option Nat} {next : Option Char} {p : Nat} {m m' : Machine}
    {xs : List Question} {q : Progress} (moves : Moves limit next p m xs q) (hq : q = .more m') :
    ∃ c, next = some c := by
  obtain ⟨_, c, _, -, hnext, -⟩ := moves.exists_taking hq (P := fun _ => True) (fun _ _ _ _ h => h) trivial
  exact ⟨c, hnext⟩

end Machine

/-! ## Paths -/

/-- The machine that has read the first part of a text, with the questions asked on the way. -/
inductive Path (limit : Option Nat) : List Char → List Question → Machine → Prop
  | start : Path limit [] [] {}
  | skip {w : List Char} {xs : List Question} {m : Machine} {c : Char} (path : Path limit w xs m)
      (hc : isIgnored c = true) : Path limit (w ++ [c]) xs m
  | read {w : List Char} {xs ys : List Question} {m m' : Machine} {c : Char}
      (path : Path limit w xs m) (hc : isIgnored c = false)
      (moves : Machine.Moves limit (some c) (byteLength w) m ys (.more m'))
      (hread : ∀ signal : Signal,
        m.read ⟨limit, signal⟩ (some c) (byteLength w) = signal.answer ys (.more m')) :
      Path limit (w ++ [c]) (xs ++ ys) m'

variable {limit : Option Nat} {text w rest : List Char} {xs ys : List Question} {m : Machine}
  {r : Run}

namespace Path

/-- The run on any text that begins as the path does. -/
theorem run (path : Path limit w xs m) (signal : Signal) (rest : List Char) :
    Machine.run ⟨limit, signal⟩ {} 0 (w ++ rest) =
      signal.settle xs (m.run ⟨limit, signal⟩ (byteLength w) rest) := by
  induction path generalizing rest with
  | start => rfl
  | skip path hc ih =>
    rw [List.append_assoc, ih, List.singleton_append, Machine.run_of_ignored hc]
    simp
  | read path hc moves hread ih =>
    rw [List.append_assoc, ih, List.singleton_append, Machine.run_of_more hc (hread signal),
      ← Signal.settle_append]
    simp

theorem skipAll (path : Path limit w xs m) {z : List Char} (hz : visible z = []) :
    Path limit (w ++ z) xs m := by
  induction z generalizing w with
  | nil => simpa using path
  | cons c cs ih =>
    have hall := visible_eq_nil_iff.1 hz
    have hc : isIgnored c = true := hall c (List.mem_cons_self ..)
    rw [visible_cons_of_ignored cs hc] at hz
    have hpath := ih (path.skip hc) hz
    simpa using hpath

/-- Ignored characters at the end of a path do nothing. -/
theorem of_skipAll {z : List Char} (hz : visible z = []) (path : Path limit (w ++ z) xs m) :
    Path limit w xs m := by
  induction z using List.reverseRecOn with
  | nil => simpa using path
  | append_singleton z c ih =>
    have hall := visible_eq_nil_iff.1 hz
    have hc : isIgnored c = true := hall c (by simp)
    have hz' : visible z = [] := visible_eq_nil_iff.2 fun b hb => hall b (by simp [hb])
    apply ih hz'
    generalize hv : w ++ (z ++ [c]) = v at path
    rw [← List.append_assoc] at hv
    cases path with
    | start => simp at hv
    | skip path =>
      obtain ⟨rfl, -⟩ := List.append_inj' hv rfl
      exact path
    | read path hno =>
      obtain ⟨-, hchar⟩ := List.append_inj' hv rfl
      rw [← List.singleton_inj.1 hchar, hc] at hno
      cases hno

end Path

/-! ## The draft of a path -/

namespace Machine

theorem SilentMove.stack_eq {next : Option Char} {p : Nat} {m m' : Machine}
    (move : SilentMove next p m ys m') : m'.stack = m.stack := by
  cases move <;> rfl

theorem TakingMove.stack_le {c : Char} {p n : Nat} {m m' : Machine}
    (move : TakingMove limit c p m ys m') (hlimit : limit = some n) (h : m.stack.length ≤ n) :
    m'.stack.length ≤ n := by
  cases move with
  | firstSign | firstDigit | nextDigit | scaling | sign | equals => exact h
  | opening hphase hc hdepth => exact hdepth n hlimit
  | closing hphase hstack =>
    rw [hstack, List.length_cons] at h
    exact Nat.le_of_succ_le h

theorem Moves.stack_le {next : Option Char} {p n : Nat} {m m' : Machine} {q : Progress}
    (moves : Moves limit next p m ys q) (hq : q = .more m') (hlimit : limit = some n)
    (h : m.stack.length ≤ n) : m'.stack.length ≤ n := by
  have hsilent : ∀ m ys m', SilentMove next p m ys m' → m.stack.length ≤ n → m'.stack.length ≤ n :=
    fun _ _ _ move h => move.stack_eq ▸ h
  obtain ⟨m₀, c, ys, h₀, -, move⟩ := moves.exists_taking hq hsilent h
  exact move.stack_le hlimit h₀

end Machine

/-- A path has come to a draft: the draft of its visible characters, within the depth limit. -/
structure Stands (limit : Option Nat) (text w : List Char) (d : Draft) (m : Machine) : Prop where
  tracks : Tracks text w d m
  readAll : Draft.start.readAll (visible w) = some d
  depth_le : ∀ n, limit = some n → d.depth ≤ n

/-- Every path has come to a draft. -/
theorem Path.stands (path : Path limit w xs m) (hsplit : text = w ++ rest) :
    ∃ d, Stands limit text w d m := by
  induction path generalizing rest with
  | start => exact ⟨.start, .start text, rfl, fun n _ => Nat.zero_le n⟩
  | @skip w xs m c path hc ih =>
    obtain ⟨d, htracks, hreadAll, hdepth⟩ := ih (by rw [hsplit, List.append_assoc])
    refine ⟨d, htracks.skip hc, ?_, hdepth⟩
    rw [visible_append, visible_cons_of_ignored [] hc, visible_nil, List.append_nil]
    exact hreadAll
  | @read w xs ys m m' c path hc moves hread ih =>
    rw [List.append_assoc, List.singleton_append] at hsplit
    obtain ⟨d, htracks, hreadAll, hdepth⟩ := ih hsplit
    obtain ⟨d', hd', htracks'⟩ := htracks.more hsplit hc moves rfl
    refine ⟨d', htracks', ?_, ?_⟩
    · rw [visible_append, visible_cons_of_visible [] hc, visible_nil, Draft.readAll_append,
        hreadAll, Option.bind_some, Draft.readAll_cons, hd']
      rfl
    · intro n hlimit
      have hstack : m.stack.length ≤ n := by
        rw [← htracks.levels.length_eq]
        exact le_trans d.length_levels_le_depth (hdepth n hlimit)
      rw [Draft.read_depth hd', htracks'.levels.length_eq]
      exact max_le (hdepth n hlimit) (moves.stack_le rfl hlimit hstack)

/-! ## Courses -/

/-- A whole run: the part `w` of the text that it reads and the step in which it ends as `r`. -/
structure Course (limit : Option Nat) (text w rest : List Char) (xs : List Question) (m : Machine)
    (ys : List Question) (r : Run) : Prop where
  text_eq : text = w ++ rest
  head : HeadVisible rest
  path : Path limit w xs m
  moves : Machine.Moves limit rest.head? (byteLength w) m ys (.ended r)
  read : ∀ signal : Signal,
    m.read ⟨limit, signal⟩ rest.head? (byteLength w) = signal.answer ys (.ended r)

theorem Path.exists_course (path : Path limit w xs m) (rest : List Char) :
    ∃ w' rest' xs' m' ys r, Course limit (w ++ rest) w' rest' xs' m' ys r := by
  induction rest generalizing w xs m with
  | nil =>
    obtain ⟨ys, q, moves, hread⟩ := Machine.read_steps limit none (byteLength w) m
    cases q with
    | more m' =>
      obtain ⟨c, hc⟩ := moves.exists_next rfl
      cases hc
    | ended r => exact ⟨w, [], xs, m, ys, r, rfl, by simp [HeadVisible], path, moves, hread⟩
  | cons c cs ih =>
    cases hc : isIgnored c with
    | true =>
      have h := ih (path.skip hc)
      rwa [List.append_assoc, List.singleton_append] at h
    | false =>
      obtain ⟨ys, q, moves, hread⟩ := Machine.read_steps limit (some c) (byteLength w) m
      cases q with
      | more m' =>
        have h := ih (path.read hc moves hread)
        rwa [List.append_assoc, List.singleton_append] at h
      | ended r => exact ⟨w, c :: cs, xs, m, ys, r, rfl, .cons hc cs, path, moves, hread⟩

/-- Every text has a course. -/
theorem exists_course (limit : Option Nat) (text : List Char) :
    ∃ w rest xs m ys r, Course limit text w rest xs m ys r := by
  have hstart : Path limit [] [] {} := .start
  simpa using hstart.exists_course text

namespace Course

/-- The run under a signal: the end of the course, or the first question answered by stopping. -/
theorem run (h : Course limit text w rest xs m ys r) (signal : Signal) :
    Machine.run ⟨limit, signal⟩ {} 0 text = signal.settle (xs ++ ys) r := by
  rw [h.text_eq, h.path.run, Machine.run_of_ended h.head (h.read signal), Signal.settle_append]

/-- A course looks no further than the next visible character. -/
theorem congr (h : Course limit text w rest xs m ys r) {rest' : List Char}
    (hhead : rest'.head? = rest.head?) : Course limit (w ++ rest') w rest' xs m ys r where
  text_eq := rfl
  head := by
    unfold HeadVisible
    rw [hhead]
    exact h.head
  path := h.path
  moves := by
    rw [hhead]
    exact h.moves
  read := by
    rw [hhead]
    exact h.read

/-- A course ends for a reason that its draft has. -/
theorem ending (h : Course limit text w rest xs m ys r) :
    ∃ d, Stands limit text w d m ∧ d.Ending limit text w rest.head? r.outcome := by
  obtain ⟨d, hd⟩ := h.path.stands h.text_eq
  exact ⟨d, hd, hd.tracks.ended h.text_eq h.head h.moves rfl⟩

end Course

/-- A run under a policy ends as its course does, or at one of its questions. -/
theorem Course.runWith_cases {policy : Policy} {input : String}
    (h : Course policy.depthLimit input.toList w rest xs m ys r) :
    runWith policy input = r ∨ ∃ x ∈ xs ++ ys, runWith policy input = x.interrupted := by
  have hrun : runWith policy input = policy.signal.settle (xs ++ ys) r := h.run policy.signal
  rw [hrun]
  exact policy.signal.settle_cases (xs ++ ys) r

/-- The evaluation of a text ends as its course does. -/
theorem Course.runSteady_eq {input : String}
    (h : Course (some maxDepth) input.toList w rest xs m ys r) : runSteady false input = r := by
  rw [runSteady, runWith, Policy.standard, h.run, Signal.settle_quiet]

theorem Course.evaluate_eq {input : String}
    (h : Course (some maxDepth) input.toList w rest xs m ys r) : evaluate input = r.outcome := by
  rw [evaluate, h.runSteady_eq]

end ExactCalculator
