import ExactCalculator.Proofs.Acceptance
import ExactCalculator.Proofs.Blame.Parts

/-! What a failure blames, whatever the answers to polls are. Failures of a course blame what its
draft could not read; the failure of an interruption blames the place of the poll, which is a place
between two characters. -/
namespace ExactCalculator
set_option autoImplicit false

/-- The blamed part of a text, cut out of it, is exactly what the cause says. -/
def Failure.Exact (failure : Failure) (text : List Char) (cut : Cut) : Prop :=
  match failure.cause with
  | .unexpectedChar c => cut.inside = [c] ∧ isIgnored c = false
  | .endOfInput => failure.span = .emptyAt (byteLength text)
  | .tooDeep => cut.inside = ['('] ∧ cut.before.count '(' = cut.before.count ')' + maxDepth
  | .arithmetic fault =>
    fault.message = "division by zero" ∧ cut.inside ≠ [] ∧
      (∀ c, cut.inside.head? = some c → isIgnored c = false) ∧
      (∀ c, cut.inside.getLast? = some c → isIgnored c = false) ∧
      (visible cut.before).getLast? = some '/' ∧
      evaluate (String.ofList cut.inside) = .value .zero
  | .interrupt => cut.inside = []

/-! ## Places of polls -/

section
variable {limit : Option Nat} {text w rest : List Char} {xs ys : List Question} {m : Machine}
  {d : Draft} {r : Run} {failure : Failure}

namespace Machine

theorem SilentMove.offset_eq {next : Option Char} {p : Nat} {m' : Machine}
    (move : SilentMove next p m xs m') : ∀ x ∈ xs, x.offset = p := by
  intro x hx
  cases move with
  | enterExpression | enterTerm | beside => cases hx
  | leaveLiteral => rw [List.mem_singleton.1 hx]

theorem TakingMove.offset_eq {c : Char} {p : Nat} {m' : Machine}
    (move : TakingMove limit c p m xs m') :
    ∀ x ∈ xs, x.offset = p ∨ c = ')' ∧ x.offset = p + 1 := by
  intro x hx
  cases move with
  | firstSign | opening | scaling | sign | equals => cases hx
  | firstDigit | nextDigit =>
    left
    rw [List.mem_singleton.1 hx]
  | closing _ _ hc =>
    right
    refine ⟨(Symbol.ofChar_eq_iff rfl).1 hc, ?_⟩
    rw [List.mem_singleton.1 hx]

theorem Moves.offset_eq {next : Option Char} {p : Nat} {q : Progress}
    (moves : Moves limit next p m xs q) :
    ∀ x ∈ xs, x.offset = p ∨ next = some ')' ∧ x.offset = p + 1 := by
  induction moves with
  | silent move _ ih =>
    intro x hx
    rcases List.mem_append.1 hx with hmove | hrest
    · exact .inl (move.offset_eq x hmove)
    · exact ih x hrest
  | take hnext move =>
    intro x hx
    rw [hnext, Option.some.injEq]
    exact move.offset_eq x hx
  | final => simp

theorem Moves.boundary {q : Progress} (moves : Moves limit rest.head? (byteLength w) m xs q) :
    ∀ x ∈ xs, IsBoundary (w ++ rest) x.offset := by
  intro x hx
  rcases moves.offset_eq x hx with hoffset | ⟨hnext, hoffset⟩
  · exact ⟨w, rest, rfl, hoffset.symm⟩
  · cases rest with
    | nil => cases hnext
    | cons c cs =>
      cases hnext
      refine ⟨w ++ [')'], cs, by simp, ?_⟩
      rw [hoffset, byteLength_append]
      rfl

end Machine

theorem Path.boundary (path : Path limit w xs m) : ∀ x ∈ xs, IsBoundary w x.offset := by
  induction path with
  | start => simp
  | @skip w xs m c path hc ih => exact fun x hx => (ih x hx).append [c]
  | @read w xs ys m m' c path hc moves hread ih =>
    intro x hx
    have hmoves : Machine.Moves limit [c].head? (byteLength w) m ys (.more m') := moves
    rcases List.mem_append.1 hx with hbefore | hstep
    · exact (ih x hbefore).append [c]
    · exact hmoves.boundary x hstep

theorem Course.boundary (h : Course limit text w rest xs m ys r) :
    ∀ x ∈ xs ++ ys, IsBoundary text x.offset := by
  intro x hx
  rw [h.text_eq]
  rcases List.mem_append.1 hx with hpath | hstep
  · exact (h.path.boundary x hpath).append rest
  · exact h.moves.boundary x hstep

/-! ## Causes -/

theorem count_visible {c : Char} (hc : isIgnored c = false) (cs : List Char) :
    (visible cs).count c = cs.count c :=
  List.count_filter (by simp [hc])

/-- The open levels are the parentheses that are not closed yet. -/
theorem Stands.count_levels (h : Stands limit text w d m) :
    d.levels.length + w.count ')' = w.count '(' := by
  have hlevels := Draft.readAll_levels h.readAll
  rw [count_visible rfl, count_visible rfl] at hlevels
  simpa [Draft.start] using hlevels

/-- Where a parenthesis is one too many, as many are open as may be. -/
theorem Stands.count_of_tooDeep {n : Nat} (h : Stands (some n) text w d m)
    (hdepth : n ≤ d.levels.length) : w.count '(' = w.count ')' + n := by
  have hlevels := h.count_levels
  have hle := le_trans d.length_levels_le_depth (h.depth_le n rfl)
  omega

/-- A divisor that is zero has this value on its own. -/
theorem ZeroPart.evaluate_eq {u b : List Char} {factor : Factor} (h : ZeroPart u b factor)
    (hdepth : factor.depth ≤ maxDepth) : evaluate (String.ofList b) = .value .zero := by
  have hwf : (Expression.first none (.first factor)).WellFormed := h.wellFormed
  have hvalue : (Expression.first none (.first factor)).value? = some 0 := by
    simp [Expression.value?, Term.value?, h.zero, Sign.apply]
  have hparse : Draft.parse (visible (String.ofList b).toList) =
      some (.first none (.first factor)) := by
    rw [String.toList_ofList, h.text_eq]
    exact Draft.parse_text hwf
  refine evaluate_of_parse hparse hdepth ?_
  rw [hvalue]
  exact Fraction.zero_standsFor

theorem ZeroPart.exact {u b z : List Char} {factor : Factor} {span : Span}
    (h : ZeroPart u b factor) (hdepth : factor.depth ≤ maxDepth) :
    Failure.Exact ⟨.arithmetic .divisionByZero, span⟩ text ⟨u, b, z⟩ := by
  have hne : b ≠ [] := by
    rintro rfl
    exact Factor.text_ne_nil h.wellFormed h.text_eq.symm
  exact ⟨rfl, hne, h.first, h.last, h.divided, h.evaluate_eq hdepth⟩

theorem Stands.group_depth_le {n : Nat} {level : DraftLevel} {outer : List DraftLevel}
    {inner : Expression} (h : Stands (some n) text w d m) (hlevels : d.levels = level :: outer)
    (hread : d.read ')' = some ⟨outer, .operator level.sum (level.product.join (.group inner))⟩) :
    (Factor.group inner).depth ≤ n := by
  have hle : d.depth ≤ n := h.depth_le n rfl
  have hlength := d.length_levels_le_depth
  have hdepth := Draft.read_depth hread
  rw [hlevels, List.length_cons] at hlength
  simp only [Draft.depth, DraftPoint.depth, ProductDraft.join_depth] at hdepth hle hlength
  omega

/-- A course that fails blames what its draft could not read. -/
theorem Course.exact (h : Course (some maxDepth) text w rest xs m ys r)
    (hr : r.outcome = .failure failure) :
    ∃ cut, failure.span.cut? text = some cut ∧ failure.Exact text cut := by
  obtain ⟨d, cut, hstands, hcut, hblamed⟩ := h.blamed hr
  refine ⟨cut, hcut, ?_⟩
  cases hblamed with
  | ending hrest =>
    rw [h.text_eq, hrest, List.append_nil]
    rfl
  | char hrest =>
    have hhead := h.head
    rw [hrest] at hhead
    exact ⟨rfl, hhead _ rfl⟩
  | opening hrest hlimit hdepth =>
    cases hlimit
    exact ⟨rfl, hstands.count_of_tooDeep hdepth⟩
  | literal _ _ _ _ _ part => exact part.exact (Nat.zero_le _)
  | group _ _ hlevels hread part => exact part.exact (hstands.group_depth_le hlevels hread)

end

/-- Whatever the answers to polls are, a failure blames exactly what its cause says. -/
theorem runWith_blames_exactly (signal : Signal) {text : String} {failure : Failure}
    (h : (runWith (.standard signal) text).outcome = .failure failure) :
    ∃ cut, failure.span.cut? text.toList = some cut ∧ failure.Exact text.toList cut := by
  obtain ⟨w, rest, xs, m, ys, r, hcourse⟩ := exists_course (some maxDepth) text.toList
  rw [runWith, Policy.standard, hcourse.run] at h
  rcases signal.settle_cases (xs ++ ys) r with hrun | ⟨x, hx, hrun⟩
  · rw [hrun] at h
    exact hcourse.exact h
  · rw [hrun] at h
    obtain rfl : (⟨.interrupt, .emptyAt x.offset⟩ : Failure) = failure := Outcome.failure.inj h
    obtain ⟨u, v, htext, hu⟩ := hcourse.boundary x hx
    refine ⟨⟨u, [], v⟩, ?_, rfl⟩
    rw [htext, ← hu]
    exact Span.cut?_emptyAt u v

/-- A stop flag that goes up with the second poll interrupts `7*2` after its first factor. -/
theorem runWith_blames_exactly_of_interrupt :
    (runWith (.standard fun journal => journal.polls.size == 2) "7*2").outcome =
        .failure ⟨.interrupt, .emptyAt 1⟩ ∧
      ∃ cut, (Span.emptyAt 1).cut? "7*2".toList = some cut ∧
        Failure.Exact ⟨.interrupt, .emptyAt 1⟩ "7*2".toList cut :=
  have h : (runWith (.standard fun journal => journal.polls.size == 2) "7*2").outcome =
      .failure ⟨.interrupt, .emptyAt 1⟩ := by rfl
  ⟨h, runWith_blames_exactly (fun journal => journal.polls.size == 2) h⟩

end ExactCalculator
