import ExactCalculator.Proofs.Acceptance
import ExactCalculator.Proofs.Blame.Parts
import ExactCalculator.Proofs.Derivation.Completion

/-! Failures come as early as they can. What a run has read before it fails can always be completed to
an accepted text, and once the blamed part is read nothing that follows can change the failure. Only a
literal divisor must be known to have ended: one more digit could save it. -/
namespace ExactCalculator
set_option autoImplicit false

/-! ## Completions and failures -/

/-- Some text that begins with `start` is accepted. -/
def Completable (start : List Char) : Prop :=
  ∃ more v, evaluate (String.ofList (start ++ more)) = .value v

/-- The text that begins with `start` fails in this way, however it goes on as admitted. -/
def FailsAfter (failure : Failure) (start : List Char) (admits : List Char → Prop) : Prop :=
  ∀ more, admits more → evaluate (String.ofList (start ++ more)) = .failure failure

/-- The next visible character, if there is one, is not a digit. -/
def EndsNumber (more : List Char) : Prop :=
  ∀ c, (visible more).head? = some c → c.isDigit = false

/-- The failure of a text, cut at the blamed part, comes as early as it can. -/
def Failure.Earliest (failure : Failure) (text : List Char) (cut : Cut) : Prop :=
  match failure.cause with
  | .unexpectedChar _ | .tooDeep =>
    FailsAfter failure (cut.before ++ cut.inside) (fun _ => True) ∧ Completable cut.before
  | .endOfInput => Completable text
  | .arithmetic _ =>
    (cut.inside.getLast? = some ')' →
      FailsAfter failure (cut.before ++ cut.inside) fun _ => True) ∧
    ((∃ c, cut.inside.getLast? = some c ∧ c.isDigit = true) →
      FailsAfter failure (cut.before ++ cut.inside) EndsNumber) ∧
    (cut.inside.getLast? = some ')' ∨ ∃ c, cut.inside.getLast? = some c ∧ c.isDigit = true)
  | .interrupt => False

/-! ## What has been read can be completed -/

theorem SumDraft.Computes.valued {sum : SumDraft} {s : PartialSum} (h : sum.Computes s) :
    sum.Valued := by
  cases h with
  | start => trivial
  | after sign htotal =>
    intro hnone
    rw [htotal.value_eq] at hnone
    cases hnone

theorem ProductDraft.Computes.valued {product : ProductDraft} {p : PartialProduct}
    (h : product.Computes p) : product.Valued := by
  cases h with
  | start => trivial
  | after joint htotal =>
    intro hnone
    rw [htotal.value_eq] at hnone
    cases hnone

theorem LevelsTrack.valued {text : List Char} {ds : List DraftLevel} {stack : List Level}
    (h : LevelsTrack text ds stack) : ∀ level ∈ ds, level.sum.Valued ∧ level.product.Valued := by
  induction h with
  | nil => simp
  | cons hexpression hterm _ _ ih =>
    intro level hmem
    rcases List.mem_cons.1 hmem with rfl | hrest
    · exact ⟨hexpression.computes.valued, hterm.computes.valued⟩
    · exact ih level hrest

theorem PhaseTracks.valued {text before : List Char} {point : DraftPoint} {phase : Phase}
    (h : PhaseTracks text before point phase) : point.Valued := by
  cases h with
  | expression => trivial
  | term hexpression => exact ⟨hexpression.computes.valued, trivial⟩
  | factor hexpression hterm => exact ⟨hexpression.computes.valued, hterm.computes.valued⟩
  | literal hexpression hterm => exact ⟨hexpression.computes.valued, hterm.computes.valued⟩
  | operator hexpression hbegins hvalue =>
    refine ⟨hexpression.computes.valued, ?_⟩
    rw [hvalue.value_eq]
    simp
  | complete houtermost hvalue =>
    show Expression.value? _ ≠ none
    rw [hvalue.value_eq]
    simp

section
variable {limit : Option Nat} {text w rest : List Char} {d : Draft} {m : Machine}
  {xs ys : List Question} {r : Run} {failure : Failure}

theorem Stands.valued (h : Stands limit text w d m) : d.Valued :=
  ⟨h.tracks.levels.valued, h.tracks.point.valued⟩

theorem Stands.completable (h : Stands (some maxDepth) text w d m) : Completable w := by
  obtain ⟨more, e, hmore, hfinish, hdepth, hvalue⟩ :=
    Draft.exists_completion h.valued fun whole => h.tracks.complete_levels
  obtain ⟨q, hq⟩ := Option.ne_none_iff_exists'.1 hvalue
  obtain ⟨v, hv⟩ := Fraction.exists_standsFor q
  rw [← hq] at hv
  refine ⟨more, v, evaluate_of_parse ?_ (le_trans hdepth (h.depth_le maxDepth rfl)) hv⟩
  rw [String.toList_ofList, visible_append, hmore, Draft.parse, Draft.readAll_append, h.readAll]
  exact hfinish

/-! ## What follows does not matter -/

theorem Course.evaluate_ofList (h : Course (some maxDepth) text w rest xs m ys r) :
    evaluate (String.ofList text) = r.outcome := by
  have htext : (String.ofList text).toList = text := String.toList_ofList
  rw [← htext] at h
  exact h.evaluate_eq

theorem Course.failsAfter {c : Char} {cs : List Char}
    (h : Course (some maxDepth) text w (c :: cs) xs m ys r) (hr : r.outcome = .failure failure) :
    FailsAfter failure (w ++ [c]) fun _ => True := by
  intro more _
  have hmore : Course (some maxDepth) (w ++ c :: more) w (c :: more) xs m ys r := h.congr rfl
  rw [List.append_assoc, List.singleton_append, hmore.evaluate_ofList, hr]

/-- At a literal that is a divisor and zero, the run fails if the literal ends. -/
theorem Path.fails_at_literal {e : OpenExpression} {t : OpenTerm} {start value : Nat}
    {fault : Fault} (path : Path (some maxDepth) w xs m)
    (hphase : m.phase = .literal e t start value)
    (hjoin : t.product.join (.ofInt value) = .error fault) (hhead : HeadVisible rest)
    (hnext : ∀ c, rest.head? = some c → c.isDigit = false) :
    evaluate (String.ofList (w ++ rest)) = .failure ⟨.arithmetic fault, m.spanFrom start⟩ := by
  have hread : m.read ⟨some maxDepth, .constant false⟩ rest.head? (byteLength w) =
      Signal.answer (.constant false) [] (.ended _) :=
    Machine.read_literalFault hphase hjoin (Symbol.ofNext_ne_digit hnext) _ _
  rw [evaluate, runSteady, runWith, String.toList_ofList, Policy.standard, path.run,
    Signal.settle_quiet, Machine.run_of_ended hhead hread]
  rfl

theorem Course.literal_failsAfter {u b z : List Char} {sum : SumDraft} {product : ProductDraft}
    {digits : List Char} (h : Course (some maxDepth) text w rest xs m ys r)
    (hr : r.outcome = .failure failure) (hd : Stands (some maxDepth) text w d m)
    (hpoint : d.point = .literal sum product digits) (hzero : product.ZeroDivisor (.literal digits))
    (hnext : ∀ c, rest.head? = some c → c.isDigit = false) (hw : w = u ++ b ++ z)
    (hz : visible z = []) : FailsAfter failure (u ++ b) EndsNumber := by
  obtain ⟨e, t, start, value, hphase, hjoin⟩ := hd.literal_machine hpoint hzero
  have hhere := h.path.fails_at_literal hphase hjoin h.head hnext
  rw [← h.text_eq, h.evaluate_ofList, hr] at hhere
  -- ignored characters that were read after the literal are given back, others may come instead
  have hpath : Path (some maxDepth) (u ++ b) xs m := .of_skipAll hz (hw ▸ h.path)
  intro more hmore
  obtain ⟨z', v, rfl, hz', hv⟩ := exists_skip more
  have hnext' : ∀ c, v.head? = some c → c.isDigit = false := by
    intro c hc
    apply hmore c
    rw [visible_append, hz', List.nil_append, hv.head?_visible, hc]
  have hthere := (hpath.skipAll hz').fails_at_literal hphase hjoin hv hnext'
  rw [← List.append_assoc, hthere, hhere]

end

/-! ## All failures -/

theorem ZeroPart.literal_last {u b digits : List Char} (h : ZeroPart u b (.literal digits)) :
    ∃ c, b.getLast? = some c ∧ c.isDigit = true := by
  obtain ⟨hne, hdigits⟩ := h.wellFormed
  rw [h.getLast?_visible, Factor.text, List.getLast?_eq_some_getLast hne]
  exact ⟨_, rfl, hdigits _ (List.getLast_mem hne)⟩

theorem ZeroPart.group_last {u b : List Char} {inner : Expression}
    (h : ZeroPart u b (.group inner)) : b.getLast? = some ')' := by
  rw [h.getLast?_visible, Factor.text, List.getLast?_append, List.getLast?_singleton]
  rfl

/-- Every failure with the stop flag down comes as early as it can. -/
theorem evaluate_earliest {text : String} {failure : Failure}
    (h : evaluate text = .failure failure) :
    ∃ cut, failure.span.cut? text.toList = some cut ∧ failure.Earliest text.toList cut := by
  obtain ⟨w, rest, xs, m, ys, r, hcourse⟩ := exists_course (some maxDepth) text.toList
  have hr : r.outcome = .failure failure := by rw [← hcourse.evaluate_eq, h]
  obtain ⟨d, cut, hstands, hcut, hblamed⟩ := hcourse.blamed hr
  refine ⟨cut, hcut, ?_⟩
  cases hblamed with
  | ending hrest =>
    show Completable text.toList
    rw [hcourse.text_eq, hrest, List.append_nil]
    exact hstands.completable
  | char hrest =>
    rw [hrest] at hcourse
    exact ⟨hcourse.failsAfter hr, hstands.completable⟩
  | opening hrest =>
    rw [hrest] at hcourse
    exact ⟨hcourse.failsAfter hr, hstands.completable⟩
  | @literal u b z digits sum product span hpoint hzero hnext hw hz part =>
    refine ⟨?_, ?_, .inr part.literal_last⟩
    · intro hparen
      obtain ⟨c, hc, hdigit⟩ := part.literal_last
      rw [hparen] at hc
      cases hc
      cases hdigit
    · intro _
      exact hcourse.literal_failsAfter hr hstands hpoint hzero hnext hw hz
  | @group u b cs level outer inner span hrest hw hlevels hread part =>
    refine ⟨?_, ?_, .inl part.group_last⟩
    · intro _
      rw [hrest] at hcourse
      show FailsAfter _ (u ++ b) _
      rw [← hw]
      exact hcourse.failsAfter hr
    · rintro ⟨c, hc, hdigit⟩
      rw [part.group_last] at hc
      cases hc
      cases hdigit

/-- The divisor `2-2` of `6/(2-2)` is known to be zero when its parenthesis closes. -/
theorem evaluate_earliest_of_group :
    evaluate "6/(2-2)" = .failure ⟨.arithmetic .divisionByZero, ⟨2, 7⟩⟩ ∧
      ∃ cut, (⟨2, 7⟩ : Span).cut? "6/(2-2)".toList = some cut ∧
        Failure.Earliest ⟨.arithmetic .divisionByZero, ⟨2, 7⟩⟩ "6/(2-2)".toList cut :=
  have h : evaluate "6/(2-2)" = .failure ⟨.arithmetic .divisionByZero, ⟨2, 7⟩⟩ := by rfl
  ⟨h, evaluate_earliest h⟩

end ExactCalculator
