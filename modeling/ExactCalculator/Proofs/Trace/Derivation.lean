import ExactCalculator.Proofs.Trace.Brackets

/-! The trace of a run is a derivation of what the run has read. A rule that is left with a value has
read what its steps have read, with the characters of the grammar in the gaps between them, and its value
is computed from theirs (`Trace.Derives`). That holds of the trace of every part that stands in the text
(`Part.StandsIn.derives`), so it holds of each rule that any run leaves with a value, also if the run
fails later (`runWith_derives`). -/
namespace ExactCalculator
set_option autoImplicit false

/-! ## Rules and their steps -/

namespace Trace

/-- Factors one after another, from the beginning of the first to the end of the last, and their product
from left to right. -/
inductive ReadsProduct (text : List Char) : List Trace → Span → ℚ → Prop
  | first {factor : Trace} {v : Fraction} (hrule : factor.rule = .factor)
      (hvalue : factor.outcome = .value v) : ReadsProduct text [factor] factor.span v.toRat
  | next {factors : List Trace} {factor : Trace} {span : Span} {total q : ℚ} {v : Fraction}
      (joint : Joint) (before : ReadsProduct text factors span total) (hrule : factor.rule = .factor)
      (hvalue : factor.outcome = .value v)
      (hgap : Span.Holds ⟨span.stop, factor.span.start⟩ text joint.text)
      (hresult : joint.scaling.apply? total v.toRat = some q) :
      ReadsProduct text (factors ++ [factor]) ⟨span.start, factor.span.stop⟩ q

/-- Terms one after another, with or without a sign in front of the first, to the end of the last, and
their sum from left to right. -/
inductive ReadsSum (text : List Char) : List Trace → Span → ℚ → Prop
  | first {term : Trace} {v : Fraction} {start : Nat} (sign : Option Sign)
      (hrule : term.rule = .term) (hvalue : term.outcome = .value v)
      (hgap : Span.Holds ⟨start, term.span.start⟩ text (sign.map Sign.char).toList) :
      ReadsSum text [term] ⟨start, term.span.stop⟩ ((sign.getD .plus).apply v.toRat)
  | next {terms : List Trace} {term : Trace} {span : Span} {total : ℚ} {v : Fraction} (sign : Sign)
      (before : ReadsSum text terms span total) (hrule : term.rule = .term)
      (hvalue : term.outcome = .value v)
      (hgap : Span.Holds ⟨span.stop, term.span.start⟩ text [sign.char]) :
      ReadsSum text (terms ++ [term]) ⟨span.start, term.span.stop⟩ (total + sign.apply v.toRat)

/-- A number, or an expression in parentheses with the value of the expression. -/
inductive ReadsFactor (text : List Char) : List Trace → Span → ℚ → Prop
  | literal {digits : List Char} {span : Span} (hdigits : ∀ c ∈ digits, c.isDigit = true)
      (hspan : span.Holds text digits) : ReadsFactor text [] span (decimal digits : ℚ)
  | group {inner : Trace} {v : Fraction} {span : Span} (hrule : inner.rule = .expression)
      (hvalue : inner.outcome = .value v)
      (hopening : Span.Holds ⟨span.start, inner.span.start⟩ text ['('])
      (hclosing : Span.Holds ⟨inner.span.stop, span.stop⟩ text [')']) :
      ReadsFactor text [inner] span v.toRat

end Trace

/-- What a rule reads by its steps, in which range, and the value that it computes. -/
def Rule.Reads (text : List Char) : Rule → List Trace → Span → ℚ → Prop
  | expression => Trace.ReadsSum text
  | term => Trace.ReadsProduct text
  | factor => Trace.ReadsFactor text

/-- The ranges of the steps lie one after another inside the range. -/
structure Trace.Nested (steps : List Trace) (span : Span) : Prop where
  inside : ∀ s ∈ steps, span.start ≤ s.span.start ∧ s.span.stop ≤ span.stop
  ordered : steps.Pairwise fun s r => s.span.stop ≤ r.span.start

/-- The rule is left with the value that its steps give it, after reading what they and the gaps between
them have read. -/
structure Trace.Derives (text : List Char) (node : Trace) (v : Fraction) : Prop where
  tight : node.span.Tight text
  nested : Nested node.steps node.span
  reads : node.rule.Reads text node.steps node.span v.toRat
  reduced : v.Reduced

/-! ## Ranges of steps -/

namespace Trace

variable {text : List Char} {steps : List Trace} {step : Trace} {span : Span} {start stop : Nat} {q : ℚ}

theorem Nested.single (hstart : start ≤ step.span.start) (hstop : step.span.stop ≤ stop) :
    Nested [step] ⟨start, stop⟩ where
  inside := List.forall_mem_singleton.2 ⟨hstart, hstop⟩
  ordered := List.pairwise_singleton _ _

theorem Nested.concat (h : Nested steps span) (hspan : span.start ≤ span.stop)
    (hgap : span.stop ≤ step.span.start) (hstep : step.span.start ≤ step.span.stop) :
    Nested (steps ++ [step]) ⟨span.start, step.span.stop⟩ where
  inside := by
    refine List.forall_mem_append.2 ⟨fun s hs => ?_, List.forall_mem_singleton.2 ⟨?_, le_refl _⟩⟩
    · exact ⟨(h.inside s hs).1, (h.inside s hs).2.trans (hgap.trans hstep)⟩
    · exact hspan.trans hgap
  ordered := by
    refine List.pairwise_append.2 ⟨h.ordered, List.pairwise_singleton _ _, fun s hs r hr => ?_⟩
    rw [List.mem_singleton.1 hr]
    exact (h.inside s hs).2.trans hgap

theorem ReadsProduct.nested (h : ReadsProduct text steps span q)
    (hsteps : ∀ s ∈ steps, s.span.start ≤ s.span.stop) :
    Nested steps span ∧ span.start ≤ span.stop := by
  induction h with
  | first hrule hvalue =>
    exact ⟨.single (le_refl _) (le_refl _), hsteps _ (List.mem_singleton_self _)⟩
  | next joint before hrule hvalue hgap hresult ih =>
    obtain ⟨hbefore, hstep⟩ := List.forall_mem_append.1 hsteps
    obtain ⟨hnested, hspan⟩ := ih hbefore
    have hlast := hstep _ (List.mem_singleton_self _)
    exact ⟨hnested.concat hspan hgap.start_le_stop hlast, hspan.trans (hgap.start_le_stop.trans hlast)⟩

theorem ReadsSum.nested (h : ReadsSum text steps span q)
    (hsteps : ∀ s ∈ steps, s.span.start ≤ s.span.stop) :
    Nested steps span ∧ span.start ≤ span.stop := by
  induction h with
  | first sign hrule hvalue hgap =>
    have hterm := hsteps _ (List.mem_singleton_self _)
    exact ⟨.single hgap.start_le_stop (le_refl _), hgap.start_le_stop.trans hterm⟩
  | next sign before hrule hvalue hgap ih =>
    obtain ⟨hbefore, hstep⟩ := List.forall_mem_append.1 hsteps
    obtain ⟨hnested, hspan⟩ := ih hbefore
    have hlast := hstep _ (List.mem_singleton_self _)
    exact ⟨hnested.concat hspan hgap.start_le_stop hlast, hspan.trans (hgap.start_le_stop.trans hlast)⟩

theorem ReadsFactor.nested (h : ReadsFactor text steps span q) : Nested steps span := by
  cases h with
  | literal hdigits hspan => exact ⟨List.forall_mem_nil _, .nil⟩
  | group hrule hvalue hopening hclosing =>
    exact .single hopening.start_le_stop hclosing.start_le_stop

/-- The gaps between the steps of a rule put their ranges in order. -/
theorem nested_of_reads {rule : Rule} (h : rule.Reads text steps span q)
    (hsteps : ∀ s ∈ steps, s.span.start ≤ s.span.stop) : Nested steps span := by
  cases rule with
  | expression => exact (ReadsSum.nested h hsteps).1
  | term => exact (ReadsProduct.nested h hsteps).1
  | factor => exact ReadsFactor.nested h

end Trace

/-! ## Values of parts -/

theorem Fraction.toRat_ofValue (q : ℚ) : (ofValue (some q)).toRat = q := toRat_ofRat q

section
variable {limit : Option Nat} {text : List Char} {k : Nat} {x : Part} {trace : Trace}

theorem Trace.IsPart.start_le_stop (h : trace.IsPart limit text) :
    trace.span.start ≤ trace.span.stop := by
  obtain ⟨k, x, -, rfl⟩ := h
  exact le_max_left _ _

namespace Part.StandsIn

theorem value_nextFactor {before : Term} {joint : Joint} {f : Factor}
    (h : (Part.term (.next before joint f)).StandsIn limit text k) :
    joint.scaling.apply? (Fraction.ofValue before.value?).toRat (Fraction.ofValue f.value?).toRat =
      some (Fraction.ofValue (Term.next before joint f).value?).toRat := by
  obtain ⟨hbefore, hfactor⟩ := of_product (.after before joint) f h
  obtain ⟨v, hv⟩ : ∃ v, before.value? = some v := Option.ne_none_iff_exists'.1 hbefore.valued
  obtain ⟨w, hw⟩ : ∃ w, f.value? = some w := Option.ne_none_iff_exists'.1 hfactor.valued
  obtain ⟨q, hq⟩ : ∃ q, (Term.next before joint f).value? = some q :=
    Option.ne_none_iff_exists'.1 h.valued
  rw [hv, hw, hq, Fraction.toRat_ofValue, Fraction.toRat_ofValue, Fraction.toRat_ofValue, ← hq,
    Term.value?, hv, hw]
  rfl

theorem value_firstTerm {sign : Option Sign} {t : Term}
    (h : (Part.expression (.first sign t)).StandsIn limit text k) :
    (Fraction.ofValue (Expression.first sign t).value?).toRat =
      (sign.getD .plus).apply (Fraction.ofValue t.value?).toRat := by
  have hterm := (of_sum (.start sign) t h).2
  obtain ⟨v, hv⟩ : ∃ v, t.value? = some v := Option.ne_none_iff_exists'.1 hterm.valued
  rw [Expression.value?, hv, Option.map_some, Fraction.toRat_ofValue, Fraction.toRat_ofValue]

theorem value_nextTerm {before : Expression} {sign : Sign} {t : Term}
    (h : (Part.expression (.next before sign t)).StandsIn limit text k) :
    (Fraction.ofValue (Expression.next before sign t).value?).toRat =
      (Fraction.ofValue before.value?).toRat + sign.apply (Fraction.ofValue t.value?).toRat := by
  obtain ⟨hbefore, hterm⟩ := of_sum (.after before sign) t h
  obtain ⟨v, hv⟩ : ∃ v, before.value? = some v := Option.ne_none_iff_exists'.1 hbefore.valued
  obtain ⟨w, hw⟩ : ∃ w, t.value? = some w := Option.ne_none_iff_exists'.1 hterm.valued
  rw [Expression.value?, hv, hw, Fraction.toRat_ofValue, Fraction.toRat_ofValue]
  exact Fraction.toRat_ofValue _

/-! ## Parts are derivations -/

theorem readsProduct {k : Nat} : (t : Term) → (Part.term t).StandsIn limit text k →
    Trace.ReadsProduct text (t.steps text k) (.ofVisible text k t.text.length)
      (Fraction.ofValue t.value?).toRat
  | .first f, _ => by
    rw [Term.first_steps]
    exact .first rfl rfl
  | .next before joint f, h => by
    obtain ⟨hbefore, hfactor⟩ := of_product (.after before joint) f h
    have ih := readsProduct before hbefore
    have hresult := h.value_nextFactor
    obtain ⟨u, z, hvisible, rfl⟩ := h.placed
    -- where the range before the joint ends and that of the factor begins follows from the text
    have hplaced : visible text = u ++ before.text ++ (joint.text ++ (f.text ++ z)) := by
      rw [hvisible]
      simp [Part.text, Term.text]
    have hgap := Span.holds_gap hplaced (Term.text_ne_nil hbefore.wellFormed)
    have hne := List.length_pos_of_ne_nil (Factor.text_ne_nil hfactor.wellFormed)
    rw [Term.text, List.length_append, Span.ofVisible_add text _ _ hne.ne', Term.next_steps]
    exact .next joint ih rfl rfl hgap hresult

theorem readsSum {k : Nat} : (e : Expression) → (Part.expression e).StandsIn limit text k →
    Trace.ReadsSum text (e.steps text k) (.ofVisible text k e.text.length)
      (Fraction.ofValue e.value?).toRat
  | .first sign t, h => by
    have hterm := (of_sum (.start sign) t h).2
    obtain ⟨u, z, hvisible, rfl⟩ := h.placed
    have hplaced : visible text = u ++ (sign.map Sign.char).toList ++ (t.text ++ z) := by
      rw [hvisible]
      simp [Part.text, Expression.text]
    have hne := List.length_pos_of_ne_nil (Term.text_ne_nil hterm.wellFormed)
    rw [h.value_firstTerm, Expression.text, List.length_append, Span.ofVisible_add text _ _ hne.ne',
      Expression.first_steps]
    exact .first sign rfl rfl (Span.holds_head hplaced)
  | .next before sign t, h => by
    obtain ⟨hbefore, hterm⟩ := of_sum (.after before sign) t h
    have ih := readsSum before hbefore
    obtain ⟨u, z, hvisible, rfl⟩ := h.placed
    have hplaced : visible text = u ++ before.text ++ ([sign.char] ++ (t.text ++ z)) := by
      rw [hvisible]
      simp [Part.text, Expression.text]
    have hgap := Span.holds_gap hplaced (Expression.text_ne_nil hbefore.wellFormed)
    have hne := List.length_pos_of_ne_nil (Term.text_ne_nil hterm.wellFormed)
    rw [h.value_nextTerm, Expression.text, List.append_cons, List.length_append,
      Span.ofVisible_add text _ _ hne.ne', Expression.next_steps]
    exact .next sign ih rfl rfl hgap

theorem readsFactor (f : Factor) (h : (Part.factor f).StandsIn limit text k) :
    Trace.ReadsFactor text (f.steps text k) (.ofVisible text k f.text.length)
      (Fraction.ofValue f.value?).toRat := by
  obtain ⟨u, z, hvisible, rfl⟩ := h.placed
  cases f with
  | literal digits =>
    rw [Factor.value?, Fraction.toRat_ofValue, Factor.steps]
    exact .literal h.wellFormed.2 (Span.ofVisible_holds hvisible h.wellFormed.1)
  | group inner =>
    have hinner := h.of_group
    have hopening : visible text = u ++ ['('] ++ (inner.text ++ ')' :: z) := by
      rw [hvisible]
      simp [Part.text, Factor.text]
    have hclosing : visible text = u ++ ['('] ++ inner.text ++ ([')'] ++ z) := by
      rw [hvisible]
      simp [Part.text, Factor.text]
    have hend := Span.holds_tail hclosing (Expression.text_ne_nil hinner.wellFormed)
    have hlength : (u ++ ['(']).length = u.length + 1 := List.length_append
    have htotal : u.length + (Factor.group inner).text.length =
        u.length + 1 + (inner.text ++ [')']).length := by
      rw [Factor.text, List.cons_append, List.length_cons]
      omega
    rw [hlength, ← htotal, ← Span.ofVisible_stop text _ (by simp [Factor.text])] at hend
    rw [Factor.group_steps]
    exact .group rfl rfl (Span.holds_head hopening) hend

theorem reads (h : x.StandsIn limit text k) :
    x.rule.Reads text (x.trace text k).steps (x.trace text k).span
      (Fraction.ofValue x.value?).toRat := by
  cases x with
  | expression e => exact readsSum e h
  | term t => exact readsProduct t h
  | factor f => exact readsFactor f h

theorem derives (h : x.StandsIn limit text k) :
    (x.trace text k).Derives text (.ofValue x.value?) where
  tight := by
    obtain ⟨u, z, hvisible, rfl⟩ := h.placed
    exact Span.ofVisible_tight hvisible (x.text_ne_nil h.wellFormed)
  nested := Trace.nested_of_reads h.reads fun s hs => (h.steps_isStep s hs).isPart.start_le_stop
  reads := h.reads
  reduced := (Fraction.ofValue_standsFor h.valued).reduced

end Part.StandsIn

theorem Trace.IsPart.derives {v : Fraction} (h : trace.IsPart limit text)
    (hv : trace.outcome = .value v) : trace.Derives text v := by
  obtain ⟨k, x, hx, rfl⟩ := h
  obtain rfl := Outcome.value.inj hv
  exact hx.derives

end

/-- Whatever the answers to polls are, and however the run ends: a rule that it leaves with a value has
read what its steps have read, with the characters of the grammar between them, and its value is computed
from theirs. -/
theorem runWith_derives (policy : Policy) (text : String) {before after : List Event} {rule : Rule}
    {span : Span} {v : Fraction}
    (h : (runWith policy text).events = before ++ .leave rule span (.value v) :: after) :
    ∃ earlier steps, before = earlier ++ .enter rule :: Trace.allEvents steps ∧
      (Trace.node rule span (.value v) steps).Derives text.toList v := by
  obtain ⟨trace, hevents, hrecords⟩ := runWith_recorded policy text
  obtain ⟨earlier, steps, hbefore, hnode⟩ := trace.exists_of_leave (hevents.trans h)
  exact ⟨earlier, steps, hbefore, (hrecords.isPart_of_value hnode rfl).derives rfl⟩

/-- In a run that fails later an expression in parentheses is complete. -/
theorem runWith_derives_of_division :
    ∃ before after, (runSteady false "(1-2)/0").events =
        before ++ .leave .expression ⟨1, 4⟩ (.value ⟨-1, 1⟩) :: after ∧
      ∃ earlier steps, before = earlier ++ .enter .expression :: Trace.allEvents steps ∧
        (Trace.node .expression ⟨1, 4⟩ (.value ⟨-1, 1⟩) steps).Derives "(1-2)/0".toList ⟨-1, 1⟩ := by
  let events := (runSteady false "(1-2)/0").events
  have h : events =
      events.take 12 ++ .leave .expression ⟨1, 4⟩ (.value ⟨-1, 1⟩) :: events.drop 13 := by decide
  exact ⟨_, _, h, runWith_derives (.standard (.constant false)) "(1-2)/0" h⟩

end ExactCalculator
