import ExactCalculator.Proofs.Derivation.Growth
import ExactCalculator.Proofs.Derivation.Unique
import ExactCalculator.Proofs.Derivation.Value
import ExactCalculator.Proofs.Machine.Relocation
import ExactCalculator.Proofs.Text.Layout
import ExactCalculator.Proofs.Trace.Growing

/-! The traces of derivations. A part of a derivation that stands at some place of a text has one trace:
every rule of it reads the visible characters that it derives and is left with its value (`Part.trace`).
Whatever such a trace is made of is again the trace of a part that stands in the text
(`Part.StandsIn.of_contains`), so a property of parts holds throughout it. -/
namespace ExactCalculator
set_option autoImplicit false

/-! ## Rules inside of a trace -/

/-- A trace contains itself and what its steps contain. -/
inductive Trace.Contains : Trace → Trace → Prop
  | self (trace : Trace) : Contains trace trace
  | step {trace inner node : Trace} (hstep : inner ∈ trace.steps) (h : Contains inner node) :
      Contains trace node

/-! ## Parts -/

def Fraction.ofValue : Option ℚ → Fraction
  | some q => ⟨q.num, q.den⟩
  | none => zero

theorem Fraction.ofValue_standsFor {value : Option ℚ} (h : value ≠ none) :
    (ofValue value).StandsFor value := by
  obtain ⟨q, rfl⟩ := Option.ne_none_iff_exists'.1 h
  exact ⟨ofRat_reduced q, congrArg some (toRat_ofRat q).symm⟩

theorem Fraction.StandsFor.eq_ofValue {v : Fraction} {value : Option ℚ} (h : v.StandsFor value) :
    v = .ofValue value := by
  refine h.unique (ofValue_standsFor ?_)
  rw [h.value_eq]
  simp

/-- A part of a derivation. -/
inductive Part
  | expression (e : Expression)
  | term (t : Term)
  | factor (f : Factor)

namespace Part

def rule : Part → Rule
  | expression _ => .expression
  | term _ => .term
  | factor _ => .factor

def text : Part → List Char
  | expression e => e.text
  | term t => t.text
  | factor f => f.text

def value? : Part → Option ℚ
  | expression e => e.value?
  | term t => t.value?
  | factor f => f.value?

def depth : Part → Nat
  | expression e => e.depth
  | term t => t.depth
  | factor f => f.depth

def WellFormed : Part → Prop
  | expression e => e.WellFormed
  | term t => t.WellFormed
  | factor f => f.WellFormed

end Part

/-! ## Their traces -/

/-- A rule that has read the visible characters `body`, which stand after the first `k` ones. -/
def Trace.reading (text : List Char) (k : Nat) (rule : Rule) (body : List Char) (value : Option ℚ)
    (steps : List Trace) : Trace :=
  .node rule (.ofVisible text k body.length) (.value (.ofValue value)) steps

mutual

/-- The traces of the terms of an expression that stands after the first `k` visible characters. -/
def Expression.steps (text : List Char) (k : Nat) : Expression → List Trace
  | .first sign term =>
    let k := k + (sign.map Sign.char).toList.length
    [.reading text k .term term.text term.value? (term.steps text k)]
  | .next before sign term =>
    let k' := k + (before.text ++ [sign.char]).length
    before.steps text k ++ [.reading text k' .term term.text term.value? (term.steps text k')]

/-- The traces of the factors of a term. -/
def Term.steps (text : List Char) (k : Nat) : Term → List Trace
  | .first factor => [.reading text k .factor factor.text factor.value? (factor.steps text k)]
  | .next before joint factor =>
    let k' := k + (before.text ++ joint.text).length
    before.steps text k ++
      [.reading text k' .factor factor.text factor.value? (factor.steps text k')]

/-- The trace of the expression in parentheses, if the factor has one. -/
def Factor.steps (text : List Char) (k : Nat) : Factor → List Trace
  | .literal _ => []
  | .group inner =>
    [.reading text (k + 1) .expression inner.text inner.value? (inner.steps text (k + 1))]

end

namespace Part

def steps (text : List Char) (k : Nat) : Part → List Trace
  | expression e => e.steps text k
  | term t => t.steps text k
  | factor f => f.steps text k

/-- The trace of a part that stands after the first `k` visible characters of the text. -/
def trace (text : List Char) (k : Nat) (x : Part) : Trace :=
  .reading text k x.rule x.text x.value? (x.steps text k)

end Part

/-- The traces of the terms before the next one. -/
def SumDraft.steps (text : List Char) (k : Nat) : SumDraft → List Trace
  | .start _ => []
  | .after before _ => before.steps text k

def ProductDraft.steps (text : List Char) (k : Nat) : ProductDraft → List Trace
  | .start => []
  | .after before _ => before.steps text k

section
variable (text : List Char) (k : Nat)

theorem Expression.first_steps (sign : Option Sign) (term : Term) :
    (Expression.first sign term).steps text k =
      [(Part.term term).trace text (k + (sign.map Sign.char).toList.length)] := by
  simp only [Expression.steps]
  rfl

theorem Expression.next_steps (before : Expression) (sign : Sign) (term : Term) :
    (Expression.next before sign term).steps text k =
      before.steps text k ++
        [(Part.term term).trace text (k + (before.text ++ [sign.char]).length)] := by
  simp only [Expression.steps]
  rfl

theorem Term.first_steps (factor : Factor) :
    (Term.first factor).steps text k = [(Part.factor factor).trace text k] := by
  simp only [Term.steps]
  rfl

theorem Term.next_steps (before : Term) (joint : Joint) (factor : Factor) :
    (Term.next before joint factor).steps text k =
      before.steps text k ++
        [(Part.factor factor).trace text (k + (before.text ++ joint.text).length)] := by
  simp only [Term.steps]
  rfl

theorem Factor.group_steps (inner : Expression) :
    (Factor.group inner).steps text k = [(Part.expression inner).trace text (k + 1)] := by
  simp only [Factor.steps]
  rfl

theorem SumDraft.join_steps (sum : SumDraft) (term : Term) :
    (sum.join term).steps text k =
      sum.steps text k ++ [(Part.term term).trace text (k + sum.text.length)] := by
  cases sum with
  | start sign => exact Expression.first_steps text k sign term
  | after before sign => exact Expression.next_steps text k before sign term

theorem ProductDraft.join_steps (product : ProductDraft) (factor : Factor) :
    (product.join factor).steps text k =
      product.steps text k ++ [(Part.factor factor).trace text (k + product.text.length)] := by
  cases product with
  | start => exact Term.first_steps text k factor
  | after before joint => exact Term.next_steps text k before joint factor

end

/-! ## Parts that stand in a text -/

/-- The part stands in the text after the first `k` visible characters, with a value and within the
depth limit. -/
structure Part.StandsIn (limit : Option Nat) (text : List Char) (k : Nat) (x : Part) : Prop where
  wellFormed : x.WellFormed
  valued : x.value? ≠ none
  depth_le : ∀ n, limit = some n → x.depth ≤ n
  placed : ∃ before after, visible text = before ++ x.text ++ after ∧ before.length = k

/-- What stands before the next term stands in the text. -/
def SumDraft.StandsIn (limit : Option Nat) (text : List Char) (k : Nat) : SumDraft → Prop
  | .start _ => True
  | .after before _ => (Part.expression before).StandsIn limit text k

def ProductDraft.StandsIn (limit : Option Nat) (text : List Char) (k : Nat) : ProductDraft → Prop
  | .start => True
  | .after before _ => (Part.term before).StandsIn limit text k

/-- The trace is that of a part which stands in the text. -/
def Trace.IsPart (limit : Option Nat) (text : List Char) (trace : Trace) : Prop :=
  ∃ k x, Part.StandsIn limit text k x ∧ trace = x.trace text k

/-- The trace may be a step of the rule, and it is that of a part which stands in the text. -/
structure Trace.IsStep (limit : Option Nat) (text : List Char) (rule : Rule) (step : Trace) : Prop where
  mayContain : mayContain rule step.rule = true
  isPart : step.IsPart limit text

theorem ProductDraft.wellFormed_of_join {product : ProductDraft} {factor : Factor}
    (h : (product.join factor).WellFormed) : product.WellFormed ∧ factor.WellFormed := by
  cases product with
  | start => exact ⟨trivial, h⟩
  | after before joint => exact ⟨h.1, h.2.1⟩

section
variable {limit : Option Nat} {text : List Char} {k : Nat} {x y : Part} {trace node : Trace}

namespace Part.StandsIn

/-- A part of a part stands where it stands in that part. -/
theorem inside (h : x.StandsIn limit text k) (before after : List Char)
    (htext : x.text = before ++ y.text ++ after) (hwf : y.WellFormed) (hvalue : y.value? ≠ none)
    (hdepth : y.depth ≤ x.depth) : y.StandsIn limit text (k + before.length) where
  wellFormed := hwf
  valued := hvalue
  depth_le n hlimit := hdepth.trans (h.depth_le n hlimit)
  placed := by
    obtain ⟨u, v, hvisible, hu⟩ := h.placed
    refine ⟨u ++ before, after ++ v, ?_, by rw [List.length_append, hu]⟩
    rw [hvisible, htext]
    simp only [List.append_assoc]

theorem of_sum (sum : SumDraft) (term : Term)
    (h : (Part.expression (sum.join term)).StandsIn limit text k) :
    sum.StandsIn limit text k ∧ (Part.term term).StandsIn limit text (k + sum.text.length) := by
  have htext := sum.join_text term
  obtain ⟨hwfSum, hwfTerm⟩ := SumDraft.join_wellFormed.1 h.wellFormed
  obtain ⟨hvalueSum, hvalueTerm⟩ := SumDraft.Valued.of_join h.valued
  have hdepth := sum.join_depth term
  constructor
  · cases sum with
    | start sign => trivial
    | after before sign =>
      refine h.inside (y := .expression before) [] ([sign.char] ++ term.text) ?_ hwfSum hvalueSum ?_
      · rw [Part.text, htext, SumDraft.text]
        simp [Part.text]
      · rw [Part.depth, Part.depth, hdepth]
        exact le_max_left _ _
  · refine h.inside (y := .term term) sum.text [] ?_ hwfTerm hvalueTerm ?_
    · rw [Part.text, htext, List.append_nil, Part.text]
    · rw [Part.depth, Part.depth, hdepth]
      exact le_max_right _ _

theorem of_product (product : ProductDraft) (factor : Factor)
    (h : (Part.term (product.join factor)).StandsIn limit text k) :
    product.StandsIn limit text k ∧
      (Part.factor factor).StandsIn limit text (k + product.text.length) := by
  have htext := product.join_text factor
  obtain ⟨hwfProduct, hwfFactor⟩ := ProductDraft.wellFormed_of_join h.wellFormed
  obtain ⟨hvalueProduct, hvalueFactor⟩ := ProductDraft.Valued.of_join h.valued
  have hdepth := product.join_depth factor
  constructor
  · cases product with
    | start => trivial
    | after before joint =>
      refine h.inside (y := .term before) [] (joint.text ++ factor.text) ?_ hwfProduct
        hvalueProduct ?_
      · rw [Part.text, htext, ProductDraft.text]
        simp [Part.text]
      · rw [Part.depth, Part.depth, hdepth]
        exact le_max_left _ _
  · refine h.inside (y := .factor factor) product.text [] ?_ hwfFactor hvalueFactor ?_
    · rw [Part.text, htext, List.append_nil, Part.text]
    · rw [Part.depth, Part.depth, hdepth]
      exact le_max_right _ _

theorem of_group {inner : Expression}
    (h : (Part.factor (.group inner)).StandsIn limit text k) :
    (Part.expression inner).StandsIn limit text (k + 1) := by
  refine h.inside (y := .expression inner) ['('] [')'] ?_ h.wellFormed h.valued (Nat.le_succ _)
  simp [Part.text, Factor.text]

/-! ### Steps -/

theorem trace_isPart (h : x.StandsIn limit text k) : (x.trace text k).IsPart limit text :=
  ⟨k, x, h, rfl⟩

theorem expression_steps {k : Nat} : (e : Expression) →
    (Part.expression e).StandsIn limit text k →
    ∀ s ∈ e.steps text k, s.IsStep limit text .expression
  | .first sign t, h => by
    have hterm := (of_sum (.start sign) t h).2
    rw [Expression.first_steps]
    exact List.forall_mem_singleton.2 ⟨rfl, hterm.trace_isPart⟩
  | .next before sign t, h => by
    obtain ⟨hbefore, hterm⟩ := of_sum (.after before sign) t h
    rw [Expression.next_steps]
    exact List.forall_mem_append.2
      ⟨expression_steps before hbefore, List.forall_mem_singleton.2 ⟨rfl, hterm.trace_isPart⟩⟩

theorem term_steps {k : Nat} : (t : Term) → (Part.term t).StandsIn limit text k →
    ∀ s ∈ t.steps text k, s.IsStep limit text .term
  | .first f, h => by
    have hfactor := (of_product .start f h).2
    rw [Term.first_steps]
    exact List.forall_mem_singleton.2 ⟨rfl, hfactor.trace_isPart⟩
  | .next before joint f, h => by
    obtain ⟨hbefore, hfactor⟩ := of_product (.after before joint) f h
    rw [Term.next_steps]
    exact List.forall_mem_append.2
      ⟨term_steps before hbefore, List.forall_mem_singleton.2 ⟨rfl, hfactor.trace_isPart⟩⟩

/-- The steps of a part are traces of parts again. -/
theorem steps_isStep (h : x.StandsIn limit text k) :
    ∀ s ∈ x.steps text k, s.IsStep limit text x.rule := by
  cases x with
  | expression e => exact expression_steps e h
  | term t => exact term_steps t h
  | factor f =>
    cases f with
    | literal digits => exact List.forall_mem_nil _
    | group inner =>
      rw [Part.steps, Factor.group_steps]
      exact List.forall_mem_singleton.2 ⟨rfl, h.of_group.trace_isPart⟩

end Part.StandsIn

theorem SumDraft.StandsIn.steps_isStep {sum : SumDraft} (h : sum.StandsIn limit text k) :
    ∀ s ∈ sum.steps text k, s.IsStep limit text .expression := by
  cases sum with
  | start sign => exact List.forall_mem_nil _
  | after before sign => exact Part.StandsIn.expression_steps before h

theorem ProductDraft.StandsIn.steps_isStep {product : ProductDraft}
    (h : product.StandsIn limit text k) :
    ∀ s ∈ product.steps text k, s.IsStep limit text .term := by
  cases product with
  | start => exact List.forall_mem_nil _
  | after before joint => exact Part.StandsIn.term_steps before h

theorem Part.stepCount_steps (text : List Char) (k : Nat) (x : Part) :
    Trace.stepCount x.rule (x.steps text k).length = true := by
  cases x with
  | expression e => cases e <;> simp [steps, Expression.steps, rule, Trace.stepCount]
  | term t => cases t <;> simp [steps, Term.steps, rule, Trace.stepCount]
  | factor f => cases f <;> simp [steps, Factor.steps, rule, Trace.stepCount]

/-- Whatever the trace of a part contains is the trace of a part. -/
theorem Trace.IsPart.of_contains (h : trace.IsPart limit text) (hnode : trace.Contains node) :
    node.IsPart limit text := by
  induction hnode with
  | self => exact h
  | step hstep _ ih =>
    obtain ⟨k, x, hx, rfl⟩ := h
    exact ih (hx.steps_isStep _ hstep).isPart

namespace Trace

theorem allWithin_iff {rule : Rule} {traces : List Trace} :
    AllWithin rule traces ↔ ∀ s ∈ traces, mayContain rule s.rule = true ∧ s.WellShaped := by
  induction traces with
  | nil => simp [AllWithin]
  | cons s rest ih => simp [AllWithin, ih, and_assoc]

mutual

theorem IsPart.wellShaped : (trace : Trace) → trace.IsPart limit text → trace.WellShaped
  | .node rule span outcome steps, h => by
    obtain ⟨k, x, hx, htrace⟩ := h
    obtain ⟨rfl, -, -, hsteps⟩ := Trace.node.inj htrace
    refine ⟨?_, IsStep.allWithin steps ?_⟩
    · rw [hsteps]
      exact x.stepCount_steps text k
    · rw [hsteps]
      exact hx.steps_isStep

theorem IsStep.allWithin {rule : Rule} : (steps : List Trace) →
    (∀ s ∈ steps, s.IsStep limit text rule) → AllWithin rule steps
  | [], _ => trivial
  | s :: rest, h =>
    have hs := h s (List.mem_cons_self ..)
    ⟨hs.mayContain, IsPart.wellShaped s hs.isPart,
      IsStep.allWithin rest fun r hr => h r (List.mem_cons_of_mem _ hr)⟩

end

end Trace

end

/-! ## Moving a text -/

theorem Part.text_ne_nil {x : Part} (h : x.WellFormed) : x.text ≠ [] := by
  cases x with
  | expression e => exact Expression.text_ne_nil h
  | term t => exact Term.text_ne_nil h
  | factor f => exact Factor.text_ne_nil h

section
variable {v : List Char}

/-- A rule inside the part `v` of a text reads the same as in `v` alone. -/
theorem Trace.reading_inside (u z : List Char) {k : Nat} {rule : Rule} {body : List Char}
    {value : Option ℚ} {steps steps' : List Trace} (hbody : body ≠ [])
    (hk : k + body.length ≤ (visible v).length)
    (hsteps : (allEvents steps).map (Event.relocate (· - byteLength u)) = allEvents steps') :
    (reading (u ++ v ++ z) ((visible u).length + k) rule body value steps).events.map
        (Event.relocate (· - byteLength u)) =
      (reading v k rule body value steps').events := by
  have hspan := Span.ofVisible_inside u z (List.length_pos_of_ne_nil hbody).ne' hk
  simp only [reading, events, List.map_append, List.map_cons, List.map_nil, hsteps, hspan,
    Event.relocate, Span.relocate, Outcome.relocate, Nat.add_sub_cancel_left]

mutual

theorem Expression.steps_inside (u z : List Char) {k : Nat} : (e : Expression) → e.WellFormed →
    k + e.text.length ≤ (visible v).length →
    (Trace.allEvents (e.steps (u ++ v ++ z) ((visible u).length + k))).map
        (Event.relocate (· - byteLength u)) = Trace.allEvents (e.steps v k)
  | .first sign term, h, hk => by
    have hwf : term.WellFormed := h
    simp only [Expression.text, List.length_append] at hk
    simp only [Expression.steps, Trace.allEvents, List.append_nil, Nat.add_assoc]
    have hterm := Term.steps_inside u z term hwf
      (k := k + (sign.map Sign.char).toList.length) (by omega)
    exact Trace.reading_inside u z (Term.text_ne_nil hwf) (by omega) hterm
  | .next before sign term, h, hk => by
    have hwf : term.WellFormed := h.2
    simp only [Expression.text, List.length_append, List.length_cons] at hk
    simp only [Expression.steps, Trace.allEvents_append, List.map_append, Trace.allEvents,
      List.append_nil, Nat.add_assoc]
    have hbefore := Expression.steps_inside u z before h.1 (k := k) (by omega)
    have hk' : k + (before.text ++ [sign.char]).length + term.text.length ≤ (visible v).length := by
      simp only [List.length_append, List.length_singleton]
      omega
    have hterm := Term.steps_inside u z term hwf hk'
    rw [hbefore, Trace.reading_inside u z (Term.text_ne_nil hwf) hk' hterm]

theorem Term.steps_inside (u z : List Char) {k : Nat} : (t : Term) → t.WellFormed →
    k + t.text.length ≤ (visible v).length →
    (Trace.allEvents (t.steps (u ++ v ++ z) ((visible u).length + k))).map
        (Event.relocate (· - byteLength u)) = Trace.allEvents (t.steps v k)
  | .first factor, h, hk => by
    have hwf : factor.WellFormed := h
    have hfactor := Factor.steps_inside u z factor hwf hk
    simp only [Term.steps, Trace.allEvents, List.append_nil]
    exact Trace.reading_inside u z (Factor.text_ne_nil hwf) hk hfactor
  | .next before joint factor, h, hk => by
    have hwf : factor.WellFormed := h.2.1
    simp only [Term.text, List.length_append] at hk
    simp only [Term.steps, Trace.allEvents_append, List.map_append, Trace.allEvents,
      List.append_nil, Nat.add_assoc]
    have hbefore := Term.steps_inside u z before h.1 (k := k) (by omega)
    have hk' : k + (before.text ++ joint.text).length + factor.text.length ≤
        (visible v).length := by
      simp only [List.length_append]
      omega
    have hfactor := Factor.steps_inside u z factor hwf hk'
    rw [hbefore, Trace.reading_inside u z (Factor.text_ne_nil hwf) hk' hfactor]

theorem Factor.steps_inside (u z : List Char) {k : Nat} : (f : Factor) → f.WellFormed →
    k + f.text.length ≤ (visible v).length →
    (Trace.allEvents (f.steps (u ++ v ++ z) ((visible u).length + k))).map
        (Event.relocate (· - byteLength u)) = Trace.allEvents (f.steps v k)
  | .literal _, _, _ => by simp [Factor.steps, Trace.allEvents]
  | .group inner, h, hk => by
    have hwf : inner.WellFormed := h
    simp only [Factor.text, List.length_cons, List.length_append] at hk
    have hinner := Expression.steps_inside u z inner hwf (k := k + 1) (by omega)
    simp only [Factor.steps, Trace.allEvents, List.append_nil, Nat.add_assoc]
    exact Trace.reading_inside u z (Expression.text_ne_nil hwf) (by omega) hinner

end

/-- The events of a part inside the part `v` of a text are those that it has in `v` alone, moved. -/
theorem Part.trace_inside (u z : List Char) {k : Nat} (x : Part) (h : x.WellFormed)
    (hk : k + x.text.length ≤ (visible v).length) :
    (x.trace (u ++ v ++ z) ((visible u).length + k)).events.map (Event.relocate (· - byteLength u)) =
      (x.trace v k).events := by
  have hsteps : (Trace.allEvents (x.steps (u ++ v ++ z) ((visible u).length + k))).map
      (Event.relocate (· - byteLength u)) = Trace.allEvents (x.steps v k) := by
    cases x with
    | expression e => exact Expression.steps_inside u z e h hk
    | term t => exact Term.steps_inside u z t h hk
    | factor f => exact Factor.steps_inside u z f h hk
  exact Trace.reading_inside u z (x.text_ne_nil h) hk hsteps

end

end ExactCalculator
