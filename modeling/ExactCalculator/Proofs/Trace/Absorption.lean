import ExactCalculator.Proofs.Trace.Condensed
import ExactCalculator.Proofs.Trace.Derivation
import ExactCalculator.Proofs.Trace.Unwinding

/-! What the outline of a run hides. A rule takes over the steps of its sole step if that one read the
same text; then the two have the same range (`runScheduled_span_eq`). If the rule has a value, nothing but
the step adds to it, and it is no factor, which would have read its parentheses (`Rule.Reads.of_sole`). If
it fails, it does so right after the step, which has failed with it or is the only factor of a term
(`Run.Unwinds.adjacent`). So little is hidden (`runScheduled_absorbsAlike`). -/
namespace ExactCalculator
set_option autoImplicit false

/-! ## Rules with a sole step -/

section
variable {limit : Option Nat} {text body : List Char} {rule : Rule} {span : Span} {q : ℚ} {p k : Nat}
  {steps : List Trace} {node inner : Trace} {x : Part}

/-- Nothing stands in a range that ends where it starts. -/
theorem Span.Holds.eq_nil (h : Span.Holds ⟨p, p⟩ text body) : body = [] := by
  obtain ⟨u, b, z, -, hspan, rfl⟩ := h
  obtain ⟨hstart, hstop⟩ := Span.mk.inj hspan
  rw [byteLength_append] at hstop
  obtain rfl : b = [] := byteLength_eq_zero_iff.1 (by omega)
  rfl

theorem Trace.ReadsProduct.steps_ne_nil (h : ReadsProduct text steps span q) : steps ≠ [] := by
  cases h <;> simp

theorem Trace.ReadsSum.steps_ne_nil (h : ReadsSum text steps span q) : steps ≠ [] := by
  cases h <;> simp

theorem Trace.ReadsProduct.of_sole (h : ReadsProduct text [inner] span q) :
    ∃ v, inner.outcome = .value v ∧ v.toRat = q := by
  generalize hsteps : [inner] = steps at h
  cases h with
  | first _ hvalue =>
    obtain rfl := List.singleton_inj.1 hsteps
    exact ⟨_, hvalue, rfl⟩
  | next _ before =>
    simp [List.singleton_eq_append_iff, before.steps_ne_nil] at hsteps

theorem Trace.ReadsSum.of_sole (h : ReadsSum text [inner] span q)
    (hstart : span.start = inner.span.start) : ∃ v, inner.outcome = .value v ∧ v.toRat = q := by
  generalize hsteps : [inner] = steps at h
  cases h with
  | first sign _ hvalue hgap =>
    obtain rfl := List.singleton_inj.1 hsteps
    obtain rfl := hstart
    cases sign with
    | none => exact ⟨_, hvalue, rfl⟩
    | some sign => cases hgap.eq_nil
  | next _ before =>
    simp [List.singleton_eq_append_iff, before.steps_ne_nil] at hsteps

/-- A rule that has read no more than its sole step has its value, and it is no factor, which would have
read the parentheses. -/
theorem Rule.Reads.of_sole (h : rule.Reads text [inner] span q)
    (hstart : span.start = inner.span.start) :
    rule ≠ .factor ∧ ∃ v, inner.outcome = .value v ∧ v.toRat = q := by
  cases rule with
  | expression => exact ⟨by rintro ⟨⟩, Trace.ReadsSum.of_sole h hstart⟩
  | term => exact ⟨by rintro ⟨⟩, Trace.ReadsProduct.of_sole h⟩
  | factor =>
    have hfactor : Trace.ReadsFactor text [inner] span q := h
    cases hfactor with
    | group _ _ hopening =>
      rw [hstart] at hopening
      cases hopening.eq_nil

/-- A part that has read no more than its sole step has its outcome, and it is no factor. -/
theorem Trace.IsPart.of_sole (h : node.IsPart limit text) (hsteps : node.steps = [inner])
    (hspan : inner.span = node.span) :
    node.rule ≠ .factor ∧ ∃ v, inner.outcome = .value v ∧ node.outcome = .value v := by
  obtain ⟨v, hv⟩ := h.exists_value
  have hderives := h.derives hv
  have hreads := hderives.reads
  rw [hsteps] at hreads
  obtain ⟨hrule, w, hw, hwv⟩ := hreads.of_sole (congrArg Span.start hspan).symm
  have hinner : inner.IsPart limit text :=
    h.of_contains (.step (hsteps ▸ List.mem_singleton_self _) (.self _))
  obtain rfl := (hinner.derives hw).reduced.eq_of_toRat hderives.reduced hwv
  exact ⟨hrule, w, hw, hv⟩

end

/-! ## Outlines -/

namespace Outline

def rule : Outline → Rule
  | node rule _ _ _ => rule

def result : Outline → Except String String
  | node _ _ _ result => result

/-- An outline contains itself and what its steps contain. -/
inductive Contains : Outline → Outline → Prop
  | self (outline : Outline) : Contains outline outline
  | step {outline inner leaf : Outline} (hstep : inner ∈ outline.steps) (h : Contains inner leaf) :
      Contains outline leaf

/-- The text is that of a number, in which ignored characters may stand, and the result is the number. -/
def IsLiteral (outline : Outline) : Prop :=
  ∃ digits, digits ≠ [] ∧ (∀ c ∈ digits, c.isDigit = true) ∧ visible outline.text.toList = digits ∧
    outline.result = .ok (decimal digits).repr

theorem IsLiteral.congr {outline other : Outline} (h : outline.IsLiteral)
    (htext : other.text = outline.text) (hresult : other.result = outline.result) :
    other.IsLiteral := by
  obtain ⟨digits, hne, hdigits, hvisible, hvalue⟩ := h
  exact ⟨digits, hne, hdigits, htext ▸ hvisible, hresult.trans hvalue⟩

/-- A sole step is either kept or gives way to its own steps. -/
theorem collapse_cases (text : String) (steps : List Outline) :
    collapse text steps = steps ∨
      ∃ only, steps = [only] ∧ only.text = text ∧ collapse text steps = only.steps := by
  unfold collapse
  split
  · next only =>
    split
    · next htext => exact .inr ⟨only, rfl, htext, rfl⟩
    · exact .inl rfl
  · exact .inl rfl

end Outline

theorem Fraction.toText_ofInt (n : ℕ) : (ofInt n).toText = n.repr := by
  cases n with
  | zero => rfl
  | succ n =>
    have hne : ((n + 1 : ℕ) : ℤ) ≠ 0 := by omega
    have hneg : ¬ ((n + 1 : ℕ) : ℤ) < 0 := by omega
    have hzero : (ofInt (n + 1 : ℕ)).isZero = false := beq_eq_false_iff_ne.2 hne
    rw [toText, hzero]
    show integerText (n + 1 : ℕ) = (n + 1).repr
    rw [integerText, if_neg hneg]
    rfl

theorem Span.Holds.visible_slice {text : String} {span : Span} {body : List Char}
    (h : span.Holds text.toList body) : visible (span.slice text).toList = body := by
  obtain ⟨u, b, z, htext, rfl, hb⟩ := h
  rw [Span.slice_eq htext, String.toList_ofList, hb]

section
variable {limit : Option Nat} {input : String} {k : Nat} {x : Part} {root trace node inner : Trace}

theorem Trace.text_outline (input : String) (trace : Trace) :
    (trace.outline input).text = trace.span.slice input := by
  cases trace
  rfl

theorem Trace.rule_outline (input : String) (trace : Trace) :
    (trace.outline input).rule = trace.rule := by
  cases trace
  rfl

theorem Trace.result_outline (input : String) (trace : Trace) :
    (trace.outline input).result = trace.outcome.text := by
  cases trace
  rfl

theorem Trace.outlineAll_eq_map (input : String) (steps : List Trace) :
    outlineAll input steps = steps.map (outline input) := by
  induction steps with
  | nil => rfl
  | cons trace rest ih => rw [outlineAll, ih, List.map_cons]

theorem Trace.steps_outline (input : String) (trace : Trace) :
    (trace.outline input).steps =
      Outline.collapse (trace.span.slice input) (trace.steps.map (outline input)) := by
  cases trace with
  | node rule span outcome steps => rw [outline, outlineAll_eq_map]; rfl

/-! ## Leaves -/

theorem Part.exists_literal {text : List Char} (h : x.steps text k = []) :
    ∃ digits, x = .factor (.literal digits) := by
  have hcount := x.stepCount_steps text k
  rw [h] at hcount
  cases x with
  | expression | term => cases hcount
  | factor f =>
    cases f with
    | literal digits => exact ⟨digits, rfl⟩
    | group inner =>
      rw [Part.steps, Factor.group_steps] at h
      cases h

/-- A part without steps is a number. -/
theorem Trace.IsPart.isLiteral (h : trace.IsPart limit input.toList) (hsteps : trace.steps = []) :
    (trace.outline input).IsLiteral := by
  obtain ⟨k, x, hx, rfl⟩ := h
  obtain ⟨digits, rfl⟩ := Part.exists_literal hsteps
  obtain ⟨before, after, hvisible, rfl⟩ := hx.placed
  obtain ⟨hne, hdigits⟩ := hx.wellFormed
  have hholds := Span.ofVisible_holds hvisible hne
  refine ⟨digits, hne, hdigits, ?_, ?_⟩
  · rw [text_outline]
    exact hholds.visible_slice
  · rw [result_outline, ← Fraction.toText_ofInt, (Fraction.standsFor_decimal digits).eq_ofValue]
    rfl

/-- If parts of the same text have the same range, then all leaves of an outline are numbers. -/
theorem Trace.IsPart.isLiteral_of_leaf (h : root.IsPart limit input.toList)
    (hspan : ∀ node inner, root.Contains node → node.Contains inner →
      inner.span.slice input = node.span.slice input → inner.span = node.span)
    (htrace : root.Contains trace) {leaf : Outline} (hleaf : (trace.outline input).Contains leaf)
    (hsteps : leaf.steps = []) : leaf.IsLiteral := by
  induction trace using induction_steps generalizing leaf with
  | h trace ih =>
    have hstep : ∀ inner ∈ trace.steps, ∀ leaf : Outline, (inner.outline input).Contains leaf →
        leaf.steps = [] → leaf.IsLiteral :=
      fun inner hinner leaf => ih inner hinner (htrace.trans (.step hinner (.self inner)))
    rcases Outline.collapse_cases (trace.span.slice input) (trace.steps.map (outline input)) with
      hkept | ⟨only, honly, htext, habsorbed⟩
    · rw [← steps_outline] at hkept
      cases hleaf with
      | self =>
        rw [hkept, List.map_eq_nil_iff] at hsteps
        exact (h.of_contains htrace).isLiteral hsteps
      | step hmem hcontains =>
        rw [hkept] at hmem
        obtain ⟨inner, hinner, rfl⟩ := List.mem_map.1 hmem
        exact hstep inner hinner _ hcontains hsteps
    · rw [← steps_outline] at habsorbed
      obtain ⟨inner, hsole, rfl⟩ := List.map_eq_singleton_iff.1 honly
      have hmem : inner ∈ trace.steps := hsole ▸ List.mem_singleton_self inner
      cases hleaf with
      | self =>
        -- the step that has given way is a leaf as well, with the same text and the same result
        rw [habsorbed] at hsteps
        have hinner := hstep inner hmem _ (.self _) hsteps
        have hslice := htext
        rw [text_outline] at hslice
        have hspans := hspan trace inner htrace (.step hmem (.self inner)) hslice
        obtain ⟨-, v, hv, hv'⟩ := (h.of_contains htrace).of_sole hsole hspans
        refine hinner.congr ?_ ?_
        · rw [text_outline, htext]
        · rw [result_outline, result_outline, hv, hv']
      | step hmem' hcontains =>
        rw [habsorbed] at hmem'
        exact hstep inner hmem _ (.step hmem' hcontains) hsteps

/-! ## Building -/

namespace Outline.Builder

/-- When a rule with the range is left, `Outline.collapse` puts the steps of its sole step in the place of
that step. -/
structure Absorbs (input : String) (builder : Builder) (span : Span) (only : Outline) : Prop where
  sole : builder.head? = some [only]
  text_eq : only.text = span.slice input

/-- When a rule is left, the builder has the outlines of its steps. -/
theorem feedAll_before_leave (input : String) {before after : List Event} {rule : Rule} {span : Span}
    {outcome : Outcome} (h : trace.events = before ++ .leave rule span outcome :: after) :
    ∃ earlier steps outer, before = earlier ++ .enter rule :: Trace.allEvents steps ∧
      trace.Contains (.node rule span outcome steps) ∧
      feedAll input [] before = .ok (Trace.outlineAll input steps :: outer, []) := by
  obtain ⟨earlier, steps, rfl, hnode⟩ := trace.exists_of_leave h
  rw [List.append_assoc, List.cons_append] at h
  obtain ⟨outer, -, hearlier, -⟩ := feedAll_before input h (List.cons_ne_nil _ _)
  refine ⟨earlier, steps, outer, rfl, hnode, feedAll_append hearlier ?_⟩
  rw [feedAll_enter]
  exact feedAll_allEvents input outer [] steps

theorem Absorbs.exists_inner {steps : List Trace} {outer : Builder} {span : Span} {only : Outline}
    (h : Absorbs input (Trace.outlineAll input steps :: outer) span only) :
    ∃ inner, steps = [inner] ∧ inner.outline input = only ∧
      inner.span.slice input = span.slice input := by
  have hsole := Option.some.inj h.sole
  rw [Trace.outlineAll_eq_map] at hsole
  obtain ⟨inner, rfl, rfl⟩ := List.map_eq_singleton_iff.1 hsole
  have hslice := h.text_eq
  rw [Trace.text_outline] at hslice
  exact ⟨inner, rfl, rfl, hslice⟩

end Outline.Builder

end

/-! ## Runs -/

/-- How a step that has given way ended, and how the rule around it did, which was left right after it. -/
inductive Outcome.GivesWay (inner : Outcome) (innerRule rule : Rule) : Outcome → Prop
  | alike {outcome : Outcome} (htext : inner.text = outcome.text) :
      GivesWay inner innerRule rule outcome
  | refused {v : Fraction} {failure : Failure} (hinner : inner = .value v)
      (hfactor : innerRule = .factor) (hterm : rule = .term) (hcause : failure.EndsTerm) :
      GivesWay inner innerRule rule (.failure failure)

/-- What the outline of a run hides. Whenever a rule is left, the builder has taken all events so far. A sole
step that gives way then was left just before, with the same outcome, or as the only factor of a term that
is refused or interrupted after it; and no factor hides the expression in its parentheses. In a run with a
value such a step has the value of the rule around it, and all leaves of the only tree that is completed
and printed are numbers. -/
structure Run.AbsorbsAlike (text : String) (run : Run) : Prop where
  absorbed : ∀ before rule span outcome after,
    run.events = before ++ .leave rule span outcome :: after →
    ∃ builder, Outline.Builder.feedAll text [] before = .ok (builder, []) ∧
      ∀ only, builder.Absorbs text span only →
        rule ≠ .factor ∧ ∃ earlier inner, before = earlier ++ [.leave only.rule span inner] ∧
          only.result = inner.text ∧ inner.GivesWay only.rule rule outcome ∧
          ∀ w, run.outcome = .value w → ∃ v, inner = .value v ∧ outcome = .value v
  leaves : ∀ w, run.outcome = .value w → ∃ tree,
    Outline.Builder.feedAll text [] run.events = .ok ([], [tree]) ∧
      (∀ color, Console.outline color text [] run.events = (tree.written color, .ok [])) ∧
      ∀ leaf, tree.Contains leaf → leaf.steps = [] → leaf.IsLiteral

section
variable {limit : Option Nat} {text : List Char} {trace node inner : Trace} {outcome : Outcome}
  {w : Fraction}

/-- In a run with a value every rule is a part. -/
theorem Trace.Records.isPart_of_accepted (h : trace.Records limit text outcome)
    (hw : outcome = .value w) : trace.IsPart limit text := by
  cases h with
  | accepted hpart => exact hpart.trace_isPart
  | rejected | failed => cases hw

theorem Trace.WellShaped.of_contains (h : trace.WellShaped) (hnode : trace.Contains node) :
    node.WellShaped := by
  induction hnode with
  | self => exact h
  | @step trace inner node hstep _ ih =>
    obtain ⟨rule, span, outcome, steps⟩ := trace
    exact ih (allWithin_iff.1 h.2 _ hstep).2

theorem Trace.WellShaped.mayContain_of_step (h : node.WellShaped) (hinner : inner ∈ node.steps) :
    mayContain node.rule inner.rule = true := by
  obtain ⟨rule, span, outcome, steps⟩ := node
  exact (allWithin_iff.1 h.2 _ hinner).1

/-- The events of a sole step end with its being left. -/
theorem Trace.exists_allEvents_singleton (trace : Trace) :
    ∃ earlier, allEvents [trace] = earlier ++ [.leave trace.rule trace.span trace.outcome] := by
  obtain ⟨rule, span, outcome, steps⟩ := trace
  exact ⟨_, List.append_nil _⟩

/-- A sole step of the same range, left right before the rule around it. -/
theorem Run.Unwinds.givesWay {run : Run} {earlier after : List Event} {rule : Rule} {span : Span}
    (h : run.Unwinds) (hrecords : trace.Records limit text run.outcome)
    (hnode : trace.Contains (.node rule span outcome [inner])) (hspan : inner.span = span)
    (hsplit : run.events = earlier ++
      .leave inner.rule inner.span inner.outcome :: .leave rule span outcome :: after) :
    rule ≠ .factor ∧ inner.outcome.GivesWay inner.rule rule outcome := by
  cases outcome with
  | value v =>
    have hpart := hrecords.isPart_of_value hnode rfl
    obtain ⟨hrule, v', hinner, hvalue⟩ := hpart.of_sole rfl hspan
    obtain rfl := Outcome.value.inj hvalue
    exact ⟨hrule, .alike (congrArg Outcome.text hinner)⟩
  | failure failure =>
    have hafter := h.adjacent hsplit
    have hmay := (hrecords.wellShaped.of_contains hnode).mayContain_of_step (List.mem_singleton_self _)
    generalize hinner : inner.outcome = outcome at hafter ⊢
    rw [hspan] at hafter
    cases hafter with
    | failed hstart => exact ⟨fun hrule => absurd (hstart hrule) (lt_irrefl _), .alike rfl⟩
    | longer v hstart => exact absurd hstart (lt_irrefl _)
    | ended v hrule hcause =>
      obtain rfl := hrule
      have hfactor : inner.rule = .factor := by
        generalize inner.rule = rule at hmay
        cases rule with
        | factor => rfl
        | expression | term => cases hmay
      exact ⟨by rintro ⟨⟩, .refused rfl hfactor rfl hcause⟩

end

/-- Under any schedule absorbing steps hides no other outcome than that of the only factor of a term that is
refused or interrupted. -/
theorem runScheduled_absorbsAlike (schedule : Schedule) (flag : Bool) (text : String) :
    (runScheduled schedule flag text).AbsorbsAlike text := by
  have hunwinds : (runScheduled schedule flag text).Unwinds := runWith_unwinds _ text
  obtain ⟨trace, hevents, hrecords⟩ := runWith_recorded (.standard (schedule.signal flag)) text
  have hevents : trace.events = (runScheduled schedule flag text).events := hevents
  have hspan : ∀ node inner, trace.Contains node → node.Contains inner →
      inner.span.slice text = node.span.slice text → inner.span = node.span :=
    fun _ _ hnode hinner => runScheduled_span_eq hevents.symm hnode hinner
  constructor
  case absorbed =>
    intro before rule span outcome after hsplit
    obtain ⟨earlier, steps, outer, hbefore, hnode, hfeed⟩ :=
      Outline.Builder.feedAll_before_leave text (hevents.trans hsplit)
    refine ⟨_, hfeed, fun only habsorbs => ?_⟩
    obtain ⟨inner, rfl, rfl, hslice⟩ := habsorbs.exists_inner
    obtain rfl : inner.span = span :=
      hspan _ inner hnode (.step (List.mem_singleton_self inner) (.self inner)) hslice
    obtain ⟨events, hinner⟩ := inner.exists_allEvents_singleton
    rw [hinner, ← List.cons_append, ← List.append_assoc] at hbefore
    have hadjacent := hsplit
    rw [hbefore, List.append_assoc] at hadjacent
    obtain ⟨hrule, hgives⟩ := hunwinds.givesWay hrecords hnode rfl hadjacent
    rw [Trace.rule_outline, Trace.result_outline]
    refine ⟨hrule, earlier ++ .enter rule :: events, inner.outcome, hbefore, rfl, hgives, ?_⟩
    intro w hw
    exact (((hrecords.isPart_of_accepted hw).of_contains hnode).of_sole rfl rfl).2
  case leaves =>
    intro w hw
    refine ⟨trace.outline text, ?_, fun color => Console.outline_run color hevents, fun leaf => ?_⟩
    · rw [← hevents]
      exact Outline.Builder.feedAll_trace text trace
    · exact (hrecords.isPart_of_accepted hw).isLiteral_of_leaf hspan (.self trace)

/-- The factor of the term has given way though it has a value and the term fails. -/
example : Outline.Builder.feedAll "7$" [] (runSteady false "7$").events =
    .ok ([], [.node .expression "7" [] (.error "unexpected character '$'")]) := by rfl

end ExactCalculator
