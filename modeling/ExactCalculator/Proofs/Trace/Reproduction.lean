import ExactCalculator.Proofs.Acceptance
import ExactCalculator.Proofs.Trace.Brackets

/-! What a run reports of a rule does not depend on the text around it. A part of a derivation that
stands in a text also stands alone, as a whole expression (`Part.whole`); its trace there is the trace
that it has in the text, with the offsets counted from its own beginning
(`Part.StandsIn.exists_alone`). So the range of a rule that any run leaves with a value, evaluated as a
text of its own, has that value and repeats the events of the rule (`runWith_reproducible`). -/
namespace ExactCalculator
set_option autoImplicit false

/-- The events of a rule as those of a whole expression that is made of nothing else: the rules around
it are left with the same range and value. -/
def Rule.enclose (span : Span) (v : Fraction) : Rule → List Event → List Event
  | expression, events => events
  | term, events => .enter .expression :: events ++ [.leave .expression span (.value v)]
  | factor, events =>
    .enter .expression :: .enter .term :: events ++
      [.leave .term span (.value v), .leave .expression span (.value v)]

/-! ## Parts as whole expressions -/

namespace Part

/-- The expression that is made of the part alone. -/
def whole : Part → Expression
  | expression e => e
  | term t => .first none t
  | factor f => .first none (.first f)

theorem whole_text (x : Part) : x.whole.text = x.text := by
  cases x <;> simp [whole, text, Expression.text, Term.text]

theorem whole_depth (x : Part) : x.whole.depth = x.depth := by
  cases x <;> simp [whole, depth, Expression.depth, Term.depth]

theorem whole_value (x : Part) : x.whole.value? = x.value? := by
  have hplus : Sign.plus.apply = id := rfl
  cases x <;> simp [whole, value?, Expression.value?, Term.value?, hplus]

theorem whole_wellFormed {x : Part} (h : x.WellFormed) : x.whole.WellFormed := by
  cases x with
  | expression e => exact h
  | term t => exact h
  | factor f => exact h

/-- Around a part that is a whole expression the other rules read what the part reads. -/
theorem whole_events (x : Part) (text : List Char) :
    ((Part.expression x.whole).trace text 0).events =
      x.rule.enclose (x.trace text 0).span (.ofValue x.value?) (x.trace text 0).events := by
  show (Trace.reading text 0 .expression x.whole.text x.whole.value? (x.whole.steps text 0)).events = _
  rw [whole_text, whole_value]
  cases x with
  | expression e => rfl
  | term t =>
    simp [whole, Expression.steps, trace, steps, rule, Rule.enclose, Trace.reading, Trace.events,
      Trace.allEvents, Trace.span, Part.text, value?]
  | factor f =>
    simp [whole, Expression.steps, Term.steps, trace, steps, rule, Rule.enclose, Trace.reading,
      Trace.events, Trace.allEvents, Trace.span, Part.text, value?, Term.text, Term.value?]

end Part

/-! ## Parts alone -/

section
variable {limit : Option Nat} {k : Nat} {x : Part}

/-- A part that stands in a text reads the same alone, with offsets from its own beginning. -/
theorem Part.StandsIn.exists_alone {text : List Char} (h : x.StandsIn limit text k) :
    ∃ u b z, text = u ++ b ++ z ∧ visible b = x.text ∧
      (x.trace text k).span = ⟨byteLength u, byteLength (u ++ b)⟩ ∧
      (x.trace b 0).span = ⟨0, byteLength b⟩ ∧
      (x.trace text k).events.map (Event.relocate (· - byteLength u)) = (x.trace b 0).events := by
  obtain ⟨before, after, hvisible, rfl⟩ := h.placed
  have hne := x.text_ne_nil h.wellFormed
  obtain ⟨u, b, z, rfl, hspan, rfl, hb, -⟩ := Span.exists_part_ofVisible hvisible hne
  have hk : 0 + x.text.length ≤ (visible b).length := by rw [hb, Nat.zero_add]
  have hinside := Span.ofVisible_inside u z (List.length_pos_of_ne_nil hne).ne' hk
  -- the range in the text is the whole of `b`, and it is the range in `b` moved
  obtain ⟨hstart, hstop⟩ := Span.mk.inj (hspan.symm.trans hinside)
  have hstart' : (Span.ofVisible b 0 x.text.length).start = 0 := by omega
  have hstop' : (Span.ofVisible b 0 x.text.length).stop = byteLength b := by
    rw [byteLength_append] at hstop
    omega
  exact ⟨u, b, z, rfl, hb, hspan, congrArg₂ Span.mk hstart' hstop',
    Part.trace_inside u z x h.wellFormed hk⟩

theorem Trace.Records.exists_parse {text : List Char} {trace : Trace} {v : Fraction}
    (h : trace.Records limit text (.value v)) :
    ∃ e, Draft.parse (visible text) = some e ∧ trace = (Part.expression e).trace text 0 := by
  cases h with
  | accepted hpart hparse => exact ⟨_, hparse, rfl⟩

/-- The trace of a text that has a value is that of its expression. -/
theorem runSteady_of_parse {text : String} {e : Expression}
    (hparse : Draft.parse (visible text.toList) = some e) (hdepth : e.depth ≤ maxDepth)
    (hvalue : e.value? ≠ none) :
    evaluate text = .value (.ofValue e.value?) ∧
      (runSteady false text).events = ((Part.expression e).trace text.toList 0).events := by
  have heval := evaluate_of_parse hparse hdepth (Fraction.ofValue_standsFor hvalue)
  obtain ⟨trace, hevents, hrecords⟩ := runWith_recorded (.standard (.constant false)) text
  have houtcome : (runWith (.standard (.constant false)) text).outcome = _ := heval
  rw [houtcome] at hrecords
  -- the trace is that of some expression, and a text has one expression only
  obtain ⟨e', hparse', rfl⟩ := hrecords.exists_parse
  obtain rfl := Option.some.inj (hparse.symm.trans hparse')
  exact ⟨heval, hevents.symm⟩

/-- The range of a part that stands in a text is evaluated to the value of the part, with the same
events. -/
theorem Trace.IsPart.reproduced {text : String} {node : Trace} {v : Fraction}
    (h : node.IsPart (some maxDepth) text.toList) (hv : node.outcome = .value v) :
    evaluate (node.span.slice text) = .value v ∧
      (runSteady false (node.span.slice text)).events =
        node.rule.enclose ⟨0, node.span.length⟩ v
          (node.events.map (Event.relocate (· - node.span.start))) := by
  obtain ⟨k, x, hx, rfl⟩ := h
  obtain rfl := Outcome.value.inj hv
  obtain ⟨u, b, z, htext, hb, hspan, halone, hevents⟩ := hx.exists_alone
  have hlength : (x.trace text.toList k).span.length = byteLength b := by
    rw [hspan, Span.length, byteLength_append, Nat.add_sub_cancel_left]
  have hparse : Draft.parse (visible (String.ofList b).toList) = some x.whole := by
    rw [String.toList_ofList, hb, ← x.whole_text]
    exact Draft.parse_text (Part.whole_wellFormed hx.wellFormed)
  have hdepth : x.whole.depth ≤ maxDepth := by
    rw [x.whole_depth]
    exact hx.depth_le maxDepth rfl
  have hvalue : x.whole.value? ≠ none := by
    rw [x.whole_value]
    exact hx.valued
  obtain ⟨heval, hrun⟩ := runSteady_of_parse hparse hdepth hvalue
  rw [x.whole_value] at heval
  rw [String.toList_ofList, x.whole_events, halone, ← hevents] at hrun
  rw [hlength, hspan, Span.slice_eq htext]
  exact ⟨heval, hrun⟩

end

/-- Whatever the answers to polls are: the range of a rule that a run leaves with a value is evaluated to
that value, and the events of that evaluation are those of the rule, with offsets from its beginning,
inside the rules that the grammar has around it. -/
theorem runWith_reproducible (signal : Signal) (text : String) {before after : List Event} {rule : Rule}
    {span : Span} {v : Fraction}
    (h : (runWith (.standard signal) text).events = before ++ .leave rule span (.value v) :: after) :
    ∃ earlier steps, before = earlier ++ .enter rule :: Trace.allEvents steps ∧
      evaluate (span.slice text) = .value v ∧
      (runSteady false (span.slice text)).events =
        rule.enclose ⟨0, span.length⟩ v
          ((Trace.node rule span (.value v) steps).events.map (Event.relocate (· - span.start))) := by
  obtain ⟨trace, hevents, hrecords⟩ := runWith_recorded (.standard signal) text
  obtain ⟨earlier, steps, hbefore, hnode⟩ := trace.exists_of_leave (hevents.trans h)
  exact ⟨earlier, steps, hbefore, (hrecords.isPart_of_value hnode rfl).reproduced rfl⟩

/-- A factor of a run that is interrupted after it. -/
theorem runWith_reproducible_of_interrupt :
    ∃ before after, (runWith (.standard fun journal => journal.polls.size == 7) "7(1+2)4").events =
        before ++ .leave .factor ⟨1, 6⟩ (.value ⟨3, 1⟩) :: after ∧
      ∃ earlier steps, before = earlier ++ .enter .factor :: Trace.allEvents steps ∧
        evaluate (Span.slice ⟨1, 6⟩ "7(1+2)4") = .value ⟨3, 1⟩ ∧
        (runSteady false (Span.slice ⟨1, 6⟩ "7(1+2)4")).events =
          Rule.enclose ⟨0, 5⟩ ⟨3, 1⟩ .factor
            ((Trace.node .factor ⟨1, 6⟩ (.value ⟨3, 1⟩) steps).events.map
              (Event.relocate (· - 1))) := by
  let signal : Signal := fun journal => journal.polls.size == 7
  let events := (runWith (.standard signal) "7(1+2)4").events
  have h : events =
      events.take 15 ++ .leave .factor ⟨1, 6⟩ (.value ⟨3, 1⟩) :: events.drop 16 := by decide
  exact ⟨_, _, h, runWith_reproducible signal "7(1+2)4" h⟩

end ExactCalculator
