import ExactCalculator.Proofs.Machine.Events
import ExactCalculator.Proofs.Trace.Parts

/-! What a machine has reported. Its events are those of the open rules, and each open rule has been
entered and has as its steps the traces of the finished parts of the draft (`Draft.events`). A rule that
is left becomes the trace of the part that it has read (`openEvents_leavePart`), so moves keep this
(`Reports.silent`, `Reports.take`), and it holds at every point of a run (`Path.reports`). -/
namespace ExactCalculator
set_option autoImplicit false

/-! ## The events of a draft -/

/-- The rules that wait for a parenthesis to close, with their steps so far. -/
def levelsOpens (text : List Char) : List DraftLevel → List OpenTrace
  | [] => []
  | level :: rest =>
    let k := (levelsText rest).length
    ⟨.factor, []⟩ :: ⟨.term, level.product.steps text (k + level.sum.text.length)⟩ ::
      ⟨.expression, level.sum.steps text k⟩ :: levelsOpens text rest

/-- The events that lead to a draft. The phase tells only whether a term is entered. -/
def Draft.events (text : List Char) (d : Draft) (phase : Phase) : List Event :=
  let k := (levelsText d.levels).length
  let outer := levelsOpens text d.levels
  match d.point with
  | .expression => openEvents outer
  | .factor sum product =>
    match phase with
    | .term _ => openEvents (⟨.expression, sum.steps text k⟩ :: outer)
    | _ =>
      openEvents (⟨.term, product.steps text (k + sum.text.length)⟩ ::
        ⟨.expression, sum.steps text k⟩ :: outer)
  | .literal sum product _ =>
    openEvents (⟨.factor, []⟩ :: ⟨.term, product.steps text (k + sum.text.length)⟩ ::
      ⟨.expression, sum.steps text k⟩ :: outer)
  | .operator sum term =>
    openEvents (⟨.term, term.steps text (k + sum.text.length)⟩ ::
      ⟨.expression, sum.steps text k⟩ :: outer)
  | .complete whole => ((Part.expression whole).trace text 0).events

/-- The machine stands at the draft and has reported what leads to it. -/
structure Reports (text w : List Char) (d : Draft) (m : Machine) : Prop where
  tracks : Tracks text w d m
  events : m.events = d.events text m.phase

/-! ## Entering and leaving -/

/-- The event with which a part is left. -/
def Part.leave (text : List Char) (k : Nat) (x : Part) : Event :=
  .leave x.rule (.ofVisible text k x.text.length) (.value (.ofValue x.value?))

/-- A part that is left is a step of the rule around it. -/
theorem openEvents_leavePart (text : List Char) (k : Nat) (x : Part) (rule : Rule)
    (steps : List Trace) (outer : List OpenTrace) :
    openEvents (⟨rule, steps ++ [x.trace text k]⟩ :: outer) =
      openEvents (⟨x.rule, x.steps text k⟩ :: ⟨rule, steps⟩ :: outer) ++ [x.leave text k] :=
  openEvents_leave x.rule (x.steps text k) ⟨rule, steps⟩ outer _ _

theorem Part.events_trace (text : List Char) (k : Nat) (x : Part) :
    (x.trace text k).events = openEvents [⟨x.rule, x.steps text k⟩] ++ [x.leave text k] := rfl

/-- A term that is left is the last step so far of its expression. -/
theorem openEvents_join (text : List Char) (k : Nat) (sum : SumDraft) (term : Term)
    (outer : List OpenTrace) :
    openEvents (⟨.expression, (sum.join term).steps text k⟩ :: outer) =
      openEvents (⟨.term, term.steps text (k + sum.text.length)⟩ ::
        ⟨.expression, sum.steps text k⟩ :: outer) ++
      [(Part.term term).leave text (k + sum.text.length)] := by
  rw [SumDraft.join_steps, openEvents_leavePart]
  rfl

/-- A factor that is left is the last step so far of its term. -/
theorem Draft.events_operator (text : List Char) (levels : List DraftLevel) (sum : SumDraft)
    (product : ProductDraft) (factor : Factor) (phase : Phase) :
    Draft.events text ⟨levels, .operator sum (product.join factor)⟩ phase =
      openEvents (⟨.factor, factor.steps text
          ((levelsText levels).length + sum.text.length + product.text.length)⟩ ::
        ⟨.term, product.steps text ((levelsText levels).length + sum.text.length)⟩ ::
        ⟨.expression, sum.steps text (levelsText levels).length⟩ :: levelsOpens text levels) ++
      [(Part.factor factor).leave text
        ((levelsText levels).length + sum.text.length + product.text.length)] := by
  simp only [events, ProductDraft.join_steps, openEvents_leavePart]
  rfl

section
variable {limit : Option Nat} {text w rest before : List Char} {d d' : Draft} {m m' : Machine}
  {xs : List Question} {c : Char} {x : Part} {start : Nat} {value : Fraction}

/-- A machine leaves a rule as the part that the rule has read. -/
theorem Machine.leave_eq (hbegin : BeginsAt text start before) (hend : EndsAt w m.mark)
    (htext : text = w ++ rest) (hw : visible w = before ++ x.text) (hvalue : value.StandsFor x.value?) :
    Event.leave x.rule (m.spanFrom start) (.value value) = x.leave text before.length := by
  have hspan : m.spanFrom start = .ofVisible text before.length x.text.length :=
    Span.eq_ofVisible hbegin hend htext hw
  rw [hspan, hvalue.eq_ofValue]
  rfl

theorem Reports.leave_literal {levels : List DraftLevel} {sum : SumDraft} {product : ProductDraft}
    {digits : List Char} {e : OpenExpression} {t : OpenTerm} {number : Nat}
    (h : Reports text w ⟨levels, .literal sum product digits⟩ m) (hsplit : text = w ++ rest)
    (hphase : m.phase = .literal e t start number) (phase : Phase) :
    (m.leaveFactor start (.ofInt number) phase).events =
      Draft.events text ⟨levels, .operator sum (product.join (.literal digits))⟩ phase := by
  have hpoint := h.tracks.point
  have hevents := h.events
  rw [hphase] at hpoint hevents
  cases hpoint with
  | literal hexpression hterm hbegins hdigits =>
    have hw : visible w = levelsText levels ++ sum.text ++ product.text ++
        (Part.factor (.literal digits)).text := by
      rw [h.tracks.text_eq]
      simp [Draft.text, DraftPoint.text, Part.text, Factor.text]
    have hleave := Machine.leave_eq hbegins h.tracks.mark hsplit hw
      (Fraction.standsFor_decimal digits)
    simp only [List.length_append] at hleave
    rw [Machine.events_leaveFactor, Draft.events_operator, ← hleave, hevents]
    rfl

theorem Reports.visible_term {levels : List DraftLevel} {sum : SumDraft} {term : Term}
    (h : Reports text w ⟨levels, .operator sum term⟩ m) :
    visible w = levelsText levels ++ sum.text ++ (Part.term term).text := by
  rw [h.tracks.text_eq]
  simp [Draft.text, DraftPoint.text, Part.text]

theorem Reports.leave_term {levels : List DraftLevel} {sum : SumDraft} {term : Term}
    {e : OpenExpression} {termStart : Nat} (h : Reports text w ⟨levels, .operator sum term⟩ m)
    (hsplit : text = w ++ rest) (hphase : m.phase = .operator e termStart value) :
    m.events ++ [.leave .term (m.spanFrom termStart) (.value value)] =
      openEvents (⟨.expression, (sum.join term).steps text (levelsText levels).length⟩ ::
        levelsOpens text levels) := by
  have hpoint := h.tracks.point
  have hevents := h.events
  rw [hphase] at hpoint hevents
  cases hpoint with
  | operator hexpression hbegins hvalue =>
    have hleave := Machine.leave_eq hbegins h.tracks.mark hsplit h.visible_term hvalue
    simp only [List.length_append] at hleave
    rw [openEvents_join, ← hleave, hevents]
    rfl

theorem Reports.leave_expression {levels : List DraftLevel} {sum : SumDraft} {term : Term}
    {e : OpenExpression} {termStart : Nat} (h : Reports text w ⟨levels, .operator sum term⟩ m)
    (hsplit : text = w ++ rest) (hphase : m.phase = .operator e termStart value) :
    (m.leaveExpression e termStart value).events =
      openEvents (⟨.expression, (sum.join term).steps text (levelsText levels).length⟩ ::
        levelsOpens text levels) ++
      [(Part.expression (sum.join term)).leave text (levelsText levels).length] := by
  rw [Machine.events_leaveExpression, h.leave_term hsplit hphase]
  have hpoint := h.tracks.point
  have hw := h.visible_term
  rw [hphase] at hpoint
  cases hpoint with
  | operator hexpression hbegins hvalue =>
    have hw : visible w = levelsText levels ++ (Part.expression (sum.join term)).text := by
      rw [hw, Part.text, Part.text, SumDraft.join_text, List.append_assoc]
    have hleave := Machine.leave_eq hexpression.begins h.tracks.mark hsplit hw
      (hexpression.computes.join hvalue)
    rw [← hleave]
    rfl

/-- The events so far around the expression in the parentheses of a level. -/
theorem openEvents_group (text : List Char) (level : DraftLevel) (levels : List DraftLevel)
    (inner : Expression) :
    openEvents (⟨.expression, inner.steps text (levelsText (level :: levels)).length⟩ ::
        levelsOpens text (level :: levels)) ++
      [(Part.expression inner).leave text (levelsText (level :: levels)).length] =
    openEvents (⟨.factor, (Factor.group inner).steps text
        ((levelsText levels).length + level.sum.text.length + level.product.text.length)⟩ ::
      ⟨.term, level.product.steps text ((levelsText levels).length + level.sum.text.length)⟩ ::
      ⟨.expression, level.sum.steps text (levelsText levels).length⟩ :: levelsOpens text levels) := by
  have hlen : (levelsText (level :: levels)).length = (levelsText levels).length +
      level.sum.text.length + level.product.text.length + 1 := by
    simp only [levelsText, List.length_append, List.length_singleton]
  rw [hlen, Factor.group_steps, ← List.nil_append [(Part.expression inner).trace text _],
    openEvents_leavePart]
  rfl

theorem Reports.leave_group {level : DraftLevel} {levels : List DraftLevel} {sum : SumDraft}
    {term : Term} {e : OpenExpression} {termStart : Nat} {outer : Level} {stack : List Level}
    (h : Reports text w ⟨level :: levels, .operator sum term⟩ m) (hsplit : text = w ++ ')' :: rest)
    (hphase : m.phase = .operator e termStart value) (hstack : m.stack = outer :: stack)
    (phase : Phase) :
    ((m.popLevel e termStart value stack (byteLength w + 1)).leaveFactor outer.start
        (e.sum.join value) phase).events =
      Draft.events text
        ⟨levels, .operator level.sum (level.product.join (.group (sum.join term)))⟩ phase := by
  have hexpression := h.leave_expression hsplit hphase
  rw [openEvents_group] at hexpression
  have hw : visible (w ++ [')']) = levelsText levels ++ level.sum.text ++ level.product.text ++
      (Part.factor (.group (sum.join term))).text := by
    rw [visible_append, h.visible_term, visible_cons_of_visible [] rfl]
    simp [levelsText, Part.text, Factor.text]
  have hlevels := h.tracks.levels
  have hpoint := h.tracks.point
  rw [hphase] at hpoint
  rw [hstack] at hlevels
  cases hlevels with
  | cons _ _ hbegins _ =>
    cases hpoint with
    | operator hinner _ hvalue =>
      have hgroup : (e.sum.join value).StandsFor (Part.factor (.group (sum.join term))).value? :=
        hinner.computes.join hvalue
      have hend : EndsAt (w ++ [')']) (m.popLevel e termStart value stack (byteLength w + 1)).mark :=
        .take rfl
      have htext : text = (w ++ [')']) ++ rest := by rw [hsplit]; simp
      have hleave := Machine.leave_eq hbegins hend htext hw hgroup
      simp only [List.length_append] at hleave
      rw [Machine.events_leaveFactor, Draft.events_operator, ← hleave, ← hexpression]
      rfl

/-! ## Silent moves -/

theorem Reports.silent (h : Reports text w d m) (hsplit : text = w ++ rest) (hhead : HeadVisible rest)
    (move : Machine.SilentMove rest.head? (byteLength w) m xs m') : Reports text w d.advance m' := by
  refine ⟨(h.tracks.silent hsplit hhead move).1, ?_⟩
  obtain ⟨levels, point⟩ := d
  have hpoint := h.tracks.point
  have hevents := h.events
  simp only at hpoint
  cases move with
  | enterExpression hphase hnext =>
    rw [hphase] at hpoint hevents
    cases hpoint
    exact (m.events_record _).trans (congrArg (· ++ [Event.enter .expression]) hevents)
  | enterTerm hphase =>
    rw [hphase] at hpoint hevents
    cases hpoint
    exact (m.events_record _).trans (congrArg (· ++ [Event.enter .term]) hevents)
  | @leaveLiteral e t start value q hphase hnext hjoin =>
    rw [hphase] at hpoint
    cases hpoint
    exact h.leave_literal hsplit hphase (.operator e t.start q)
  | beside hphase hnext =>
    rw [hphase] at hpoint hevents
    cases hpoint
    exact hevents

/-! ## Taking moves -/

theorem Reports.take (h : Reports text w d m) (hsplit : text = w ++ c :: rest)
    (move : Machine.TakingMove limit c (byteLength w) m xs m') :
    ∃ d', d.read c = some d' ∧ Reports text (w ++ [c]) d' m' := by
  obtain ⟨d', hread, htracks⟩ := h.tracks.take hsplit move
  refine ⟨d', hread, htracks, ?_⟩
  obtain ⟨levels, point⟩ := d
  have hpoint := h.tracks.point
  have hevents := h.events
  simp only at hpoint
  cases move with
  | @firstSign sign hphase hc =>
    rw [hphase] at hpoint hevents
    cases hpoint
    obtain rfl : _ = d' := by simpa [Draft.read, Draft.readExpression, hc] using hread
    exact (m.events_record _).trans (congrArg (· ++ [Event.enter .expression]) hevents)
  | @firstDigit e t digit hphase hc =>
    rw [hphase] at hpoint hevents
    cases hpoint
    obtain rfl : _ = d' := by simpa [Draft.read, Draft.readFactor, hc] using hread
    exact (m.events_enterFactor e t (byteLength w)).trans
      (congrArg (· ++ [Event.enter .factor]) hevents)
  | @nextDigit e t start value digit hphase hc =>
    rw [hphase] at hpoint hevents
    have hdigit := (Symbol.ofChar_eq_digit_iff.1 hc).1
    cases hpoint
    obtain rfl : _ = d' := by simpa [Draft.read, hdigit] using hread
    exact hevents
  | @opening e t hphase hc hdepth =>
    rw [hphase] at hpoint hevents
    cases hpoint
    obtain rfl : _ = d' := by simpa [Draft.read, Draft.readFactor, hc] using hread
    exact (m.events_enterFactor e t (byteLength w)).trans
      (congrArg (· ++ [Event.enter .factor]) hevents)
  | @scaling e termStart value scaling hphase hc =>
    rw [hphase] at hpoint hevents
    cases hpoint
    obtain rfl : _ = d' := by simpa [Draft.read, Draft.readOperator, hc] using hread
    exact hevents
  | @sign e termStart value sign hphase hc =>
    rw [hphase] at hpoint
    cases hpoint with
    | @operator sum term =>
      obtain rfl : _ = d' := by simpa [Draft.read, Draft.readOperator, hc] using hread
      exact (m.events_record _).trans (h.leave_term hsplit hphase)
  | @closing e termStart value level outer q hphase hstack hc hjoin =>
    have hlevels := h.tracks.levels
    rw [hphase] at hpoint
    rw [hstack] at hlevels
    obtain rfl : c = ')' := (Symbol.ofChar_eq_iff rfl).1 hc
    cases hlevels with
    | cons =>
      cases hpoint with
      | operator =>
        obtain rfl : _ = d' := by simpa [Draft.read, Draft.readOperator, hc] using hread
        exact h.leave_group hsplit hphase hstack (.operator level.expression level.term.start q)
  | @equals e termStart value hphase hstack hc =>
    have hlevels := h.tracks.levels
    rw [hphase] at hpoint
    rw [hstack] at hlevels
    cases hlevels
    cases hpoint with
    | operator =>
      obtain rfl : _ = d' := by simpa [Draft.read, Draft.readOperator, hc] using hread
      exact h.leave_expression hsplit hphase

/-! ## Steps and paths -/

theorem Reports.more {cs : List Char} {q : Progress} (h : Reports text w d m)
    (hsplit : text = w ++ c :: cs) (hc : isIgnored c = false)
    (moves : Machine.Moves limit (some c) (byteLength w) m xs q) (hq : q = .more m') :
    ∃ d', d.read c = some d' ∧ Reports text (w ++ [c]) d' m' := by
  have hhead : HeadVisible (c :: cs) := .cons hc cs
  induction moves generalizing d with
  | silent move rest ih =>
    obtain ⟨-, hsame⟩ := h.tracks.silent hsplit hhead move
    obtain ⟨d', hread, hd'⟩ := ih (h.silent hsplit hhead move) hq
    refine ⟨d', ?_, hd'⟩
    rw [← hsame.read c rfl]
    exact hread
  | take hnext move =>
    cases hnext
    cases hq
    exact h.take hsplit move
  | final move => cases hq

/-- At every point of a run the machine has reported what leads to its draft. -/
theorem Path.reports (path : Path limit w xs m) (hsplit : text = w ++ rest) :
    ∃ d, Stands limit text w d m ∧ Reports text w d m := by
  induction path generalizing rest with
  | start => exact ⟨.start, ⟨.start text, rfl, fun n _ => Nat.zero_le n⟩, .start text, rfl⟩
  | @skip w xs m c path hc ih =>
    obtain ⟨e, hstands⟩ := (path.skip hc).stands hsplit
    obtain ⟨d, hd, hreports⟩ := ih (by rw [hsplit, List.append_assoc])
    have hreadAll := hstands.readAll
    rw [visible_append, visible_cons_of_ignored [] hc, visible_nil, List.append_nil,
      hd.readAll] at hreadAll
    obtain rfl := Option.some.inj hreadAll
    exact ⟨d, hstands, hreports.tracks.skip hc, hreports.events⟩
  | @read w xs ys m m' c path hc moves hread ih =>
    obtain ⟨e, hstands⟩ := (path.read hc moves hread).stands hsplit
    rw [List.append_assoc, List.singleton_append] at hsplit
    obtain ⟨d, hd, hreports⟩ := ih hsplit
    obtain ⟨d', hd', hreports'⟩ := hreports.more hsplit hc moves rfl
    have hreadAll := hstands.readAll
    rw [visible_append, visible_cons_of_visible [] hc, visible_nil, Draft.readAll_append, hd.readAll,
      Option.bind_some, Draft.readAll_cons, hd'] at hreadAll
    obtain rfl := Option.some.inj hreadAll
    exact ⟨d', hstands, hreports'⟩

end

end ExactCalculator
