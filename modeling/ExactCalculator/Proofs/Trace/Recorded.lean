import ExactCalculator.Proofs.Blame.ViablePrefix
import ExactCalculator.Proofs.Trace.Failing
import ExactCalculator.Proofs.Trace.Reported

/-! The trace of every run. A machine that has read a part of the text has reported finished parts that
stand in it, and has open rules that wait for more (`AtDraft`); so whenever it fails, also at a poll, it
leaves one trace (`Machine.Closable`). A run that does not fail inside of the expression has the trace of
a derivation. `runWith_recorded` puts these ends together; where `runWith_traced` says that the events of
a run are those of a trace, it says of which. -/
namespace ExactCalculator
set_option autoImplicit false

/-! ## Finished parts of a draft -/

/-- The finished parts are well formed; the literal that still grows is so as well. -/
def DraftPoint.Sound : DraftPoint → Prop
  | .expression => True
  | .factor sum product => sum.WellFormed ∧ product.WellFormed
  | .literal sum product digits =>
    sum.WellFormed ∧ (product.join (.literal digits)).WellFormed
  | .operator sum term => sum.WellFormed ∧ term.WellFormed
  | .complete whole => whole.WellFormed

/-- The finished parts are well formed and within the depth limit. -/
structure Draft.Sound (limit : Option Nat) (d : Draft) : Prop where
  levels : ∀ level ∈ d.levels, level.sum.WellFormed ∧ level.product.WellFormed
  point : d.point.Sound
  depth_le : ∀ n, limit = some n → d.depth ≤ n

section
variable {limit : Option Nat} {text w rest before : List Char} {d d' : Draft} {m m' : Machine}
  {levels : List DraftLevel} {stack : List Level} {sum : SumDraft} {product : ProductDraft}
  {term : Term}

theorem Stands.sound (h : Stands limit text w d m) : d.Sound limit := by
  obtain ⟨hlevels, hpoint⟩ := h.wellFormed
  refine ⟨hlevels, ?_, h.depth_le⟩
  obtain ⟨levels, point⟩ := d
  cases point with
  | expression => trivial
  | factor sum product => exact ⟨hpoint.1, hpoint.2.1⟩
  | literal sum product digits =>
    obtain ⟨hsum, hproduct, htakes, hdigits⟩ := hpoint
    exact ⟨hsum, ProductDraft.join_literal_wellFormed hproduct htakes hdigits⟩
  | operator sum term => exact ⟨hpoint.1, hpoint.2.1⟩
  | complete whole => exact hpoint

theorem Draft.Sound.advance (h : d.Sound limit) : d.advance.Sound limit := by
  obtain ⟨levels, point⟩ := d
  obtain ⟨hlevels, hpoint, hdepth⟩ := h
  cases point with
  | expression => exact ⟨hlevels, ⟨trivial, trivial⟩, hdepth⟩
  | factor sum product => exact ⟨hlevels, hpoint, hdepth⟩
  | literal sum product digits =>
    refine ⟨hlevels, hpoint, ?_⟩
    simpa [Draft.advance, depth, DraftPoint.depth, Factor.depth] using hdepth
  | operator sum term => exact ⟨hlevels, hpoint, hdepth⟩
  | complete whole => exact ⟨hlevels, hpoint, hdepth⟩

/-! ## Finished parts stand in the text -/

theorem SumDraft.standsIn (hwf : sum.WellFormed) (hvalued : sum.Valued)
    (hdepth : ∀ n, limit = some n → sum.depth ≤ n) (hplaced : before ++ sum.text <+: visible text) :
    sum.StandsIn limit text before.length := by
  obtain ⟨after, hafter⟩ := hplaced
  cases sum with
  | start sign => trivial
  | after e sign =>
    refine ⟨hwf, hvalued, hdepth, before, [sign.char] ++ after, ?_, rfl⟩
    rw [← hafter, SumDraft.text]
    simp [Part.text]

theorem ProductDraft.standsIn (hwf : product.WellFormed) (hvalued : product.Valued)
    (hdepth : ∀ n, limit = some n → product.depth ≤ n)
    (hplaced : before ++ product.text <+: visible text) :
    product.StandsIn limit text before.length := by
  obtain ⟨after, hafter⟩ := hplaced
  cases product with
  | start => trivial
  | after t joint =>
    refine ⟨hwf, hvalued, hdepth, before, joint.text ++ after, ?_, rfl⟩
    rw [← hafter, ProductDraft.text]
    simp [Part.text]

theorem SumDraft.StandsIn.waiting {k : Nat} {outer : List OpenTrace}
    (h : sum.StandsIn limit text k) (houter : Waiting limit text .expression outer) :
    Waiting limit text .term (⟨.expression, sum.steps text k⟩ :: outer) :=
  .inside rfl h.steps_isStep (by simp [Trace.stepCount]) houter

theorem ProductDraft.StandsIn.waiting {k : Nat} {outer : List OpenTrace}
    (h : product.StandsIn limit text k) (houter : Waiting limit text .term outer) :
    Waiting limit text .factor (⟨.term, product.steps text k⟩ :: outer) :=
  .inside rfl h.steps_isStep (by simp [Trace.stepCount]) houter

/-- The term and the expression of a factor wait for it. -/
theorem DraftLevel.waiting (level : DraftLevel) {e : OpenExpression} {t : OpenTerm}
    (hwf : level.sum.WellFormed ∧ level.product.WellFormed) (hsum : e.Tracks text before level.sum)
    (hproduct : t.Tracks text (before ++ level.sum.text) level.product)
    (hdepth : ∀ n, limit = some n → max level.sum.depth level.product.depth ≤ n)
    (hplaced : before ++ level.sum.text ++ level.product.text <+: visible text)
    {outer : List OpenTrace} (houter : Waiting limit text .expression outer) :
    Waiting limit text .factor
      (⟨.term, level.product.steps text (before.length + level.sum.text.length)⟩ ::
        ⟨.expression, level.sum.steps text before.length⟩ :: outer) := by
  have hsumStands : level.sum.StandsIn limit text before.length :=
    SumDraft.standsIn hwf.1 hsum.computes.valued
      (fun n hlimit => (le_max_left _ _).trans (hdepth n hlimit))
      ((List.prefix_append _ _).trans hplaced)
  have hproductStands : level.product.StandsIn limit text (before ++ level.sum.text).length :=
    ProductDraft.standsIn hwf.2 hproduct.computes.valued
      (fun n hlimit => (le_max_right _ _).trans (hdepth n hlimit)) hplaced
  rw [List.length_append] at hproductStands
  exact hproductStands.waiting (hsumStands.waiting houter)

theorem LevelsTrack.waiting (h : LevelsTrack text levels stack)
    (hwf : ∀ level ∈ levels, level.sum.WellFormed ∧ level.product.WellFormed)
    (hdepth : ∀ n, limit = some n → levelsDepth levels ≤ n)
    (hplaced : levelsText levels <+: visible text) :
    Waiting limit text .expression (levelsOpens text levels) := by
  induction h with
  | nil => exact .outermost
  | @cons level levels outer stack hexpression hterm hbegins _ ih =>
    rw [levelsText] at hplaced
    have hlevel : levelsText levels ++ level.sum.text ++ level.product.text <+: visible text :=
      (List.prefix_append _ _).trans hplaced
    have houter : Waiting limit text .expression (levelsOpens text levels) := by
      refine ih (fun level hmem => hwf level (List.mem_cons_of_mem _ hmem)) ?_ ?_
      · intro n hlimit
        have hle := hdepth n hlimit
        rw [levelsDepth] at hle
        omega
      · rw [List.append_assoc] at hlevel
        exact (List.prefix_append _ _).trans hlevel
    refine .inside rfl (List.forall_mem_nil _) rfl ?_
    refine level.waiting (hwf level (List.mem_cons_self ..)) hexpression hterm ?_ hlevel houter
    intro n hlimit
    have hle := hdepth n hlimit
    rw [levelsDepth] at hle
    omega

/-- The open rules of a machine are those of its draft. -/
theorem LevelsTrack.openRules_eq {m : Machine} (h : LevelsTrack text levels m.stack) :
    m.openRules.map OpenRule.rule =
      m.phase.openRules.map OpenRule.rule ++ (levelsOpens text levels).map OpenTrace.rule := by
  rw [Machine.openRules, List.map_append, List.append_cancel_left_eq]
  generalize m.stack = stack at h
  induction h with
  | nil => rfl
  | cons _ _ _ _ ih =>
    rw [List.flatMap_cons, List.map_append, ih]
    rfl

/-! ## Machines at a draft -/

/-- The machine has read the part `w` of the text. It stands at a sound draft and has reported what
leads to it. -/
structure AtDraft (limit : Option Nat) (text w rest : List Char) (d : Draft) (m : Machine) : Prop where
  split : text = w ++ rest
  reports : Reports text w d m
  sound : d.Sound limit

namespace AtDraft

theorem text_isPrefix (h : AtDraft limit text w rest d m) : d.text <+: visible text := by
  rw [← h.reports.tracks.text_eq, h.split, visible_append]
  exact List.prefix_append _ _

theorem depth_le (h : AtDraft limit text w rest d m) {n : Nat} (hlimit : limit = some n) :
    d.levels.length + d.point.depth ≤ n :=
  (le_max_right _ _).trans (h.sound.depth_le n hlimit)

theorem silent {xs : List Question} (h : AtDraft limit text w rest d m) (hhead : HeadVisible rest)
    (move : Machine.SilentMove rest.head? (byteLength w) m xs m') :
    AtDraft limit text w rest d.advance m' :=
  ⟨h.split, h.reports.silent h.split hhead move, h.sound.advance⟩

theorem waiting_levels (h : AtDraft limit text w rest d m) :
    Waiting limit text .expression (levelsOpens text d.levels) := by
  refine h.reports.tracks.levels.waiting h.sound.levels ?_ ?_
  · exact fun n hlimit => (le_max_left _ _).trans (h.sound.depth_le n hlimit)
  · exact (List.prefix_append _ _).trans h.text_isPrefix

/-- Before a factor, its term and its expression wait for it. -/
theorem waiting_factor {e : OpenExpression} {t : OpenTerm}
    (h : AtDraft limit text w rest ⟨levels, .factor sum product⟩ m) (hphase : m.phase = .factor e t) :
    Waiting limit text .factor
      (⟨.term, product.steps text ((levelsText levels).length + sum.text.length)⟩ ::
        ⟨.expression, sum.steps text (levelsText levels).length⟩ :: levelsOpens text levels) := by
  have hpoint := h.reports.tracks.point
  rw [hphase] at hpoint
  cases hpoint with
  | factor hexpression hterm =>
    refine DraftLevel.waiting ⟨sum, product⟩ h.sound.point hexpression hterm ?_ ?_ h.waiting_levels
    · exact fun n hlimit => (Nat.le_add_left _ _).trans (h.depth_le hlimit)
    · simpa [Draft.text, DraftPoint.text] using h.text_isPrefix

/-- In a literal, its term and its expression wait for it. -/
theorem waiting_literal {digits : List Char} {e : OpenExpression} {t : OpenTerm} {start value : Nat}
    (h : AtDraft limit text w rest ⟨levels, .literal sum product digits⟩ m)
    (hphase : m.phase = .literal e t start value) :
    Waiting limit text .factor
      (⟨.term, product.steps text ((levelsText levels).length + sum.text.length)⟩ ::
        ⟨.expression, sum.steps text (levelsText levels).length⟩ :: levelsOpens text levels) := by
  have hpoint := h.reports.tracks.point
  rw [hphase] at hpoint
  cases hpoint with
  | literal hexpression hterm =>
    have hwf : sum.WellFormed ∧ product.WellFormed :=
      ⟨h.sound.point.1, (ProductDraft.wellFormed_of_join h.sound.point.2).1⟩
    refine DraftLevel.waiting ⟨sum, product⟩ hwf hexpression hterm ?_ ?_ h.waiting_levels
    · exact fun n hlimit => (Nat.le_add_left _ _).trans (h.depth_le hlimit)
    · have hprefix := h.text_isPrefix
      simp only [Draft.text, DraftPoint.text, ← List.append_assoc] at hprefix
      exact (List.prefix_append _ _).trans hprefix

/-- The parts of a sum with its last term stand in the text. -/
theorem operator_standsIn {e : OpenExpression} {termStart : Nat} {value : Fraction}
    (h : AtDraft limit text w rest ⟨levels, .operator sum term⟩ m)
    (hphase : m.phase = .operator e termStart value) :
    (Part.expression (sum.join term)).StandsIn limit text (levelsText levels).length := by
  have hpoint := h.reports.tracks.point
  rw [hphase] at hpoint
  cases hpoint with
  | operator hexpression hbegins hvalue =>
    obtain ⟨after, hafter⟩ := h.text_isPrefix
    refine ⟨SumDraft.join_wellFormed.2 h.sound.point, ?_, ?_, levelsText levels, after, ?_, rfl⟩
    · rw [Part.value?, (hexpression.computes.join hvalue).value_eq]
      simp
    · intro n hlimit
      rw [Part.depth, SumDraft.join_depth]
      exact (Nat.le_add_left _ _).trans (h.depth_le hlimit)
    · rw [← hafter, Part.text, SumDraft.join_text]
      rfl

end AtDraft

/-! ## Machines that may fail -/

namespace AtDraft

variable {e : OpenExpression} {t : OpenTerm} {termStart start value p : Nat} {total : Fraction}
  {digits : List Char} {level : DraftLevel} {outer : Level}

theorem closable_operator (h : AtDraft limit text w rest ⟨levels, .operator sum term⟩ m)
    (hphase : m.phase = .operator e termStart total) : m.Closable limit text := by
  obtain ⟨hsum, hterm⟩ := (h.operator_standsIn hphase).of_sum sum term
  have hrules := h.reports.tracks.levels.openRules_eq
  rw [hphase] at hrules
  exact ⟨.term, _, _, h.reports.events, hrules, hterm.steps_isStep,
    (Part.term term).stepCount_steps text _, hsum.waiting h.waiting_levels⟩

theorem closable_enterFactor (h : AtDraft limit text w rest ⟨levels, .factor sum product⟩ m)
    (hphase : m.phase = .factor e t) : (m.enterFactor e t p).Closable limit text := by
  have hevents := h.reports.events
  rw [hphase] at hevents
  have hlevels : LevelsTrack text levels (m.enterFactor e t p).stack := h.reports.tracks.levels
  have hevents' : (m.enterFactor e t p).events =
      Draft.events text ⟨levels, .literal sum product []⟩ .expression := by
    rw [Machine.events_enterFactor, hevents]
    rfl
  exact ⟨.factor, [], _, hevents', hlevels.openRules_eq, List.forall_mem_nil _, rfl,
    h.waiting_factor hphase⟩

theorem closable_literal (h : AtDraft limit text w rest ⟨levels, .literal sum product digits⟩ m)
    (hphase : m.phase = .literal e t start value) : m.Closable limit text := by
  have hrules := h.reports.tracks.levels.openRules_eq
  rw [hphase] at hrules
  exact ⟨.factor, [], _, h.reports.events, hrules, List.forall_mem_nil _, rfl,
    h.waiting_literal hphase⟩

/-- A machine that has left a factor may fail, whether or not the factor can be joined to its term. -/
theorem closable_of_left {factor : Factor} {k : Nat} {opens : List OpenTrace}
    (hwait : Waiting limit text .factor (⟨.term, product.steps text k⟩ :: opens))
    (hfactor : (Part.factor factor).StandsIn limit text (k + product.text.length))
    (hevents : m.events = openEvents (⟨.term, (product.join factor).steps text k⟩ :: opens))
    (hrules : m.openRules.map OpenRule.rule = .term :: opens.map OpenTrace.rule) :
    m.Closable limit text := by
  cases hwait with
  | inside hinner hsteps hcount houter =>
    refine ⟨.term, _, _, hevents, hrules, ?_, (Part.term _).stepCount_steps text k, houter⟩
    rw [ProductDraft.join_steps]
    exact List.forall_mem_append.2
      ⟨hsteps, List.forall_mem_singleton.2 ⟨rfl, hfactor.trace_isPart⟩⟩

theorem closable_leaveLiteral (h : AtDraft limit text w rest ⟨levels, .literal sum product digits⟩ m)
    (hphase : m.phase = .literal e t start value) :
    (m.leaveFactor start (.ofInt value) (.factor e t)).Closable limit text := by
  have hevents := h.reports.leave_literal h.split hphase (.factor e t)
  have hlevels : LevelsTrack text levels (m.leaveFactor start (.ofInt value) (.factor e t)).stack :=
    h.reports.tracks.levels
  have hliteral : (Part.factor (.literal digits)).StandsIn limit text
      ((levelsText levels).length + sum.text.length + product.text.length) := by
    obtain ⟨after, hafter⟩ := h.text_isPrefix
    refine ⟨(ProductDraft.wellFormed_of_join h.sound.point.2).2, by simp [Part.value?, Factor.value?],
      fun n _ => Nat.zero_le n, levelsText levels ++ sum.text ++ product.text, after, ?_,
      by simp only [List.length_append]⟩
    rw [← hafter]
    simp [Draft.text, DraftPoint.text, Part.text, Factor.text]
  exact closable_of_left (h.waiting_literal hphase) hliteral hevents hlevels.openRules_eq

/-- The parentheses that close now are a factor that stands in the text. -/
theorem group_standsIn {cs : List Char}
    (h : AtDraft limit text w (')' :: cs) ⟨level :: levels, .operator sum term⟩ m)
    (hphase : m.phase = .operator e termStart total) :
    (Part.factor (.group (sum.join term))).StandsIn limit text
      ((levelsText levels).length + level.sum.text.length + level.product.text.length) := by
  have hinner := h.operator_standsIn hphase
  refine ⟨hinner.wellFormed, hinner.valued, ?_,
    levelsText levels ++ level.sum.text ++ level.product.text, visible cs, ?_,
    by simp only [List.length_append]⟩
  · intro n hlimit
    have hle := h.depth_le hlimit
    simp only [List.length_cons, DraftPoint.depth] at hle
    rw [Part.depth, Factor.depth, SumDraft.join_depth]
    omega
  · have hw := h.reports.tracks.text_eq
    rw [h.split, visible_append, visible_cons_of_visible cs rfl, hw]
    simp [Draft.text, levelsText, DraftPoint.text, Part.text, Factor.text]

theorem closable_leaveGroup {cs : List Char} {stack : List Level}
    (h : AtDraft limit text w (')' :: cs) ⟨level :: levels, .operator sum term⟩ m)
    (hphase : m.phase = .operator e termStart total) (hstack : m.stack = outer :: stack)
    {phase : Phase}
    (hopen : phase.openRules.map OpenRule.rule = [.term, .expression]) :
    ((m.popLevel e termStart total stack (byteLength w + 1)).leaveFactor outer.start
      (e.sum.join total) phase).Closable limit text := by
  have hevents := h.reports.leave_group h.split hphase hstack phase
  have hlevels := h.reports.tracks.levels
  rw [hstack] at hlevels
  cases hlevels with
  | cons _ _ _ houter =>
    have hstack' : LevelsTrack text levels ((m.popLevel e termStart total stack
        (byteLength w + 1)).leaveFactor outer.start (e.sum.join total) phase).stack := houter
    have hrules := hstack'.openRules_eq
    rw [show ((m.popLevel e termStart total stack (byteLength w + 1)).leaveFactor outer.start
      (e.sum.join total) phase).phase = phase from rfl, hopen] at hrules
    cases h.waiting_levels with
    | inside _ _ _ hwait =>
      exact closable_of_left hwait (h.group_standsIn hphase) hevents hrules

/-- In parentheses a machine that has left an expression may fail. -/
theorem closable_leaveExpression
    (h : AtDraft limit text w rest ⟨level :: levels, .operator sum term⟩ m)
    (hphase : m.phase = .operator e termStart total) :
    (m.leaveExpression e termStart total).Closable limit text := by
  have hinner := h.operator_standsIn hphase
  have hevents := h.reports.leave_expression h.split hphase
  rw [openEvents_group] at hevents
  have hlevels : LevelsTrack text (level :: levels) (m.leaveExpression e termStart total).stack :=
    h.reports.tracks.levels
  have hlen : (levelsText (level :: levels)).length = (levelsText levels).length +
      level.sum.text.length + level.product.text.length + 1 := by
    simp only [levelsText, List.length_append, List.length_singleton]
  cases h.waiting_levels with
  | inside _ _ _ hwait =>
    refine ⟨.factor, _, _, hevents, hlevels.openRules_eq, ?_, rfl, hwait⟩
    rw [Factor.group_steps, ← hlen]
    exact List.forall_mem_singleton.2 ⟨rfl, hinner.trace_isPart⟩

end AtDraft

end

/-! ## The trace of a run -/

/-- The trace of a run that ends with an outcome. A run whose expression is complete is accepted, or it
is rejected for a character after the expression; all others fail inside of it. -/
inductive Trace.Records (limit : Option Nat) (text : List Char) : Trace → Outcome → Prop
  | accepted {e : Expression} (hpart : (Part.expression e).StandsIn limit text 0)
      (hparse : Draft.parse (visible text) = some e) :
      Records limit text ((Part.expression e).trace text 0) (.value (.ofValue e.value?))
  | rejected {e : Expression} {w cs : List Char} {c : Char}
      (hpart : (Part.expression e).StandsIn limit text 0) (htext : text = w ++ c :: cs)
      (hstop : ((Part.expression e).trace text 0).span.stop ≤ byteLength w) :
      Records limit text ((Part.expression e).trace text 0)
        (.failure ⟨.unexpectedChar c, .ofChar c (byteLength w)⟩)
  | failed {failure : Failure} {span : Span} {steps : List Trace}
      (h : FailingSteps limit text failure .expression steps) :
      Records limit text (.node .expression span (.failure failure) steps) (.failure failure)

/-- The events of the run are those of a trace that fits its outcome. -/
def Run.Recorded (limit : Option Nat) (text : List Char) (run : Run) : Prop :=
  ∃ trace : Trace, trace.events = run.events ∧ trace.Records limit text run.outcome

/-- Whatever has a value in the trace of a run is the trace of a part. -/
theorem Trace.Records.isPart_of_value {limit : Option Nat} {text : List Char} {trace node : Trace}
    {outcome : Outcome} {v : Fraction} (h : trace.Records limit text outcome)
    (hnode : trace.Contains node) (hv : node.outcome = .value v) : node.IsPart limit text := by
  cases h with
  | accepted hpart => exact hpart.trace_isPart.of_contains hnode
  | rejected hpart => exact hpart.trace_isPart.of_contains hnode
  | failed hfailing =>
    rcases hfailing.of_contains hnode with hpart | hfailure
    · exact hpart
    · cases hv.symm.trans hfailure

section
variable {limit : Option Nat} {text w rest : List Char} {d : Draft} {m m' : Machine}
  {xs ys : List Question} {q : Progress} {r : Run} {c : Char} {cs : List Char}

theorem Machine.Closable.recorded (h : m.Closable limit text) (failure : Failure) :
    (m.fail failure).Recorded limit text := by
  obtain ⟨span, steps, hevents, hfailing⟩ := h.exists_trace failure
  exact ⟨_, hevents, .failed hfailing⟩

theorem Machine.fail_events_of_closed (h : m.openRules = []) (failure : Failure) :
    (m.fail failure).events = m.events := by
  rw [fail_events, h]
  exact List.append_nil _

theorem Trace.Records.rejected_after {e : Expression}
    (hpart : (Part.expression e).StandsIn limit text 0) (htext : text = w ++ c :: cs)
    (hw : e.text <+: visible w) :
    ((Part.expression e).trace text 0).Records limit text
      (.failure ⟨.unexpectedChar c, .ofChar c (byteLength w)⟩) := by
  refine .rejected hpart htext ?_
  have hne := List.length_pos_of_ne_nil (Part.text_ne_nil hpart.wellFormed)
  rw [htext]
  refine Span.ofVisible_stop_le (c :: cs) hne.ne' ?_
  rw [Nat.zero_add]
  exact hw.length_le

namespace AtDraft

/-! ### Questions -/

theorem silent_questions (h : AtDraft limit text w rest d m) (hhead : HeadVisible rest)
    (move : Machine.SilentMove rest.head? (byteLength w) m xs m') :
    ∀ x ∈ xs, x.asked.Closable limit text := by
  have hadvance := h.silent hhead move
  obtain ⟨levels, point⟩ := d
  have hpoint := h.reports.tracks.point
  simp only at hpoint
  cases move with
  | enterExpression | enterTerm | beside => exact List.forall_mem_nil _
  | leaveLiteral hphase hnext hjoin =>
    rw [hphase] at hpoint
    cases hpoint
    exact List.forall_mem_singleton.2 (hadvance.closable_operator rfl)

theorem take_questions (h : AtDraft limit text w (c :: cs) d m)
    (move : Machine.TakingMove limit c (byteLength w) m xs m') :
    ∀ x ∈ xs, x.asked.Closable limit text := by
  obtain ⟨levels, point⟩ := d
  have hpoint := h.reports.tracks.point
  simp only at hpoint
  cases move with
  | firstSign | opening | scaling | sign | equals => exact List.forall_mem_nil _
  | firstDigit hphase hc =>
    rw [hphase] at hpoint
    cases hpoint
    exact List.forall_mem_singleton.2 (h.closable_enterFactor hphase)
  | nextDigit hphase hc =>
    rw [hphase] at hpoint
    cases hpoint
    exact List.forall_mem_singleton.2 (h.closable_literal hphase)
  | closing hphase hstack hc hjoin =>
    have hlevels := h.reports.tracks.levels
    obtain rfl : c = ')' := (Symbol.ofChar_eq_iff rfl).1 hc
    rw [hphase] at hpoint
    rw [hstack] at hlevels
    cases hlevels
    cases hpoint
    exact List.forall_mem_singleton.2 (h.closable_leaveGroup hphase hstack rfl)

theorem questions (h : AtDraft limit text w rest d m) (hhead : HeadVisible rest)
    (moves : Machine.Moves limit rest.head? (byteLength w) m xs q) :
    ∀ x ∈ xs, x.asked.Closable limit text := by
  induction moves generalizing d with
  | silent move _ ih =>
    exact List.forall_mem_append.2 ⟨h.silent_questions hhead move, ih (h.silent hhead move)⟩
  | take hnext move =>
    obtain ⟨cs, rfl⟩ := List.head?_eq_some_iff.1 hnext
    exact h.take_questions move
  | final move => exact List.forall_mem_nil _

/-! ### Ends -/

theorem visible_sum {levels : List DraftLevel} {sum : SumDraft} {term : Term}
    (h : AtDraft limit text w rest ⟨levels, .operator sum term⟩ m) :
    visible w = levelsText levels ++ (sum.join term).text := by
  rw [h.reports.tracks.text_eq, SumDraft.join_text]
  rfl

theorem leave_outermost {sum : SumDraft} {term : Term} {e : OpenExpression} {termStart : Nat}
    {value : Fraction} (h : AtDraft limit text w rest ⟨[], .operator sum term⟩ m)
    (hphase : m.phase = .operator e termStart value) :
    ((Part.expression (sum.join term)).trace text 0).events =
      (m.leaveExpression e termStart value).events := by
  rw [h.reports.leave_expression h.split hphase, Part.events_trace]
  rfl

theorem refuse_outermost {sum : SumDraft} {term : Term} {e : OpenExpression} {termStart : Nat}
    {value : Fraction} (h : AtDraft limit text w (c :: cs) ⟨[], .operator sum term⟩ m)
    (hphase : m.phase = .operator e termStart value) :
    ((m.leaveExpression e termStart value).fail (.atNext (some c) (byteLength w))).Recorded
      limit text := by
  have hstack : m.stack = [] := h.reports.tracks.levels.eq_nil_iff.1 rfl
  have hclosed : (m.leaveExpression e termStart value).openRules = [] :=
    congrArg (List.flatMap Level.openRules) hstack
  refine ⟨_, ?_, .rejected_after (h.operator_standsIn hphase) h.split ?_⟩
  · rw [Machine.fail_events_of_closed hclosed]
    exact h.leave_outermost hphase
  · rw [h.visible_sum]
    exact List.prefix_refl _

theorem accept_outermost {sum : SumDraft} {term : Term} {e : OpenExpression} {termStart : Nat}
    {value : Fraction} (h : AtDraft limit text w [] ⟨[], .operator sum term⟩ m)
    (hphase : m.phase = .operator e termStart value) :
    Run.Recorded limit text
      ⟨.value (e.sum.join value), (m.leaveExpression e termStart value).journal⟩ := by
  have hstands := h.operator_standsIn hphase
  have hpoint := h.reports.tracks.point
  have htext := h.split
  rw [hphase] at hpoint
  rw [List.append_nil] at htext
  cases hpoint with
  | operator hexpression hbegins hvalue =>
    refine ⟨_, h.leave_outermost hphase, ?_⟩
    rw [(hexpression.computes.join hvalue).eq_ofValue]
    refine .accepted hstands (Draft.parse_eq_some_iff.2 ⟨hstands.wellFormed, .inl ?_⟩)
    rw [htext, h.visible_sum]
    rfl

theorem complete_standsIn {whole : Expression} {value : Fraction}
    (h : AtDraft limit text w rest ⟨[], .complete whole⟩ m) (hphase : m.phase = .complete value) :
    (Part.expression whole).StandsIn limit text 0 ∧ visible w = whole.text ++ ['='] ∧
      value = .ofValue whole.value? := by
  have hw : visible w = whole.text ++ ['='] := by
    rw [h.reports.tracks.text_eq]
    rfl
  have hpoint := h.reports.tracks.point
  rw [hphase] at hpoint
  cases hpoint with
  | complete houtermost hvalue =>
    refine ⟨⟨h.sound.point, ?_, ?_, [], '=' :: visible rest, ?_, rfl⟩, hw, hvalue.eq_ofValue⟩
    · rw [Part.value?, hvalue.value_eq]
      simp
    · exact fun n hlimit => (Nat.le_add_left _ _).trans (h.depth_le hlimit)
    · rw [h.split, visible_append, hw]
      simp [Part.text]

theorem final (h : AtDraft limit text w rest d m)
    (move : Machine.FinalMove limit rest.head? (byteLength w) m r) : r.Recorded limit text := by
  obtain ⟨levels, point⟩ := d
  have hpoint := h.reports.tracks.point
  have hlevels := h.reports.tracks.levels
  simp only at hpoint hlevels
  cases move with
  | refuseFactor hphase =>
    rw [hphase] at hpoint
    cases hpoint
    exact (h.closable_enterFactor hphase).recorded _
  | tooDeep hphase =>
    rw [hphase] at hpoint
    cases hpoint
    exact (h.closable_enterFactor hphase).recorded _
  | literalFault hphase =>
    rw [hphase] at hpoint
    cases hpoint
    exact (h.closable_leaveLiteral hphase).recorded _
  | closingFault hphase hstack hnext =>
    have hhead := (Symbol.ofNext_eq_iff rfl).1 hnext
    obtain ⟨cs, rfl⟩ := List.head?_eq_some_iff.1 hhead
    rw [hphase] at hpoint
    rw [hstack] at hlevels
    cases hlevels
    cases hpoint
    exact (h.closable_leaveGroup hphase hstack rfl).recorded _
  | stray hphase =>
    rw [hphase] at hpoint
    cases hpoint
    exact (h.closable_operator hphase).recorded _
  | @refuseEnd e termStart value hphase hnext =>
    rw [hphase] at hpoint
    cases hpoint with
    | @operator sum term =>
      cases levels with
      | cons level levels => exact (h.closable_leaveExpression hphase).recorded _
      | nil =>
        have hstack := hlevels.eq_nil_iff.1 rfl
        rcases hnext with ⟨hs, -⟩ | ⟨-, hopen⟩ | ⟨-, hopen⟩
        · have hhead := (Symbol.ofNext_eq_iff rfl).1 hs
          obtain ⟨cs, rfl⟩ := List.head?_eq_some_iff.1 hhead
          exact h.refuse_outermost hphase
        · exact absurd hstack hopen
        · exact absurd hstack hopen
  | accept hphase hstack hnext =>
    obtain rfl := List.head?_eq_none_iff.1 (Symbol.ofNext_eq_ending_iff.1 hnext)
    obtain rfl := hlevels.eq_nil_iff.2 hstack
    rw [hphase] at hpoint
    cases hpoint
    exact h.accept_outermost hphase
  | acceptComplete hphase hnext =>
    obtain rfl := List.head?_eq_none_iff.1 (Symbol.ofNext_eq_ending_iff.1 hnext)
    rw [hphase] at hpoint
    cases hpoint with
    | complete houtermost =>
      obtain rfl := levelsText_eq_nil_iff.1 houtermost
      obtain ⟨hstands, hw, rfl⟩ := h.complete_standsIn hphase
      refine ⟨_, h.reports.events.symm, .accepted hstands ?_⟩
      refine Draft.parse_eq_some_iff.2 ⟨hstands.wellFormed, .inr ?_⟩
      rw [h.split, List.append_nil, hw]
  | refuseComplete hphase hnext =>
    cases rest with
    | nil => exact absurd rfl hnext
    | cons c cs =>
      rw [hphase] at hpoint
      cases hpoint with
      | complete houtermost =>
        obtain rfl := levelsText_eq_nil_iff.1 houtermost
        obtain ⟨hstands, hw, rfl⟩ := h.complete_standsIn hphase
        have hclosed : m.openRules = [] := by
          rw [Machine.openRules, hphase, hlevels.eq_nil_iff.1 rfl]
          rfl
        refine ⟨_, ?_, .rejected_after hstands h.split ?_⟩
        · rw [Machine.fail_events_of_closed hclosed]
          exact h.reports.events.symm
        · rw [hw]
          exact List.prefix_append _ _

theorem ended (h : AtDraft limit text w rest d m) (hhead : HeadVisible rest)
    (moves : Machine.Moves limit rest.head? (byteLength w) m xs q) (hq : q = .ended r) :
    r.Recorded limit text := by
  induction moves generalizing d with
  | silent move _ ih => exact ih (h.silent hhead move) hq
  | take hnext move => cases hq
  | final move =>
    cases hq
    exact h.final move

end AtDraft

theorem Path.atDraft (path : Path limit w xs m) (hsplit : text = w ++ rest) :
    ∃ d, AtDraft limit text w rest d m := by
  obtain ⟨d, hstands, hreports⟩ := path.reports hsplit
  exact ⟨d, hsplit, hreports, hstands.sound⟩

theorem Path.questions (path : Path limit w xs m) (hsplit : text = w ++ rest) :
    ∀ x ∈ xs, x.asked.Closable limit text := by
  induction path generalizing rest with
  | start => exact List.forall_mem_nil _
  | skip path _ ih => exact ih (by rw [hsplit, List.append_assoc])
  | read path hc moves _ ih =>
    rw [List.append_assoc, List.singleton_append] at hsplit
    obtain ⟨d, hd⟩ := path.atDraft hsplit
    exact List.forall_mem_append.2 ⟨ih hsplit, hd.questions (.cons hc _) moves⟩

end

/-- Under any policy the events of a run are those of a trace that fits its outcome. -/
theorem runWith_recorded (policy : Policy) (text : String) :
    (runWith policy text).Recorded policy.depthLimit text.toList := by
  obtain ⟨w, rest, xs, m, ys, r, hcourse⟩ := exists_course policy.depthLimit text.toList
  obtain ⟨d, hd⟩ := hcourse.path.atDraft hcourse.text_eq
  have hquestions : ∀ x ∈ xs ++ ys, x.asked.Closable policy.depthLimit text.toList :=
    List.forall_mem_append.2
      ⟨hcourse.path.questions hcourse.text_eq, hd.questions hcourse.head hcourse.moves⟩
  rcases hcourse.runWith_cases with hrun | ⟨x, hx, hrun⟩
  · rw [hrun]
    exact hd.ended hcourse.head hcourse.moves rfl
  · rw [hrun]
    exact (hquestions x hx).recorded _

end ExactCalculator
