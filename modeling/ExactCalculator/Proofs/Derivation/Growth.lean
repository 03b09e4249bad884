import ExactCalculator.Proofs.Derivation.Draft

/-! How the depth, the levels and the values of a draft change as it grows. The depth is the greatest
number of parentheses that were open at once, the levels are those that still are. A draft is valued
when its finished parts have values; a part without a value stays in every later draft, so a draft
before a valued one is valued. -/
namespace ExactCalculator
set_option autoImplicit false

/-! ## Depth -/

def SumDraft.depth : SumDraft → Nat
  | .start _ => 0
  | .after before _ => before.depth

def ProductDraft.depth : ProductDraft → Nat
  | .start => 0
  | .after before _ => before.depth

def DraftPoint.depth : DraftPoint → Nat
  | .expression => 0
  | .factor sum product => max sum.depth product.depth
  | .literal sum product _ => max sum.depth product.depth
  | .operator sum term => max sum.depth term.depth
  | .complete whole => whole.depth

/-- The greatest depth in the parts that wait for a parenthesis to close. -/
def levelsDepth : List DraftLevel → Nat
  | [] => 0
  | level :: rest =>
    max (levelsDepth rest) (rest.length + max 1 (max level.sum.depth level.product.depth))

def Draft.depth (d : Draft) : Nat := max (levelsDepth d.levels) (d.levels.length + d.point.depth)

@[simp] theorem SumDraft.join_depth (sum : SumDraft) (term : Term) :
    (sum.join term).depth = max sum.depth term.depth := by
  cases sum <;> simp [join, depth, Expression.depth]

@[simp] theorem ProductDraft.join_depth (product : ProductDraft) (factor : Factor) :
    (product.join factor).depth = max product.depth factor.depth := by
  cases product <;> simp [join, depth, Term.depth]

namespace Draft

theorem length_levels_le_depth (d : Draft) : d.levels.length ≤ d.depth :=
  le_trans (Nat.le_add_right _ _) (le_max_right _ _)

theorem readFactor_depth {levels : List DraftLevel} {sum : SumDraft} {product : ProductDraft}
    {c : Char} {d : Draft} (h : readFactor levels sum product c = some d) :
    d.depth = max (max (levelsDepth levels) (levels.length + max sum.depth product.depth))
      d.levels.length := by
  unfold readFactor at h
  split at h
  · cases h
    simp only [depth, DraftPoint.depth]
    omega
  · cases h
    simp only [depth, DraftPoint.depth, levelsDepth, List.length_cons]
    omega
  · cases h

theorem readOperator_depth {levels : List DraftLevel} {sum : SumDraft} {term : Term} {c : Char}
    {d : Draft} (h : readOperator levels sum term c = some d) :
    d.depth = max (max (levelsDepth levels) (levels.length + max sum.depth term.depth))
      d.levels.length := by
  unfold readOperator at h
  split at h
  · exact readFactor_depth h
  · exact readFactor_depth h
  · cases h
    simp only [depth, DraftPoint.depth, ProductDraft.depth]
    omega
  · cases h
    simp only [depth, DraftPoint.depth, ProductDraft.depth, SumDraft.depth, SumDraft.join_depth]
    omega
  · cases h
    simp only [depth, DraftPoint.depth, ProductDraft.join_depth, Factor.depth,
      SumDraft.join_depth, levelsDepth, List.length_cons]
    -- compared by their upper bounds, since so many maxima are too much for `omega` at once
    refine eq_of_forall_ge_iff fun n => ?_
    simp only [← Nat.add_max_add_left, ← Nat.add_max_add_right, max_le_iff]
    omega
  · cases h
    simp only [depth, DraftPoint.depth, SumDraft.join_depth, levelsDepth, List.length_nil]
    omega
  · cases h

/-- Reading on makes a draft deeper only if it opens a parenthesis. -/
theorem read_depth {d d' : Draft} {c : Char} (h : d.read c = some d') :
    d'.depth = max d.depth d'.levels.length := by
  obtain ⟨levels, point⟩ := d
  cases point with
  | expression =>
    simp only [read, readExpression] at h
    split at h
    · cases h
      simp only [depth, DraftPoint.depth, SumDraft.depth, ProductDraft.depth]
      omega
    · exact readFactor_depth h
  | factor sum product => exact readFactor_depth h
  | literal sum product digits =>
    simp only [read] at h
    split at h
    · cases h
      simp only [depth, DraftPoint.depth]
      omega
    · rw [readOperator_depth h]
      simp [depth, DraftPoint.depth, Factor.depth]
  | operator sum term => exact readOperator_depth h
  | complete whole => cases h

theorem readAll_depth_le {d d' : Draft} {w : List Char} (h : d.readAll w = some d') :
    d.depth ≤ d'.depth := by
  induction w generalizing d with
  | nil =>
    cases h
    exact le_refl _
  | cons c cs ih =>
    obtain ⟨e, he, hrest⟩ := Option.bind_eq_some_iff.1 h
    exact le_trans (by rw [read_depth he]; exact le_max_left _ _) (ih hrest)

theorem finish_depth {d : Draft} {e : Expression} (h : d.finish = some e) : e.depth = d.depth := by
  rcases finish_cases h with ⟨sum, product, digits, rfl, rfl⟩ | ⟨sum, term, rfl, rfl⟩ | rfl
  · simp [depth, levelsDepth, DraftPoint.depth, Factor.depth]
  · simp [depth, levelsDepth, DraftPoint.depth]
  · simp [depth, levelsDepth, DraftPoint.depth]

end Draft

/-! ## Open parentheses -/

theorem count_opening (c : Char) :
    [c].count '(' = if Symbol.ofChar c = .opening then 1 else 0 := by
  have hiff : Symbol.ofChar c = .opening ↔ c = '(' := Symbol.ofChar_eq_iff rfl
  simp [List.count_singleton, hiff]

theorem count_closing (c : Char) :
    [c].count ')' = if Symbol.ofChar c = .closing then 1 else 0 := by
  have hiff : Symbol.ofChar c = .closing ↔ c = ')' := Symbol.ofChar_eq_iff rfl
  simp [List.count_singleton, hiff]

namespace Draft

theorem readFactor_levels {levels : List DraftLevel} {sum : SumDraft} {product : ProductDraft}
    {c : Char} {d : Draft} (h : readFactor levels sum product c = some d) :
    d.levels.length + [c].count ')' = levels.length + [c].count '(' := by
  rw [count_opening, count_closing]
  unfold readFactor at h
  split at h
  · next hs =>
    cases h
    simp [hs]
  · next hs =>
    cases h
    simp [hs]
  · cases h

theorem readOperator_levels {levels : List DraftLevel} {sum : SumDraft} {term : Term} {c : Char}
    {d : Draft} (h : readOperator levels sum term c = some d) :
    d.levels.length + [c].count ')' = levels.length + [c].count '(' := by
  unfold readOperator at h
  split at h
  · exact readFactor_levels h
  · exact readFactor_levels h
  all_goals
    rw [count_opening, count_closing]
  · next hs =>
    cases h
    simp [hs]
  · next hs =>
    cases h
    simp [hs]
  · next hs =>
    cases h
    simp [hs]
  · next hs =>
    cases h
    simp [hs]
  · cases h

/-- The levels of a draft are the parentheses that are open. -/
theorem read_levels {d d' : Draft} {c : Char} (h : d.read c = some d') :
    d'.levels.length + [c].count ')' = d.levels.length + [c].count '(' := by
  obtain ⟨levels, point⟩ := d
  cases point with
  | expression =>
    simp only [read, readExpression] at h
    split at h
    · next hs =>
      cases h
      rw [count_opening, count_closing]
      simp [hs]
    · exact readFactor_levels h
  | factor sum product => exact readFactor_levels h
  | literal sum product digits =>
    simp only [read] at h
    split at h
    · next hc =>
      cases h
      rw [count_opening, count_closing]
      simp [Symbol.ofChar_digit hc]
    · exact readOperator_levels h
  | operator sum term => exact readOperator_levels h
  | complete whole => cases h

theorem readAll_levels {d d' : Draft} {w : List Char} (h : d.readAll w = some d') :
    d'.levels.length + w.count ')' = d.levels.length + w.count '(' := by
  induction w generalizing d with
  | nil =>
    cases h
    rfl
  | cons c cs ih =>
    obtain ⟨e, he, hrest⟩ := Option.bind_eq_some_iff.1 h
    have hstep := read_levels he
    have htail := ih hrest
    rw [← List.singleton_append, List.count_append, List.count_append]
    omega

end Draft

/-! ## Values -/

def SumDraft.Valued : SumDraft → Prop
  | .start _ => True
  | .after before _ => before.value? ≠ none

def ProductDraft.Valued : ProductDraft → Prop
  | .start => True
  | .after before _ => before.value? ≠ none

def DraftPoint.Valued : DraftPoint → Prop
  | .expression => True
  | .factor sum product => sum.Valued ∧ product.Valued
  | .literal sum product _ => sum.Valued ∧ product.Valued
  | .operator sum term => sum.Valued ∧ term.value? ≠ none
  | .complete whole => whole.value? ≠ none

/-- All finished parts have values. -/
structure Draft.Valued (d : Draft) : Prop where
  levels : ∀ level ∈ d.levels, level.sum.Valued ∧ level.product.Valued
  point : d.point.Valued

theorem SumDraft.Valued.of_join {sum : SumDraft} {term : Term}
    (h : (sum.join term).value? ≠ none) : sum.Valued ∧ term.value? ≠ none := by
  cases sum with
  | start sign =>
    refine ⟨trivial, ?_⟩
    intro hn
    exact h (by simp [join, Expression.value?, hn])
  | after before sign =>
    constructor
    · intro hn
      exact h (by simp [join, Expression.value?, hn])
    · intro hn
      exact h (by simp [join, Expression.value?, hn])

theorem ProductDraft.Valued.of_join {product : ProductDraft} {factor : Factor}
    (h : (product.join factor).value? ≠ none) : product.Valued ∧ factor.value? ≠ none := by
  cases product with
  | start => exact ⟨trivial, h⟩
  | after before joint =>
    constructor
    · intro hn
      exact h (by simp [join, Term.value?, hn])
    · intro hn
      exact h (by simp [join, Term.value?, hn])

namespace Draft.Valued

theorem of_readFactor {levels : List DraftLevel} {sum : SumDraft} {product : ProductDraft}
    {c : Char} {d : Draft} (h : readFactor levels sum product c = some d) (hd : d.Valued) :
    (∀ level ∈ levels, level.sum.Valued ∧ level.product.Valued) ∧
      sum.Valued ∧ product.Valued := by
  obtain ⟨hl, hp⟩ := hd
  unfold readFactor at h
  split at h
  · cases h
    exact ⟨hl, hp⟩
  · cases h
    exact ⟨fun level hmem => hl level (List.mem_cons_of_mem _ hmem), hl _ (List.mem_cons_self ..)⟩
  · cases h

theorem of_readOperator {levels : List DraftLevel} {sum : SumDraft} {term : Term} {c : Char}
    {d : Draft} (h : readOperator levels sum term c = some d) (hd : d.Valued) :
    (∀ level ∈ levels, level.sum.Valued ∧ level.product.Valued) ∧
      sum.Valued ∧ term.value? ≠ none := by
  unfold readOperator at h
  split at h
  · exact of_readFactor h hd
  · exact of_readFactor h hd
  · cases h
    exact ⟨hd.levels, hd.point⟩
  · cases h
    exact ⟨hd.levels, SumDraft.Valued.of_join hd.point.1⟩
  · cases h
    obtain ⟨hl, hs, ht⟩ := hd
    obtain ⟨hp, hinner⟩ := ProductDraft.Valued.of_join ht
    refine ⟨?_, SumDraft.Valued.of_join hinner⟩
    intro level hmem
    rcases List.mem_cons.1 hmem with rfl | hrest
    · exact ⟨hs, hp⟩
    · exact hl level hrest
  · cases h
    exact ⟨hd.levels, SumDraft.Valued.of_join hd.point⟩
  · cases h

/-- What has no value when a character is read has none afterwards. -/
theorem of_read {d d' : Draft} {c : Char} (h : d.read c = some d') (hd : d'.Valued) :
    d.Valued := by
  obtain ⟨levels, point⟩ := d
  cases point with
  | expression =>
    simp only [read, readExpression] at h
    split at h
    · cases h
      exact ⟨hd.levels, trivial⟩
    · exact ⟨(of_readFactor h hd).1, trivial⟩
  | factor sum product => exact ⟨(of_readFactor h hd).1, (of_readFactor h hd).2⟩
  | literal sum product digits =>
    simp only [read] at h
    split at h
    · cases h
      exact ⟨hd.levels, hd.point⟩
    · obtain ⟨hl, hs, ht⟩ := of_readOperator h hd
      exact ⟨hl, hs, (ProductDraft.Valued.of_join ht).1⟩
  | operator sum term => exact ⟨(of_readOperator h hd).1, (of_readOperator h hd).2⟩
  | complete whole => cases h

theorem of_readAll {d d' : Draft} {w : List Char} (h : d.readAll w = some d') (hd : d'.Valued) :
    d.Valued := by
  induction w generalizing d with
  | nil =>
    cases h
    exact hd
  | cons c cs ih =>
    obtain ⟨e, he, hrest⟩ := Option.bind_eq_some_iff.1 h
    exact of_read he (ih hrest)

theorem of_finish {d : Draft} {e : Expression} (h : d.finish = some e) (he : e.value? ≠ none) :
    d.Valued := by
  rcases finish_cases h with ⟨sum, product, digits, rfl, rfl⟩ | ⟨sum, term, rfl, rfl⟩ | rfl
  · obtain ⟨hs, ht⟩ := SumDraft.Valued.of_join he
    exact ⟨by simp, hs, (ProductDraft.Valued.of_join ht).1⟩
  · exact ⟨by simp, SumDraft.Valued.of_join he⟩
  · exact ⟨by simp, he⟩

end Draft.Valued

end ExactCalculator
