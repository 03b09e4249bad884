import ExactCalculator.Proofs.Machine.Paths

/-! Which texts have a value. The evaluator accepts the texts whose visible characters have a
derivation that keeps to the depth limit and divides by nothing that is zero, and it answers the value
of that derivation. One direction follows the run: a draft that comes to its end is a derivation. For
the other, no failure is possible at a draft that a derivation goes through
(`Draft.Ending.value_eq_none`). -/
namespace ExactCalculator
set_option autoImplicit false

/-! ## Sentences -/

/-- A whole input: an expression, and whether `=` follows it. -/
structure Sentence where
  expression : Expression
  closed : Bool

namespace Sentence

def text (s : Sentence) : List Char := s.expression.text ++ if s.closed then ['='] else []

/-- The visible characters of the input are the text of the sentence. -/
def Derives (s : Sentence) (input : List Char) : Prop :=
  s.expression.WellFormed ∧ visible input = s.text

theorem Derives.parse_eq {s : Sentence} {input : List Char} (h : s.Derives input) :
    Draft.parse (visible input) = some s.expression := by
  obtain ⟨hwf, htext⟩ := h
  rw [htext, text, Draft.parse_eq_some_iff]
  refine ⟨hwf, ?_⟩
  cases s.closed <;> simp

theorem exists_derives_iff {input : List Char} {e : Expression} :
    (∃ s : Sentence, s.Derives input ∧ s.expression = e) ↔
      Draft.parse (visible input) = some e := by
  constructor
  · rintro ⟨s, hs, rfl⟩
    exact hs.parse_eq
  · intro h
    obtain ⟨hwf, htext | htext⟩ := Draft.parse_eq_some_iff.1 h
    · exact ⟨⟨e, false⟩, ⟨hwf, by simp [htext, text]⟩, rfl⟩
    · exact ⟨⟨e, true⟩, ⟨hwf, by simp [htext, text]⟩, rfl⟩

/-- The expression of an input is unique, and so is whether `=` follows it. -/
theorem Derives.unique {s s' : Sentence} {input : List Char} (h : s.Derives input)
    (h' : s'.Derives input) : s = s' := by
  obtain ⟨e, closed⟩ := s
  obtain ⟨e', closed'⟩ := s'
  have hexpression : e = e' := Option.some.inj (h.parse_eq.symm.trans h'.parse_eq)
  subst hexpression
  have htext : e.text ++ (if closed then ['='] else []) =
      e.text ++ (if closed' then ['='] else []) := h.2.symm.trans h'.2
  have htail := List.append_cancel_left htext
  have hclosed : closed = closed' := by
    cases closed <;> cases closed' <;> first | rfl | cases htail
  rw [hclosed]

end Sentence

/-! ## Failures and derivations -/

section
variable {limit : Option Nat} {text w rest : List Char} {d d' : Draft} {e : Expression}

theorem exists_read_of_head {c : Char} (hhead : HeadVisible rest) (hc : rest.head? = some c)
    (h : d.readAll (visible rest) = some d') :
    ∃ d₁ cs, d.read c = some d₁ ∧ d₁.readAll (visible cs) = some d' := by
  cases rest with
  | nil => cases hc
  | cons b cs =>
    have hb : isIgnored b = false := hhead b rfl
    cases hc
    rw [visible_cons_of_visible cs hb] at h
    obtain ⟨d₁, hread, hrest⟩ := Option.bind_eq_some_iff.1 h
    exact ⟨d₁, cs, hread, hrest⟩

theorem eq_of_head_none (hnone : rest.head? = none) (h : d.readAll (visible rest) = some d') :
    d = d' := by
  cases rest with
  | nil => exact Option.some.inj h
  | cons c cs => cases hnone

/-- A literal that a derivation with a value closes has a value in its term. -/
theorem Draft.literal_value_ne_none {sum : SumDraft} {product : ProductDraft} {digits : List Char}
    (hpoint : d.point = .literal sum product digits) (hhead : HeadVisible rest)
    (hnext : ∀ c, rest.head? = some c → c.isDigit = false)
    (h : d.readAll (visible rest) = some d') (hfinish : d'.finish = some e)
    (hvalue : e.value? ≠ none) : (product.join (.literal digits)).value? ≠ none := by
  obtain ⟨levels, point⟩ := d
  subst hpoint
  cases hr : rest.head? with
  | none =>
    obtain rfl := eq_of_head_none hr h
    cases levels with
    | nil =>
      cases hfinish
      exact (SumDraft.Valued.of_join hvalue).2
    | cons => cases hfinish
  | some c =>
    obtain ⟨d₁, cs, hread, hrest⟩ := exists_read_of_head hhead hr h
    have hvalued : d₁.Valued := .of_readAll hrest (.of_finish hfinish hvalue)
    simp only [Draft.read, hnext c hr, Bool.false_eq_true, if_false] at hread
    exact (Draft.Valued.of_readOperator hread hvalued).2.2

/-- A run fails only where no derivation with a value within the depth limit goes on. -/
theorem Draft.Ending.value_eq_none {failure : Failure}
    (h : d.Ending limit text w rest.head? (.failure failure)) (hhead : HeadVisible rest)
    (hread : d.readAll (visible rest) = some d') (hfinish : d'.finish = some e)
    (hdepth : ∀ n, limit = some n → e.depth ≤ n) : e.value? = none := by
  by_contra hvalue
  cases h with
  | refused hno hend =>
    cases hr : rest.head? with
    | none =>
      obtain rfl := eq_of_head_none hr hread
      rw [hend hr] at hfinish
      cases hfinish
    | some c =>
      obtain ⟨d₁, cs, hc, -⟩ := exists_read_of_head hhead hr hread
      rw [hno c hr] at hc
      cases hc
  | @tooDeep n d₂ hnext hlimit hdeep hopening hgrow =>
    -- the derivation would go through the same parenthesis and be too deep itself
    obtain ⟨d₁, cs, hc, hrest⟩ := exists_read_of_head hhead hnext hread
    obtain rfl := Option.some.inj (hopening.symm.trans hc)
    have hle : e.depth ≤ n := hdepth n hlimit
    have hlevels := d₂.length_levels_le_depth
    have hgrown := Draft.readAll_depth_le hrest
    rw [Draft.finish_depth hfinish] at hle
    omega
  | literalFault hpoint hnext hzero =>
    exact Draft.literal_value_ne_none hpoint hhead hnext hread hfinish hvalue hzero.value_eq
  | groupFault hnext hlevels hclosing hzero =>
    obtain ⟨d₁, cs, hc, hrest⟩ := exists_read_of_head hhead hnext hread
    obtain rfl := Option.some.inj (hclosing.symm.trans hc)
    have hvalued := Draft.Valued.of_readAll hrest (.of_finish hfinish hvalue)
    exact hvalued.point.2 hzero.value_eq

end

/-! ## Accepted texts -/

theorem exists_expression_of_evaluate {text : String} {v : Fraction}
    (h : evaluate text = .value v) :
    ∃ e, Draft.parse (visible text.toList) = some e ∧ e.depth ≤ maxDepth ∧
      v.StandsFor e.value? := by
  obtain ⟨w, rest, xs, m, ys, r, hcourse⟩ := exists_course (some maxDepth) text.toList
  obtain ⟨d, hstands, hending⟩ := hcourse.ending
  rw [← hcourse.evaluate_eq, h] at hending
  cases hending with
  | @accepted e _ hnext hfinish hvalue =>
    have hrest : rest = [] := List.head?_eq_none_iff.1 hnext
    have htext : text.toList = w := by rw [hcourse.text_eq, hrest, List.append_nil]
    refine ⟨e, ?_, ?_, hvalue⟩
    · rw [htext, Draft.parse, hstands.readAll]
      exact hfinish
    · rw [Draft.finish_depth hfinish]
      exact hstands.depth_le maxDepth rfl

theorem reduced_of_evaluate {text : String} {v : Fraction} (h : evaluate text = .value v) :
    v.Reduced := by
  obtain ⟨e, -, -, hv⟩ := exists_expression_of_evaluate h
  exact hv.reduced

theorem evaluate_of_parse {text : String} {e : Expression} {v : Fraction}
    (hparse : Draft.parse (visible text.toList) = some e) (hdepth : e.depth ≤ maxDepth)
    (hv : v.StandsFor e.value?) : evaluate text = .value v := by
  obtain ⟨w, rest, xs, m, ys, r, hcourse⟩ := exists_course (some maxDepth) text.toList
  obtain ⟨d, hstands, hending⟩ := hcourse.ending
  rw [hcourse.text_eq, visible_append, Draft.parse, Draft.readAll_append, hstands.readAll,
    Option.bind_some] at hparse
  obtain ⟨d', hread, hfinish⟩ := Option.bind_eq_some_iff.1 hparse
  rw [hcourse.evaluate_eq]
  cases houtcome : r.outcome with
  | value u =>
    rw [houtcome] at hending
    cases hending with
    | accepted hnext hfinish' hu =>
      obtain rfl := eq_of_head_none hnext hread
      obtain rfl := Option.some.inj (hfinish.symm.trans hfinish')
      rw [hu.unique hv]
  | failure failure =>
    rw [houtcome] at hending
    have hnone := hending.value_eq_none hcourse.head hread hfinish (by rintro n ⟨⟩; exact hdepth)
    rw [hv.value_eq] at hnone
    cases hnone

/-- The evaluator answers a value for the texts that derive it within the depth limit and without a
division by zero, and for no other text; and a text has one derivation at most. -/
theorem evaluate_eq_value_iff (text : String) (v : Fraction) :
    (evaluate text = .value v ↔
      v.Reduced ∧ ∃ s : Sentence, s.Derives text.toList ∧ s.expression.depth ≤ maxDepth ∧
        s.expression.value? = some v.toRat) ∧
    ∀ s s' : Sentence, s.Derives text.toList → s'.Derives text.toList → s = s' := by
  refine ⟨⟨?_, ?_⟩, fun s s' => Sentence.Derives.unique⟩
  · intro h
    obtain ⟨e, hparse, hdepth, hv⟩ := exists_expression_of_evaluate h
    obtain ⟨s, hs, rfl⟩ := Sentence.exists_derives_iff.2 hparse
    exact ⟨hv.reduced, s, hs, hdepth, hv.value_eq⟩
  · rintro ⟨hreduced, s, hs, hdepth, hvalue⟩
    exact evaluate_of_parse hs.parse_eq hdepth ⟨hreduced, hvalue⟩

end ExactCalculator
