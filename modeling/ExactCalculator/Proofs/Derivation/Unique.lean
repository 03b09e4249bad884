import ExactCalculator.Proofs.Derivation.Draft

/-! Reading the text of a derivation gives back the derivation. One character of lookahead is enough:
which rule a character belongs to never depends on what follows it. So the drafts of a text decide
whether it has a derivation, and it has one at most (`parse_eq_some_iff`). -/
namespace ExactCalculator
set_option autoImplicit false

/-! ## Texts are not empty -/

theorem Factor.text_ne_nil {factor : Factor} (h : factor.WellFormed) : factor.text ≠ [] := by
  cases factor with
  | literal digits => exact h.1
  | group inner => simp [Factor.text]

theorem Term.text_ne_nil {term : Term} (h : term.WellFormed) : term.text ≠ [] := by
  cases term with
  | first factor => exact Factor.text_ne_nil h
  | next before joint factor =>
    exact List.append_ne_nil_of_right_ne_nil _ (Factor.text_ne_nil h.2.1)

theorem Expression.text_ne_nil {e : Expression} (h : e.WellFormed) : e.text ≠ [] := by
  cases e with
  | first sign term => exact List.append_ne_nil_of_right_ne_nil _ (Term.text_ne_nil h)
  | next before sign term => simp [Expression.text]

namespace Draft

/-! ## The draft after a part of a derivation -/

def afterFactor (levels : List DraftLevel) (sum : SumDraft) (product : ProductDraft) :
    Factor → Draft
  | .literal digits => ⟨levels, .literal sum product digits⟩
  | .group inner => ⟨levels, .operator sum (product.join (.group inner))⟩

def afterTerm (levels : List DraftLevel) (sum : SumDraft) : Term → Draft
  | .first factor => afterFactor levels sum .start factor
  | .next before joint factor => afterFactor levels sum (.after before joint) factor

def afterExpression (levels : List DraftLevel) : Expression → Draft
  | .first sign term => afterTerm levels (.start sign) term
  | .next before sign term => afterTerm levels (.after before sign) term

/-- After a term the draft reads an operator. Only a digit after a literal would not be one. -/
theorem read_afterTerm (levels : List DraftLevel) (sum : SumDraft) (term : Term) {c : Char}
    (hc : c.isDigit = true → term.last.isLiteral = false) :
    (afterTerm levels sum term).read c = readOperator levels sum term c := by
  have hfactor : ∀ (product : ProductDraft) (factor : Factor),
      (c.isDigit = true → factor.isLiteral = false) →
      (afterFactor levels sum product factor).read c =
        readOperator levels sum (product.join factor) c := by
    intro product factor hlit
    cases factor with
    | literal digits =>
      have hno : ¬ c.isDigit = true := fun h => by cases hlit h
      simp [afterFactor, read, hno]
    | group inner => rfl
  cases term with
  | first factor => exact hfactor .start factor hc
  | next before joint factor => exact hfactor (.after before joint) factor hc

theorem afterExpression_join (levels : List DraftLevel) (sum : SumDraft) (term : Term) :
    afterExpression levels (sum.join term) = afterTerm levels sum term := by
  cases sum <;> rfl

theorem exists_join (e : Expression) : ∃ (sum : SumDraft) (term : Term), e = sum.join term := by
  cases e with
  | first sign term => exact ⟨.start sign, term, rfl⟩
  | next before sign term => exact ⟨.after before sign, term, rfl⟩

/-- After an expression the draft reads a sign, a closing parenthesis or `=` as its end. -/
theorem read_afterExpression (levels : List DraftLevel) {sum : SumDraft} {term : Term} {c : Char}
    (hc : c.isDigit = false) :
    (afterExpression levels (sum.join term)).read c = readOperator levels sum term c := by
  rw [afterExpression_join]
  refine read_afterTerm levels sum term ?_
  intro h
  rw [hc] at h
  cases h

theorem finish_afterExpression (e : Expression) : (afterExpression [] e).finish = some e := by
  have hterm : ∀ (sum : SumDraft) (term : Term),
      (afterTerm [] sum term).finish = some (sum.join term) := by
    intro sum term
    cases term with
    | first factor => cases factor <;> rfl
    | next before joint factor => cases factor <;> rfl
  obtain ⟨sum, term, rfl⟩ := exists_join e
  rw [afterExpression_join, hterm]

/-! ## The first character of a part -/

/-- The characters that a factor can begin with. -/
def BeginsFactor (c : Char) : Prop := c.isDigit = true ∨ c = '('

theorem factor_text_head {factor : Factor} (h : factor.WellFormed) :
    ∃ c cs, factor.text = c :: cs ∧ BeginsFactor c ∧
      (c.isDigit = true → factor.isLiteral = true) := by
  cases factor with
  | literal digits =>
    obtain ⟨hne, hdigits⟩ := h
    obtain ⟨c, cs, rfl⟩ := List.exists_cons_of_ne_nil hne
    exact ⟨c, cs, rfl, .inl (hdigits c (List.mem_cons_self ..)), fun _ => rfl⟩
  | group inner =>
    refine ⟨'(', inner.text ++ [')'], rfl, .inr rfl, ?_⟩
    intro hd
    cases hd

theorem term_text_head : ∀ {term : Term}, term.WellFormed →
    ∃ c cs, term.text = c :: cs ∧ BeginsFactor c
  | .first factor, h => by
    have hfactor : factor.WellFormed := h
    obtain ⟨c, cs, htext, hc, -⟩ := factor_text_head hfactor
    exact ⟨c, cs, htext, hc⟩
  | .next before joint factor, h => by
    obtain ⟨c, cs, htext, hc⟩ := term_text_head h.1
    refine ⟨c, cs ++ joint.text ++ factor.text, ?_, hc⟩
    simp [Term.text, htext]

theorem readAll_congr_head {d d' : Draft} {c : Char} (cs : List Char)
    (h : d.read c = d'.read c) : d.readAll (c :: cs) = d'.readAll (c :: cs) := by
  rw [readAll_cons, readAll_cons, h]

theorem readExpression_eq_readFactor (levels : List DraftLevel) {c : Char} (hc : BeginsFactor c) :
    readExpression levels c = readFactor levels (.start none) .start c := by
  rcases hc with hd | rfl
  · simp [readExpression, Symbol.ofChar_digit hd]
  · rfl

theorem readOperator_eq_readFactor (levels : List DraftLevel) (sum : SumDraft) (term : Term)
    {c : Char} (hc : BeginsFactor c) :
    readOperator levels sum term c = readFactor levels sum (.after term .beside) c := by
  rcases hc with hd | rfl
  · simp [readOperator, Symbol.ofChar_digit hd]
  · rfl

/-! ## Reading the text of a derivation -/

theorem readAll_digits (levels : List DraftLevel) (sum : SumDraft) (product : ProductDraft)
    (digits : List Char) {more : List Char} (h : ∀ c ∈ more, c.isDigit = true) :
    readAll ⟨levels, .literal sum product digits⟩ more =
      some ⟨levels, .literal sum product (digits ++ more)⟩ := by
  induction more generalizing digits with
  | nil => simp
  | cons c cs ih =>
    have hc : c.isDigit = true := h c (List.mem_cons_self ..)
    have hread : read ⟨levels, .literal sum product digits⟩ c =
        some ⟨levels, .literal sum product (digits ++ [c])⟩ := by
      simp [read, hc]
    rw [readAll_cons, hread]
    simp [ih (digits ++ [c]) fun c' hc' => h c' (List.mem_cons_of_mem _ hc')]

mutual

theorem readAll_expression (levels : List DraftLevel) : ∀ e : Expression, e.WellFormed →
    readAll ⟨levels, .expression⟩ e.text = some (afterExpression levels e)
  | .first none term, h => by
    have hwf : term.WellFormed := h
    obtain ⟨c, cs, htext, hc⟩ := term_text_head hwf
    have hterm := readAll_term levels (.start none) term h
    have hhead : read ⟨levels, .expression⟩ c = read ⟨levels, .factor (.start none) .start⟩ c :=
      readExpression_eq_readFactor levels hc
    show readAll ⟨levels, .expression⟩ term.text = _
    rw [htext] at hterm ⊢
    rw [readAll_congr_head cs hhead, hterm]
    rfl
  | .first (some sign) term, h => by
    have hterm := readAll_term levels (.start (some sign)) term h
    have hsign : read ⟨levels, .expression⟩ sign.char =
        some ⟨levels, .factor (.start (some sign)) .start⟩ := by
      cases sign <;> rfl
    show readAll ⟨levels, .expression⟩ (sign.char :: term.text) = _
    rw [readAll_cons, hsign, Option.bind_some, hterm]
    rfl
  | .next before sign term, h => by
    have hbefore := readAll_expression levels before h.1
    have hterm := readAll_term levels (.after before sign) term h.2
    obtain ⟨sum, last, rfl⟩ := exists_join before
    have hsign : (afterExpression levels (sum.join last)).read sign.char =
        some ⟨levels, .factor (.after (sum.join last) sign) .start⟩ := by
      cases sign <;> exact read_afterExpression levels rfl
    rw [Expression.text, readAll_append, hbefore, Option.bind_some, readAll_cons, hsign,
      Option.bind_some, hterm]
    rfl

theorem readAll_term (levels : List DraftLevel) (sum : SumDraft) : ∀ t : Term, t.WellFormed →
    readAll ⟨levels, .factor sum .start⟩ t.text = some (afterTerm levels sum t)
  | .first factor, h => readAll_factor levels sum .start factor h
  | .next before (.written scaling) factor, h => by
    have hbefore := readAll_term levels sum before h.1
    have hfactor := readAll_factor levels sum (.after before (.written scaling)) factor h.2.1
    have hscaling : (afterTerm levels sum before).read scaling.char =
        some ⟨levels, .factor sum (.after before (.written scaling))⟩ := by
      rw [read_afterTerm levels sum before (by cases scaling <;> intro hd <;> cases hd)]
      cases scaling <;> rfl
    rw [Term.text, Joint.text, readAll_append, readAll_append, hbefore, Option.bind_some,
      readAll_cons, hscaling, Option.bind_some, readAll_nil, Option.bind_some, hfactor]
    rfl
  | .next before .beside factor, h => by
    have hbefore := readAll_term levels sum before h.1
    have hfactor := readAll_factor levels sum (.after before .beside) factor h.2.1
    obtain ⟨c, cs, htext, hc, hlit⟩ := factor_text_head h.2.1
    -- a digit begins a literal, and a literal does not stand beside a literal
    have hlast : c.isDigit = true → before.last.isLiteral = false := by
      intro hd
      by_contra hb
      have hno := h.2.2 rfl (Bool.not_eq_false _ ▸ hb)
      rw [hlit hd] at hno
      cases hno
    have hhead : (afterTerm levels sum before).read c =
        read ⟨levels, .factor sum (.after before .beside)⟩ c := by
      rw [read_afterTerm levels sum before hlast]
      exact readOperator_eq_readFactor levels sum before hc
    rw [Term.text, Joint.text, List.append_nil, readAll_append, hbefore, Option.bind_some]
    rw [htext] at hfactor ⊢
    rw [readAll_congr_head cs hhead, hfactor]
    rfl

theorem readAll_factor (levels : List DraftLevel) (sum : SumDraft) (product : ProductDraft) :
    ∀ f : Factor, f.WellFormed →
      readAll ⟨levels, .factor sum product⟩ f.text = some (afterFactor levels sum product f)
  | .literal digits, h => by
    obtain ⟨c, cs, rfl⟩ := List.exists_cons_of_ne_nil h.1
    have hc : c.isDigit = true := h.2 c (List.mem_cons_self ..)
    have hread : read ⟨levels, .factor sum product⟩ c = some ⟨levels, .literal sum product [c]⟩ := by
      simp [read, readFactor, Symbol.ofChar_digit hc]
    show readAll ⟨levels, .factor sum product⟩ (c :: cs) = _
    rw [readAll_cons, hread, Option.bind_some,
      readAll_digits levels sum product [c] fun c' hc' => h.2 c' (List.mem_cons_of_mem _ hc')]
    rfl
  | .group inner, h => by
    have hinner := readAll_expression (⟨sum, product⟩ :: levels) inner h
    obtain ⟨innerSum, last, rfl⟩ := exists_join inner
    have hclose : (afterExpression (⟨sum, product⟩ :: levels) (innerSum.join last)).read ')' =
        some ⟨levels, .operator sum (product.join (.group (innerSum.join last)))⟩ :=
      read_afterExpression _ rfl
    rw [Factor.text, List.cons_append, readAll_cons]
    show readAll ⟨⟨sum, product⟩ :: levels, .expression⟩
      ((innerSum.join last).text ++ [')']) = _
    rw [readAll_append, hinner, Option.bind_some, readAll_cons, hclose]
    rfl

end

/-! ## Whole texts -/

/-- The derivation of a text of visible characters. -/
def parse (text : List Char) : Option Expression := (start.readAll text).bind finish

theorem parse_text {e : Expression} (h : e.WellFormed) : parse e.text = some e := by
  rw [parse, start, readAll_expression [] e h, Option.bind_some, finish_afterExpression]

theorem parse_text_equals {e : Expression} (h : e.WellFormed) :
    parse (e.text ++ ['=']) = some e := by
  obtain ⟨sum, term, rfl⟩ := exists_join e
  have hread : (afterExpression [] (sum.join term)).read '=' =
      some ⟨[], .complete (sum.join term)⟩ := read_afterExpression [] rfl
  rw [parse, start, readAll_append, readAll_expression [] _ h, Option.bind_some, readAll_cons, hread]
  rfl

/-- A text has the derivations that derive it, with or without `=` at its end, and no other. -/
theorem parse_eq_some_iff {text : List Char} {e : Expression} :
    parse text = some e ↔ e.WellFormed ∧ (text = e.text ∨ text = e.text ++ ['=']) := by
  constructor
  · intro h
    obtain ⟨d, hd, hfinish⟩ := Option.bind_eq_some_iff.1 h
    have htext := readAll_text hd
    have hsound := finish_sound (readAll_wellFormed start_wellFormed hd) hfinish
    rw [htext] at hsound
    exact hsound
  · rintro ⟨hwf, rfl | rfl⟩
    · exact parse_text hwf
    · exact parse_text_equals hwf

end Draft

end ExactCalculator
