import ExactCalculator.Proofs.Blame.ViablePrefix
import ExactCalculator.Proofs.DepthLimit
import ExactCalculator.Proofs.Text.Layout

/-! Texts are composed as their values are. Accepted texts in parentheses, joined by an operator or by
nothing, derive the expression that joins their derivations (`Derived.sum`, `Derived.product`); without
parentheses a text can be added whose first term has no sign (`Expression.add`). A run over such a text
comes to the end of the last of them, and there it finds whether that one is a divisor and zero
(`Course.reads`, `evaluate_zeroDivisor`). -/
namespace ExactCalculator
set_option autoImplicit false

/-! ## The depth of a text -/

/-- A draft is no deeper than the text that it was read from is nested. -/
theorem Draft.depth_le_of_keepsWithin {n : Nat} {w : List Char} {d : Draft}
    (hread : start.readAll (visible w) = some d) (h : KeepsWithin n w) : d.depth ≤ n := by
  induction w using List.reverseRecOn generalizing d with
  | nil =>
    obtain rfl := Option.some.inj hread
    exact Nat.zero_le n
  | append_singleton w c ih =>
    cases hc : isIgnored c with
    | true =>
      rw [visible_append, visible_cons_of_ignored [] hc, visible_nil, List.append_nil] at hread
      exact ih hread h.of_append
    | false =>
      have hlevels : (d.levels.length : Int) = balance (w ++ [c]) := by
        have hcount := readAll_levels hread
        rw [count_visible rfl, count_visible rfl] at hcount
        simp only [start, List.length_nil] at hcount
        rw [balance]
        omega
      have hopen : balance (w ++ [c]) ≤ n := h (w ++ [c]) [] (List.append_nil _).symm
      rw [visible_append, visible_cons_of_visible [] hc, visible_nil, readAll_append] at hread
      obtain ⟨d', hd', hlast⟩ := Option.bind_eq_some_iff.1 hread
      obtain ⟨d'', hstep, hnil⟩ := Option.bind_eq_some_iff.1 hlast
      obtain rfl := Option.some.inj hnil
      rw [read_depth hstep]
      exact max_le (ih hd' h.of_append) (by omega)

/-! ## Texts without `=` -/

/-- The visible characters of the text are an expression, and the fraction has its value. -/
structure Derived (s : String) (e : Expression) (x : Fraction) : Prop where
  wellFormed : e.WellFormed
  text_eq : visible s.toList = e.text
  value : x.StandsFor e.value?

section
variable {s t : String} {e a b : Expression} {x y q : Fraction}

theorem Derived.parse_eq (h : Derived s e x) : Draft.parse (visible s.toList) = some e := by
  rw [h.text_eq]
  exact Draft.parse_text h.wellFormed

theorem Derived.evaluate_eq (h : Derived s e x) (hdepth : e.depth ≤ maxDepth) :
    evaluate s = .value x :=
  evaluate_of_parse h.parse_eq hdepth h.value

theorem Derived.depth_le {n : Nat} (h : Derived s e x) (hkeep : KeepsWithin n s.toList) :
    e.depth ≤ n := by
  obtain ⟨d, hread, hfinish⟩ := Option.bind_eq_some_iff.1 h.parse_eq
  rw [Draft.finish_depth hfinish]
  exact Draft.depth_le_of_keepsWithin hread hkeep

theorem exists_derived (h : evaluate s = .value x) (hs : '=' ∉ s.toList) :
    ∃ e, Derived s e x ∧ e.depth ≤ maxDepth := by
  obtain ⟨e, hparse, hdepth, hvalue⟩ := exists_expression_of_evaluate h
  obtain ⟨hwf, htext | htext⟩ := Draft.parse_eq_some_iff.1 hparse
  · exact ⟨e, ⟨hwf, htext, hvalue⟩, hdepth⟩
  · have hmem : '=' ∈ visible s.toList := by simp [htext]
    exact absurd (List.mem_of_mem_filter hmem) hs

/-! ## Texts in parentheses -/

def grouped (s : String) : String := "(" ++ s ++ ")"

theorem Derived.visible_grouped (h : Derived s e x) :
    visible (grouped s).toList = (Factor.group e).text := by
  rw [grouped, String.toList_append, String.toList_append, visible_append, visible_append,
    h.text_eq]
  rfl

/-- The expression that is just another one in parentheses. -/
def Expression.inGroup (e : Expression) : Expression := .first none (.first (.group e))

theorem Expression.inGroup_value (e : Expression) : e.inGroup.value? = e.value? := by
  cases h : e.value? <;> simp [inGroup, value?, Term.value?, Factor.value?, h, Sign.apply]

theorem Derived.standsFor_group (h : Derived s e x) : x.StandsFor (Term.first (.group e)).value? :=
  h.value

theorem Derived.sum (hs : Derived s a x) (ht : Derived t b y) (sign : Sign) :
    Derived (grouped s ++ String.singleton sign.char ++ grouped t)
      (.next a.inGroup sign (.first (.group b))) ((PartialSum.after x sign).join y) := by
  have htotal : x.StandsFor a.inGroup.value? := by
    rw [a.inGroup_value]
    exact hs.value
  refine ⟨⟨hs.wellFormed, ht.wellFormed⟩, ?_, ?_⟩
  · have hsign : visible [sign.char] = [sign.char] := by cases sign <;> rfl
    simp only [String.toList_append, String.toList_singleton, visible_append, hs.visible_grouped,
      ht.visible_grouped, hsign]
    simp [Expression.inGroup, Expression.text, Term.text]
  · exact SumDraft.Computes.join (.after sign htotal) ht.standsFor_group

theorem Derived.product (hs : Derived s a x) (ht : Derived t b y) (joint : Joint)
    (hq : (PartialProduct.after x joint.scaling).join y = .ok q) :
    Derived (grouped s ++ String.ofList joint.text ++ grouped t)
      (.first none (.next (.first (.group a)) joint (.group b))) q := by
  have hfactor : y.StandsFor (Factor.group b).value? := ht.value
  have hvalue := ProductDraft.Computes.join_ok (.after joint hs.standsFor_group) hfactor hq
  refine ⟨⟨hs.wellFormed, ht.wellFormed, fun _ _ => rfl⟩, ?_, ?_⟩
  · have hjoint : visible joint.text = joint.text := by
      cases joint with
      | written scaling => cases scaling <;> rfl
      | beside => rfl
    simp only [String.toList_append, String.toList_ofList, visible_append, hs.visible_grouped,
      ht.visible_grouped, hjoint]
    rfl
  · exact SumDraft.Computes.join (.start none) hvalue

theorem Derived.negation (hs : Derived s a x) :
    Derived ("-" ++ grouped s) (.first (some .minus) (.first (.group a))) (-x) := by
  refine ⟨hs.wellFormed, ?_, ?_⟩
  · rw [String.toList_append, visible_append, hs.visible_grouped]
    rfl
  · exact SumDraft.Computes.join (.start (some .minus)) hs.standsFor_group

/-! ## Texts without parentheses -/

namespace Expression

/-- The sign in front of the first term. -/
def leading : Expression → Option Sign
  | .first sign _ => sign
  | .next before _ _ => before.leading

/-- The sum of two expressions, without parentheses around the second. -/
def add (a : Expression) : Expression → Expression
  | .first _ term => .next a .plus term
  | .next before sign term => .next (a.add before) sign term

theorem exists_text_of_leading : ∀ e : Expression,
    ∃ cs, e.text = (e.leading.map Sign.char).toList ++ cs
  | .first _ term => ⟨term.text, rfl⟩
  | .next before sign term => by
    obtain ⟨cs, hcs⟩ := exists_text_of_leading before
    refine ⟨cs ++ sign.char :: term.text, ?_⟩
    rw [text, hcs, List.append_assoc]
    rfl

theorem leading_eq_none (h : ∀ sign : Sign, e.text.head? ≠ some sign.char) : e.leading = none := by
  obtain ⟨cs, hcs⟩ := e.exists_text_of_leading
  cases hleading : e.leading with
  | none => rfl
  | some sign =>
    rw [hleading] at hcs
    exact absurd (by rw [hcs]; rfl) (h sign)

theorem add_text (a : Expression) : ∀ e : Expression, e.leading = none →
    (a.add e).text = a.text ++ '+' :: e.text
  | .first none term, _ => rfl
  | .next before sign term, h => by
    have hbefore := add_text a before h
    rw [add, text, hbefore, text, List.append_assoc, List.cons_append]

theorem add_wellFormed (ha : a.WellFormed) : ∀ e : Expression, e.WellFormed → (a.add e).WellFormed
  | .first _ _, h => ⟨ha, h⟩
  | .next before _ _, h => ⟨add_wellFormed ha before h.1, h.2⟩

theorem add_depth (a : Expression) : ∀ e : Expression, (a.add e).depth = max a.depth e.depth
  | .first _ _ => rfl
  | .next before sign term => by
    rw [add, depth, add_depth a before, depth, max_assoc]

/-- Sums lean to the left, so the second expression is added term by term. -/
theorem add_value {v : ℚ} (ha : a.value? = some v) : ∀ (e : Expression) (w : ℚ),
    e.leading = none → e.value? = some w → (a.add e).value? = some (v + w)
  | .first none term, w, _, hw => by
    rw [value?] at hw
    obtain ⟨w', hterm, rfl⟩ := Option.map_eq_some_iff.1 hw
    simp [add, value?, ha, hterm, Sign.apply]
  | .next before sign term, w, hleading, hw => by
    rw [value?] at hw
    obtain ⟨u, hbefore, hrest⟩ := Option.bind_eq_some_iff.1 hw
    obtain ⟨u', hterm, hsum⟩ := Option.bind_eq_some_iff.1 hrest
    obtain rfl := Option.some.inj hsum
    have hadd := add_value ha before u hleading hbefore
    simp [add, value?, hadd, hterm, add_assoc]

end Expression

theorem Derived.add (hs : Derived s a x) (ht : Derived t b y)
    (hsign : ∀ sign : Sign, (visible t.toList).head? ≠ some sign.char) :
    Derived (s ++ "+" ++ t) (a.add b) (x + y) := by
  rw [ht.text_eq] at hsign
  have hleading := Expression.leading_eq_none hsign
  refine ⟨Expression.add_wellFormed hs.wellFormed b ht.wellFormed, ?_, ?_, ?_⟩
  · rw [String.toList_append, String.toList_append, visible_append, visible_append, hs.text_eq,
      ht.text_eq, Expression.add_text a b hleading, List.append_assoc]
    rfl
  · exact hs.value.reduced.add ht.value.reduced
  · rw [Expression.add_value hs.value.value_eq b _ hleading ht.value.value_eq,
      Fraction.toRat_add hs.value.reduced ht.value.reduced]

end

/-! ## Divisors that are zero -/

namespace Draft

/-- After an expression the draft may end it and has the levels from before. -/
theorem whole_afterExpression (levels : List DraftLevel) (e : Expression) :
    (afterExpression levels e).whole? = some e ∧ (afterExpression levels e).levels = levels := by
  have hterm : ∀ (sum : SumDraft) (term : Term),
      (afterTerm levels sum term).whole? = some (sum.join term) ∧
        (afterTerm levels sum term).levels = levels := by
    intro sum term
    cases term with
    | first factor => cases factor <;> exact ⟨rfl, rfl⟩
    | next before joint factor => cases factor <;> exact ⟨rfl, rfl⟩
  obtain ⟨sum, term, rfl⟩ := exists_join e
  rw [afterExpression_join]
  exact hterm sum term

theorem valued_of_whole {d : Draft} {e : Expression} (h : d.whole? = some e)
    (he : e.value? ≠ none) (hlevels : ∀ level ∈ d.levels, level.sum.Valued ∧ level.product.Valued) :
    d.Valued := by
  obtain ⟨levels, point⟩ := d
  rcases whole_cases h with ⟨sum, product, digits, rfl, rfl⟩ | ⟨sum, term, rfl, rfl⟩
  · obtain ⟨hsum, hterm⟩ := SumDraft.Valued.of_join he
    exact ⟨hlevels, hsum, (ProductDraft.Valued.of_join hterm).1⟩
  · exact ⟨hlevels, SumDraft.Valued.of_join he⟩

/-- The level that the divisor stands in when one group is divided by another. -/
def quotientLevel (a : Expression) : DraftLevel :=
  ⟨.start none, .after (.first (.group a)) (.written .divide)⟩

theorem readAll_quotient {a b : Expression} (ha : a.WellFormed) (hb : b.WellFormed) :
    start.readAll ((Factor.group a).text ++ '/' :: '(' :: b.text) =
      some (afterExpression [quotientLevel a] b) := by
  have hgroup : start.readAll (Factor.group a).text =
      some ⟨[], .operator (.start none) (.first (.group a))⟩ := readAll_expression [] a.inGroup ha
  rw [readAll_append, hgroup, Option.bind_some]
  exact readAll_expression [quotientLevel a] b hb

section
variable {a b : Expression}

theorem quotient_valued (ha : a.value? ≠ none) (hb : b.value? ≠ none) :
    (afterExpression [quotientLevel a] b).Valued := by
  obtain ⟨hwhole, hlevels⟩ := whole_afterExpression [quotientLevel a] b
  refine valued_of_whole hwhole hb ?_
  rw [hlevels]
  intro level hmem
  obtain rfl := List.mem_singleton.1 hmem
  exact ⟨trivial, ha⟩

/-- The draft of the divisor is no deeper than the quotient. -/
theorem quotient_depth_le : (afterExpression [quotientLevel a] b).depth ≤
    max (a.depth + 1) (b.depth + 1) := by
  obtain ⟨hwhole, hlevels⟩ := whole_afterExpression [quotientLevel a] b
  have hclosed : depth ⟨[], .operator (quotientLevel a).sum
      ((quotientLevel a).product.join (.group b))⟩ = max (a.depth + 1) (b.depth + 1) := by
    simp [depth, levelsDepth, DraftPoint.depth, quotientLevel, SumDraft.depth, ProductDraft.depth,
      Term.depth, Factor.depth]
  rw [← hclosed, read_depth (read_closing hwhole hlevels)]
  exact le_max_left _ _

end

end Draft

section
variable {limit : Option Nat} {text w rest u z : List Char} {d d' : Draft} {m : Machine}
  {xs ys : List Question} {r : Run} {outcome : Outcome}

/-- No run ends at a draft that reads on with values for all its parts. -/
theorem Draft.Ending.not_valued {c : Char} (h : d.Ending limit text w (some c) outcome)
    (hread : d.read c = some d') (hdepth : ∀ n, limit = some n → d'.depth ≤ n) : ¬d'.Valued := by
  intro hvalued
  cases h with
  | accepted hnext => cases hnext
  | refused hno =>
    rw [hno c rfl] at hread
    cases hread
  | @tooDeep n d'' hnext hlimit hdeep hopening hgrow =>
    cases hnext
    obtain rfl := Option.some.inj (hread.symm.trans hopening)
    have hle := hdepth n hlimit
    have hlevels := d'.length_levels_le_depth
    omega
  | literalFault hpoint hnext hzero =>
    obtain ⟨levels, point⟩ := d
    subst hpoint
    simp only [Draft.read, hnext c rfl, Bool.false_eq_true, if_false] at hread
    exact (Draft.Valued.of_readOperator hread hvalued).2.2 hzero.value_eq
  | groupFault hnext hlevels hclosing hzero =>
    cases hnext
    obtain rfl := Option.some.inj (hread.symm.trans hclosing)
    exact hvalued.point.2 hzero.value_eq

/-- Where a group that is a divisor and zero would close, the run ends with a division by zero. -/
theorem Draft.Ending.exists_groupFault {level : DraftLevel} {outer : List DraftLevel}
    {e : Expression} (h : d.Ending limit text w (some ')') outcome) (hwhole : d.whole? = some e)
    (hlevels : d.levels = level :: outer) (hvalue : e.value? ≠ none)
    (hzero : level.product.ZeroDivisor (.group e)) :
    ∃ start, outcome = .failure ⟨.arithmetic .divisionByZero, ⟨start, max start (byteLength w + 1)⟩⟩ ∧
      BeginsAt text start (levelsText outer ++ level.sum.text ++ level.product.text) := by
  cases h with
  | accepted hnext => cases hnext
  | refused hno =>
    have hread := Draft.read_closing hwhole hlevels
    rw [hno ')' rfl] at hread
    cases hread
  | tooDeep hnext => exact absurd hnext (by decide)
  | literalFault hpoint _ hdivisor =>
    rw [Draft.whole?, hpoint] at hwhole
    obtain rfl := Option.some.inj hwhole
    exact absurd hdivisor.value_eq (SumDraft.Valued.of_join hvalue).2
  | groupFault _ hlevels' _ _ hbegin =>
    obtain ⟨rfl, rfl⟩ := List.cons.inj (hlevels'.symm.trans hlevels)
    exact ⟨_, rfl, hbegin⟩

/-- A run reads a text as far as its parts have values. -/
theorem Course.reads (h : Course limit text w rest xs m ys r) (hsplit : text = u ++ z)
    (hread : Draft.start.readAll (visible u) = some d) (hvalued : d.Valued)
    (hdepth : ∀ n, limit = some n → d.depth ≤ n) : ∃ v, w = u ++ v := by
  obtain ⟨dw, hstands, hending⟩ := h.ending
  rcases List.append_eq_append_iff.1 (h.text_eq.symm.trans hsplit) with ⟨v, rfl, hv⟩ | ⟨v, hv, -⟩
  · cases v with
    | nil => exact ⟨[], by simp⟩
    | cons c cs =>
      exfalso
      subst hv
      have hc : isIgnored c = false := h.head c rfl
      rw [visible_append, Draft.readAll_append, hstands.readAll, Option.bind_some,
        visible_cons_of_visible cs hc] at hread
      obtain ⟨d₁, hstep, hrest⟩ := Option.bind_eq_some_iff.1 hread
      refine hending.not_valued hstep ?_ (.of_readAll hrest hvalued)
      exact fun n hn => (Draft.readAll_depth_le hrest).trans (hdepth n hn)
  · exact ⟨v, hv⟩

/-- A run comes to the first group that is a divisor and zero, and ends with its parenthesis. -/
theorem Course.exists_groupFault {level : DraftLevel} {outer : List DraftLevel} {e : Expression}
    (h : Course limit text w rest xs m ys r) (hsplit : text = u ++ ')' :: z)
    (hread : Draft.start.readAll (visible u) = some d) (hwhole : d.whole? = some e)
    (hlevels : d.levels = level :: outer) (hvalued : d.Valued) (hvalue : e.value? ≠ none)
    (hdepth : ∀ n, limit = some n → d.depth ≤ n) (hzero : level.product.ZeroDivisor (.group e)) :
    ∃ start, r.outcome =
        .failure ⟨.arithmetic .divisionByZero, ⟨start, max start (byteLength u + 1)⟩⟩ ∧
      BeginsAt text start (levelsText outer ++ level.sum.text ++ level.product.text) := by
  obtain ⟨v, rfl⟩ := h.reads hsplit hread hvalued hdepth
  obtain ⟨d', hstands, hending⟩ := h.ending
  have hrest : v ++ rest = ')' :: z := by
    have htext := h.text_eq.symm.trans hsplit
    rw [List.append_assoc] at htext
    exact List.append_cancel_left htext
  cases v with
  | nil =>
    rw [List.append_nil] at hstands hending
    obtain rfl := Option.some.inj (hread.symm.trans hstands.readAll)
    rw [show rest = ')' :: z from hrest] at hending
    exact hending.exists_groupFault hwhole hlevels hvalue hzero
  | cons c cs =>
    -- the machine would have read past a division by zero
    obtain ⟨rfl, -⟩ := List.cons.inj hrest
    have hpast := hstands.readAll
    rw [visible_append, Draft.readAll_append, hread, Option.bind_some,
      visible_cons_of_visible cs rfl, Draft.readAll_cons, Draft.read_closing hwhole hlevels] at hpast
    have hquotient := Draft.Valued.of_readAll hpast hstands.valued
    exact absurd hzero.value_eq hquotient.point.2

end

section
variable {s t : String} {a b : Expression} {x y : Fraction}

theorem toList_divided (s t : String) : (grouped s ++ "/" ++ grouped t).toList =
    ((grouped s ++ "/").toList ++ '(' :: t.toList) ++ [')'] := by
  simp [grouped]

theorem Derived.visible_dividend (hs : Derived s a x) :
    visible (grouped s ++ "/").toList = (Factor.group a).text ++ ['/'] := by
  rw [String.toList_append, visible_append, hs.visible_grouped]
  rfl

theorem Derived.readAll_divisor (hs : Derived s a x) (ht : Derived t b y) :
    Draft.start.readAll (visible ((grouped s ++ "/").toList ++ '(' :: t.toList)) =
      some (Draft.afterExpression [Draft.quotientLevel a] b) := by
  rw [visible_append, hs.visible_dividend, visible_cons_of_visible t.toList rfl, ht.text_eq,
    List.append_assoc]
  exact Draft.readAll_quotient hs.wellFormed ht.wellFormed

/-- The range of the divisor cuts it off with its parentheses. -/
theorem Derived.cut?_divisor {start : Nat} (hs : Derived s a x)
    (hbegin : BeginsAt (grouped s ++ "/" ++ grouped t).toList start
      ((Factor.group a).text ++ ['/'])) :
    (⟨start, max start (byteLength ((grouped s ++ "/").toList ++ '(' :: t.toList) + 1)⟩ : Span).cut?
        (grouped s ++ "/" ++ grouped t).toList =
      some ⟨(grouped s ++ "/").toList, (grouped t).toList, []⟩ := by
  have hparts : (grouped s ++ "/" ++ grouped t).toList =
      (grouped s ++ "/").toList ++ (grouped t).toList := String.toList_append
  have hstart : start = byteLength (grouped s ++ "/").toList := by
    have hgroup : HeadVisible (grouped t).toList := by
      rw [grouped, String.toList_append, String.toList_append]
      exact .cons rfl _
    have hhere := BeginsAt.of_split hs.visible_dividend hgroup
    rw [← hparts] at hhere
    exact hbegin.start_eq.trans hhere.start_eq.symm
  have hstop : max start (byteLength ((grouped s ++ "/").toList ++ '(' :: t.toList) + 1) =
      byteLength ((grouped s ++ "/").toList ++ (grouped t).toList) := by
    have hread : byteLength (grouped s ++ "/" ++ grouped t).toList =
        byteLength ((grouped s ++ "/").toList ++ '(' :: t.toList) + 1 := by
      rw [toList_divided, byteLength_append _ [')']]
      rfl
    rw [← hread, hparts, hstart, byteLength_append]
    exact max_eq_right (Nat.le_add_right _ _)
  have hcut := Span.cut?_append (grouped s ++ "/").toList (grouped t).toList []
  rwa [List.append_nil, ← hstart, ← hstop, ← hparts] at hcut

/-- A group whose expression is zero is blamed if another is divided by it. -/
theorem evaluate_zeroDivisor (hs : Derived s a x) (ht : Derived t b y) (hzero : y.toRat = 0)
    (ha : a.depth < maxDepth) (hb : b.depth < maxDepth) :
    ∃ span, evaluate (grouped s ++ "/" ++ grouped t) =
        .failure ⟨.arithmetic .divisionByZero, span⟩ ∧
      span.cut? (grouped s ++ "/" ++ grouped t).toList =
        some ⟨(grouped s ++ "/").toList, (grouped t).toList, []⟩ := by
  obtain ⟨hwhole, hlevels⟩ := Draft.whole_afterExpression [Draft.quotientLevel a] b
  have hdividend : a.value? ≠ none := by simp [hs.value.value_eq]
  have hdivisor : b.value? ≠ none := by simp [ht.value.value_eq]
  have hzeroDivisor : (Draft.quotientLevel a).product.ZeroDivisor (.group b) :=
    ⟨⟨.first (.group a), rfl⟩, hzero ▸ ht.value.value_eq⟩
  have hdepth : ∀ n, some maxDepth = some n →
      (Draft.afterExpression [Draft.quotientLevel a] b).depth ≤ n := by
    rintro n ⟨⟩
    exact Draft.quotient_depth_le.trans (max_le ha hb)
  obtain ⟨w, rest, xs, m, ys, r, hcourse⟩ :=
    exists_course (some maxDepth) (grouped s ++ "/" ++ grouped t).toList
  obtain ⟨start, hr, hbegin⟩ := hcourse.exists_groupFault (toList_divided s t)
    (hs.readAll_divisor ht) hwhole hlevels (Draft.quotient_valued hdividend hdivisor) hdivisor hdepth
    hzeroDivisor
  exact ⟨_, hcourse.evaluate_eq.trans hr, hs.cut?_divisor hbegin⟩

end

/-! ## Composed texts -/

/-- The text evaluates to the fraction, which is in lowest terms and stands for the number. -/
structure EvaluatesTo (text : String) (v : Fraction) (q : ℚ) : Prop where
  evaluate_eq : evaluate text = .value v
  reduced : v.Reduced
  toRat_eq : v.toRat = q

/-- The texts that join two texts in parentheses evaluate to what their values come to. -/
structure Composes (s t : String) (x y : Fraction) : Prop where
  sum : EvaluatesTo (grouped s ++ "+" ++ grouped t) (x + y) (x.toRat + y.toRat)
  difference : EvaluatesTo (grouped s ++ "-" ++ grouped t) (x - y) (x.toRat - y.toRat)
  product : EvaluatesTo (grouped s ++ "*" ++ grouped t) (x * y) (x.toRat * y.toRat)
  beside : EvaluatesTo (grouped s ++ grouped t) (x * y) (x.toRat * y.toRat)
  negation : EvaluatesTo ("-" ++ grouped s) (-x) (-x.toRat)
  quotient : y.toRat ≠ 0 → ∃ q, x.div y = .ok q ∧
    EvaluatesTo (grouped s ++ "/" ++ grouped t) q (x.toRat / y.toRat)
  zeroDivisor : y.toRat = 0 → ∃ span,
    evaluate (grouped s ++ "/" ++ grouped t) = .failure ⟨.arithmetic .divisionByZero, span⟩ ∧
    span.cut? (grouped s ++ "/" ++ grouped t).toList =
      some ⟨(grouped s ++ "/").toList, (grouped t).toList, []⟩

theorem Derived.composes {s t : String} {a b : Expression} {x y : Fraction} (hs : Derived s a x)
    (ht : Derived t b y) (ha : a.depth < maxDepth) (hb : b.depth < maxDepth) :
    Composes s t x y := by
  have hx := hs.value.reduced
  have hy := ht.value.reduced
  have hdepth : max (a.depth + 1) (b.depth + 1) ≤ maxDepth := max_le ha hb
  have hbeside := (hs.product ht .beside rfl).evaluate_eq hdepth
  rw [show String.ofList Joint.beside.text = "" from rfl, String.append_empty] at hbeside
  constructor
  · exact ⟨(hs.sum ht .plus).evaluate_eq hdepth, hx.add hy, Fraction.toRat_add hx hy⟩
  · exact ⟨(hs.sum ht .minus).evaluate_eq hdepth, hx.sub hy, Fraction.toRat_sub hx hy⟩
  · exact ⟨(hs.product ht (.written .multiply) rfl).evaluate_eq hdepth, hx.mul hy,
      Fraction.toRat_mul hx hy⟩
  · exact ⟨hbeside, hx.mul hy, Fraction.toRat_mul hx hy⟩
  · exact ⟨hs.negation.evaluate_eq ha, hx.neg, Fraction.toRat_neg x⟩
  · intro hne
    cases hdiv : x.div y with
    | error fault =>
      exact absurd ((Fraction.toRat_eq_zero_iff hy).2 (Fraction.div_error hy hdiv).2) hne
    | ok q =>
      obtain ⟨-, hq, hquotient⟩ := hx.div hy hdiv
      exact ⟨q, rfl, (hs.product ht (.written .divide) hdiv).evaluate_eq hdepth, hq, hquotient⟩
  · exact fun hzero => evaluate_zeroDivisor hs ht hzero ha hb

/-- Evaluation is compositional. Accepted texts without `=` that leave room for one more level can be
put in parentheses and joined, and the result is what the operator makes of their values; only a
divisor that is zero is blamed, in its parentheses. A text that begins with no sign can be added
without parentheses. -/
theorem evaluate_compose {s t : String} {x y : Fraction} (hs : evaluate s = .value x)
    (ht : evaluate t = .value y) (hsEnd : '=' ∉ s.toList) (htEnd : '=' ∉ t.toList) :
    (KeepsWithin (maxDepth - 1) s.toList → KeepsWithin (maxDepth - 1) t.toList →
      Composes s t x y) ∧
    ((∀ sign : Sign, (visible t.toList).head? ≠ some sign.char) →
      EvaluatesTo (s ++ "+" ++ t) (x + y) (x.toRat + y.toRat)) := by
  obtain ⟨a, hsa, ha⟩ := exists_derived hs hsEnd
  obtain ⟨b, htb, hb⟩ := exists_derived ht htEnd
  have hx := hsa.value.reduced
  have hy := htb.value.reduced
  constructor
  · intro hsDepth htDepth
    have hroom : maxDepth - 1 < maxDepth := by decide
    exact hsa.composes htb (Nat.lt_of_le_of_lt (hsa.depth_le hsDepth) hroom)
      (Nat.lt_of_le_of_lt (htb.depth_le htDepth) hroom)
  · intro hsign
    have hsum := hsa.add htb hsign
    refine ⟨hsum.evaluate_eq ?_, hx.add hy, Fraction.toRat_add hx hy⟩
    rw [Expression.add_depth]
    exact max_le ha hb

/-- One third is divided by zero and added to it, without and with parentheses. -/
theorem evaluate_compose_of_zero :
    evaluate "1/3" = .value ⟨1, 3⟩ ∧ evaluate "2-2" = .value .zero ∧
      Composes "1/3" "2-2" ⟨1, 3⟩ .zero ∧
      (∃ span, evaluate "(1/3)/(2-2)" = .failure ⟨.arithmetic .divisionByZero, span⟩) ∧
      evaluate "1/3+2-2" = .value ⟨1, 3⟩ := by
  have hs : evaluate "1/3" = .value ⟨1, 3⟩ := by rfl
  have ht : evaluate "2-2" = .value .zero := by rfl
  obtain ⟨hgroups, hbare⟩ := evaluate_compose hs ht (by decide) (by decide)
  have hcomposes := hgroups (beyondLimit?_eq_none_iff.1 (by decide))
    (beyondLimit?_eq_none_iff.1 (by decide))
  have hsum := hbare (by intro sign; cases sign <;> decide)
  obtain ⟨span, hfailure, -⟩ := hcomposes.zeroDivisor (by decide)
  exact ⟨hs, ht, hcomposes, ⟨span, hfailure⟩, hsum.evaluate_eq⟩

end ExactCalculator
