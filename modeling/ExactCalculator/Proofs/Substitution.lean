import ExactCalculator.Proofs.RoundTrip
import ExactCalculator.Proofs.Trace.Reproduction

/-! Equals can be put in the place of equals. A factor of a derivation can be exchanged for another one
(`Part.Exchange`), and if both have the same value so have the two derivations. Where a run leaves a
factor, the factor stands in the text with as many parentheses around it as other factors are open
(`Part.LeavesFactor`). So the text of its value, in parentheses, can be written in its place
(`evaluate_substitute`). -/
namespace ExactCalculator
set_option autoImplicit false

/-! ## Exchanging a factor -/

/-- The second part is the first one with the factor `f` exchanged for `g` at one place, which is
between the characters `before` and `after` and inside of `n` parentheses. -/
inductive Part.Exchange (f g : Factor) : List Char → List Char → Nat → Part → Part → Prop
  | here : Exchange f g [] [] 0 (.factor f) (.factor g)
  | group {before after : List Char} {n : Nat} {e e' : Expression}
      (h : Exchange f g before after n (.expression e) (.expression e')) :
      Exchange f g ('(' :: before) (after ++ [')']) (n + 1) (.factor (.group e)) (.factor (.group e'))
  | lastFactor {before after : List Char} {n : Nat} {a a' : Factor} (product : ProductDraft)
      (h : Exchange f g before after n (.factor a) (.factor a')) :
      Exchange f g (product.text ++ before) after n (.term (product.join a)) (.term (product.join a'))
  | earlierFactor {before after : List Char} {n : Nat} {t t' : Term} (joint : Joint) (last : Factor)
      (h : Exchange f g before after n (.term t) (.term t')) :
      Exchange f g before (after ++ (joint.text ++ last.text)) n (.term (.next t joint last))
        (.term (.next t' joint last))
  | lastTerm {before after : List Char} {n : Nat} {t t' : Term} (sum : SumDraft)
      (h : Exchange f g before after n (.term t) (.term t')) :
      Exchange f g (sum.text ++ before) after n (.expression (sum.join t)) (.expression (sum.join t'))
  | earlierTerm {before after : List Char} {n : Nat} {e e' : Expression} (sign : Sign) (last : Term)
      (h : Exchange f g before after n (.expression e) (.expression e')) :
      Exchange f g before (after ++ sign.char :: last.text) n (.expression (.next e sign last))
        (.expression (.next e' sign last))

namespace Part.Exchange

variable {f g : Factor} {before after : List Char} {n : Nat} {x y : Part}

theorem text_eq (h : Exchange f g before after n x y) :
    x.text = before ++ f.text ++ after ∧ y.text = before ++ g.text ++ after := by
  induction h with
  | here => simp [Part.text]
  | group _ ih =>
    obtain ⟨hx, hy⟩ := ih
    simp only [Part.text] at hx hy
    simp [Part.text, Factor.text, hx, hy]
  | lastFactor product _ ih => simpa [Part.text] using ih
  | earlierFactor joint last _ ih =>
    obtain ⟨hx, hy⟩ := ih
    simp only [Part.text] at hx hy
    simp [Part.text, Term.text, hx, hy]
  | lastTerm sum _ ih => simpa [Part.text] using ih
  | earlierTerm sign last _ ih =>
    obtain ⟨hx, hy⟩ := ih
    simp only [Part.text] at hx hy
    simp [Part.text, Expression.text, hx, hy]

/-- Factors of one value can be exchanged without a change of the value. -/
theorem value_eq (h : Exchange f g before after n x y) (hvalue : f.value? = g.value?) :
    x.value? = y.value? := by
  induction h with
  | here => exact hvalue
  | group _ ih => exact ih
  | lastFactor product _ ih =>
    simp only [Part.value?] at ih ⊢
    cases product <;> simp [ProductDraft.join, Term.value?, ih]
  | earlierFactor joint last _ ih =>
    simp only [Part.value?] at ih
    simp [Part.value?, Term.value?, ih]
  | lastTerm sum _ ih =>
    simp only [Part.value?] at ih ⊢
    cases sum <;> simp [SumDraft.join, Expression.value?, ih]
  | earlierTerm sign last _ ih =>
    simp only [Part.value?] at ih
    simp [Part.value?, Expression.value?, ih]

/-- The factor is well formed and has a value if the part that it stands in is and has one. -/
theorem sound (h : Exchange f g before after n x y) (hwf : x.WellFormed) (hvalue : x.value? ≠ none) :
    f.WellFormed ∧ f.value? ≠ none := by
  induction h with
  | here => exact ⟨hwf, hvalue⟩
  | group _ ih => exact ih hwf hvalue
  | lastFactor product _ ih =>
    exact ih (ProductDraft.wellFormed_of_join hwf).2 (ProductDraft.Valued.of_join hvalue).2
  | @earlierFactor _ _ _ t _ joint last _ ih =>
    have hjoin : ((ProductDraft.after t joint).join last).value? ≠ none := hvalue
    exact ih hwf.1 (ProductDraft.Valued.of_join hjoin).1
  | lastTerm sum _ ih =>
    exact ih (SumDraft.join_wellFormed.1 hwf).2 (SumDraft.Valued.of_join hvalue).2
  | @earlierTerm _ _ _ e _ sign last _ ih =>
    have hjoin : ((SumDraft.after e sign).join last).value? ≠ none := hvalue
    exact ih hwf.1 (SumDraft.Valued.of_join hjoin).1

theorem depth_le (h : Exchange f g before after n x y) : y.depth ≤ max x.depth (n + g.depth) := by
  induction h with
  | here => simp [Part.depth]
  | group _ ih =>
    simp only [Part.depth, Factor.depth] at ih ⊢
    omega
  | lastFactor product _ ih =>
    simp only [Part.depth, ProductDraft.join_depth] at ih ⊢
    omega
  | earlierFactor joint last _ ih =>
    simp only [Part.depth, Term.depth] at ih ⊢
    omega
  | lastTerm sum _ ih =>
    simp only [Part.depth, SumDraft.join_depth] at ih ⊢
    omega
  | earlierTerm sign last _ ih =>
    simp only [Part.depth, Expression.depth] at ih ⊢
    omega

end Part.Exchange

/-! ### Parts of one kind -/

section
variable {f g : Factor} {before after : List Char} {n : Nat} {y : Part}

theorem Part.Exchange.exists_expression {e : Expression}
    (h : Exchange f g before after n (.expression e) y) : ∃ e', y = .expression e' := by
  cases h <;> exact ⟨_, rfl⟩

theorem Part.Exchange.exists_term {t : Term} (h : Exchange f g before after n (.term t) y) :
    ∃ t', y = .term t' := by
  cases h <;> exact ⟨_, rfl⟩

theorem Part.Exchange.exists_factor {a : Factor} (h : Exchange f g before after n (.factor a) y) :
    ∃ a', y = .factor a' := by
  cases h <;> exact ⟨_, rfl⟩

end

/-! ### Literals next to each other -/

/-- The part ends with a number, which would merge with a number after it. -/
def Part.endsInLiteral : Part → Bool
  | .expression _ => false
  | .term t => t.last.isLiteral
  | .factor f => f.isLiteral

namespace Part.Exchange

variable {f g : Factor} {before after : List Char} {n : Nat} {x y : Part}

theorem endsInLiteral (h : Exchange f g before after n x y) (hg : g.isLiteral = false) :
    y.endsInLiteral = true → x.endsInLiteral = true := by
  induction h with
  | here =>
    intro hy
    exact absurd (hg.symm.trans hy) Bool.false_ne_true
  | group _ _ => exact id
  | lastFactor product _ ih => simpa [Part.endsInLiteral] using ih
  | earlierFactor joint last _ _ => exact id
  | lastTerm sum _ _ => exact id
  | earlierTerm sign last _ _ => exact id

/-- A group can be put anywhere, no number merges with it. -/
theorem wellFormed (h : Exchange f g before after n x y) (hg : g.isLiteral = false)
    (hwf : g.WellFormed) (hx : x.WellFormed) : y.WellFormed := by
  induction h with
  | here => exact hwf
  | group _ ih => exact ih hx
  | @lastFactor _ _ _ a _ product h ih =>
    obtain ⟨hproduct, hfactor⟩ := ProductDraft.wellFormed_of_join hx
    cases product with
    | start => exact ih hfactor
    | after t joint =>
      refine ⟨hproduct, ih hfactor, ?_⟩
      intro hjoint hlast
      have hno : a.isLiteral = false := hx.2.2 hjoint hlast
      exact Bool.eq_false_iff.2 fun hliteral => Bool.eq_false_iff.1 hno (h.endsInLiteral hg hliteral)
  | earlierFactor joint last h ih =>
    refine ⟨ih hx.1, hx.2.1, ?_⟩
    exact fun hjoint hlast => hx.2.2 hjoint (h.endsInLiteral hg hlast)
  | lastTerm sum _ ih =>
    obtain ⟨hsum, hterm⟩ := SumDraft.join_wellFormed.1 hx
    exact SumDraft.join_wellFormed.2 ⟨hsum, ih hterm⟩
  | earlierTerm sign last _ ih => exact ⟨ih hx.1, hx.2⟩

end Part.Exchange

/-! ## Where a factor is left -/

/-- A factor that a part leaves after the events `prior`: what stands before and after it, the rules
around it, and that it can be exchanged. -/
structure Part.Leaves (text : List Char) (k : Nat) (x : Part) (prior : List Event) (span : Span)
    (outcome : Outcome) (f : Factor) (before after : List Char) (rules : List Rule) : Prop where
  span_eq : span = .ofVisible text (k + before.length) f.text.length
  outcome_eq : outcome = .value (.ofValue f.value?)
  openRules : ∀ outer, prior.foldlM Event.openRules? outer = some (.factor :: rules ++ outer)
  exchange : ∀ g, ∃ y, Part.Exchange f g before after (rules.count .factor) x y

def Part.LeavesFactor (text : List Char) (k : Nat) (x : Part) (prior : List Event) (span : Span)
    (outcome : Outcome) : Prop :=
  ∃ f before after rules, x.Leaves text k prior span outcome f before after rules

namespace Part.LeavesFactor

variable {text : List Char} {k : Nat} {prior : List Event} {span : Span} {outcome : Outcome}

/-- A rule is entered around the events. -/
theorem openRules_enclosed {rules : List Rule} (rule : Rule) (steps : List Trace)
    (h : ∀ outer, prior.foldlM Event.openRules? outer = some (.factor :: rules ++ outer))
    (outer : List Rule) :
    (Event.enter rule :: (Trace.allEvents steps ++ prior)).foldlM Event.openRules? outer =
      some (.factor :: (rules ++ [rule]) ++ outer) := by
  show (Trace.allEvents steps ++ prior).foldlM Event.openRules? (rule :: outer) = _
  rw [List.foldlM_append, Trace.openRules_allEvents]
  refine (h (rule :: outer)).trans ?_
  simp

theorem here (text : List Char) (k : Nat) (f : Factor) :
    (Part.factor f).LeavesFactor text k (.enter .factor :: Trace.allEvents (f.steps text k))
      ((Part.factor f).trace text k).span ((Part.factor f).trace text k).outcome := by
  refine ⟨f, [], [], [], rfl, rfl, ?_, fun g => ⟨_, .here⟩⟩
  exact fun outer => Trace.openRules_allEvents (.factor :: outer) (f.steps text k)

theorem group {e : Expression}
    (h : (Part.expression e).LeavesFactor text (k + 1) prior span outcome) :
    (Part.factor (.group e)).LeavesFactor text k (.enter .factor :: prior) span outcome := by
  obtain ⟨f, before, after, rules, hspan, houtcome, hrules, hexchange⟩ := h
  refine ⟨f, '(' :: before, after ++ [')'], rules ++ [.factor], ?_, houtcome, ?_, ?_⟩
  · rw [hspan, List.length_cons, Nat.add_assoc, Nat.add_comm 1]
  · exact openRules_enclosed .factor [] hrules
  · intro g
    obtain ⟨y, hy⟩ := hexchange g
    obtain ⟨e', rfl⟩ := hy.exists_expression
    rw [List.count_append]
    exact ⟨_, hy.group⟩

theorem lastFactor {a : Factor} (product : ProductDraft)
    (h : (Part.factor a).LeavesFactor text (k + product.text.length) prior span outcome) :
    (Part.term (product.join a)).LeavesFactor text k
      (.enter .term :: (Trace.allEvents (product.steps text k) ++ prior)) span outcome := by
  obtain ⟨f, before, after, rules, hspan, houtcome, hrules, hexchange⟩ := h
  refine ⟨f, product.text ++ before, after, rules ++ [.term], ?_, houtcome,
    openRules_enclosed .term _ hrules, ?_⟩
  · rw [hspan, List.length_append, Nat.add_assoc]
  · intro g
    obtain ⟨y, hy⟩ := hexchange g
    obtain ⟨a', rfl⟩ := hy.exists_factor
    rw [List.count_append]
    exact ⟨_, hy.lastFactor product⟩

theorem earlierFactor {t : Term} (joint : Joint) (last : Factor)
    (h : (Part.term t).LeavesFactor text k prior span outcome) :
    (Part.term (.next t joint last)).LeavesFactor text k prior span outcome := by
  obtain ⟨f, before, after, rules, hspan, houtcome, hrules, hexchange⟩ := h
  refine ⟨f, before, after ++ (joint.text ++ last.text), rules, hspan, houtcome, hrules, ?_⟩
  intro g
  obtain ⟨y, hy⟩ := hexchange g
  obtain ⟨t', rfl⟩ := hy.exists_term
  exact ⟨_, hy.earlierFactor joint last⟩

theorem lastTerm {t : Term} (sum : SumDraft)
    (h : (Part.term t).LeavesFactor text (k + sum.text.length) prior span outcome) :
    (Part.expression (sum.join t)).LeavesFactor text k
      (.enter .expression :: (Trace.allEvents (sum.steps text k) ++ prior)) span outcome := by
  obtain ⟨f, before, after, rules, hspan, houtcome, hrules, hexchange⟩ := h
  refine ⟨f, sum.text ++ before, after, rules ++ [.expression], ?_, houtcome,
    openRules_enclosed .expression _ hrules, ?_⟩
  · rw [hspan, List.length_append, Nat.add_assoc]
  · intro g
    obtain ⟨y, hy⟩ := hexchange g
    obtain ⟨t', rfl⟩ := hy.exists_term
    rw [List.count_append]
    exact ⟨_, hy.lastTerm sum⟩

theorem earlierTerm {e : Expression} (sign : Sign) (last : Term)
    (h : (Part.expression e).LeavesFactor text k prior span outcome) :
    (Part.expression (.next e sign last)).LeavesFactor text k prior span outcome := by
  obtain ⟨f, before, after, rules, hspan, houtcome, hrules, hexchange⟩ := h
  refine ⟨f, before, after ++ sign.char :: last.text, rules, hspan, houtcome, hrules, ?_⟩
  intro g
  obtain ⟨y, hy⟩ := hexchange g
  obtain ⟨e', rfl⟩ := hy.exists_expression
  exact ⟨_, hy.earlierTerm sign last⟩

end Part.LeavesFactor

section
variable {text : List Char} {span : Span} {outcome : Outcome}

/-- What is left among some steps is left before the last one or in it. -/
theorem Trace.leave_concat_cases {rule : Rule} (earlier : List Trace) {last : Trace}
    {prior later : List Event}
    (h : allEvents (earlier ++ [last]) = prior ++ .leave rule span outcome :: later) :
    (∃ rest, allEvents earlier = prior ++ .leave rule span outcome :: rest) ∨
      ∃ rest, prior = allEvents earlier ++ rest ∧
        last.events = rest ++ .leave rule span outcome :: later := by
  rw [allEvents_append] at h
  rcases split_append_cons h with hearlier | ⟨rest, rfl, hlast⟩
  · exact .inl hearlier
  · rw [allEvents, allEvents, List.append_nil] at hlast
    exact .inr ⟨rest, rfl, hlast⟩

/-- A factor that is left in the trace of another part is left among its steps. -/
theorem Part.leave_inside {k : Nat} {x : Part} {prior later : List Event} (hx : x.rule ≠ .factor)
    (h : (x.trace text k).events = prior ++ .leave .factor span outcome :: later) :
    ∃ earlier later, prior = .enter x.rule :: earlier ∧
      Trace.allEvents (x.steps text k) = earlier ++ .leave .factor span outcome :: later := by
  rcases Trace.leave_cases h with hinside | ⟨-, hnode⟩
  · exact hinside
  · exact absurd (congrArg Trace.rule hnode) hx

mutual

/-- Wherever a factor is left in the trace of a derivation, it can be exchanged. -/
theorem Expression.leavesFactor : (e : Expression) → {k : Nat} → {prior later : List Event} →
    Trace.allEvents (e.steps text k) = prior ++ .leave .factor span outcome :: later →
    (Part.expression e).LeavesFactor text k (.enter .expression :: prior) span outcome
  | .first sign t, k, prior, later, h => by
    rw [Expression.first_steps] at h
    rcases Trace.leave_concat_cases [] h with ⟨rest, hnone⟩ | ⟨rest, rfl, hlast⟩
    · simp [Trace.allEvents] at hnone
    · obtain ⟨earlier, later, rfl, hinside⟩ := Part.leave_inside (x := .term t) nofun hlast
      exact (Term.leavesFactor t hinside).lastTerm (.start sign)
  | .next before sign t, k, prior, later, h => by
    rw [Expression.next_steps] at h
    rcases Trace.leave_concat_cases _ h with ⟨rest, hbefore⟩ | ⟨rest, rfl, hlast⟩
    · exact (Expression.leavesFactor before hbefore).earlierTerm sign t
    · obtain ⟨earlier, later, rfl, hinside⟩ := Part.leave_inside (x := .term t) nofun hlast
      exact (Term.leavesFactor t hinside).lastTerm (.after before sign)

theorem Term.leavesFactor : (t : Term) → {k : Nat} → {prior later : List Event} →
    Trace.allEvents (t.steps text k) = prior ++ .leave .factor span outcome :: later →
    (Part.term t).LeavesFactor text k (.enter .term :: prior) span outcome
  | .first a, k, prior, later, h => by
    rw [Term.first_steps] at h
    rcases Trace.leave_concat_cases [] h with ⟨rest, hnone⟩ | ⟨rest, rfl, hlast⟩
    · simp [Trace.allEvents] at hnone
    · exact (Factor.leavesFactor a hlast).lastFactor .start
  | .next before joint a, k, prior, later, h => by
    rw [Term.next_steps] at h
    rcases Trace.leave_concat_cases _ h with ⟨rest, hbefore⟩ | ⟨rest, rfl, hlast⟩
    · exact (Term.leavesFactor before hbefore).earlierFactor joint a
    · exact (Factor.leavesFactor a hlast).lastFactor (.after before joint)

theorem Factor.leavesFactor : (a : Factor) → {k : Nat} → {prior later : List Event} →
    ((Part.factor a).trace text k).events = prior ++ .leave .factor span outcome :: later →
    (Part.factor a).LeavesFactor text k prior span outcome
  | .literal digits, k, prior, later, h => by
    rcases Trace.leave_cases h with ⟨earlier, later, rfl, hinside⟩ | ⟨rfl, hnode⟩
    · simp [Part.steps, Factor.steps, Trace.allEvents] at hinside
    · obtain ⟨-, rfl, rfl, -⟩ := Trace.node.inj hnode
      exact .here text k (.literal digits)
  | .group inner, k, prior, later, h => by
    rcases Trace.leave_cases h with ⟨earlier, later, rfl, hinside⟩ | ⟨rfl, hnode⟩
    · rw [Part.steps, Factor.group_steps] at hinside
      rcases Trace.leave_concat_cases [] hinside with ⟨rest, hnone⟩ | ⟨rest, rfl, hlast⟩
      · simp [Trace.allEvents] at hnone
      · obtain ⟨earlier, later, rfl, hwithin⟩ :=
          Part.leave_inside (x := .expression inner) nofun hlast
        exact (Expression.leavesFactor inner hwithin).group
    · obtain ⟨-, rfl, rfl, -⟩ := Trace.node.inj hnode
      exact .here text k (.group inner)

end

end

/-! ## Writing a value in the place of a factor -/

/-- The text of a fraction in parentheses is a factor that has its value, with no parentheses inside. -/
theorem Fraction.Reduced.group_sound {v : Fraction} (hv : v.Reduced) :
    (Factor.group v.toExpression).WellFormed ∧ (Factor.group v.toExpression).depth = 1 ∧
      (Factor.group v.toExpression).value? = some v.toRat :=
  ⟨v.toTerm_wellFormed, congrArg (· + 1) v.toTerm_depth, hv.toExpression_value⟩

theorem Part.Exchange.evaluate_eq {f : Factor} {before after u z : List Char} {n : Nat} {s : Sentence}
    {e : Expression} {r v : Fraction}
    (h : Exchange f (.group v.toExpression) before after n (.expression s.expression) (.expression e))
    (hwf : s.expression.WellFormed) (hdepth : s.expression.depth ≤ maxDepth)
    (hr : r.StandsFor s.expression.value?) (hv : v.StandsFor f.value?) (hn : n < maxDepth)
    (hbefore : visible u = before) (hafter : visible z = after ++ if s.closed then ['='] else []) :
    evaluate (String.ofList u ++ "(" ++ v.toText ++ ")" ++ String.ofList z) = .value r := by
  obtain ⟨hgroup, hgroupDepth, hgroupValue⟩ := hv.reduced.group_sound
  have hvalue : s.expression.value? = e.value? :=
    h.value_eq (hv.value_eq.trans hgroupValue.symm)
  have hderives : Sentence.Derives ⟨e, s.closed⟩
      (String.ofList u ++ "(" ++ v.toText ++ ")" ++ String.ofList z).toList := by
    have htext : e.text = before ++ (Factor.group v.toExpression).text ++ after := h.text_eq.2
    have hopening : visible "(".toList = ['('] := rfl
    have hclosing : visible ")".toList = [')'] := rfl
    refine ⟨h.wellFormed rfl hgroup hwf, ?_⟩
    simp only [String.toList_append, String.toList_ofList, visible_append, hbefore, hafter, hopening,
      hclosing, hv.reduced.visible_toText, Sentence.text, htext, Factor.text]
    simp
  refine evaluate_of_parse hderives.parse_eq ?_ (hvalue ▸ hr)
  have hle : e.depth ≤ max s.expression.depth (n + (Factor.group v.toExpression).depth) := h.depth_le
  rw [hgroupDepth] at hle
  exact hle.trans (max_le hdepth hn)

/-- Wherever the evaluation of a text leaves a factor with a value, the text of that value can be
written in its place, in parentheses, if these do not open a level too many. The result is the same. -/
theorem evaluate_substitute {text : String} {r v : Fraction} {before after : List Event} {span : Span}
    (heval : evaluate text = .value r)
    (hleave : (runSteady false text).events = before ++ .leave .factor span (.value v) :: after) :
    ∃ outer cut, openRulesAfter? before = some (.factor :: outer) ∧
      span.cut? text.toList = some cut ∧
      (outer.count .factor < maxDepth →
        evaluate (String.ofList cut.before ++ "(" ++ v.toText ++ ")" ++ String.ofList cut.after) =
          .value r) := by
  obtain ⟨e, hparse, hdepth, hr⟩ := exists_expression_of_evaluate heval
  have hvalued : e.value? ≠ none := by simp [hr.value_eq]
  obtain ⟨-, hevents⟩ := runSteady_of_parse hparse hdepth hvalued
  obtain ⟨earlier, later, rfl, hinside⟩ :=
    Part.leave_inside (x := .expression e) nofun (hevents.symm.trans hleave)
  obtain ⟨f, u, z, rules, hspan, houtcome, hrules, hexchange⟩ := e.leavesFactor hinside
  obtain ⟨y, hy⟩ := hexchange (.group v.toExpression)
  obtain ⟨e', rfl⟩ := hy.exists_expression
  obtain ⟨s, ⟨hwf, hvisible⟩, rfl⟩ := Sentence.exists_derives_iff.2 hparse
  obtain ⟨hfactor, hfactorValue⟩ := hy.sound hwf hvalued
  -- the factor is cut out of the text with what stands before and after it
  have htext : s.expression.text = u ++ f.text ++ z := hy.text_eq.1
  have hplaced : visible text.toList =
      u ++ f.text ++ (z ++ if s.closed then ['='] else []) := by
    rw [hvisible, Sentence.text, htext, List.append_assoc _ z]
  obtain ⟨before, inside, after, hcut, hrange, hbefore, hmiddle, -⟩ :=
    Span.exists_part_ofVisible hplaced (Factor.text_ne_nil hfactor)
  have hafter : visible after = z ++ if s.closed then ['='] else [] := by
    rw [hcut, visible_append, visible_append, hbefore, hmiddle] at hplaced
    exact List.append_cancel_left hplaced
  have hv : v.StandsFor f.value? := by
    rw [Outcome.value.inj houtcome]
    exact Fraction.ofValue_standsFor hfactorValue
  refine ⟨rules, ⟨before, inside, after⟩, ?_, ?_, ?_⟩
  · have hopen := hrules []
    rwa [List.append_nil] at hopen
  · rw [hspan, Nat.zero_add, hrange, hcut]
    exact Span.cut?_append before inside after
  · exact fun hn => hy.evaluate_eq hwf hdepth hr hv hn hbefore hafter

/-- The divisor of `3/(1/2-1)` can be written as `(-1 / 2)`. -/
theorem evaluate_substitute_of_negative :
    evaluate "3/(1/2-1)=" = .value ⟨-6, 1⟩ ∧
      (∃ before after, (runSteady false "3/(1/2-1)=").events =
        before ++ .leave .factor ⟨2, 9⟩ (.value ⟨-1, 2⟩) :: after) ∧
      evaluate "3/(-1 / 2)=" = .value ⟨-6, 1⟩ := by
  let events := (runSteady false "3/(1/2-1)=").events
  have heval : evaluate "3/(1/2-1)=" = .value ⟨-6, 1⟩ := by rfl
  have h : events =
      events.take 17 ++ .leave .factor ⟨2, 9⟩ (.value ⟨-1, 2⟩) :: events.drop 18 := by decide
  obtain ⟨outer, cut, hopen, hcut, hsame⟩ := evaluate_substitute heval h
  have houter : openRulesAfter? (events.take 17) = some [.factor, .term, .expression] := by decide
  have hparts : (⟨2, 9⟩ : Span).cut? "3/(1/2-1)=".toList =
      some ⟨"3/".toList, "(1/2-1)".toList, "=".toList⟩ := by decide
  obtain ⟨-, rfl⟩ := List.cons.inj (Option.some.inj (houter.symm.trans hopen))
  obtain rfl := Option.some.inj (hparts.symm.trans hcut)
  exact ⟨heval, ⟨_, _, h⟩, hsame (by decide)⟩

end ExactCalculator
