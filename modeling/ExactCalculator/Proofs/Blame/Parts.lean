import ExactCalculator.Proofs.Machine.Paths

/-! The part of a text that a failure blames. A failure blames the next character, the end of the
text, or a divisor that is zero. Such a divisor is the part of the text that it was read from
(`ZeroPart`), cut off at its first and its last visible character; a literal has ended when something
other than a digit comes next, a group has ended with its parenthesis. `Course.blamed` cuts the text of
every run that fails, and says what the draft of the run could not do. -/
namespace ExactCalculator
set_option autoImplicit false

/-! ## Parts of a text -/

/-- After the part `u` of a text and a division, the part `b` is a factor that is zero. -/
structure ZeroPart (u b : List Char) (factor : Factor) : Prop where
  text_eq : visible b = factor.text
  wellFormed : factor.WellFormed
  zero : factor.value? = some 0
  divided : (visible u).getLast? = some '/'
  first : HeadVisible b
  last : ∀ c, b.getLast? = some c → isIgnored c = false

theorem ProductDraft.ZeroDivisor.getLast?_text {product : ProductDraft} {factor : Factor}
    (h : product.ZeroDivisor factor) : product.text.getLast? = some '/' := by
  obtain ⟨⟨before, rfl⟩, -⟩ := h
  simp [ProductDraft.text, Joint.text, Scaling.char]

theorem ZeroPart.getLast?_visible {u b : List Char} {factor : Factor} (h : ZeroPart u b factor) :
    b.getLast? = factor.text.getLast? := by
  have hne : b ≠ [] := by
    rintro rfl
    exact Factor.text_ne_nil h.wellFormed h.text_eq.symm
  obtain ⟨init, c, rfl⟩ := (List.eq_nil_or_concat b).resolve_left hne
  rw [List.concat_eq_append] at h ⊢
  have hc : isIgnored c = false := h.last c (by simp)
  rw [← h.text_eq, visible_append, visible_cons_of_visible [] hc]
  simp

/-- The part of a text that a divisor was read from. -/
theorem exists_zeroPart {v rest before : List Char} {start mark : Nat} {product : ProductDraft}
    {factor : Factor} (hbegin : BeginsAt (v ++ rest) start (before ++ product.text))
    (hend : EndsAt v mark) (hv : visible v = before ++ product.text ++ factor.text)
    (hwf : factor.WellFormed) (hzero : product.ZeroDivisor factor) :
    ∃ u b z, v = u ++ b ++ z ∧ start = byteLength u ∧ max start mark = byteLength (u ++ b) ∧
      mark = byteLength (u ++ b) ∧ visible z = [] ∧ ZeroPart u b factor := by
  obtain ⟨u, b, z, rfl, hu, hub, hvisible, hb, hz, hfirst, hlast⟩ :=
    exists_part hbegin hend hv (Factor.text_ne_nil hwf)
  refine ⟨u, b, z, rfl, hu.symm, ?_, hub.symm, hz, hb, hwf, hzero.2, ?_, hfirst, hlast⟩
  · rw [← hu, ← hub, byteLength_append]
    omega
  · rw [hvisible, List.getLast?_append, hzero.getLast?_text]
    rfl

section
variable {limit : Option Nat} {text w rest : List Char} {d : Draft} {m : Machine}

theorem Stands.wellFormed (h : Stands limit text w d m) : d.WellFormed :=
  Draft.readAll_wellFormed Draft.start_wellFormed h.readAll

/-! ## Literals -/

/-- The literal to blame ends before some ignored characters that are already read. -/
theorem Stands.literal_part {sum : SumDraft} {product : ProductDraft} {digits : List Char}
    {start mark : Nat} (h : Stands limit text w d m) (hsplit : text = w ++ rest)
    (hpoint : d.point = .literal sum product digits) (hzero : product.ZeroDivisor (.literal digits))
    (hbegin : BeginsAt text start (levelsText d.levels ++ sum.text ++ product.text))
    (hend : EndsAt w mark) :
    ∃ u b z, w = u ++ b ++ z ∧ (⟨start, max start mark⟩ : Span) = ⟨byteLength u, byteLength (u ++ b)⟩ ∧
      visible z = [] ∧ ZeroPart u b (.literal digits) := by
  have hwf := h.wellFormed.point
  rw [hpoint] at hwf
  have htext : visible w =
      (levelsText d.levels ++ sum.text) ++ product.text ++ (Factor.literal digits).text := by
    rw [h.tracks.text_eq, Draft.text, hpoint]
    simp [DraftPoint.text, Factor.text]
  rw [hsplit] at hbegin
  obtain ⟨u, b, z, hw, hstart, hstop, -, hz, hpart⟩ :=
    exists_zeroPart hbegin hend htext hwf.2.2.2 hzero
  exact ⟨u, b, z, hw, by rw [hstop, hstart], hz, hpart⟩

/-- The machine at such a literal. -/
theorem Stands.literal_machine {sum : SumDraft} {product : ProductDraft} {digits : List Char}
    (h : Stands limit text w d m) (hpoint : d.point = .literal sum product digits)
    (hzero : product.ZeroDivisor (.literal digits)) :
    ∃ e t start value, m.phase = .literal e t start value ∧
      t.product.join (.ofInt value) = .error .divisionByZero := by
  have hphase := h.tracks.point
  rw [hpoint] at hphase
  generalize m.phase = phase at hphase
  cases hphase with
  | literal hexpression hterm hbegins hdigits =>
    exact ⟨_, _, _, _, rfl, hterm.computes.join_zeroDivisor (Fraction.standsFor_decimal _) hzero⟩

theorem Machine.read_literalFault {e : OpenExpression} {t : OpenTerm} {start value : Nat}
    {fault : Fault} (hphase : m.phase = .literal e t start value)
    (hjoin : t.product.join (.ofInt value) = .error fault) {next : Option Char}
    (hnext : ∀ digit, Symbol.ofNext next ≠ .digit digit) (signal : Signal) (p : Nat) :
    m.read ⟨limit, signal⟩ next p =
      .ended ((m.leaveFactor start (.ofInt value) (.factor e t)).fail
        ⟨.arithmetic fault, m.spanFrom start⟩) := by
  simp only [read, hphase, readLiteral, closeFactor, hjoin]
  rfl

/-! ## Groups -/

/-- The group to blame ends with the next character. -/
theorem Stands.group_part {level : DraftLevel} {outer : List DraftLevel} {inner : Expression}
    {start : Nat} {cs : List Char} (h : Stands limit text w d m) (hsplit : text = w ++ ')' :: cs)
    (hread : d.read ')' = some ⟨outer, .operator level.sum (level.product.join (.group inner))⟩)
    (hzero : level.product.ZeroDivisor (.group inner))
    (hbegin : BeginsAt text start (levelsText outer ++ level.sum.text ++ level.product.text)) :
    ∃ u b, w ++ [')'] = u ++ b ∧
      (⟨start, max start (byteLength w + 1)⟩ : Span) = ⟨byteLength u, byteLength (u ++ b)⟩ ∧
      ZeroPart u b (.group inner) := by
  have hparen : visible (w ++ [')']) = visible w ++ [')'] := by
    rw [visible_append, visible_cons_of_visible [] rfl, visible_nil]
  have hwf := (Draft.read_wellFormed h.wellFormed hread).point
  have hinner : (Factor.group inner).WellFormed := by
    obtain ⟨⟨before, hproduct⟩, -⟩ := hzero
    have hterm := hwf.2.1
    rw [hproduct] at hterm
    exact hterm.2.1
  have htext : visible (w ++ [')']) =
      (levelsText outer ++ level.sum.text) ++ level.product.text ++ (Factor.group inner).text := by
    rw [hparen, h.tracks.text_eq, ← Draft.read_text hread]
    simp [Draft.text, DraftPoint.text]
  have hend : EndsAt (w ++ [')']) (byteLength w + 1) := .take rfl
  have hsplit' : text = (w ++ [')']) ++ cs := by simp [hsplit]
  rw [hsplit'] at hbegin
  obtain ⟨u, b, z, hw, hstart, hstop, hmark, hz, hpart⟩ :=
    exists_zeroPart hbegin hend htext hinner hzero
  have hlen : byteLength (w ++ [')']) = byteLength w + 1 := by
    simp [show (')' : Char).utf8Size = 1 from rfl]
  have hznil : z = [] := by
    rw [hw, byteLength_append, hmark] at hlen
    exact byteLength_eq_zero_iff.1 (by omega)
  rw [hznil, List.append_nil] at hw
  exact ⟨u, b, hw, by rw [hstop, hstart], hpart⟩

/-! ## All failures -/

/-- A failure of a run that has read the part `w` of a text, and the text cut at the blamed part. -/
inductive Blamed (limit : Option Nat) (w rest : List Char) (d : Draft) : Failure → Cut → Prop
  | ending (hrest : rest = []) :
      Blamed limit w rest d ⟨.endOfInput, .emptyAt (byteLength w)⟩ ⟨w, [], []⟩
  | char {c : Char} {cs : List Char} (hrest : rest = c :: cs) :
      Blamed limit w rest d ⟨.unexpectedChar c, .ofChar c (byteLength w)⟩ ⟨w, [c], cs⟩
  | opening {n : Nat} {cs : List Char} (hrest : rest = '(' :: cs) (hlimit : limit = some n)
      (hdepth : n ≤ d.levels.length) :
      Blamed limit w rest d ⟨.tooDeep, .ofChar '(' (byteLength w)⟩ ⟨w, ['('], cs⟩
  | literal {u b z digits : List Char} {sum : SumDraft} {product : ProductDraft} {span : Span}
      (hpoint : d.point = .literal sum product digits) (hzero : product.ZeroDivisor (.literal digits))
      (hnext : ∀ c, rest.head? = some c → c.isDigit = false) (hw : w = u ++ b ++ z)
      (hz : visible z = []) (part : ZeroPart u b (.literal digits)) :
      Blamed limit w rest d ⟨.arithmetic .divisionByZero, span⟩ ⟨u, b, z ++ rest⟩
  | group {u b cs : List Char} {level : DraftLevel} {outer : List DraftLevel} {inner : Expression}
      {span : Span} (hrest : rest = ')' :: cs) (hw : w ++ [')'] = u ++ b)
      (hlevels : d.levels = level :: outer)
      (hread : d.read ')' = some ⟨outer, .operator level.sum (level.product.join (.group inner))⟩)
      (part : ZeroPart u b (.group inner)) :
      Blamed limit w rest d ⟨.arithmetic .divisionByZero, span⟩ ⟨u, b, cs⟩

theorem Stands.exists_blamed {failure : Failure} (h : Stands limit text w d m)
    (hsplit : text = w ++ rest)
    (hending : d.Ending limit text w rest.head? (.failure failure)) :
    ∃ cut, failure.span.cut? text = some cut ∧ Blamed limit w rest d failure cut := by
  cases hending with
  | refused hread hfinish =>
    cases rest with
    | nil =>
      refine ⟨⟨w, [], []⟩, ?_, .ending rfl⟩
      rw [hsplit]
      exact Span.cut?_emptyAt w []
    | cons c cs =>
      refine ⟨⟨w, [c], cs⟩, ?_, .char rfl⟩
      rw [hsplit]
      exact Span.cut?_ofChar w c cs
  | tooDeep hnext hlimit hdepth =>
    obtain ⟨cs, hrest⟩ := List.head?_eq_some_iff.1 hnext
    refine ⟨⟨w, ['('], cs⟩, ?_, .opening hrest hlimit hdepth⟩
    rw [hsplit, hrest]
    exact Span.cut?_ofChar w '(' cs
  | literalFault hpoint hnext hzero hbegin hend =>
    obtain ⟨u, b, z, hw, hspan, hz, hpart⟩ := h.literal_part hsplit hpoint hzero hbegin hend
    refine ⟨⟨u, b, z ++ rest⟩, ?_, .literal hpoint hzero hnext hw hz hpart⟩
    rw [hspan, hsplit, hw, List.append_assoc _ z rest]
    exact Span.cut?_append u b (z ++ rest)
  | groupFault hnext hlevels hread hzero hbegin =>
    obtain ⟨cs, hrest⟩ := List.head?_eq_some_iff.1 hnext
    rw [hrest] at hsplit
    obtain ⟨u, b, hw, hspan, hpart⟩ := h.group_part hsplit hread hzero hbegin
    refine ⟨⟨u, b, cs⟩, ?_, .group hrest hw hlevels hread hpart⟩
    rw [hspan, hsplit, ← List.singleton_append, ← List.append_assoc, hw]
    exact Span.cut?_append u b cs

/-- A course that fails has a part of its text to blame. -/
theorem Course.blamed {xs ys : List Question} {r : Run} {failure : Failure}
    (h : Course limit text w rest xs m ys r) (hr : r.outcome = .failure failure) :
    ∃ d cut, Stands limit text w d m ∧ failure.span.cut? text = some cut ∧
      Blamed limit w rest d failure cut := by
  obtain ⟨d, hstands, hending⟩ := h.ending
  rw [hr] at hending
  obtain ⟨cut, hcut, hblamed⟩ := hstands.exists_blamed h.text_eq hending
  exact ⟨d, cut, hstands, hcut, hblamed⟩

/-- A course that ends before a character fails. -/
theorem Course.exists_failure {xs ys : List Question} {r : Run} {c : Char} {cs : List Char}
    (h : Course limit text w (c :: cs) xs m ys r) : ∃ failure, r.outcome = .failure failure := by
  obtain ⟨d, -, hending⟩ := h.ending
  cases hr : r.outcome with
  | value v =>
    rw [hr] at hending
    cases hending with
    | accepted hnext => cases hnext
  | failure failure => exact ⟨failure, rfl⟩

end

/-- Dividing by zero is the only fault that an evaluation comes to. -/
theorem runWith_fault {policy : Policy} {text : String} {fault : Fault} {span : Span}
    (h : (runWith policy text).outcome = .failure ⟨.arithmetic fault, span⟩) :
    fault = .divisionByZero := by
  obtain ⟨w, rest, xs, m, ys, r, hcourse⟩ := exists_course policy.depthLimit text.toList
  rcases hcourse.runWith_cases with hrun | ⟨x, hx, hrun⟩
  · obtain ⟨d, -, hending⟩ := hcourse.ending
    rw [← hrun, h] at hending
    generalize houtcome : Outcome.failure ⟨.arithmetic fault, span⟩ = outcome at hending
    cases hending with
    | accepted | tooDeep => cases houtcome
    | refused =>
      cases hnext : rest.head? <;> rw [hnext] at houtcome <;> cases houtcome
    | literalFault | groupFault =>
      cases houtcome
      rfl
  · rw [hrun] at h
    cases h

end ExactCalculator
