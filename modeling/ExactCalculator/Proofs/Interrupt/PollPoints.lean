import ExactCalculator.Proofs.Machine.Events

/-! Where a run asks whether to stop, read off its events. A literal asks before each of its digits,
and every factor asks when it has been left and joined to its term; `pollPoints` lists these places.
It grows with the events, but for one case: whether a factor was joined is known from the event that
follows it. -/
namespace ExactCalculator
set_option autoImplicit false

/-! ## Offsets of characters -/

/-- The offsets of the characters of a kind in a text that begins at the offset `p`. -/
def offsetsOf (kind : Char → Bool) : List Char → Nat → List Nat
  | [], _ => []
  | c :: cs, p =>
    if kind c then p :: offsetsOf kind cs (p + c.utf8Size) else offsetsOf kind cs (p + c.utf8Size)

def digitOffsets (text : List Char) : List Nat := offsetsOf Char.isDigit text 0

/-- The offset of the first visible character that does not come before an offset, or else the end
of the text. -/
def nextVisible (text : List Char) (offset : Nat) : Nat :=
  ((offsetsOf (fun c => !isIgnored c) text 0).find? fun p => decide (offset ≤ p)).getD
    (byteLength text)

section
variable {kind kind' : Char → Bool} {text w rest : List Char} {p q start mark : Nat} {c : Char}

theorem offsetsOf_append (xs ys : List Char) :
    offsetsOf kind (xs ++ ys) p = offsetsOf kind xs p ++ offsetsOf kind ys (p + byteLength xs) := by
  induction xs generalizing p with
  | nil => rfl
  | cons c cs ih =>
    have hsum : p + c.utf8Size + byteLength cs = p + byteLength (c :: cs) := by
      rw [byteLength_cons, Nat.add_assoc]
    rw [List.cons_append, offsetsOf, offsetsOf, ih, hsum]
    split <;> rfl

theorem bounds_of_mem_offsetsOf (h : q ∈ offsetsOf kind text p) :
    p ≤ q ∧ q < p + byteLength text := by
  induction text generalizing p with
  | nil => cases h
  | cons c cs ih =>
    have hpos := c.utf8Size_pos
    rw [byteLength_cons]
    rw [offsetsOf] at h
    split at h
    · rcases List.mem_cons.1 h with rfl | hmem
      · omega
      · have := ih hmem
        omega
    · have := ih h
      omega

theorem offsetsOf_eq_nil (h : ∀ c ∈ text, kind c = false) : offsetsOf kind text p = [] := by
  induction text generalizing p with
  | nil => rfl
  | cons c cs ih =>
    rw [offsetsOf, h c (List.mem_cons_self ..)]
    exact ih fun b hb => h b (List.mem_cons_of_mem _ hb)

/-- Only one character is at an offset. -/
theorem exists_of_mem_offsetsOf (h : q ∈ offsetsOf kind text p) (h' : q ∈ offsetsOf kind' text p) :
    ∃ c, kind c = true ∧ kind' c = true := by
  induction text generalizing p with
  | nil => cases h
  | cons c cs ih =>
    have hpos := c.utf8Size_pos
    have hlater : ∀ kind : Char → Bool, p ∉ offsetsOf kind cs (p + c.utf8Size) := by
      intro kind hmem
      have := bounds_of_mem_offsetsOf hmem
      omega
    by_cases hq : q = p
    · subst hq
      refine ⟨c, ?_, ?_⟩
      · by_contra hno
        rw [offsetsOf, if_neg hno] at h
        exact hlater kind h
      · by_contra hno
        rw [offsetsOf, if_neg hno] at h'
        exact hlater kind' h'
    · have htail : ∀ kind : Char → Bool, q ∈ offsetsOf kind (c :: cs) p →
          q ∈ offsetsOf kind cs (p + c.utf8Size) := by
        intro kind hmem
        rw [offsetsOf] at hmem
        split at hmem
        · exact (List.mem_cons.1 hmem).resolve_left hq
        · exact hmem
      exact ih (htail kind h) (htail kind' h')

theorem offsetsOf_concat (hc : kind c = true) :
    offsetsOf kind (w ++ [c]) 0 = offsetsOf kind w 0 ++ [byteLength w] := by
  rw [offsetsOf_append, Nat.zero_add, offsetsOf, if_pos hc]
  rfl

theorem offsetsOf_concat_of_not (hc : kind c = false) :
    offsetsOf kind (w ++ [c]) 0 = offsetsOf kind w 0 := by
  have hno : ¬ kind c = true := by simp [hc]
  rw [offsetsOf_append, offsetsOf, if_neg hno]
  exact List.append_nil _

theorem mem_offsetsOf_append (h : q ∈ offsetsOf kind w 0) (more : List Char) :
    q ∈ offsetsOf kind (w ++ more) 0 := by
  rw [offsetsOf_append]
  exact List.mem_append_left _ h

/-! ## Offsets before a mark -/

theorem offsetsOf_ignored {v : List Char} (hkind : ∀ c, kind c = true → isIgnored c = false)
    (hv : visible v = []) : offsetsOf kind v p = [] := by
  refine offsetsOf_eq_nil ?_
  intro c hc
  have hignored := visible_eq_nil_iff.1 hv c hc
  by_contra hno
  rw [hkind c (Bool.not_eq_false _ ▸ hno)] at hignored
  cases hignored

theorem lt_mark (hmark : EndsAt w mark) (h : q ∈ digitOffsets w) : q < mark := by
  obtain ⟨u, v, rfl, rfl, hv, -⟩ := hmark
  rw [digitOffsets, offsetsOf_append, offsetsOf_ignored (fun _ => isIgnored_of_isDigit) hv,
    List.append_nil] at h
  have := bounds_of_mem_offsetsOf h
  omega

theorem digitOffsets_span (hmark : EndsAt w mark) (hstart : start ∈ digitOffsets w)
    (rest : List Char) :
    ((digitOffsets (w ++ rest)).filter fun p => decide (start ≤ p ∧ p < max start mark)) =
      (digitOffsets w).filter fun p => decide (start ≤ p) := by
  have hlt := lt_mark hmark hstart
  have hle : mark ≤ byteLength w := by
    obtain ⟨u, v, rfl, rfl, -, -⟩ := hmark
    simp
  have hrest : (offsetsOf Char.isDigit rest (0 + byteLength w)).filter
      (fun p => decide (start ≤ p ∧ p < max start mark)) = [] := by
    refine List.filter_eq_nil_iff.2 ?_
    intro q hq
    have := bounds_of_mem_offsetsOf hq
    simp only [decide_eq_true_eq]
    omega
  rw [digitOffsets, offsetsOf_append, List.filter_append, hrest, List.append_nil]
  refine List.filter_congr ?_
  intro q hq
  have hqlt := lt_mark hmark hq
  refine decide_eq_decide.2 ?_
  omega

theorem nextVisible_eq (hmark : EndsAt w mark) (hhead : HeadVisible rest) :
    nextVisible (w ++ rest) mark = byteLength w := by
  obtain ⟨u, v, rfl, rfl, hv, -⟩ := hmark
  have hu : (offsetsOf (fun c => !isIgnored c) u 0).find? (fun p => decide (byteLength u ≤ p)) =
      none := by
    refine List.find?_eq_none.2 ?_
    intro q hq
    have := bounds_of_mem_offsetsOf hq
    simp only [decide_eq_true_eq]
    omega
  have hvisible : ∀ c, (!isIgnored c) = true → isIgnored c = false := by simp
  rw [nextVisible, offsetsOf_append, offsetsOf_append, offsetsOf_ignored hvisible hv,
    List.append_nil, List.find?_append, hu, Option.none_or]
  cases rest with
  | nil => simp [offsetsOf]
  | cons c cs =>
    have hc : isIgnored c = false := hhead c rfl
    simp [offsetsOf, hc]

end

/-! ## Poll points -/

/-- The places of the polls of a factor that is left after `count` events: before each digit, if it is
a literal, and when it has been joined to its term. By then the reading of a literal has gone on to
the next visible character. -/
def factorPolls (text : List Char) (count : Nat) (span : Span) (joined : Bool) : List Poll :=
  let digits := (digitOffsets text).filter fun p => decide (span.start ≤ p ∧ p < span.stop)
  if span.start ∈ digitOffsets text then
    digits.map (⟨·, count⟩) ++ if joined then [⟨nextVisible text span.stop, count + 1⟩] else []
  else if joined then [⟨span.stop, count + 1⟩] else []

namespace Event

/-- The event of a term that is left because a factor cannot be joined to it. -/
def isFault : Event → Bool
  | .leave .term _ (.failure ⟨.arithmetic _, _⟩) => true
  | _ => false

/-- The places of polls that an event tells of, when `count` events come before it. -/
def polls (text : List Char) (count : Nat) (next : Option Event) : Event → List Poll
  | .leave .factor span (.value _) => factorPolls text count span (!next.any isFault)
  | _ => []

end Event

def pollPointsFrom (text : List Char) : Nat → List Event → List Poll
  | _, [] => []
  | count, event :: rest =>
    event.polls text count rest.head? ++ pollPointsFrom text (count + 1) rest

/-- The places where a run with these events asks whether to stop. -/
def pollPoints (text : List Char) (events : List Event) : List Poll := pollPointsFrom text 0 events

section
variable {text w rest : List Char} {events : List Event} {event : Event} {m m' : Machine}
  {xs ys : List Question} {limit : Option Nat}

theorem pollPointsFrom_append {more : List Event}
    (h : ∀ event, more.head? = some event → event.isFault = false) (count : Nat) :
    pollPointsFrom text count (events ++ more) =
      pollPointsFrom text count events ++ pollPointsFrom text (count + events.length) more := by
  induction events generalizing count with
  | nil => rfl
  | cons event rest ih =>
    have hevent : event.polls text count (rest ++ more).head? =
        event.polls text count rest.head? := by
      cases rest with
      | cons => rfl
      | nil =>
        cases more with
        | nil => rfl
        | cons next more =>
          have hnext := h next rfl
          cases event with
          | enter => rfl
          | leave rule span outcome =>
            cases rule <;> cases outcome <;> simp [Event.polls, hnext]
    have hcount : count + 1 + rest.length = count + (event :: rest).length := by
      rw [List.length_cons]
      omega
    rw [List.cons_append, pollPointsFrom, pollPointsFrom, ih, hevent, List.append_assoc, hcount]

theorem pollPoints_concat (h : event.isFault = false) :
    pollPoints text (events ++ [event]) =
      pollPoints text events ++ event.polls text events.length none := by
  have hhead : ∀ e, [event].head? = some e → e.isFault = false := by
    intro e he
    rw [← Option.some.inj he]
    exact h
  rw [pollPoints, pollPointsFrom_append hhead, Nat.zero_add, pollPointsFrom, pollPointsFrom,
    List.append_nil]
  rfl

theorem pollPoints_concat_of_nil (h : event.isFault = false)
    (hnil : event.polls text events.length none = []) :
    pollPoints text (events ++ [event]) = pollPoints text events := by
  rw [pollPoints_concat h, hnil, List.append_nil]

/-! ## Factors -/

/-- The places of the polls before the digits so far of a literal that starts at an offset. -/
def literalPolls (w : List Char) (start count : Nat) : List Poll :=
  ((digitOffsets w).filter fun p => decide (start ≤ p)).map (⟨·, count⟩)

theorem factorPolls_literal {start mark : Nat} (hmark : EndsAt w mark) (hhead : HeadVisible rest)
    (hstart : start ∈ digitOffsets w) (count : Nat) (joined : Bool) :
    factorPolls (w ++ rest) count ⟨start, max start mark⟩ joined =
      literalPolls w start count ++ if joined then [⟨byteLength w, count + 1⟩] else [] := by
  have hmax : max start mark = mark := max_eq_right (lt_mark hmark hstart).le
  have hmem : start ∈ digitOffsets (w ++ rest) := mem_offsetsOf_append hstart rest
  simp only [factorPolls, if_pos hmem, digitOffsets_span hmark hstart]
  rw [hmax, nextVisible_eq hmark hhead]
  rfl

theorem factorPolls_group {start : Nat} (hstart : start ∈ offsetsOf (· == '(') w 0)
    (rest : List Char) (count : Nat) (joined : Bool) :
    factorPolls (w ++ rest) count ⟨start, max start (byteLength w + 1)⟩ joined =
      if joined then [⟨byteLength w + 1, count + 1⟩] else [] := by
  have hbound := bounds_of_mem_offsetsOf hstart
  have hmax : max start (byteLength w + 1) = byteLength w + 1 := by omega
  have hno : start ∉ digitOffsets (w ++ rest) := by
    intro hdigit
    obtain ⟨c, hc, hparen⟩ :=
      exists_of_mem_offsetsOf hdigit (mem_offsetsOf_append hstart rest)
    rw [beq_iff_eq.1 hparen] at hc
    cases hc
  simp only [factorPolls, if_neg hno, hmax]

theorem literalPolls_first {c : Char} (hc : c.isDigit = true) (count : Nat) :
    literalPolls (w ++ [c]) (byteLength w) count = [⟨byteLength w, count⟩] := by
  have hnone : (digitOffsets w).filter (fun p => decide (byteLength w ≤ p)) = [] := by
    refine List.filter_eq_nil_iff.2 ?_
    intro q hq
    have := bounds_of_mem_offsetsOf hq
    simp only [decide_eq_true_eq]
    omega
  have hdigits : digitOffsets (w ++ [c]) = digitOffsets w ++ [byteLength w] := offsetsOf_concat hc
  rw [literalPolls, hdigits, List.filter_append, hnone]
  simp

theorem literalPolls_next {c : Char} {start : Nat} (hc : c.isDigit = true)
    (hstart : start ∈ digitOffsets w) (count : Nat) :
    literalPolls (w ++ [c]) start count = literalPolls w start count ++ [⟨byteLength w, count⟩] := by
  have hle : start ≤ byteLength w := by
    have := bounds_of_mem_offsetsOf hstart
    omega
  have hdigits : digitOffsets (w ++ [c]) = digitOffsets w ++ [byteLength w] := offsetsOf_concat hc
  rw [literalPolls, hdigits, List.filter_append, List.map_append]
  simp [literalPolls, hle]

/-! ## Failures -/

theorem pollPointsFrom_leavings (m : Machine) (failure : Failure) (rules : List OpenRule)
    (count : Nat) : pollPointsFrom text count (leavings m failure rules) = [] := by
  induction rules generalizing count with
  | nil => rfl
  | cons r rest ih =>
    have htail := ih (count + 1)
    rw [leavings] at htail ⊢
    rw [List.map_cons, pollPointsFrom, htail, List.append_nil]
    cases r.rule <;> rfl

theorem pollPoints_fail {failure : Failure} (h : ∀ fault, failure.cause ≠ .arithmetic fault) :
    pollPoints text (m.fail failure).events = pollPoints text m.events := by
  have hhead : ∀ event, (leavings m failure m.openRules).head? = some event →
      event.isFault = false := by
    intro event hevent
    rw [leavings, List.head?_map] at hevent
    obtain ⟨r, -, rfl⟩ := Option.map_eq_some_iff.1 hevent
    obtain ⟨cause, span⟩ := failure
    cases cause with
    | arithmetic fault => exact absurd rfl (h fault)
    | endOfInput | unexpectedChar | tooDeep | interrupt => cases r.rule <;> rfl
  rw [Machine.fail_events, pollPoints, pollPointsFrom_append hhead, pollPointsFrom_leavings,
    List.append_nil]
  rfl

/-- A factor that cannot be joined to its term is not followed by a poll. -/
theorem pollPoints_fault {span blamed : Span} {value : Fraction} {fault : Fault} {start : Nat}
    {rules : List OpenRule} (hevents : m.events = events ++ [.leave .factor span (.value value)])
    (hopen : m.openRules = ⟨.term, start⟩ :: rules) :
    pollPoints text (m.fail ⟨.arithmetic fault, blamed⟩).events =
      pollPoints text events ++ factorPolls text events.length span false := by
  have hhead : ∀ event,
      (Event.leave .factor span (.value value) ::
        leavings m ⟨.arithmetic fault, blamed⟩ m.openRules).head? = some event →
      event.isFault = false := by
    rintro event ⟨⟩
    rfl
  rw [Machine.fail_events, hevents, List.append_assoc, List.singleton_append, pollPoints,
    pollPointsFrom_append hhead, pollPointsFrom, pollPointsFrom_leavings, List.append_nil,
    Nat.zero_add, hopen]
  rfl

end

end ExactCalculator
