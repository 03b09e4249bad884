import ExactCalculator.Proofs.Trace.Ledger

/-! How far the rules reach that a failure ends. Every rule that is open at a failure is left with it,
and the range that it has read then leads up to the failure: nothing but ignored characters come between
its end and the character, the place or the end of the text to blame, and it ends with the divisor to
blame (`runWith_reaches_failure`). -/
namespace ExactCalculator
set_option autoImplicit false

/-- The range, cut out of the text, is empty or begins and ends with visible characters, and it leads
up to the failure. -/
def Span.Reaches (text : List Char) (span : Span) (failure : Failure) : Prop :=
  ∃ u b z, text = u ++ b ++ z ∧ span = ⟨byteLength u, byteLength (u ++ b)⟩ ∧
    (∀ c, b.head? = some c → isIgnored c = false) ∧
    (∀ c, b.getLast? = some c → isIgnored c = false) ∧
    match failure.cause with
    | .arithmetic _ => failure.span.stop = span.stop ∧ span.start ≤ failure.span.start
    | _ => ∃ v rest, z = v ++ rest ∧ visible v = [] ∧ failure.span.start = byteLength (u ++ b ++ v)

section
variable {text w rest : List Char} {m : Machine} {failure : Failure} {r : OpenRule} {rule : Rule}
  {span : Span}

/-- A rule that is open where a failure is found reaches up to it. -/
theorem Failure.FoundAt.reaches (hfound : failure.FoundAt w m.ledger)
    (h : Ledger.After w m.ledger) (htext : text = w ++ rest) (hr : r ∈ m.openRules) :
    (m.spanFrom r.start).Reaches text failure := by
  obtain ⟨u, b, v, hw, hspan, hv, hfirst, hlast⟩ := h.placed.exists_part hr
  have hsplit : text = u ++ b ++ (v ++ rest) := by rw [htext, hw, List.append_assoc]
  refine ⟨u, b, v ++ rest, hsplit, hspan, hfirst, hlast, ?_⟩
  cases hfound with
  | here hcause hstart =>
    have hbefore : ∃ v' rest', v ++ rest = v' ++ rest' ∧ visible v' = [] ∧
        failure.span.start = byteLength (u ++ b ++ v') := ⟨v, rest, rfl, hv, by rw [hstart, hw]⟩
    split
    · next hfault => exact absurd hfault (hcause _)
    · exact hbefore
  | @divisor fault start hlt hrules =>
    have hlt : start < m.mark := hlt
    have hle : r.start ≤ start := hrules r hr
    refine ⟨?_, hle⟩
    show max start m.mark = max r.start m.mark
    omega

theorem Run.Closes.reaches {run : Run} (h : run.Closes text)
    (hevent : Event.leave rule span (.failure failure) ∈ run.events) : span.Reaches text failure := by
  cases h with
  | complete _ hledger =>
    obtain ⟨⟨v, hv⟩, -⟩ := hledger.placed.left _ _ _ hevent
    cases hv
  | @failed w rest m failure' htext hledger hfound =>
    rw [Machine.fail_events] at hevent
    rcases List.mem_append.1 hevent with hbefore | hleft
    · obtain ⟨⟨v, hv⟩, -⟩ := hledger.placed.left _ _ _ hbefore
      cases hv
    · obtain ⟨r, hr, hleave⟩ := List.mem_map.1 hleft
      cases hleave
      exact hfound.reaches hledger htext hr

end

/-- Whatever the answers to polls are, every rule that is left with a failure has read up to it. -/
theorem runWith_reaches_failure (policy : Policy) {text : String} {rule : Rule} {span : Span}
    {failure : Failure}
    (h : .leave rule span (.failure failure) ∈ (runWith policy text).events) :
    span.Reaches text.toList failure :=
  (runWith_closes policy text).reaches h

/-- The divisor `( 3 -3)` ends the term that begins before it, and what is skipped after it is no part
of either. -/
theorem runWith_reaches_failure_of_division :
    .leave .term ⟨1, 11⟩ (.failure ⟨.arithmetic .divisionByZero, ⟨4, 11⟩⟩) ∈
        (runWith (.standard (.constant false)) "-2 /( 3 -3) ").events ∧
      Span.Reaches "-2 /( 3 -3) ".toList ⟨1, 11⟩ ⟨.arithmetic .divisionByZero, ⟨4, 11⟩⟩ :=
  have h : .leave .term ⟨1, 11⟩ (.failure ⟨.arithmetic .divisionByZero, ⟨4, 11⟩⟩) ∈
      (runWith (.standard (.constant false)) "-2 /( 3 -3) ").events := by decide
  ⟨h, runWith_reaches_failure (.standard (.constant false)) h⟩

end ExactCalculator
