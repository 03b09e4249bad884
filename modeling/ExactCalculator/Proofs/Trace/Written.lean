import ExactCalculator.Proofs.Blame.Parts
import ExactCalculator.Proofs.Text.Styled
import ExactCalculator.Proofs.Trace.Ledger
import ExactCalculator.Proofs.Trace.Outlines

/-! The lines of an outline. A rule without steps has one line. Any other rule has a line of its own, the
lines of its steps further in, and one for its result (`Outline.lines`). An outline is written line by line
if no reset sequence has to be styled (`Outline.render_eq`). The outline of a run is such an outline,
because a run reads no escape character and no message has a reset sequence (`Console.outline_run`). -/
namespace ExactCalculator
set_option autoImplicit false

namespace Outline

/-- A line of an outline: how far in it begins, and its parts, each of which is styled by itself. -/
structure Line where
  level : Nat
  parts : List String
deriving DecidableEq, Repr

/-- A line as it is written, with two spaces for each level. -/
def Line.text (color : Bool) (line : Line) : String :=
  String.ofList (List.replicate (2 * line.level) ' ') ++
    String.join (line.parts.map (Style.enclose color "\x1b[2m")) ++ "\n"

/-- How a result is told. -/
def told : Except String String → String
  | .ok value => value
  | .error message => "[!] " ++ message

mutual

/-- The lines of an outline at a level. The steps of a rule and its result are one level further in. -/
def lines (level : Nat) : Outline → List Line
  | node rule text [] result =>
    [⟨level, ["[-] " ++ rule.name ++ " " ++ text ++ " => ", told result]⟩]
  | node rule text (step :: steps) result =>
    ⟨level, ["[-] " ++ rule.name ++ " " ++ text]⟩ ::
      (lines (level + 1) step ++ linesAll (level + 1) steps ++ [⟨level + 1, ["=> ", told result]⟩])

def linesAll (level : Nat) : List Outline → List Line
  | [] => []
  | outline :: rest => lines level outline ++ linesAll level rest

end

/-- An outline as it is written. -/
def written (color : Bool) (outline : Outline) : String :=
  String.join ((outline.lines 0).map (Line.text color))

mutual

/-- Nothing that is styled contains a reset sequence. -/
def Clean : Outline → Prop
  | node _ text steps result =>
    '\x1b' ∉ text.toList ∧ ¬Style.reset.toList <:+: (told result).toList ∧ AllClean steps

def AllClean : List Outline → Prop
  | [] => True
  | outline :: rest => outline.Clean ∧ AllClean rest

end

/-! ## Writing -/

section
variable {text : String} {result : Except String String}

theorem paint_eq_of_escape_not_mem (color : Bool) (h : '\x1b' ∉ text.toList) :
    Style.dimmed.paint color text = Style.enclose color "\x1b[2m" text :=
  Style.paint_eq color .dimmed (Style.not_reset_part h)

theorem indent_eq (level : Nat) : indent level = String.ofList (List.replicate (2 * level) ' ') := by
  induction level with
  | zero => rfl
  | succ level ih =>
    have hreplicate : List.replicate (2 * (level + 1)) ' ' =
        [' ', ' '] ++ List.replicate (2 * level) ' ' := by
      rw [Nat.mul_succ, Nat.add_comm, List.replicate_add]
      rfl
    rw [indent, List.replicate_succ, String.join_cons, ← indent, ih, hreplicate, String.ofList_append]

theorem resultLine_eq (color : Bool) (h : ¬Style.reset.toList <:+: (told result).toList) :
    resultLine color result = Style.enclose color "\x1b[2m" (told result) ++ "\n" := by
  have hpaint := Style.paint_eq color .dimmed h
  cases result with
  | ok value => exact congrArg (· ++ "\n") hpaint
  | error message => exact congrArg (· ++ "\n") hpaint

theorem escape_not_mem_head (rule : Rule) (h : '\x1b' ∉ text.toList) :
    '\x1b' ∉ ("[-] " ++ rule.name ++ " " ++ text).toList := by
  cases rule <;> simpa [String.toList_append, Rule.name] using h

mutual

/-- An outline is written line by line. -/
theorem render_eq (color : Bool) (level : Nat) : (outline : Outline) → outline.Clean →
    render color level outline = String.join ((outline.lines level).map (Line.text color))
  | node rule text [] result, h => by
    have hhead : '\x1b' ∉ ("[-] " ++ rule.name ++ " " ++ text ++ " => ").toList := by
      simpa [String.toList_append] using escape_not_mem_head rule h.1
    have hrender : render color level (node rule text [] result) = indent level ++
        Style.dimmed.paint color ("[-] " ++ rule.name ++ " " ++ text ++ " => ") ++
        resultLine color result := rfl
    rw [hrender, indent_eq, paint_eq_of_escape_not_mem color hhead, resultLine_eq color h.2.1]
    simp [lines, Line.text, String.append_assoc]
  | node rule text (step :: steps) result, h => by
    have hhead := escape_not_mem_head rule h.1
    have hsteps := renderAll_eq color (level + 1) (step :: steps) h.2.2
    have hrender : render color level (node rule text (step :: steps) result) = indent level ++
        (Style.dimmed.paint color ("[-] " ++ rule.name ++ " " ++ text) ++ "\n" ++
          renderAll color (level + 1) (step :: steps) ++ indent (level + 1) ++
          Style.dimmed.paint color "=> ") ++ resultLine color result := rfl
    rw [hrender, indent_eq, indent_eq, paint_eq_of_escape_not_mem color hhead,
      paint_eq_of_escape_not_mem color (by decide), resultLine_eq color h.2.1, hsteps]
    simp [lines, linesAll, Line.text, String.append_assoc]

theorem renderAll_eq (color : Bool) (level : Nat) : (outlines : List Outline) → AllClean outlines →
    renderAll color level outlines = String.join ((linesAll level outlines).map (Line.text color))
  | [], _ => rfl
  | outline :: rest, h => by
    rw [renderAll, render_eq color level outline h.1, renderAll_eq color level rest h.2, linesAll,
      List.map_append, String.join_append]

end

/-- The two parts of a line with a result are dimmed one by one. -/
example : render true 0 (.node .expression "(7)" [.node .expression "7" [] (.ok "7")] (.ok "7")) =
    "\x1b[2m[-] expression (7)\x1b[0m\n" ++
      "  \x1b[2m[-] expression 7 => \x1b[0m\x1b[2m7\x1b[0m\n" ++
      "  \x1b[2m=> \x1b[0m\x1b[2m7\x1b[0m\n" := by
  decide

end

theorem AllClean.collapse {text : String} {steps : List Outline} (h : AllClean steps) :
    AllClean (collapse text steps) := by
  unfold Outline.collapse
  split
  · next only =>
    split
    · obtain ⟨rule, text, steps, result⟩ := only
      exact h.1.2.2
    · exact h
  · exact h

end Outline

/-! ## Texts without a reset sequence -/

/-- Nothing that an outline of the text shows of the event contains a reset sequence. -/
def Event.Clean (input : String) : Event → Prop
  | enter _ => True
  | leave _ span outcome =>
    '\x1b' ∉ (span.slice input).toList ∧ ¬Style.reset.toList <:+: (Outline.told outcome.text).toList

mutual

theorem Trace.clean_outline (input : String) : (trace : Trace) →
    (∀ event ∈ trace.events, event.Clean input) → (trace.outline input).Clean
  | .node rule span outcome steps, h => by
    obtain ⟨hslice, htold⟩ := h (.leave rule span outcome) (by simp [events])
    have hsteps := allClean_outlineAll input steps fun event hevent => h event (by simp [events, hevent])
    exact ⟨hslice, htold, hsteps.collapse⟩

theorem Trace.allClean_outlineAll (input : String) : (steps : List Trace) →
    (∀ event ∈ allEvents steps, event.Clean input) → Outline.AllClean (outlineAll input steps)
  | [], _ => trivial
  | trace :: rest, h => by
    obtain ⟨htrace, hrest⟩ := List.forall_mem_append.1 h
    exact ⟨trace.clean_outline input htrace, allClean_outlineAll input rest hrest⟩

end

section
variable {text : String} {w rest : List Char} {span : Span} {cause : Cause} {s : Ledger} {run : Run}

theorem escape_not_mem_repr (n : ℕ) : '\x1b' ∉ n.repr.toList := by
  rw [Nat.toList_repr]
  intro hmem
  cases Nat.isDigit_of_mem_toDigits (by decide) (by decide) hmem

theorem Fraction.escape_not_mem_integerText (n : ℤ) : '\x1b' ∉ (integerText n).toList := by
  have hdigits := escape_not_mem_repr n.natAbs
  unfold integerText
  split
  · rw [String.toList_append, List.mem_append]
    exact not_or.2 ⟨by decide, hdigits⟩
  · exact hdigits

theorem Fraction.escape_not_mem_toText (v : Fraction) : '\x1b' ∉ v.toText.toList := by
  have hnum := escape_not_mem_integerText v.num
  unfold toText
  split
  · decide
  · split
    · exact hnum
    · rw [String.toList_append, String.toList_append, List.mem_append, List.mem_append]
      exact not_or.2 ⟨not_or.2 ⟨hnum, by decide⟩, escape_not_mem_repr v.den⟩

/-- A message has a character of the text at most, and one character alone is no reset sequence. -/
theorem Cause.not_reset_part_message (h : ∀ fault, cause = .arithmetic fault → fault = .divisionByZero) :
    ¬Style.reset.toList <:+: ("[!] " ++ cause.message).toList := by
  have hescape : ∀ message : String, '\x1b' ∉ message.toList →
      ¬Style.reset.toList <:+: ("[!] " ++ message).toList := by
    intro message hmessage
    refine Style.not_reset_part ?_
    rw [String.toList_append, List.mem_append]
    exact not_or.2 ⟨by decide, hmessage⟩
  cases cause with
  | endOfInput | tooDeep | interrupt => exact hescape _ (by decide)
  | arithmetic fault =>
    obtain rfl := h fault rfl
    exact hescape _ (by decide)
  | unexpectedChar c =>
    have hmessage : (unexpectedChar c).message = "unexpected character '" ++ c.toString ++ "'" := rfl
    rw [hmessage, Style.toList_reset]
    intro hpart
    -- neither the escape character nor the zero is in what stands around the character
    have hescape : '\x1b' = c := by
      simpa [String.toList_append] using hpart.subset (a := '\x1b') (by decide)
    have hzero : '0' = c := by
      simpa [String.toList_append] using hpart.subset (a := '0') (by decide)
    cases hescape.trans hzero.symm

/-- What is cut from the part read stands in it. -/
theorem Span.mem_of_mem_slice (htext : text.toList = w ++ rest) (hle : span.stop ≤ byteLength w) {c : Char}
    (h : c ∈ (span.slice text).toList) : c ∈ w := by
  unfold slice at h
  split at h
  · next cut hcut =>
    obtain ⟨hsplit, hstart, hlength⟩ := parts_of_cut? hcut
    rw [String.toList_ofList] at h
    have hne : byteLength cut.inside ≠ 0 := mt byteLength_eq_zero_iff.1 (List.ne_nil_of_mem h)
    have hbefore : byteLength (cut.before ++ cut.inside) ≤ byteLength w := by
      rw [byteLength_append]
      simp only [length] at hlength
      omega
    obtain ⟨b, rfl, -⟩ := exists_append_of_byteLength_le (hsplit.symm.trans htext) hbefore
    exact List.mem_append_left b (List.mem_append_right _ h)
  · cases h

theorem Ledger.After.clean (h : After w s) (htext : text.toList = w ++ rest) :
    ∀ event ∈ s.events, event.Clean text := by
  intro event hevent
  cases event with
  | enter rule => trivial
  | leave rule span outcome =>
    obtain ⟨⟨v, rfl⟩, hstop⟩ := h.placed.left rule span outcome hevent
    exact ⟨fun hmem => h.escape_not_mem (Span.mem_of_mem_slice htext hstop hmem),
      Style.not_reset_part v.escape_not_mem_toText⟩

/-- Rules left with values show what was read, those left with the failure its message as well. -/
theorem Run.Closes.clean (h : run.Closes text.toList)
    (hfault : ∀ fault span, run.outcome = .failure ⟨.arithmetic fault, span⟩ → fault = .divisionByZero) :
    ∀ event ∈ run.events, event.Clean text := by
  cases h with
  | complete htext hledger => exact hledger.clean htext
  | @failed w rest m failure htext hledger hfound =>
    rw [Machine.fail_events]
    refine List.forall_mem_append.2 ⟨hledger.clean htext, fun event hevent => ?_⟩
    obtain ⟨r, hr, rfl⟩ := List.mem_map.1 hevent
    have hstop : (m.spanFrom r.start).stop ≤ byteLength w :=
      max_le (hledger.placed.start_le hr) hledger.placed.mark.le
    refine ⟨fun hmem => hledger.escape_not_mem (Span.mem_of_mem_slice htext hstop hmem), ?_⟩
    obtain ⟨cause, span⟩ := failure
    refine Cause.not_reset_part_message fun fault hcause => hfault fault span ?_
    exact congrArg (fun cause => Outcome.failure ⟨cause, span⟩) hcause

end

/-! ## Runs -/

/-- The console writes the outline of a run line by line, and no outline is left in progress. -/
theorem Console.outline_run (color : Bool) {policy : Policy} {text : String} {trace : Trace}
    (h : trace.events = (runWith policy text).events) :
    Console.outline color text [] (runWith policy text).events =
      ((trace.outline text).written color, .ok []) := by
  have hclean := (runWith_closes policy text).clean fun fault span => runWith_fault
  rw [← h] at hclean ⊢
  rw [Console.outline_trace, Outline.render_eq color 0 _ (trace.clean_outline text hclean)]
  rfl

end ExactCalculator
