import ExactCalculator.Proofs.Highlight
import ExactCalculator.Proofs.Machine.Boundaries
import ExactCalculator.Proofs.Trace.Written
import Mathlib.Data.List.TakeWhile

/-! Whole runs of the console. Its lines are told apart by their words (`Command.parse?_eq_some_iff`).
Between two lines the outline in progress is always empty, because the events of an evaluation are those of
one trace (`runWith_traced`); so the console remembers nothing but whether it shows outlines, and prints for
each line what that line alone and the setting call for. For an evaluation this is said in full
(`Console.Evaluated`). -/
namespace ExactCalculator
set_option autoImplicit false

/-! ## Commands -/

theorem words_of_blank {c : Char} (hc : isBlank c = true) (cs : List Char) :
    words (c :: cs) = words cs := by
  rw [words, List.splitOnP_cons_eq_if_modifyHead, if_pos hc]
  rfl

theorem head?_words_of_not_blank {c : Char} (hc : isBlank c = false) (cs : List Char) :
    ∃ word, (words (c :: cs)).head? = some (c :: word) := by
  obtain ⟨piece, pieces, hpieces⟩ := List.exists_cons_of_ne_nil (List.splitOnP_ne_nil isBlank cs)
  refine ⟨piece, ?_⟩
  rw [words, List.splitOnP_cons_eq_if_modifyHead, hc, if_neg Bool.false_ne_true, hpieces]
  rfl

theorem trimStart_eq_nil_iff {line : List Char} : trimStart line = [] ↔ line.all isBlank = true := by
  rw [trimStart, List.dropWhile_eq_nil_iff, List.all_eq_true]

/-- The words of a line, as strings. -/
def wordTexts (line : List Char) : List String := (words line).map String.ofList

/-- The character that the first word of a line begins with. -/
def firstChar? (line : List Char) : Option Char :=
  (wordTexts line).head?.bind fun word => word.toList.head?

theorem firstChar?_eq (line : List Char) : firstChar? line = (trimStart line).head? := by
  induction line with
  | nil => rfl
  | cons c cs ih =>
    cases hc : isBlank c with
    | true =>
      have htrim : trimStart (c :: cs) = trimStart cs := List.dropWhile_cons_of_pos hc
      rw [firstChar?, wordTexts, words_of_blank hc, htrim, ← ih]
      rfl
    | false =>
      obtain ⟨word, hword⟩ := head?_words_of_not_blank hc cs
      have htrim : trimStart (c :: cs) = c :: cs := List.dropWhile_cons_of_neg (by simp [hc])
      rw [firstChar?, wordTexts, List.head?_map, hword, htrim]
      simp

/-- The commands and the words that they are given by. -/
inductive Command.Reads : List String → Command → Prop
  | help : Reads [":help"] .help
  | question : Reads [":?"] .help
  | traceOn (rest : List String) : Reads (":trace" :: "on" :: rest) (.trace true)
  | traceOff (rest : List String) : Reads (":trace" :: "off" :: rest) (.trace false)
  | quit : Reads [":quit"] .quit
  | exit : Reads [":exit"] .quit

theorem Command.parse?_eq_some_iff {line : List Char} {command : Command} :
    Command.parse? line = some command ↔ Command.Reads (wordTexts line) command := by
  unfold Command.parse? wordTexts
  dsimp only
  generalize (words line).map String.ofList = texts
  constructor
  · intro h
    match texts with
    | [] => cases h
    | [word] =>
      dsimp only [List.head?_cons, Option.getD_some, List.tail_cons, List.head?_nil] at h
      split at h
      case h_7 => cases h
      all_goals
        next hargument => cases hargument <;> cases h <;> constructor
    | first :: second :: rest =>
      dsimp only [List.head?_cons, Option.getD_some, List.tail_cons] at h
      split at h
      case h_7 => cases h
      all_goals
        next hargument => cases hargument <;> cases h <;> constructor
  · rintro (_ | _ | _ | _ | _ | _) <;> rfl

/-- Only a command line holds a command. -/
theorem Command.isCommandLine_of_parse? {line : List Char} {command : Command}
    (h : Command.parse? line = some command) : Command.isCommandLine line = true := by
  have hreads := Command.parse?_eq_some_iff.1 h
  have hfirst : firstChar? line = some ':' := by
    rw [firstChar?]
    generalize wordTexts line = texts at hreads
    cases hreads <;> rfl
  rw [isCommandLine, ← firstChar?_eq, hfirst]
  rfl

theorem Command.isCommandLine_of_blank {line : List Char} (h : line.all isBlank = true) :
    Command.isCommandLine line = false := by
  rw [isCommandLine, trimStart_eq_nil_iff.2 h]
  rfl

namespace Console

/-- Whether a line ends the console. -/
def ends (line : List Char) : Bool := wordTexts line == [":quit"] || wordTexts line == [":exit"]

/-- The lines before the first one that ends the console. -/
def served (lines : List (List Char)) : List (List Char) := lines.takeWhile fun line => !ends line

/-- The setting for outlines that a line makes. -/
def setting? (line : List Char) : Option Bool :=
  match wordTexts line with
  | ":trace" :: "on" :: _ => some true
  | ":trace" :: "off" :: _ => some false
  | _ => none

/-- Whether outlines are shown after lines: the last setting among them, or else the one before. -/
def tracingAfter (initial : Bool) (lines : List (List Char)) : Bool :=
  (lines.filterMap setting?).getLast?.getD initial

/-- Whether a line is evaluated: it has a word, and the first one begins with no colon. -/
def isExpression (line : List Char) : Bool := (firstChar? line).any (· != ':')

theorem ends_eq (line : List Char) : ends line = decide (Command.parse? line = some .quit) := by
  rw [Bool.eq_iff_iff, decide_eq_true_iff, Command.parse?_eq_some_iff, ends]
  generalize wordTexts line = texts
  simp only [Bool.or_eq_true, beq_iff_eq]
  constructor
  · rintro (rfl | rfl)
    · exact .quit
    · exact .exit
  · rintro (_ | _)
    · exact .inl rfl
    · exact .inr rfl

theorem setting?_eq_some_iff {line : List Char} {on : Bool} :
    setting? line = some on ↔ Command.parse? line = some (.trace on) := by
  rw [Command.parse?_eq_some_iff, setting?]
  generalize wordTexts line = texts
  constructor
  · intro h
    split at h <;> cases h <;> constructor
  · rintro (_ | _) <;> rfl

theorem setting?_eq_none {line : List Char} (h : ∀ on, Command.parse? line ≠ some (.trace on)) :
    setting? line = none :=
  Option.eq_none_iff_forall_ne_some.2 fun on hon => h on (setting?_eq_some_iff.1 hon)

theorem isExpression_eq (line : List Char) :
    isExpression line = (!line.all isBlank && !Command.isCommandLine line) := by
  rw [isExpression, firstChar?_eq, Command.isCommandLine]
  cases htrim : trimStart line with
  | nil =>
    rw [trimStart_eq_nil_iff.1 htrim]
    rfl
  | cons c cs =>
    have hblank : line.all isBlank = false := by
      rw [← Bool.not_eq_true, ← trimStart_eq_nil_iff, htrim]
      exact List.cons_ne_nil c cs
    rw [hblank]
    by_cases hcolon : c = ':' <;> simp [hcolon]

theorem tracingAfter_cons (initial : Bool) (line : List Char) (lines : List (List Char)) :
    tracingAfter initial (line :: lines) = tracingAfter ((setting? line).getD initial) lines := by
  cases hline : setting? line with
  | none => simp [tracingAfter, hline]
  | some on =>
    simp only [tracingAfter, List.filterMap_cons, hline, List.getLast?_cons]
    rfl

/-! ## Lines -/

section
variable {color tracing : Bool} {line : List Char}

/-- What a console that knows nothing but the setting for outlines prints for a line. -/
def answerText (color tracing : Bool) (line : List Char) : String :=
  (answer color { tracing := tracing } line).output

theorem answer_of_blank {state : State} (h : line.all isBlank = true) :
    answer color state line = ⟨"", .running state⟩ := if_pos h

theorem answer_of_expression {state : State} (h : isExpression line = true) :
    answer color state line = evaluateLine color state (String.ofList line) := by
  simp only [isExpression_eq, Bool.and_eq_true, Bool.not_eq_true'] at h
  rw [answer, h.1, h.2]
  rfl

theorem answer_of_command {state : State} {command : Command}
    (h : Command.parse? line = some command) : answer color state line = obey state command := by
  have hcommand := Command.isCommandLine_of_parse? h
  have hblank : line.all isBlank = false := by
    rw [← Bool.not_eq_true]
    intro hall
    rw [Command.isCommandLine_of_blank hall] at hcommand
    cases hcommand
  rw [answer, hblank, hcommand, h]
  rfl

/-- With outlines, that of the evaluation is written before the report, and no outline is left in
progress. -/
theorem evaluateLine_tracing (color : Bool) {text : String} {trace : Trace}
    (h : trace.events = (runSteady false text).events) :
    evaluateLine color { tracing := true } text =
      ⟨(trace.outline text).written color ++ report color text (evaluate text),
        .running { tracing := true }⟩ := by
  have houtline : outline color text [] (runSteady false text).journal.events.toList =
      ((trace.outline text).written color, .ok []) := outline_run color h
  simp only [evaluateLine, houtline, if_true]
  rfl

theorem evaluateLine_quiet (color : Bool) (text : String) :
    evaluateLine color {} text = ⟨report color text (evaluate text), .running {}⟩ := rfl

/-- Every evaluation has a trace. -/
theorem exists_trace (text : String) :
    ∃ trace : Trace, trace.events = (runSteady false text).events :=
  (runWith_traced (.standard (.constant false)) text).events.exists_trace

/-- A line without a command leaves the console as it was. -/
theorem status_of_parse?_eq_none (color tracing : Bool) (h : Command.parse? line = none) :
    (answer color { tracing := tracing } line).status = .running { tracing := tracing } := by
  cases hblank : line.all isBlank with
  | true => rw [answer_of_blank hblank]
  | false =>
    cases hcommand : Command.isCommandLine line with
    | true =>
      rw [answer, hblank, hcommand, h]
      rfl
    | false =>
      rw [answer_of_expression (by rw [isExpression_eq, hblank, hcommand]; rfl)]
      cases tracing with
      | false => rw [evaluateLine_quiet]
      | true =>
        obtain ⟨trace, htrace⟩ := exists_trace (String.ofList line)
        rw [evaluateLine_tracing color htrace]

/-- Between lines no outline is in progress, so a line changes at most the setting. -/
theorem answer_eq (color tracing : Bool) (line : List Char) :
    answer color { tracing := tracing } line =
      ⟨answerText color tracing line,
        if ends line then .exited 0
        else .running { tracing := (setting? line).getD tracing }⟩ := by
  cases hparse : Command.parse? line with
  | none =>
    have hstatus := status_of_parse?_eq_none color tracing hparse
    have hsetting : setting? line = none := setting?_eq_none (by simp [hparse])
    simp only [ends_eq, hsetting, hparse, reduceCtorEq, decide_false, Bool.false_eq_true, if_false,
      Option.getD_none, ← hstatus]
    rfl
  | some command =>
    simp only [answerText, answer_of_command hparse, ends_eq, hparse]
    cases command with
    | help | quit =>
      rw [setting?_eq_none (by simp [hparse])]
      rfl
    | trace on =>
      rw [setting?_eq_some_iff.2 hparse]
      cases on <;> rfl

theorem answerText_of_ends (color tracing : Bool) (h : ends line = true) :
    answerText color tracing line = "" := by
  rw [ends_eq] at h
  rw [answerText, answer_of_command (of_decide_eq_true h)]
  rfl

end

/-! ## Runs -/

theorem served_of_ends {line : List Char} (h : ends line = true) (rest : List (List Char)) :
    served (line :: rest) = [] := List.takeWhile_cons_of_neg (by simp [h])

theorem served_of_not_ends {line : List Char} (h : ends line = false) (rest : List (List Char)) :
    served (line :: rest) = line :: served rest := List.takeWhile_cons_of_pos (by simp [h])

/-- The console answers its lines one by one up to the one that ends it, each with the setting that the
lines before it left. -/
theorem answerAll_eq (color tracing : Bool) (lines : List (List Char)) :
    answerAll color { tracing := tracing } lines =
      ⟨String.join ((served lines).mapIdx fun i line =>
        answerText color (tracingAfter tracing ((served lines).take i)) line), 0⟩ := by
  induction lines generalizing tracing with
  | nil => rfl
  | cons line rest ih =>
    rw [answerAll, answer_eq]
    cases hends : ends line with
    | true =>
      rw [served_of_ends hends, answerText_of_ends color tracing hends]
      rfl
    | false =>
      have hrest := ih ((setting? line).getD tracing)
      simp only [Bool.false_eq_true, if_false, hrest, served_of_not_ends hends, List.mapIdx_cons,
        String.join_cons, List.take_succ_cons, tracingAfter_cons, List.take_zero]
      rfl

/-! ## Commands and blank lines -/

/-- What is printed for a line that is not evaluated. -/
inductive Replies (color : Bool) (line : List Char) : String → Prop
  | blank (h : ∀ c ∈ line, isBlank c = true) : Replies color line ""
  | help (h : Command.Reads (wordTexts line) .help) : Replies color line greeting
  | traceOn (h : Command.Reads (wordTexts line) (.trace true)) : Replies color line "tracing on\n"
  | traceOff (h : Command.Reads (wordTexts line) (.trace false)) : Replies color line "tracing off\n"
  | quit (h : Command.Reads (wordTexts line) .quit) : Replies color line ""
  | unknown (hcolon : firstChar? line = some ':')
      (h : ∀ command, ¬Command.Reads (wordTexts line) command) :
      Replies color line
        (Style.red.paint color ("unknown command '" ++ String.ofList (trim line) ++ "'") ++ "\n")

theorem replies (color tracing : Bool) {line : List Char} (h : isExpression line = false) :
    Replies color line (answerText color tracing line) := by
  cases hparse : Command.parse? line with
  | some command =>
    have hreads := Command.parse?_eq_some_iff.1 hparse
    rw [answerText, answer_of_command hparse]
    cases command with
    | help => exact .help hreads
    | trace on =>
      cases on with
      | true => exact .traceOn hreads
      | false => exact .traceOff hreads
    | quit => exact .quit hreads
  | none =>
    have hreads : ∀ command, ¬Command.Reads (wordTexts line) command := by
      intro command hcommand
      rw [Command.parse?_eq_some_iff.2 hcommand] at hparse
      cases hparse
    cases hblank : line.all isBlank with
    | true =>
      rw [answerText, answer_of_blank hblank]
      exact .blank (List.all_eq_true.1 hblank)
    | false =>
      have hcommand : Command.isCommandLine line = true := by
        rw [isExpression_eq, hblank] at h
        simpa using h
      have hcolon : firstChar? line = some ':' := by
        rw [firstChar?_eq]
        exact of_decide_eq_true hcommand
      rw [answerText, answer, hblank, hcommand, hparse]
      exact .unknown hcolon hreads

/-! ## Evaluations -/

/-- What is printed of an outcome: the text of the value, or the line with the part to blame for the failure
marked and then the message. -/
inductive Reports (color : Bool) (text : String) : Outcome → String → Prop
  | value (v : Fraction) : Reports color text (.value v) (v.toText ++ "\n")
  | failure {failure : Failure} {cut : Cut} (hcut : failure.span.cut? text.toList = some cut) :
      Reports color text (.failure failure)
        (String.ofList cut.before ++ Style.enclose color "\x1b[1;31m" (String.ofList cut.marked) ++
          String.ofList cut.after ++ "\n" ++ Style.enclose color "\x1b[1;31m" "Error:" ++ " " ++
          failure.cause.message ++ "\n")

theorem reports (color : Bool) (text : String) :
    Reports color text (evaluate text) (report color text (evaluate text)) := by
  cases houtcome : evaluate text with
  | value v => exact .value v
  | failure failure =>
    have hrun : (runWith (.standard (.constant false)) text).outcome = .failure failure := houtcome
    obtain ⟨cut, hcut, hhighlight⟩ := highlight_of_failure color hrun
    have hlabel : Style.redBold.paint color "Error:" = Style.enclose color "\x1b[1;31m" "Error:" :=
      Style.paint_eq color .redBold (Style.not_reset_part (by decide))
    rw [report, hhighlight, hlabel]
    exact .failure hcut

/-- An outcome is reported in one way only. -/
theorem Reports.unique {color : Bool} {text : String} {outcome : Outcome} {result other : String}
    (h : Reports color text outcome result) (hother : Reports color text outcome other) :
    result = other := by
  cases h with
  | value v =>
    cases hother
    rfl
  | failure hcut =>
    cases hother with
    | failure hcut' =>
      obtain rfl := Option.some.inj (hcut.symm.trans hcut')
      rfl

/-- What is printed for a line that is evaluated, without outlines and with them, if the evaluation has the
given trace. -/
structure Evaluated (color : Bool) (text : String) (trace : Trace) (result : String) : Prop where
  reports : Reports color text (evaluate text) result
  quiet : answerText color false text.toList = result
  fits : ∀ span ∈ (runSteady false text).spans, span.Fits text.toList
  events_eq : trace.events = (runSteady false text).events
  /-- The events of the evaluation complete one outline, and nothing is left of them. -/
  tree : Outline.Builder.feedAll text [] (runSteady false text).events =
    .ok ([], [trace.outline text])
  traced : answerText color true text.toList = (trace.outline text).written color ++ result

namespace Evaluated

variable {color : Bool} {text result printed : String} {trace : Trace} {outcome : Outcome} {tree : Outline}

theorem result_eq (h : Evaluated color text trace result) (houtcome : evaluate text = outcome)
    (hprinted : Reports color text outcome printed) : result = printed := by
  subst houtcome
  exact h.reports.unique hprinted

/-- The outcome settles what is printed without outlines. -/
theorem quiet_eq (h : Evaluated color text trace result) (houtcome : evaluate text = outcome)
    (hprinted : Reports color text outcome printed) :
    answerText color false text.toList = printed :=
  h.quiet.trans (h.result_eq houtcome hprinted)

/-- The outcome and the outline that the events complete settle what is printed with outlines. -/
theorem traced_eq (h : Evaluated color text trace result) (houtcome : evaluate text = outcome)
    (hprinted : Reports color text outcome printed)
    (htree : Outline.Builder.feedAll text [] (runSteady false text).events = .ok ([], [tree])) :
    answerText color true text.toList = tree.written color ++ printed := by
  have htrees := (Prod.mk.inj (Except.ok.inj (h.tree.symm.trans htree))).2
  rw [h.traced, h.result_eq houtcome hprinted, List.singleton_inj.1 htrees]

end Evaluated

/-- The console never gives up and ends with code 0. It greets and answers its lines up to the first
that ends it. What it prints for a line depends on nothing but that line and the last setting before it.
For an expression that is the value, or the line that is marked and the message; with outlines it comes
after the outline of one trace, that of its evaluation. Every range that is cut out of the line fits it.
For any other line the setting does not matter. -/
theorem run_line_local (color : Bool) (input : String) :
    run color input =
        ⟨greeting ++ String.join ((served (lines input.toList)).mapIdx fun i line =>
          answerText color (tracingAfter false ((served (lines input.toList)).take i)) line), 0⟩ ∧
      (∀ text : String, isExpression text.toList = true →
        ∃ trace result, Evaluated color text trace result) ∧
      ∀ line tracing, isExpression line = false →
        Replies color line (answerText color tracing line) := by
  refine ⟨?_, ?_, fun line tracing h => replies color tracing h⟩
  · have hanswers := answerAll_eq color false (lines input.toList)
    simp only [run, hanswers]
  · intro text hexpression
    obtain ⟨trace, htrace⟩ := exists_trace text
    have hanswer (tracing : Bool) : answerText color tracing text.toList =
        (evaluateLine color { tracing := tracing } text).output := by
      rw [answerText, answer_of_expression hexpression, String.ofList_toList]
    refine ⟨trace, report color text (evaluate text), reports color text, ?_,
      runWith_spans_fit fun _ => rfl, htrace, ?_, ?_⟩
    · rw [hanswer, evaluateLine_quiet]
    · rw [← htrace]
      exact Outline.Builder.feedAll_trace text trace
    · rw [hanswer, evaluateLine_tracing color htrace]

/-- A value without its outline, a value and a failed division with theirs; the line after `:quit` is not
read. -/
theorem run_line_local_of_sum_and_division :
    isExpression "1/2+1/3".toList = true ∧ isExpression "(7)".toList = true ∧
      isExpression "1/0".toList = true ∧ isExpression ":trace on".toList = false ∧
      Replies false ":trace on".toList "tracing on\n" ∧
      run false "1/2+1/3\n:trace on\n(7)\n1/0\n:quit\n7" =
        ⟨greeting ++ ("5 / 6\n" ++ ("tracing on\n" ++
          ("[-] expression (7)\n  [-] expression 7 => 7\n  => 7\n" ++ "7\n" ++
          ("[-] expression 1/0\n  [-] factor 1 => 1\n  [-] factor 0 => 0\n" ++
            "  => [!] division by zero\n" ++ "1/0\nError: division by zero\n")))), 0⟩ := by
  have hsum : isExpression "1/2+1/3".toList = true := by decide
  have hseven : isExpression "(7)".toList = true := by decide
  have hdivision : isExpression "1/0".toList = true := by decide
  have hcommand : isExpression ":trace on".toList = false := by decide
  obtain ⟨hrun, hlines, hreplies⟩ := run_line_local false "1/2+1/3\n:trace on\n(7)\n1/0\n:quit\n7"
  have hfirst : answerText false false "1/2+1/3".toList = "5 / 6\n" := by
    obtain ⟨trace, result, h⟩ := hlines "1/2+1/3" hsum
    have hvalue : evaluate "1/2+1/3" = .value ⟨5, 6⟩ := by rfl
    rw [h.quiet_eq hvalue (.value ⟨5, 6⟩)]
    decide
  have hsecond : answerText false true "(7)".toList =
      "[-] expression (7)\n  [-] expression 7 => 7\n  => 7\n" ++ "7\n" := by
    obtain ⟨trace, result, h⟩ := hlines "(7)" hseven
    have hvalue : evaluate "(7)" = .value ⟨7, 1⟩ := by rfl
    have htree : Outline.Builder.feedAll "(7)" [] (runSteady false "(7)").events =
        .ok ([], [.node .expression "(7)" [.node .expression "7" [] (.ok "7")] (.ok "7")]) := by rfl
    rw [h.traced_eq hvalue (.value ⟨7, 1⟩) htree]
    decide
  have hthird : answerText false true "1/0".toList =
      "[-] expression 1/0\n  [-] factor 1 => 1\n  [-] factor 0 => 0\n" ++
        "  => [!] division by zero\n" ++ "1/0\nError: division by zero\n" := by
    obtain ⟨trace, result, h⟩ := hlines "1/0" hdivision
    have hfailure : evaluate "1/0" = .failure ⟨.arithmetic .divisionByZero, ⟨2, 3⟩⟩ := by rfl
    have hcut : Span.cut? ⟨2, 3⟩ "1/0".toList = some ⟨['1', '/'], ['0'], []⟩ := by rfl
    have htree : Outline.Builder.feedAll "1/0" [] (runSteady false "1/0").events =
        .ok ([], [.node .expression "1/0" [.node .factor "1" [] (.ok "1"),
          .node .factor "0" [] (.ok "0")] (.error "division by zero")]) := by rfl
    rw [h.traced_eq hfailure (.failure hcut) htree]
    decide
  have hserved : served (lines "1/2+1/3\n:trace on\n(7)\n1/0\n:quit\n7".toList) =
      ["1/2+1/3".toList, ":trace on".toList, "(7)".toList, "1/0".toList] := by decide
  have hsetting : answerText false false ":trace on".toList = "tracing on\n" := by rfl
  have hquiet : tracingAfter false [] = false ∧ tracingAfter false ["1/2+1/3".toList] = false := by
    decide
  have htraced : tracingAfter false ["1/2+1/3".toList, ":trace on".toList] = true ∧
      tracingAfter false ["1/2+1/3".toList, ":trace on".toList, "(7)".toList] = true := by decide
  refine ⟨hsum, hseven, hdivision, hcommand, hsetting ▸ hreplies _ false hcommand, ?_⟩
  simp only [hserved, List.mapIdx_cons, List.mapIdx_nil, String.join_cons, String.join_nil,
    List.take_zero, List.take_succ_cons, hquiet.1, hquiet.2, htraced.1, htraced.2, hfirst, hsetting,
    hsecond, hthird, String.append_empty] at hrun
  exact hrun

end Console

end ExactCalculator
