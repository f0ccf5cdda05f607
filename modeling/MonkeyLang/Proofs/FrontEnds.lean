import MonkeyLang.Cli
import MonkeyLang.Proofs.Evaluation.Limit
import MonkeyLang.Proofs.Evaluation.Sources

/-!
# The front ends agree

A program text is run by the library, by the command line from a file, and by the interactive session
as a line. Each of the three parses the text, tells of errors and evaluates the program by itself: the
library and the command line with a new table of built-in functions, the session with the one table
and the one machine that it has for all its lines.

What the session writes for a program is what is seen of it on a machine on which nothing has run
(`Repl.Session.output_evaluate`), for nothing of the session's own machine is seen by it.
`FrontEndsAgree` says how the three fit together when the calls do not nest too deeply. (If they do,
the front ends have their own words for it.)
-/

namespace MonkeyLang

/-- The line is a program for the interactive session, and no command. -/
structure Repl.IsProgram (line : String) : Prop where
  ne_empty : Text.trim line ≠ ""
  ne_exit : Text.trim line ≠ "exit"
  ne_end : Text.trim line ≠ "EOF"

/-- The argument is a file for the command line, and no flag. -/
structure Cli.IsPath (argument : String) : Prop where
  ne_empty : argument ≠ ""
  no_flag : argument.toList.head? ≠ some '-'

/-- How a run of a source text ended. -/
abbrev Ending := EStateM.Result Interruption Machine RunResult

/-- The run ended with a value that is no error. -/
def Ending.isOk : Ending → Bool
  | .ok result _ => result.isOk
  | .error .. => false

/-- The calls were nested too deeply. -/
def Ending.isOverflow : Ending → Bool
  | .error (.overflowed _) _ => true
  | _ => false

/-- Syntax errors as they are to be shown: one on a line, in order. -/
def SyntaxError.listing (errors : List SyntaxError) : String :=
  String.join (errors.map fun error => "ERROR: " ++ error.message ++ "\n")

/-- What the front ends make of a source text, whose run on a machine on which nothing has run has
that ending: the command line without and with the flag that silences it, and an interactive session,
with what becomes of it and whether it ends. -/
structure FrontEndsAgree (ending : Ending) (plain quiet : Cli.Outcome) (session : Repl.Session)
    (reply : Repl.Session × Bool) : Prop where
  /-- an illegal character is told in one line, and nothing is evaluated -/
  illegal : ∀ halt m, ending = .error (.halted halt) m →
    (∃ character line, halt = .illegalCharacter character line) ∧
      plain = ⟨1, "", "FATAL ERROR: " ++ halt.message ++ "\n"⟩ ∧
      reply.1 = session.write ("FATAL ERROR: " ++ halt.message ++ "\n") ∧
      m = Machine.initial.withScope
  /-- syntax errors are told in a line each, and nothing is evaluated -/
  broken : ∀ result m, ending = .ok result m → result.errors ≠ [] →
    plain = ⟨1, SyntaxError.listing result.errors, ""⟩ ∧
      reply.1 = session.write (SyntaxError.listing result.errors) ∧ result.value = none ∧
      m = Machine.initial.withScope
  /-- otherwise the value is told after what has been printed -/
  valued : ∀ result m, ending = .ok result m → result.errors = [] →
    ∃ value, result.value = some value ∧ plain.output = m.output ++ value.inspect ++ "\n" ∧
      plain.errors = "" ∧
      reply.1.machine.output = session.machine.output ++ (m.output ++ value.inspect ++ "\n")
  /-- the session has one stream for both of the command line -/
  streams : reply.1.machine.output = session.machine.output ++ (plain.output ++ plain.errors)
  code : plain.code = if ending.isOk then 0 else 1
  goes_on : reply.2 = false
  /-- the flag changes neither exit code nor error stream -/
  quiet_code : quiet.code = plain.code
  quiet_errors : quiet.errors = plain.errors
  /-- the flag leaves out the value of a good run, which is the last line, and nothing else -/
  quiet_output : if plain.code = 0
    then ∃ result m value, ending = .ok result m ∧ result.value = some value ∧
      plain.output = quiet.output ++ (value.inspect ++ "\n")
    else quiet.output = plain.output

/-! ### The interactive session -/

namespace Repl

/-- What is shown of a program of which that is seen. -/
def told (seen : Observation) : String :=
  String.ofList seen.printed ++ match seen.answer with
    | some (_, text) => text ++ "\n"
    | none => "ERROR: maximum recursion depth exceeded\n"

/-- What is told of an evaluation whose last output goes on from the first one. -/
theorem append_told {m last : Machine} (hgoes : m.output.toList <+: last.output.toList)
    (value : Option Value) :
    m.output ++ told (.between m last value) = last.output ++ match value with
      | some v => v.inspect ++ "\n"
      | none => "ERROR: maximum recursion depth exceeded\n" := by
  obtain ⟨printed, hprinted⟩ := hgoes
  have hlast : last.output = m.output ++ String.ofList printed := by
    rw [← String.toList_inj, String.toList_append, String.toList_ofList, hprinted]
  have hdrop : last.output.toList.drop m.output.toList.length = printed := by
    rw [← hprinted, List.drop_left]
  cases value <;> simp [told, Observation.between, hlast, String.append_assoc, Value.shown]

namespace Session

variable {limit : Nat} {source : String} {program : Program} {errors : List SyntaxError}

theorem report_eq (session : Session) (errors : List SyntaxError) :
    session.report errors = session.write (SyntaxError.listing errors) := by
  induction errors generalizing session with
  | nil => simp [report, write, Machine.write, SyntaxError.listing]
  | cons error errors ih =>
    rw [report, ih, write_write]
    simp [SyntaxError.listing]

theorem run_of_halt {halt : Halt} (h : parse source = .error halt) (session : Session) :
    session.run limit source = session.write ("FATAL ERROR: " ++ halt.message ++ "\n") := by
  rw [run, h]

theorem run_of_errors (h : parse source = .ok ⟨program, errors⟩) (herrors : errors ≠ [])
    (session : Session) :
    session.run limit source = session.write (SyntaxError.listing errors) := by
  rw [run, h, ← report_eq]
  exact if_pos (by simp [herrors])

theorem run_of_parse (h : parse source = .ok ⟨program, []⟩) (session : Session) :
    session.run limit source = session.evaluate limit program := by
  rw [run, h]
  rfl

theorem evaluate_of_ok {session : Session} {value : Value} {last : Machine}
    (h : (program.evalAlone (.ofTable session.table limit)).run session.machine = .ok value last) :
    session.evaluate limit program = ⟨session.table, last.write (value.inspect ++ "\n")⟩ := by
  unfold Program.evalAlone at h
  simp only [evaluate, h]

theorem evaluate_of_overflow {session : Session} {overflow : Overflow} {last : Machine}
    (h : (program.evalAlone (.ofTable session.table limit)).run session.machine =
      .error overflow last) :
    session.evaluate limit program =
      ⟨session.table, last.write "ERROR: maximum recursion depth exceeded\n"⟩ := by
  unfold Program.evalAlone at h
  simp only [evaluate, h]

/-- A session writes for a program what is seen of it on a machine on which nothing has run, whatever
lines there have been before. -/
theorem output_evaluate (session : Session) (limit : Nat) (program : Program) :
    (session.evaluate limit program).machine.output =
      session.machine.output ++ told (program.observe 0 limit .initial) := by
  -- the stream only grows, so that what is written last stands behind what is there already
  have hkeeps := Job.keeps (invariant_output session.machine.output.toList) session.table limit
    (.program session.machine.scopes.size program) (fun _ _ => trivial) session.machine.withScope
    List.prefix_rfl
  rw [← program.observe_eq session.table limit session.machine, Program.observe]
  cases hrun : (program.evalAlone (.ofTable session.table limit)).run session.machine with
  | ok value last =>
    rw [evaluate_of_ok hrun]
    exact (append_told (hkeeps.of_ok hrun) (some value)).symm
  | error overflow last =>
    rw [evaluate_of_overflow hrun]
    exact (append_told (hkeeps.of_error hrun) none).symm

/-- The session runs a line that is no command, and goes on. -/
theorem answer_of_isProgram (h : IsProgram source) (session : Session) :
    session.answer limit source = (session.run limit source, false) := by
  rw [answer, if_neg h.ne_empty, if_neg h.ne_exit, if_neg h.ne_end]

end Session

end Repl

/-! ### The command line -/

namespace Cli

section Files

variable {path source : String} {files : String → Except ReadError ByteArray}

/-- The text that is written in a file is the one that is read from it. -/
theorem fromUTF8?_toUTF8 (s : String) : String.fromUTF8? s.toUTF8 = some s :=
  dif_pos s.isValidUTF8

theorem IsPath.ne_flag (h : IsPath path) {flag : String} (hflag : flag.toList.head? = some '-') :
    path ≠ flag := by
  rintro rfl
  exact h.no_flag hflag

theorem read_path (h : IsPath path) (quiet : Bool) (rest : List String) :
    Request.read ⟨"", false, quiet⟩ (path :: rest) = Request.read ⟨path, false, quiet⟩ rest := by
  have hhelp : ¬ (path = "--help" ∨ path = "-h") := not_or.2 ⟨h.ne_flag rfl, h.ne_flag rfl⟩
  rw [Request.read, if_neg hhelp, if_neg (h.ne_flag rfl), if_neg (h.ne_flag rfl), if_neg h.no_flag,
    if_pos rfl]

/-- The command line treats the text that is in the file. -/
theorem execute_file (h : IsPath path) (hfile : files path = .ok source.toUTF8) (limit : Nat)
    (quiet : Bool) (input : String) :
    (Request.proceed ⟨path, false, quiet⟩).execute limit files input =
      treat limit ⟨path, false, quiet⟩ source := by
  rw [Request.execute, if_neg h.ne_empty, hfile, runFile, fromUTF8?_toUTF8]

end Files

section Texts

variable {limit : Nat} {options : Options} {source : String} {program : Program}
  {errors : List SyntaxError}

theorem errorLines_eq (errors : List SyntaxError) :
    errorLines errors = SyntaxError.listing errors := by
  simp [errorLines, SyntaxError.listing, String.join, List.foldl_map, String.append_assoc]

theorem treat_of_halt {halt : Halt} (h : parse source = .error halt) :
    treat limit options source = ⟨1, "", "FATAL ERROR: " ++ halt.message ++ "\n"⟩ := by
  rw [treat, h]

theorem treat_of_errors (h : parse source = .ok ⟨program, errors⟩) (herrors : errors ≠ []) :
    treat limit options source = ⟨1, SyntaxError.listing errors, ""⟩ := by
  rw [treat, h, ← errorLines_eq]
  exact if_pos (by simp [herrors])

theorem treat_of_parse (h : parse source = .ok ⟨program, []⟩) :
    treat limit options source =
      if options.showTree then ⟨0, program.render ++ "\n", ""⟩
      else runProgram limit options.quiet program := by
  rw [treat, h]
  rfl

/-- What has been printed stands in front of the value, which the flag leaves out unless it is an
error. -/
theorem runProgram_of_value {value : Value} {last : Machine} (quiet : Bool)
    (h : (program.evalAlone (.ofTable 0 limit)).run ⟨#[], 1, ""⟩ = .ok value last) :
    runProgram limit quiet program =
      ⟨if value.isError then 1 else 0,
        last.output ++ if quiet && !value.isError then "" else value.inspect ++ "\n", ""⟩ := by
  have hrun : (do program.eval (← Context.new limit) (← Eval.newScope none) : Eval Value).run
      .initial = .ok value last := h
  simp only [runProgram, hrun]
  cases herror : value.isError <;> cases quiet <;> simp [String.append_assoc]

end Texts

end Cli

/-! ### All three -/

section Agreement

variable {limit : Nat} {source : String} {program : Program} {session : Repl.Session}
  {path : String}

/-- The front ends agree on a source text. -/
def AgreeOn (limit : Nat) (source path : String) (session : Repl.Session) : Prop :=
  FrontEndsAgree ((runAlone limit source).run .initial)
    (Cli.treat limit ⟨path, false, false⟩ source) (Cli.treat limit ⟨path, false, true⟩ source)
    session (session.answer limit source)

theorem agreeOn_of_halt (hprogram : Repl.IsProgram source) {halt : Halt}
    (h : parse source = .error halt) : AgreeOn limit source path session := by
  have hsteps := parse_ne_outOfSteps source
  unfold AgreeOn
  rw [runAlone_of_halt h, Cli.treat_of_halt h, Cli.treat_of_halt h,
    Repl.Session.answer_of_isProgram hprogram, Repl.Session.run_of_halt h]
  constructor
  case illegal =>
    rintro _ _ ⟨⟩
    cases halt with
    | outOfSteps => exact absurd h hsteps
    | illegalCharacter character line => exact ⟨⟨character, line, rfl⟩, rfl, rfl, rfl⟩
  case streams => exact congrArg (session.machine.output ++ ·) String.empty_append.symm
  case broken | valued => exact nofun
  all_goals rfl

theorem agreeOn_of_errors (hprogram : Repl.IsProgram source) {errors : List SyntaxError}
    (h : parse source = .ok ⟨program, errors⟩) (herrors : errors ≠ []) :
    AgreeOn limit source path session := by
  have hbad : errors.isEmpty = false := List.isEmpty_eq_false_iff.2 herrors
  unfold AgreeOn
  rw [runAlone_of_errors h herrors, Cli.treat_of_errors h herrors, Cli.treat_of_errors h herrors,
    Repl.Session.answer_of_isProgram hprogram, Repl.Session.run_of_errors h herrors]
  constructor
  case illegal => exact nofun
  case broken =>
    rintro _ _ ⟨⟩ -
    exact ⟨rfl, rfl, rfl, rfl⟩
  case valued =>
    rintro _ _ ⟨⟩ hnone
    exact absurd hnone herrors
  case streams => exact congrArg (session.machine.output ++ ·) String.append_empty.symm
  case code =>
    rw [Ending.isOk, RunResult.isOk, hbad]
    rfl
  all_goals rfl

/-- A session writes what a run prints, and the value behind it. -/
theorem output_answer (hprogram : Repl.IsProgram source) (hparse : parse source = .ok ⟨program, []⟩)
    {value : Value} {last : Machine}
    (h : (runAlone limit source).run .initial = .ok ⟨program, [], some value⟩ last)
    (session : Repl.Session) :
    (session.answer limit source).1.machine.output =
      session.machine.output ++ (last.output ++ (value.inspect ++ "\n")) := by
  have hseen : program.observe 0 limit .initial = .between .initial last (some value) := by
    rw [← observeRun_of_parse (m := .initial) hparse, observeRun, h]
  have hgoes : Machine.initial.output.toList <+: last.output.toList := List.nil_prefix
  have htold : Repl.told (.between .initial last (some value)) =
      last.output ++ (value.inspect ++ "\n") :=
    String.empty_append.symm.trans (Repl.append_told hgoes (some value))
  rw [Repl.Session.answer_of_isProgram hprogram, Repl.Session.run_of_parse hparse,
    Repl.Session.output_evaluate, hseen, htold]

theorem agreeOn_of_value (hprogram : Repl.IsProgram source)
    (hparse : parse source = .ok ⟨program, []⟩) {value : Value} {last : Machine}
    (h : (program.evalAlone (.ofTable 0 limit)).run ⟨#[], 1, ""⟩ = .ok value last) :
    AgreeOn limit source path session := by
  have hend : (runAlone limit source).run .initial = .ok ⟨program, [], some value⟩ last :=
    (runAlone_of_parse hparse).trans (congrArg (runOutcome program) h)
  have hreply := output_answer hprogram hparse hend session
  have htreat (quiet : Bool) : Cli.treat limit ⟨path, false, quiet⟩ source =
      ⟨if value.isError then 1 else 0,
        last.output ++ if quiet && !value.isError then "" else value.inspect ++ "\n", ""⟩ :=
    (Cli.treat_of_parse hparse).trans (Cli.runProgram_of_value quiet h)
  unfold AgreeOn
  rw [htreat, htreat, hend]
  constructor
  case illegal => exact nofun
  case broken =>
    rintro _ _ ⟨⟩ hsome
    exact absurd rfl hsome
  case valued =>
    rintro _ _ ⟨⟩ -
    exact ⟨value, rfl, String.append_assoc.symm, rfl, by rw [hreply, String.append_assoc]⟩
  case streams =>
    rw [hreply]
    exact congrArg (session.machine.output ++ ·) String.append_empty.symm
  case code =>
    show (if value.isError then 1 else 0) = if (!value.isError) = true then 0 else 1
    cases value.isError <;> rfl
  case goes_on => rw [Repl.Session.answer_of_isProgram hprogram]
  case quiet_code | quiet_errors => rfl
  case quiet_output =>
    cases value.isError with
    | true => rfl
    | false => exact ⟨_, last, value, rfl, rfl, congrArg (· ++ _) String.append_empty.symm⟩

/-- The front ends agree on every text that is a program for the interactive session, whatever lines
the session has answered before, if the calls do not nest too deeply: what the command line makes of
a file with the text, with the flag that silences it on either side of the path, and what the session
answers, fit the run of the text. -/
theorem front_ends_agree {files : String → Except Cli.ReadError ByteArray}
    (hprogram : Repl.IsProgram source) (hpath : Cli.IsPath path)
    (hfile : files path = .ok source.toUTF8)
    (hruns : Ending.isOverflow ((runAlone limit source).run .initial) = false)
    (input : String) (session : Repl.Session) :
    ∀ silenced ∈ [["--quiet", path], [path, "--quiet"]],
      FrontEndsAgree ((runAlone limit source).run .initial)
        ((Cli.Request.ofArguments [path]).execute limit files input)
        ((Cli.Request.ofArguments silenced).execute limit files input) session
        (session.answer limit source) := by
  have hplain : Cli.Request.ofArguments [path] = .proceed ⟨path, false, false⟩ :=
    Cli.read_path hpath false []
  have hsilenced : ∀ silenced ∈ [["--quiet", path], [path, "--quiet"]],
      Cli.Request.ofArguments silenced = .proceed ⟨path, false, true⟩ := by
    simp only [List.mem_cons, List.not_mem_nil, or_false]
    rintro _ (rfl | rfl)
    · exact Cli.read_path hpath true []
    · exact Cli.read_path hpath false ["--quiet"]
  intro silenced hmem
  rw [hplain, hsilenced silenced hmem, Cli.execute_file hpath hfile, Cli.execute_file hpath hfile]
  show AgreeOn limit source path session
  cases hparse : parse source with
  | error halt => exact agreeOn_of_halt hprogram hparse
  | ok parsed =>
    obtain ⟨program, errors⟩ := parsed
    by_cases herrors : errors = []
    · subst herrors
      cases hrun : (program.evalAlone (.ofTable 0 limit)).run ⟨#[], 1, ""⟩ with
      | ok value last => exact agreeOn_of_value hprogram hparse hrun
      | error overflow last =>
        have hend : (runAlone limit source).run .initial = .error (.overflowed overflow) last :=
          (runAlone_of_parse hparse).trans (congrArg (runOutcome program) hrun)
        rw [hend] at hruns
        cases hruns
    · exact agreeOn_of_errors hprogram hparse herrors

/-- A program that prints, and whose value depends on identities, in a session in which there has
been another program. -/
theorem front_ends_agree_of_print :
    Repl.IsProgram "print(1); [1] == [1];" ∧ Cli.IsPath "same.monkey" ∧
    Ending.isOverflow ((runAlone callLimit "print(1); [1] == [1];").run .initial) = false ∧
    ∀ silenced ∈ [["--quiet", "same.monkey"], ["same.monkey", "--quiet"]],
      FrontEndsAgree ((runAlone callLimit "print(1); [1] == [1];").run .initial)
        ((Cli.Request.ofArguments ["same.monkey"]).execute callLimit
          (fun _ => .ok "print(1); [1] == [1];".toUTF8) "")
        ((Cli.Request.ofArguments silenced).execute callLimit
          (fun _ => .ok "print(1); [1] == [1];".toUTF8) "")
        ⟨0, ⟨#[⟨[("x", .integer 1)], none⟩], 3, ">> 1\n>> "⟩⟩
        (Repl.Session.answer ⟨0, ⟨#[⟨[("x", .integer 1)], none⟩], 3, ">> 1\n>> "⟩⟩ callLimit
          "print(1); [1] == [1];") := by
  have hprogram : Repl.IsProgram "print(1); [1] == [1];" :=
    ⟨by decide, by decide, by decide⟩
  have hpath : Cli.IsPath "same.monkey" := ⟨by decide, by decide⟩
  have hruns : Ending.isOverflow ((runAlone callLimit "print(1); [1] == [1];").run .initial) =
      false := by decide +kernel
  exact ⟨hprogram, hpath, hruns, front_ends_agree hprogram hpath rfl hruns "" _⟩

end Agreement

end MonkeyLang
