import MonkeyLang.Repl
import MonkeyLang.Tree.Render

/-!
# The command line

Arguments are read from left to right up to the first that decides the matter. A request without a
file starts the interactive session; with one it runs the program in that file, or shows its tree.

What a program prints and how it ends go to the standard output, but an illegal character and calls
that nest too deeply are told on the standard error.
-/

namespace MonkeyLang.Cli

/-- The help text. -/
def usage : String :=
  "monkey [OPTIONS] [FILE]\n\n" ++
  "Run a Monkey (.monkey) program. Without FILE, start an interactive session.\n\n" ++
  "Options:\n" ++
  "  --ast      Print the parsed program instead of running it\n" ++
  "  --quiet    Do not print the value of the last statement\n" ++
  "  --help     Show this help message\n"

/-- What is to be done with a program, and the file it is in; no file when `path` is empty. -/
structure Options where
  path : String
  showTree : Bool
  quiet : Bool

/-- What the arguments ask for. -/
inductive Request where
  | help
  | unknownFlag (argument : String)
  | unexpectedArgument (argument : String)
  | proceed (options : Options)

/-- Reads the arguments that follow those already in `options`. -/
def Request.read (options : Options) : List String → Request
  | [] => .proceed options
  | argument :: rest =>
    if argument = "--help" ∨ argument = "-h" then .help
    else if argument = "--ast" then read { options with showTree := true } rest
    else if argument = "--quiet" then read { options with quiet := true } rest
    else if argument.toList.head? = some '-' then .unknownFlag argument
    else if options.path = "" then read { options with path := argument } rest
    else .unexpectedArgument argument

/-- What a list of arguments asks for. -/
def Request.ofArguments (arguments : List String) : Request := read ⟨"", false, false⟩ arguments

/-- Why a file cannot be read. -/
inductive ReadError where
  | notFound
  /-- an error of the system, with its number and description -/
  | system (code : Nat) (description : String)

/-- The message of a read error for a path. -/
def ReadError.message (path : String) : ReadError → String
  | notFound => "No such file or directory"
  | system code description =>
    "[Errno " ++ toString code ++ "] " ++ description ++ ": " ++ Text.quoted path

/-- What a program leaves behind: exit code, standard output and standard error. -/
structure Outcome where
  code : Nat
  output : String
  errors : String

/-- The lines that tell of syntax errors. -/
def errorLines (errors : List SyntaxError) : String :=
  errors.foldl (fun lines error => lines ++ ("ERROR: " ++ error.message) ++ "\n") ""

/-- Evaluates a program in a new top-level scope of a machine of its own. Its value is shown unless
`quiet` is set; an error is always shown. -/
def runProgram (limit : Nat) (quiet : Bool) (program : Program) : Outcome :=
  let evaluation : Eval Value := do
    let ctx ← Context.new limit
    program.eval ctx (← Eval.newScope none)
  match evaluation.run .initial with
  | .error .callDepth machine =>
    ⟨1, machine.output, "monkey: runtime error: maximum recursion depth exceeded\n"⟩
  | .ok value machine =>
    if value.isError then ⟨1, machine.output ++ value.inspect ++ "\n", ""⟩
    else if !quiet then ⟨0, machine.output ++ value.inspect ++ "\n", ""⟩
    else ⟨0, machine.output, ""⟩

/-- Parses a source text, and shows its tree or runs it. -/
def treat (limit : Nat) (options : Options) (source : String) : Outcome :=
  match parse source with
  | .error halt => ⟨1, "", "FATAL ERROR: " ++ halt.message ++ "\n"⟩
  | .ok ⟨program, errors⟩ =>
    if !errors.isEmpty then ⟨1, errorLines errors, ""⟩
    else if options.showTree then ⟨0, program.render ++ "\n", ""⟩
    else runProgram limit options.quiet program

/-- Treats the source text in a file with the given contents. -/
def runFile (limit : Nat) (options : Options) : Except ReadError ByteArray → Outcome
  | .error error =>
    ⟨1, "", "monkey: " ++ options.path ++ ": " ++ error.message options.path ++ "\n"⟩
  | .ok bytes =>
    match String.fromUTF8? bytes with
    | none => ⟨1, "", "monkey: " ++ options.path ++ ": invalid utf-8\n"⟩
    | some source => treat limit options source

/-- Carries out a request, given what each file holds and what stands on standard input, when `limit`
calls may be nested. -/
def Request.execute (limit : Nat) (files : String → Except ReadError ByteArray) (input : String) :
    Request → Outcome
  | help => ⟨0, usage, ""⟩
  | unknownFlag argument => ⟨2, "", "monkey: unknown flag '" ++ argument ++ "'\n"⟩
  | unexpectedArgument argument => ⟨2, "", "monkey: unexpected argument '" ++ argument ++ "'\n"⟩
  | proceed options =>
    if options.path = "" then ⟨0, Repl.transcript limit Repl.defaultIntro input, ""⟩
    else runFile limit options (files options.path)

end MonkeyLang.Cli
