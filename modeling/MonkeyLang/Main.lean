import MonkeyLang.Cli

/-!
# The command

Reads the file that the arguments name, or the lines of an interactive session, and writes what the
library answers.
-/

namespace MonkeyLang.Main

/-- The number of an error, which some system calls give as its negative in 32 bits. -/
def errorNumber (code : UInt32) : Nat :=
  if 2 * code.toNat < UInt32.size then code.toNat else UInt32.size - code.toNat

/-- The number and description of an error of the system. -/
def systemError : IO.Error → Nat × String
  | .alreadyExists _ code details | .interrupted _ code details
  | .noFileOrDirectory _ code details | .invalidArgument _ code details
  | .permissionDenied _ code details | .resourceExhausted _ code details
  | .inappropriateType _ code details | .noSuchThing _ code details
  | .otherError code details | .resourceBusy code details | .resourceVanished code details
  | .unsupportedOperation code details | .hardwareFault code details
  | .unsatisfiedConstraints code details | .illegalOperation code details
  | .protocolError code details | .timeExpired code details =>
    (errorNumber code, details.capitalize)
  | .unexpectedEof => (0, "unexpected end of file")
  | .userError details => (0, details)

/-- The contents of a file. -/
def readFile (path : String) : IO (Except Cli.ReadError ByteArray) := do
  try
    return .ok (← IO.FS.readBinFile path)
  catch
    | .noFileOrDirectory .. => return .error .notFound
    | error =>
      let (code, description) := systemError error
      return .error (.system code description)

/-- The interactive session on standard input and output. What it has shown is taken off its
stream. -/
partial def converse (session : Repl.Session) : IO Unit := do
  let output ← IO.getStdout
  output.putStr Repl.prompt
  output.flush
  let line ← (← IO.getStdin).getLine
  let (after, stop) :=
    session.answer callLimit (if line.isEmpty then "EOF" else Repl.chomp line.toList)
  output.putStr after.machine.output
  output.flush
  if stop then return
  else converse { after with machine := { after.machine with output := "" } }

end MonkeyLang.Main

/-- Runs the command. -/
def main (arguments : List String) : IO UInt32 := do
  let request := MonkeyLang.Cli.Request.ofArguments arguments
  match request with
  | .proceed ⟨"", _, _⟩ =>
    IO.println MonkeyLang.Repl.defaultIntro
    MonkeyLang.Main.converse (.new .initial)
    return 0
  | .proceed options =>
    let contents ← MonkeyLang.Main.readFile options.path
    write (request.execute MonkeyLang.callLimit (fun _ => contents) "")
  | _ => write (request.execute MonkeyLang.callLimit (fun _ => .error .notFound) "")
where
  /-- Writes an outcome and gives back its exit code. -/
  write (outcome : MonkeyLang.Cli.Outcome) : IO UInt32 := do
    IO.print outcome.output
    IO.eprint outcome.errors
    return outcome.code.toUInt32
