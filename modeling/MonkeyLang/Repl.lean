import MonkeyLang.Evaluation
import MonkeyLang.Parsing.Program
import MonkeyLang.Text.Blank

/-!
# The interactive session

Every line is a program of its own and runs in a new top-level scope. A line that is `exit` or `EOF`
up to blanks around it ends the session; so does the end of the input, which counts as `EOF`.

* A `Session` has one table of built-in functions and one machine for all its lines. It has one
  stream, which is the output of the machine: prompts and answers are written to it as well as what
  programs print. Whatever a line does stays done, also when too many calls are nested in it.
* A `Loop` is a session at work, which reads its input line by line. Every step of it that does not
  stop takes a line off the input (`Loop.rank_step_lt`), so it comes to an end: `Loop.finish`.
-/

namespace MonkeyLang.Repl

/-- What is shown before the first prompt. -/
def defaultIntro : String :=
  "Monkey interpreter :: Python backend\nType 'exit' or press Ctrl-D to leave."

/-- What is shown before a line is read. -/
def prompt : String := ">> "

/-- A session between two lines. -/
structure Session where
  /-- the table of built-in functions that all lines are evaluated with -/
  table : ObjectId
  machine : Machine

namespace Session

/-- A new session on a machine. -/
def new (machine : Machine) : Session :=
  ⟨machine.supply, { machine with supply := machine.supply + 1 }⟩

/-- Writes a text to the stream of the session. -/
def write (session : Session) (text : String) : Session :=
  { session with machine := session.machine.write text }

@[simp] theorem output_new (machine : Machine) : (new machine).machine.output = machine.output := rfl

@[simp] theorem output_write (session : Session) (text : String) :
    (session.write text).machine.output = session.machine.output ++ text := rfl

theorem write_write (session : Session) (text text' : String) :
    (session.write text).write text' = session.write (text ++ text') := by
  simp [write, Machine.write, String.append_assoc]

/-- Evaluates a program in a new top-level scope, and shows its value. -/
def evaluate (session : Session) (limit : Nat) (program : Program) : Session :=
  let evaluation : Eval Value := do
    program.eval (.ofTable session.table limit) (← Eval.newScope none)
  match evaluation.run session.machine with
  | .ok value machine => { session with machine := machine.write (value.inspect ++ "\n") }
  | .error .callDepth machine =>
    { session with machine := machine.write "ERROR: maximum recursion depth exceeded\n" }

/-- Shows syntax errors, each on a line. -/
def report (session : Session) : List SyntaxError → Session
  | [] => session
  | error :: errors => (session.write ("ERROR: " ++ error.message ++ "\n")).report errors

/-- Runs a line as a program. -/
def run (session : Session) (limit : Nat) (line : String) : Session :=
  match parse line with
  | .error halt => session.write ("FATAL ERROR: " ++ halt.message ++ "\n")
  | .ok ⟨program, errors⟩ =>
    if !errors.isEmpty then session.report errors else session.evaluate limit program

/-- Answers a line, and says whether it ends the session. -/
def answer (session : Session) (limit : Nat) (line : String) : Session × Bool :=
  let command := Text.trim line
  if command = "" then (session, false)
  else if command = "exit" then (session, true)
  else if command = "EOF" then (session.write "\n", true)
  else (session.run limit line, false)

end Session

/-! ### Lines of input -/

/-- The text up to the next line feed, this included, and the text behind it. -/
def readLine (cs : List Char) : List Char × List Char :=
  let rest := cs.dropWhile (· != '\n')
  (cs.takeWhile (· != '\n') ++ rest.take 1, rest.drop 1)

/-- A line as it is answered: without the carriage returns and line feeds at its end. -/
def chomp (line : List Char) : String :=
  String.ofList (Text.dropWhileEnd (fun c => c == '\r' || c == '\n') line)

/-- The line that is answered next, and the input behind it. The end of the input counts as `EOF`. -/
def nextLine (cs : List Char) : String × List Char :=
  let (line, rest) := readLine cs
  (if line = [] then "EOF" else chomp line, rest)

/-- A line that is read is taken off the input. -/
theorem length_nextLine_lt {cs : List Char} (h : cs ≠ []) : (nextLine cs).2.length < cs.length := by
  obtain ⟨c, cs, rfl⟩ := List.exists_cons_of_ne_nil h
  have hrest : (cs.dropWhile (· != '\n')).length ≤ cs.length :=
    (List.dropWhile_sublist _).length_le
  simp only [nextLine, readLine, List.length_drop, List.length_cons, List.dropWhile_cons]
  split
  · omega
  · rw [List.length_cons]
    omega

/-! ### A session at work -/

/-- A session that reads its lines from an input. -/
structure Loop where
  /-- what it has not read yet -/
  input : List Char
  session : Session
  stopped : Bool

namespace Loop

/-- What is written before the first prompt. -/
def opening (intro : String) : String := if intro = "" then "" else intro ++ "\n"

/-- A session with all of its input before it. -/
def start (intro input : String) (session : Session) : Loop :=
  ⟨input.toList, session.write (opening intro), false⟩

/-- Prompts for a line, reads and answers it. A session that has stopped does nothing. -/
def step (loop : Loop) (limit : Nat) : Loop :=
  if loop.stopped then loop
  else
    let next := nextLine loop.input
    let reply := (loop.session.write prompt).answer limit next.1
    ⟨next.2, reply.1, reply.2⟩

/-- So many steps. -/
def run (loop : Loop) (limit : Nat) : (steps : Nat) → Loop
  | 0 => loop
  | steps + 1 => (loop.step limit).run limit steps

/-- The number of steps that may still be made. -/
def rank (loop : Loop) : Nat := if loop.stopped then 0 else loop.input.length + 1

theorem step_of_not_stopped {loop : Loop} (h : ¬ loop.stopped) (limit : Nat) :
    loop.step limit =
      ⟨(nextLine loop.input).2,
        ((loop.session.write prompt).answer limit (nextLine loop.input).1).1,
        ((loop.session.write prompt).answer limit (nextLine loop.input).1).2⟩ :=
  if_neg h

/-- At the end of the input a session stops; before it, a step takes a line off the input. -/
theorem rank_step_lt {loop : Loop} (h : ¬ loop.stopped) (limit : Nat) :
    (loop.step limit).rank < loop.rank := by
  rw [step_of_not_stopped h, rank, rank, if_neg h]
  dsimp only
  by_cases hinput : loop.input = []
  · have hend : Text.trim "EOF" = "EOF" := by decide
    simp [hinput, nextLine, readLine, Session.answer, hend]
  · have hrest := length_nextLine_lt hinput
    split <;> omega

/-- Steps until the session has stopped. -/
def finish (loop : Loop) (limit : Nat) : Loop :=
  if loop.stopped then loop else (loop.step limit).finish limit
termination_by loop.rank
decreasing_by exact rank_step_lt ‹_› limit

end Loop

/-- Everything that a new session writes for an input. -/
def transcript (limit : Nat) (intro input : String) : String :=
  ((Loop.start intro input (.new .initial)).finish limit).session.machine.output

end MonkeyLang.Repl
