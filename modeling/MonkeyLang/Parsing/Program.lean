import MonkeyLang.Parsing.Grammar
import MonkeyLang.Token.Cursor

/-!
# Programs

`trace` reads a program statement by statement and records each step; `parse` is the tree and the
syntax errors that come out of it. Syntax errors do not stop the parser, only an illegal character
does.
-/

namespace MonkeyLang.Parsing

/-- One statement read at top level, with the window just behind it. -/
structure Step where
  statement : Option Stmt
  window : Window

/-- The steps of reading a program, why it halted if it did, and the last window. -/
structure Trace where
  steps : List Step
  halt : Option Halt
  window : Window

/-- How deep the parsers may nest for so many tokens. -/
def stepsFor (tokens : List Token) : Nat := 8 * tokens.length + 8

/-- Reads statements up to the end of the input, at most `count` of them. -/
def readStatements (steps : Nat) : (count : Nat) → Window → Trace
  | 0, window => ⟨[], some .outOfSteps, window⟩
  | count + 1, window =>
    if window.current.kind = .endOfInput then ⟨[], none, window⟩
    else
      match (statement steps).run window with
      | .error halt window => ⟨[], some halt, window⟩
      | .ok statement window =>
        match advance.run window with
        | .error halt after => ⟨[⟨statement, window⟩], some halt, after⟩
        | .ok _ after =>
          let trace := readStatements steps count after
          { trace with steps := ⟨statement, window⟩ :: trace.steps }

/-- The steps of reading a source text, unless the first two tokens already halt the parser. -/
def trace (source : String) : Except Halt Trace :=
  let tokens := tokenize source
  match fill.run (Window.before tokens) with
  | .error halt _ => .error halt
  | .ok _ window => .ok (readStatements (stepsFor tokens) (stepsFor tokens) window)

/-- The tree of a trace: the statements that were read. -/
def Trace.program (trace : Trace) : Program := ⟨trace.steps.filterMap Step.statement⟩

end MonkeyLang.Parsing

namespace MonkeyLang

/-- What parsing yields: a tree, and the syntax errors found on the way. -/
structure Parsed where
  program : Program
  errors : List SyntaxError

/-- Parses a source text. -/
def parse (source : String) : Except Halt Parsed := do
  let trace ← Parsing.trace source
  match trace.halt with
  | some halt => throw halt
  | none => return ⟨trace.program, trace.window.errors⟩

end MonkeyLang
