import MonkeyLang.SyntaxError
import MonkeyLang.Tree

/-!
# The parser's window on the tokens

The parser sees two tokens, the current one and the one ahead, and remembers the syntax errors it
has found. `advance` moves the window by one token; it halts the moment an illegal token comes into
sight. Past the end of the input the end token stays ahead.
-/

namespace MonkeyLang.Parsing

/-- What the parser knows: two tokens, the tokens behind them, and the errors so far. -/
structure Window where
  current : Token
  ahead : Token
  rest : List Token
  errors : List SyntaxError

/-- A parser: a computation on the window that may halt. The window outlives a halt. -/
abbrev Parser := EStateM Halt Window

/-- The current token. -/
def current : Parser Token := return (← get).current

/-- Whether the token ahead is of a kind. -/
def aheadIs (kind : Kind) : Parser Bool := return (← get).ahead.kind = kind

/-- Records a syntax error. -/
def report (cause : SyntaxError.Cause) (line : Nat) : Parser Unit :=
  modify fun window => { window with errors := window.errors ++ [⟨cause, line⟩] }

/-- The window one token further on. -/
def Window.shift (window : Window) : Window :=
  match window.rest with
  | [] => { window with current := window.ahead }
  | token :: rest => { window with current := window.ahead, ahead := token, rest }

/-- Moves on by one token. -/
def advance : Parser Unit := do
  modify Window.shift
  let token := (← get).ahead
  if token.kind = .illegal then throw (.illegalCharacter token.literal token.line)

/-- Moves on if the token ahead is of the given kind, and reports an error if it is not. -/
def expect (kind : Kind) : Parser Bool := do
  if ← aheadIs kind then
    advance
    return true
  else
    let token := (← get).ahead
    report (.unexpectedKind token.kind kind) token.line
    return false

/-- Moves on to a semicolon, or reports that it is missing. -/
def expectSemicolon : Parser Unit := do
  if ← aheadIs .semicolon then advance
  else report .missingSemicolon (← current).line

/-- The current token as a name. -/
def currentIdent : Parser Ident := do
  let token ← current
  return ⟨token, token.literal⟩

/-- The window before any token has been seen. -/
def Window.before (tokens : List Token) : Window :=
  ⟨⟨.endOfInput, "", 1⟩, ⟨.endOfInput, "", 1⟩, tokens, []⟩

/-- Brings the first two tokens into sight. -/
def fill : Parser Unit := do
  advance
  advance

end MonkeyLang.Parsing
