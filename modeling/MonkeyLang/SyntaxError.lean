import MonkeyLang.Token

/-!
# Syntax errors

What can be wrong with a program text. The parser collects `SyntaxError`s and carries on; a
`Halt` ends parsing.
-/

namespace MonkeyLang

/-- What is wrong at some place of a program. -/
inductive SyntaxError.Cause where
  /-- a token of kind `found` where one of kind `expected` must stand -/
  | unexpectedKind (found expected : Kind)
  /-- a token that starts no expression -/
  | unexpectedToken (literal : String)
  /-- a number with too many digits, or beyond the largest signed 64-bit integer -/
  | integerOutOfRange (literal : String)
  | missingSemicolon
deriving DecidableEq

/-- A syntax error: its cause and the line it is reported for. -/
structure SyntaxError where
  cause : SyntaxError.Cause
  line : Nat
deriving DecidableEq

namespace SyntaxError

/-- The wording of a cause. -/
def Cause.text : Cause → String
  | unexpectedKind found expected =>
    "unexpected token: \"" ++ found.name ++ "\" (expected: \"" ++ expected.name ++ "\")"
  | unexpectedToken literal => "unexpected token: \"" ++ literal ++ "\""
  | integerOutOfRange literal => "could not parse: \"" ++ literal ++ "\" as integer"
  | missingSemicolon => "expected semicolon"

/-- The message of a syntax error ends with its line. -/
def message (error : SyntaxError) : String :=
  error.cause.text ++ " at line: " ++ toString error.line

end SyntaxError

/-- Why parsing stops before the end of the input. -/
inductive Halt where
  /-- a character that belongs to no token of the language -/
  | illegalCharacter (character : String) (line : Nat)
  /-- the parser used up the number of steps it was given -/
  | outOfSteps
deriving DecidableEq

/-- The message of a halt. -/
def Halt.message : Halt → String
  | illegalCharacter character line =>
    "illegal character: " ++ Text.quoted character ++ " at line: " ++ toString line
  | outOfSteps => "the parser ran out of steps"

end MonkeyLang
