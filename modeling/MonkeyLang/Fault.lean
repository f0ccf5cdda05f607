import MonkeyLang.Builtin

/-!
# Faults

Evaluation that cannot go on yields an error value, which carries a `Fault`: the cause, with the
types, names and counts that its message quotes.
-/

namespace MonkeyLang

/-- The type of a value. -/
inductive ValueType where
  | integer
  | boolean
  | text
  | null
  | void
  | ret
  | error
  | function
  | builtin
  | array
  | hash
deriving DecidableEq

/-- The spelling of a type in messages. -/
def ValueType.name : ValueType → String
  | integer => "INTEGER"
  | boolean => "BOOLEAN"
  | text => "STRING"
  | null => "NULL"
  | void => "VOID"
  | ret => "RETURN"
  | error => "ERROR"
  | function => "FUNCTION"
  | builtin => "BUILTIN"
  | array => "ARRAY"
  | hash => "HASH"

/-- Why evaluation cannot go on. -/
inductive Fault where
  /-- a part of the program is missing -/
  | incompleteProgram
  /-- a node that is no construct of the language -/
  | unknownNode (label : String)
  | returnOutsideFunction
  | conditionNotBoolean (found : ValueType)
  | redeclared (constant : Bool) (name : String)
  | negationNotBoolean (found : ValueType)
  | unknownUnary (operator : String) (operand : ValueType)
  | typeMismatch (left : ValueType) (operator : String) (right : ValueType)
  | unknownBinary (left : ValueType) (operator : String) (right : ValueType)
  | divisionByZero
  | unknownIdentifier (name : String)
  | argumentCount (want got : Nat)
  | notAFunction (found : ValueType)
  | missingReturn
  | indexOutOfBounds
  | indexUnsupported (collection position : ValueType)
  | missingKey (hash key : String)
  | unhashableKey (found : ValueType)
  | builtinArgumentCount (got want : Nat)
  | lengthUnsupported (found : ValueType)
  | arrayExpected (builtin : Builtin) (found : ValueType)
  /-- an error that a host program made, with its own message -/
  | custom (message : String)
deriving DecidableEq

/-- The message of a fault. -/
def Fault.message : Fault → String
  | incompleteProgram => "cannot evaluate an incomplete program"
  | unknownNode label => "unknown node: " ++ label
  | returnOutsideFunction => "return statement not permitted outside function body"
  | conditionNotBoolean found =>
    "expected BOOLEAN as condition in if-statement got: " ++ found.name
  | redeclared constant name =>
    "redeclared " ++ (if constant then "constant" else "variable") ++ ": \"" ++ name ++
      "\" in one block"
  | negationNotBoolean found => "expected BOOLEAN in negation expression, got: " ++ found.name
  | unknownUnary operator operand => "unknown operator: " ++ operator ++ operand.name
  | typeMismatch left operator right =>
    "type mismatch: " ++ left.name ++ " " ++ operator ++ " " ++ right.name
  | unknownBinary left operator right =>
    "unknown operator: " ++ left.name ++ " " ++ operator ++ " " ++ right.name
  | divisionByZero => "division by zero"
  | unknownIdentifier name => "unknown identifier: " ++ name
  | argumentCount want got =>
    "wrong number of arguments: want=" ++ toString want ++ ", got=" ++ toString got
  | notAFunction found => "not a function: " ++ found.name
  | missingReturn => "missing return at the end of function body"
  | indexOutOfBounds => "index out of boundaries"
  | indexUnsupported collection position =>
    "index operator not supported: " ++ collection.name ++ "[" ++ position.name ++ "]"
  | missingKey hash key => "No hash pair in \"" ++ hash ++ "\" with key \"" ++ key ++ "\""
  | unhashableKey found => found.name ++ " can't be used as hash key"
  | builtinArgumentCount got want =>
    "wrong number of arguments. got=" ++ toString got ++ " want=" ++ toString want
  | lengthUnsupported found => "argument to `len` not supported, got " ++ found.name
  | arrayExpected builtin found =>
    "argument to `" ++ builtin.name ++ "` must be ARRAY, got " ++ found.name
  | custom message => message

end MonkeyLang
