import MonkeyLang.Value

/-!
# Operations on values

The operators of the language as functions on values. They have no effect: a fault is given back
as such, and it is for the evaluator to make an error value of it.
-/

namespace MonkeyLang.Value

/-- An operator before its operand. -/
def unary (operator : String) (operand : Value) : Except Fault Value :=
  if operator = "!" then
    match operand with
    | boolean b => .ok (boolean !b)
    | _ => .error (.negationNotBoolean operand.type)
  else if operator = "-" then
    match operand with
    | integer n => .ok (integer (Word.wrap (-n)))
    | _ => .error (.unknownUnary "-" operand.type)
  else .error (.unknownUnary operator operand.type)

/-- An operator between two numbers. -/
def integerBinary (operator : String) (a b : Int) : Except Fault Value :=
  if operator = "+" then .ok (integer (Word.wrap (a + b)))
  else if operator = "-" then .ok (integer (Word.wrap (a - b)))
  else if operator = "*" then .ok (integer (Word.wrap (a * b)))
  else if operator = "/" then
    if b = 0 then .error .divisionByZero else .ok (integer (Word.wrap (Word.quotient a b)))
  else if operator = "<" then .ok (boolean (a < b))
  else if operator = ">" then .ok (boolean (a > b))
  else if operator = "<=" then .ok (boolean (a ≤ b))
  else if operator = ">=" then .ok (boolean (a ≥ b))
  else if operator = "==" then .ok (boolean (a = b))
  else if operator = "!=" then .ok (boolean (a ≠ b))
  else .error (.unknownBinary .integer operator .integer)

/-- An operator between two texts. -/
def textBinary (operator : String) (a b : String) : Except Fault Value :=
  if operator = "+" then .ok (text (a ++ b))
  else if operator = "==" then .ok (boolean (a = b))
  else if operator = "!=" then .ok (boolean (a ≠ b))
  else .error (.unknownBinary .text operator .text)

/-- An operator between two operands, which must be of one type. Values other than numbers and
texts can only be compared, by identity. -/
def binary (operator : String) (left right : Value) : Except Fault Value :=
  if left.type ≠ right.type then .error (.typeMismatch left.type operator right.type)
  else
    match left, right with
    | integer a, integer b => integerBinary operator a b
    | text a, text b => textBinary operator a b
    | _, _ =>
      if operator = "==" then .ok (boolean (left.same right))
      else if operator = "!=" then .ok (boolean !left.same right)
      else .error (.unknownBinary left.type operator right.type)

/-- The element of an array at a position counted from zero. -/
def elementAt (elements : List Value) (position : Int) : Except Fault Value :=
  if position < 0 then .error .indexOutOfBounds
  else
    match elements[position.toNat]? with
    | some value => .ok value
    | none => .error .indexOutOfBounds

/-- The element of an array at a position, or the value of a hash under a key. -/
def index (collection position : Value) : Except Fault Value :=
  match collection, position with
  | array _ elements, integer n => elementAt elements n
  | hash _ entries, _ =>
    match position.hashKey? with
    | none => .error (.indexUnsupported .hash position.type)
    | some key =>
      match Dict.find? entries key with
      | some (_, value) => .ok value
      | none => .error (.missingKey collection.inspect position.inspect)
  | _, _ => .error (.indexUnsupported collection.type position.type)

end MonkeyLang.Value
