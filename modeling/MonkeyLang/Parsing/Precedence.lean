import MonkeyLang.Token

/-!
# Binding strength of operators

An operator of higher strength takes its operands before one of lower strength. Calls and element
accesses bind most strongly; a token that continues no expression has the lowest strength.
-/

namespace MonkeyLang

namespace Precedence

/-- The strength that any operator exceeds. -/
def lowest : Nat := 1

/-- The strength with which an operator before its operand holds on to it. -/
def unary : Nat := 6

end Precedence

/-- The strength with which a token ahead takes the expression before it. -/
def Kind.precedence : Kind → Nat
  | .equal | .notEqual => 2
  | .less | .greater | .lessEqual | .greaterEqual => 3
  | .plus | .minus => 4
  | .asterisk | .slash => 5
  | .leftParen => 7
  | .leftBracket => 8
  | _ => Precedence.lowest

/-- Whether a token is an operator between two operands. -/
def Kind.isBinary : Kind → Bool
  | .equal | .notEqual | .less | .greater | .lessEqual | .greaterEqual | .plus | .minus
  | .asterisk | .slash => true
  | _ => false

end MonkeyLang
