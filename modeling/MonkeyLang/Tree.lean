import MonkeyLang.Token

/-!
# Program trees

The tree of a program: expressions, statements, blocks, and the program itself. Every node keeps
the token it was built from.

A tree is also what a parser leaves behind after a syntax error, so a node may lack a part:
`Expr.missing` stands in its place. A tree built by hand may moreover hold nodes that are no
construct of the language (`Expr.unknown`, `Stmt.unknown`).
-/

namespace MonkeyLang

/-- A name where it is bound or used, with its token. -/
structure Ident where
  token : Token
  name : String
deriving DecidableEq

mutual

/-- An expression. -/
inductive Expr where
  /-- the place of an expression that could not be read -/
  | missing
  /-- a node, labelled `label`, that is no construct of the language -/
  | unknown (label : String) (token : Token)
  | identifier (ident : Ident)
  | integer (token : Token) (value : Int)
  | boolean (token : Token) (value : Bool)
  | text (token : Token) (value : String)
  /-- an operator before its operand -/
  | unary (token : Token) (operator : String) (operand : Expr)
  /-- an operator between its operands -/
  | binary (token : Token) (left : Expr) (operator : String) (right : Expr)
  | function (token : Token) (parameters : List Ident) (body : Block)
  /-- a call; the token is the opening parenthesis -/
  | call (token : Token) (callee : Expr) (arguments : List Expr)
  | array (token : Token) (elements : List Expr)
  /-- an element access; the token is the opening bracket -/
  | index (token : Token) (collection : Expr) (position : Expr)
  /-- a hash literal, its pairs in source order -/
  | hash (token : Token) (pairs : List (Expr × Expr))

/-- A statement. -/
inductive Stmt where
  /-- a node, labelled `label`, that is no construct of the language -/
  | unknown (label : String) (token : Token)
  /-- the declaration of a name; the token says whether it is a constant -/
  | declaration (token : Token) (ident : Ident) (value : Expr)
  /-- a return, with `Expr.missing` for its value when it is bare -/
  | ret (token : Token) (value : Expr)
  | expression (token : Token) (value : Expr)
  | block (body : Block)
  | ifThen (token : Token) (condition : Expr) (consequence : Block)
  | ifElse (token : Token) (condition : Expr) (consequence alternative : Block)

/-- Statements between braces; the token is the opening brace, or the `if` of an `else if`. -/
structure Block where
  token : Token
  statements : List Stmt

end

/-- A program: its top-level statements in order. -/
structure Program where
  statements : List Stmt

/-- Whether there is an expression at all. -/
def Expr.isMissing : Expr → Bool
  | .missing => true
  | _ => false

/-- The literal of the token an expression was built from. -/
def Expr.tokenLiteral : Expr → String
  | .missing => ""
  | .identifier ident => ident.token.literal
  | .unknown _ token | .integer token _ | .boolean token _ | .text token _ | .unary token ..
  | .binary token .. | .function token .. | .call token .. | .array token _ | .index token ..
  | .hash token _ => token.literal

/-- The literal of the token a statement was built from. -/
def Stmt.tokenLiteral : Stmt → String
  | .block body => body.token.literal
  | .unknown _ token | .declaration token .. | .ret token _ | .expression token _
  | .ifThen token .. | .ifElse token .. => token.literal

/-- The literal of a program's first token. -/
def Program.tokenLiteral (program : Program) : String :=
  (program.statements.head?.map Stmt.tokenLiteral).getD ""

end MonkeyLang
