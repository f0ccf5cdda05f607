import MonkeyLang.Tree

/-!
# Trees as text

Rendering writes a tree as one line of source-like text. Every operation stands in parentheses, so
that the text shows how the tree is built; statements follow each other without a separator, and
blocks have no braces. A missing expression is written `None`, except where a statement can do
without it.
-/

namespace MonkeyLang

/-- The text of a node that is no construct of the language. -/
def renderUnknown (label : String) (token : Token) : String :=
  label ++ "(token=" ++ token.describe ++ ")"

/-- Parameters in their order, separated by commas. -/
def renderParameters (parameters : List Ident) : String :=
  ", ".intercalate (parameters.map Ident.name)

mutual

/-- The text of an expression. -/
def Expr.render : Expr → String
  | .missing => "None"
  | .unknown label token => renderUnknown label token
  | .identifier ident => ident.name
  | .integer token _ | .boolean token _ | .text token _ => token.literal
  | .unary _ operator operand => "(" ++ operator ++ operand.render ++ ")"
  | .binary _ left operator right =>
    "(" ++ left.render ++ " " ++ operator ++ " " ++ right.render ++ ")"
  | .function token parameters body =>
    token.literal ++ "(" ++ renderParameters parameters ++ ") " ++ body.render
  | .call _ callee arguments =>
    callee.render ++ "(" ++ ", ".intercalate (Expr.renderList arguments) ++ ")"
  | .array _ elements => "[" ++ ", ".intercalate (Expr.renderList elements) ++ "]"
  | .index _ collection position => "(" ++ collection.render ++ "[" ++ position.render ++ "])"
  | .hash _ pairs => "\x7b" ++ ", ".intercalate (Expr.renderPairs pairs) ++ "\x7d"

/-- The texts of expressions. -/
def Expr.renderList : List Expr → List String
  | [] => []
  | e :: es => e.render :: Expr.renderList es

/-- The texts of the pairs of a hash literal. -/
def Expr.renderPairs : List (Expr × Expr) → List String
  | [] => []
  | (key, value) :: pairs => (key.render ++ ":" ++ value.render) :: Expr.renderPairs pairs

/-- The text of a statement. -/
def Stmt.render : Stmt → String
  | .unknown label token => renderUnknown label token
  | .declaration token ident value =>
    token.literal ++ " " ++ ident.name ++ " = " ++
      (if value.isMissing then "" else value.render) ++ ";"
  | .ret token value =>
    if value.isMissing then token.literal ++ ";" else token.literal ++ " " ++ value.render ++ ";"
  | .expression _ value => if value.isMissing then "" else value.render
  | .block body => body.render
  | .ifThen _ condition consequence => "if" ++ condition.render ++ " " ++ consequence.render
  | .ifElse _ condition consequence alternative =>
    "if" ++ condition.render ++ " " ++ consequence.render ++ "else " ++ alternative.render

/-- The texts of statements, one after the other. -/
def Stmt.renderAll : List Stmt → String
  | [] => ""
  | s :: ss => s.render ++ Stmt.renderAll ss

/-- The text of a block: the texts of its statements. -/
def Block.render : Block → String
  | ⟨_, statements⟩ => Stmt.renderAll statements

end

/-- The text of a program: the texts of its statements. -/
def Program.render (program : Program) : String := Stmt.renderAll program.statements

end MonkeyLang
