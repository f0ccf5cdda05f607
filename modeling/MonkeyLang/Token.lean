import MonkeyLang.Text.Quoted

/-!
# Tokens

A token is a piece of source text with its kind and the line it starts on.

* `Kind` lists the kinds the lexer gives out; `Kind.other` stands for a kind it never gives out,
  which only a token built by hand can carry.
* `Kind.name` is the spelling used in messages.
* `Kind.ofWord` tells keywords from identifiers.
-/

namespace MonkeyLang

/-- The kind of a token. -/
inductive Kind where
  | illegal
  | endOfInput
  | identifier
  | integer
  | text
  | boolean
  | assign
  | plus
  | minus
  | bang
  | asterisk
  | slash
  | less
  | greater
  | lessEqual
  | greaterEqual
  | equal
  | notEqual
  | comma
  | semicolon
  | colon
  | leftParen
  | rightParen
  | leftBrace
  | rightBrace
  | leftBracket
  | rightBracket
  | function
  | ret
  | var
  | const
  | ifWord
  | elseWord
  | other (name : String)
deriving DecidableEq

namespace Kind

/-- The spelling of a kind in messages: the symbol itself, or a word in capitals. -/
def name : Kind → String
  | illegal => "ILLEGAL"
  | endOfInput => "EOF"
  | identifier => "IDENT"
  | integer => "INT"
  | text => "STRING"
  | boolean => "BOOLEAN"
  | assign => "="
  | plus => "+"
  | minus => "-"
  | bang => "!"
  | asterisk => "*"
  | slash => "/"
  | less => "<"
  | greater => ">"
  | lessEqual => "<="
  | greaterEqual => ">="
  | equal => "=="
  | notEqual => "!="
  | comma => ","
  | semicolon => ";"
  | colon => ":"
  | leftParen => "("
  | rightParen => ")"
  | leftBrace => "\x7b"
  | rightBrace => "\x7d"
  | leftBracket => "["
  | rightBracket => "]"
  | function => "FUNCTION"
  | ret => "RETURN"
  | var => "VAR"
  | const => "CONST"
  | ifWord => "IF"
  | elseWord => "ELSE"
  | other name => name

/-- The kind of a word: a keyword's own kind, and `identifier` for any other word. -/
def ofWord (word : String) : Kind :=
  if word = "fun" then function
  else if word = "var" then var
  else if word = "const" then const
  else if word = "return" then ret
  else if word = "true" then boolean
  else if word = "false" then boolean
  else if word = "if" then ifWord
  else if word = "else" then elseWord
  else identifier

end Kind

/-- A token: its kind, its literal text, and the line on which it starts. -/
structure Token where
  kind : Kind
  literal : String
  line : Nat
deriving DecidableEq

namespace Token

/-- The full description of a token, with its literal quoted. -/
def describe (token : Token) : String :=
  "Token(" ++ token.kind.name ++ ", " ++ Text.quoted token.literal ++ ", " ++
    toString token.line ++ ")"

end Token

end MonkeyLang
