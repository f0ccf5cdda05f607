import MonkeyLang.Parsing.Precedence
import MonkeyLang.Parsing.Window

/-!
# Statements and expressions

Statements are read by recursive descent and expressions by binding strength: `expression n p`
reads an operand and then lets every following operator stronger than `p` take it as its left
operand.

A parser that fails reports a syntax error, gives no tree for its part and leaves the window where
it is; its caller goes on from there. The window stands on the last token of what was read.

Every parser takes the number of steps it may nest; `Halt.outOfSteps` says that they were too few.
-/

namespace MonkeyLang.Parsing

/-! ### Parts without nested expressions -/

/-- The largest number of digits that are read as a number. -/
def maxDigits : Nat := 4300

/-- The number that decimal digits spell. -/
def digitsValue (digits : List Char) : Nat :=
  digits.foldl (fun n c => 10 * n + (c.toNat - '0'.toNat)) 0

/-- The largest signed 64-bit integer. -/
def maxInteger : Nat := 0x7fffffffffffffff

/-- The value of an integer literal: at most `maxDigits` digits, leading zeros included, and at most
`maxInteger`. -/
def integerValue? (literal : String) : Option Int :=
  let digits := literal.toList
  if digits.length ≤ maxDigits then
    let n := digitsValue digits
    if n ≤ maxInteger then some n else none
  else none

/-- The integer literal at the current token. -/
def integerLiteral : Parser Expr := do
  let token ← current
  match integerValue? token.literal with
  | some value => return .integer token value
  | none =>
    report (.integerOutOfRange token.literal) token.line
    return .missing

/-- The parameters behind the first one, with the closing parenthesis. -/
def moreParameters : (steps : Nat) → Parser (Option (List Ident))
  | 0 => throw .outOfSteps
  | n + 1 => do
    if ← aheadIs .comma then
      advance
      if ← expect .identifier then
        let ident ← currentIdent
        return (← moreParameters n).map (ident :: ·)
      else return none
    else if ← expect .rightParen then return some []
    else return none

/-- The parameters behind an opening parenthesis, with the closing one. -/
def parameters (steps : Nat) : Parser (Option (List Ident)) := do
  if ← aheadIs .rightParen then
    advance
    return some []
  else if ← expect .identifier then
    let ident ← currentIdent
    return (← moreParameters steps).map (ident :: ·)
  else return none

/-! ### Statements around an expression -/

/-- A declaration, given the parser of its value. -/
def declaration (value : Parser Expr) : Parser (Option Stmt) := do
  let token ← current
  if ← expect .identifier then
    let ident ← currentIdent
    if ← expect .assign then
      advance
      let value ← value
      expectSemicolon
      return some (.declaration token ident value)
    else return none
  else return none

/-- A return, given the parser of its value. -/
def returnStatement (value : Parser Expr) : Parser (Option Stmt) := do
  let token ← current
  if ← aheadIs .semicolon then
    advance
    return some (.ret token .missing)
  else
    advance
    let value ← value
    expectSemicolon
    return some (.ret token value)

/-- An expression as a statement, given its parser. -/
def expressionStatement (value : Parser Expr) : Parser (Option Stmt) := do
  let token ← current
  let value ← value
  expectSemicolon
  return some (.expression token value)

/-! ### The recursive parsers -/

mutual

/-- The statement at the current token. -/
def statement : (steps : Nat) → Parser (Option Stmt)
  | 0 => throw .outOfSteps
  | n + 1 => do
    match (← current).kind with
    | .var | .const => declaration (expression n Precedence.lowest)
    | .ifWord => conditional n
    | .ret => returnStatement (expression n Precedence.lowest)
    | _ => expressionStatement (expression n Precedence.lowest)

/-- The if statement at the current token. An `else if` is an alternative block that holds only the
nested statement. -/
def conditional : (steps : Nat) → Parser (Option Stmt)
  | 0 => throw .outOfSteps
  | n + 1 => do
    let token ← current
    if ← expect .leftParen then
      advance
      let condition ← expression n Precedence.lowest
      if ← expect .rightParen then
        if ← expect .leftBrace then
          let consequence ← block n
          if ← aheadIs .elseWord then
            advance
            if ← aheadIs .ifWord then
              advance
              let nestedToken ← current
              match ← conditional n with
              | some nested =>
                return some (.ifElse token condition consequence ⟨nestedToken, [nested]⟩)
              | none => return none
            else if ← expect .leftBrace then
              let alternative ← block n
              return some (.ifElse token condition consequence alternative)
            else return none
          else return some (.ifThen token condition consequence)
        else return none
      else return none
    else return none

/-- The block at the current opening brace, up to its closing one. -/
def block : (steps : Nat) → Parser Block
  | 0 => throw .outOfSteps
  | n + 1 => do
    let token ← current
    advance
    let statements ← statements n
    return ⟨token, statements⟩

/-- The statements from the current token up to a closing brace. -/
def statements : (steps : Nat) → Parser (List Stmt)
  | 0 => throw .outOfSteps
  | n + 1 => do
    let token ← current
    if token.kind = .rightBrace then return []
    else if token.kind = .endOfInput then
      report (.unexpectedKind .endOfInput .rightBrace) token.line
      return []
    else
      let first ← statement n
      advance
      let rest ← statements n
      return first.toList ++ rest

/-- The expression at the current token, with every operator behind it stronger than
`precedence`. -/
def expression : (steps : Nat) → (precedence : Nat) → Parser Expr
  | 0, _ => throw .outOfSteps
  | n + 1, precedence => do
    match ← operand n with
    | some left => operators n precedence left
    | none =>
      let token ← current
      report (.unexpectedToken token.literal) token.line
      return .missing

/-- The operand at the current token, `none` if the token starts none. An operand that is
recognised but broken is `Expr.missing`. -/
def operand : (steps : Nat) → Parser (Option Expr)
  | 0 => throw .outOfSteps
  | n + 1 => do
    let token ← current
    match token.kind with
    | .identifier => return some (.identifier ⟨token, token.literal⟩)
    | .integer => return some (← integerLiteral)
    | .text => return some (.text token token.literal)
    | .boolean => return some (.boolean token (token.literal = "true"))
    | .bang | .minus =>
      advance
      let inner ← expression n Precedence.unary
      return some (.unary token token.literal inner)
    | .leftParen =>
      advance
      let inner ← expression n Precedence.lowest
      if ← expect .rightParen then return some inner else return some .missing
    | .leftBracket =>
      match ← expressions n .rightBracket with
      | some elements => return some (.array token elements)
      | none => return some .missing
    | .leftBrace =>
      match ← pairs n with
      | some pairs => return some (.hash token pairs)
      | none => return some .missing
    | .function => return some (← function n)
    | _ => return none

/-- The function literal at the current token. -/
def function : (steps : Nat) → Parser Expr
  | 0 => throw .outOfSteps
  | n + 1 => do
    let token ← current
    if ← expect .leftParen then
      match ← parameters n with
      | some parameters =>
        if ← expect .leftBrace then
          let body ← block n
          return .function token parameters body
        else return .missing
      | none => return .missing
    else return .missing

/-- Lets the operators ahead that are stronger than `precedence` take `left`. -/
def operators : (steps : Nat) → (precedence : Nat) → (left : Expr) → Parser Expr
  | 0, _, _ => throw .outOfSteps
  | n + 1, precedence, left => do
    let kind := (← get).ahead.kind
    if precedence < kind.precedence then
      match kind with
      | .leftParen =>
        advance
        let token ← current
        match ← expressions n .rightParen with
        | some arguments => operators n precedence (.call token left arguments)
        | none => operators n precedence .missing
      | .leftBracket =>
        advance
        let token ← current
        advance
        let position ← expression n Precedence.lowest
        if ← expect .rightBracket then operators n precedence (.index token left position)
        else operators n precedence .missing
      | kind =>
        if kind.isBinary then
          advance
          let token ← current
          advance
          let right ← expression n kind.precedence
          operators n precedence (.binary token left token.literal right)
        else return left
    else return left

/-- The expressions behind an opening bracket, separated by commas, with the closing one. -/
def expressions : (steps : Nat) → (close : Kind) → Parser (Option (List Expr))
  | 0, _ => throw .outOfSteps
  | n + 1, close => do
    if ← aheadIs close then
      advance
      return some []
    else
      advance
      let first ← expression n Precedence.lowest
      let rest ← moreExpressions n
      if ← expect close then return some (first :: rest) else return none

/-- The expressions behind the first one, each behind a comma. -/
def moreExpressions : (steps : Nat) → Parser (List Expr)
  | 0 => throw .outOfSteps
  | n + 1 => do
    if ← aheadIs .comma then
      advance
      advance
      let next ← expression n Precedence.lowest
      let rest ← moreExpressions n
      return next :: rest
    else return []

/-- The pairs of a hash literal behind its opening brace, with the closing one. A comma may stand
behind the last pair. -/
def pairs : (steps : Nat) → Parser (Option (List (Expr × Expr)))
  | 0 => throw .outOfSteps
  | n + 1 => do
    if ← aheadIs .rightBrace then
      advance
      return some []
    else
      advance
      let key ← expression n Precedence.lowest
      if ← expect .colon then
        advance
        let value ← expression n Precedence.lowest
        if ← aheadIs .rightBrace then
          advance
          return some [(key, value)]
        else if ← expect .comma then return (← pairs n).map ((key, value) :: ·)
        else return none
      else return none

end

end MonkeyLang.Parsing
