import MonkeyLang.Builtin.Apply
import MonkeyLang.Value.Operation

/-!
# Evaluation

Trees are evaluated in a scope, from left to right, and every result is a value. An error among the
parts of an expression is its result; a return or an error among statements ends them.

* `Expr.eval`, `Stmt.eval` and `Block.eval` follow the tree. What a call does is left to the
  `Context`.
* `Context.apply` calls a function, and recurs on the number of calls that may still be nested.
* `Program.eval` runs a program at top level.
-/

namespace MonkeyLang

/-- What evaluation needs to know beside the scope. -/
structure Context where
  /-- the table of built-in functions in use -/
  table : ObjectId
  /-- how a value is called -/
  call : Value → List Value → Eval Value

/-- How a sequence of statements ends. -/
inductive Sequel where
  /-- at a return or an error -/
  | exit (value : Value)
  /-- after the last statement, with the value of that statement -/
  | finished (last : Value)

/-- The value of a sequence of statements, however it ends. -/
def Sequel.value : Sequel → Value
  | exit value => value
  | finished last => last

/-- The value of a name: the innermost binding, or else the built-in function of that name. -/
def evalName (ctx : Context) (scope : ScopeId) (name : String) : Eval Value := do
  match (← get).lookup scope name with
  | some value => return value
  | none =>
    match Builtin.ofName? name with
    | some builtin => return .builtin ctx.table builtin
    | none => Eval.raise (.unknownIdentifier name)

/-- A declaration makes a constant when its keyword is `const`. -/
def isConstant (keyword : Token) : Bool := keyword.literal == "const"

mutual

/-- The value of an expression. -/
def Expr.eval (ctx : Context) (scope : ScopeId) : Expr → Eval Value
  | .missing => Eval.raise .incompleteProgram
  | .unknown label _ => Eval.raise (.unknownNode label)
  | .identifier ident => evalName ctx scope ident.name
  | .integer _ n => return .integer n
  | .boolean _ b => return .boolean b
  | .text _ s => return .text s
  | .unary _ operator operand => do
    let value ← operand.eval ctx scope
    if value.isError then return value else Eval.ofResult (value.unary operator)
  | .binary _ left operator right => do
    let a ← left.eval ctx scope
    if a.isError then return a
    else
      let b ← right.eval ctx scope
      if b.isError then return b else Eval.ofResult (Value.binary operator a b)
  | .function _ parameters body => return .function (← Eval.fresh) parameters body scope
  | .call _ callee arguments => do
    let function ← callee.eval ctx scope
    if function.isError then return function
    else
      match ← Expr.evalList ctx scope arguments with
      | .error error => return error
      | .ok values => ctx.call function values
  | .array _ elements => do
    match ← Expr.evalList ctx scope elements with
    | .error error => return error
    | .ok values => Eval.newArray values
  | .index _ collection position => do
    let c ← collection.eval ctx scope
    if c.isError then return c
    else
      let p ← position.eval ctx scope
      if p.isError then return p else Eval.ofResult (c.index p)
  | .hash _ pairs => do
    match ← Expr.evalPairs ctx scope [] pairs with
    | .error error => return error
    | .ok entries => Eval.newHash entries

/-- The values of expressions, or the first error among them. -/
def Expr.evalList (ctx : Context) (scope : ScopeId) :
    List Expr → Eval (Except Value (List Value))
  | [] => return .ok []
  | e :: es => do
    let value ← e.eval ctx scope
    if value.isError then return .error value
    else
      match ← Expr.evalList ctx scope es with
      | .error error => return .error error
      | .ok values => return .ok (value :: values)

/-- The entries of a hash literal behind those already made, or the first error. A key is checked
before its value is evaluated. -/
def Expr.evalPairs (ctx : Context) (scope : ScopeId) (entries : List (HashKey × Value × Value)) :
    List (Expr × Expr) → Eval (Except Value (List (HashKey × Value × Value)))
  | [] => return .ok entries
  | (keyExpr, valueExpr) :: pairs => do
    let key ← keyExpr.eval ctx scope
    if key.isError then return .error key
    else
      match key.hashKey? with
      | none => return .error (← Eval.raise (.unhashableKey key.type))
      | some hashKey =>
        let value ← valueExpr.eval ctx scope
        if value.isError then return .error value
        else Expr.evalPairs ctx scope (Dict.insert entries hashKey (key, value)) pairs

/-- The value of a statement. -/
def Stmt.eval (ctx : Context) (scope : ScopeId) : Stmt → Eval Value
  | .unknown label _ => Eval.raise (.unknownNode label)
  | .declaration keyword ident valueExpr => do
    match (← get).lookupLocal scope ident.name with
    | some _ => Eval.raise (.redeclared (isConstant keyword) ident.name)
    | none =>
      let value ← valueExpr.eval ctx scope
      if value.isError then return value
      else
        Eval.declare scope ident.name value
        return value
  | .ret _ .missing => Eval.newReturn .void
  | .ret _ valueExpr => do
    let value ← valueExpr.eval ctx scope
    if value.isError then return value else Eval.newReturn value
  | .expression _ value => value.eval ctx scope
  | .block body => body.eval ctx scope
  | .ifThen _ condition consequence => do
    match ← condition.eval ctx scope with
    | .boolean true => consequence.eval ctx scope
    | .boolean false => return .null
    | value => if value.isError then return value else Eval.raise (.conditionNotBoolean value.type)
  | .ifElse _ condition consequence alternative => do
    match ← condition.eval ctx scope with
    | .boolean true => consequence.eval ctx scope
    | .boolean false => alternative.eval ctx scope
    | value => if value.isError then return value else Eval.raise (.conditionNotBoolean value.type)

/-- Runs statements in a scope. `last` is the value of the statement before them. -/
def Stmt.evalSequence (ctx : Context) (scope : ScopeId) (last : Value) :
    List Stmt → Eval Sequel
  | [] => return .finished last
  | s :: ss => do
    let value ← s.eval ctx scope
    if value.isExit then return .exit value else Stmt.evalSequence ctx scope value ss

/-- The value of a block, which has a scope of its own inside `outer`. -/
def Block.eval (ctx : Context) (outer : ScopeId) : Block → Eval Value
  | ⟨_, statements⟩ => do
    let scope ← Eval.newScope (some outer)
    return (← Stmt.evalSequence ctx scope .null statements).value

end

/-! ### Calls -/

/-- Binds the parameters of a function to the arguments of a call, in order. -/
def bindParameters (scope : ScopeId) : List Ident → List Value → Eval Unit
  | parameter :: parameters, argument :: arguments => do
    Eval.declare scope parameter.name argument
    bindParameters scope parameters arguments
  | _, _ => return

/-- The value of a call whose body ended so: a return gives its value, and a body must return. -/
def Sequel.result : Sequel → Eval Value
  | .exit (.ret _ value) => return value
  | .exit value => return value
  | .finished _ => Eval.raise .missingReturn

/-- Calls a value, when `depth` further calls may be nested. -/
def applyValue (table : ObjectId) : (depth : Nat) → Value → List Value → Eval Value
  | depth, .function _ parameters body outer, arguments =>
    if arguments.length ≠ parameters.length then
      Eval.raise (.argumentCount parameters.length arguments.length)
    else
      match depth with
      | 0 => throw .callDepth
      | depth + 1 => do
        let scope ← Eval.newScope (some outer)
        bindParameters scope parameters arguments
        let ctx : Context := ⟨table, applyValue table depth⟩
        (← Stmt.evalSequence ctx scope .null body.statements).result
  | _, .builtin _ builtin, arguments => builtin.apply arguments
  | _, value, _ => Eval.raise (.notAFunction value.type)

/-- How many calls may be nested. -/
def callLimit : Nat := 2000

/-- The context of a table of built-in functions, when `limit` calls may be nested. -/
def Context.ofTable (table : ObjectId) (limit : Nat) : Context := ⟨table, applyValue table limit⟩

/-- A context with a table of built-in functions of its own. -/
def Context.new (limit : Nat) : Eval Context := return .ofTable (← Eval.fresh) limit

/-! ### Programs -/

/-- Runs a program in a scope. A return must not leave the program. -/
def Program.eval (ctx : Context) (scope : ScopeId) (program : Program) : Eval Value := do
  match ← Stmt.evalSequence ctx scope .null program.statements with
  | .exit (.ret ..) => Eval.raise .returnOutsideFunction
  | sequel => return sequel.value

end MonkeyLang
