import MonkeyLang.Evaluation

/-!
# Evaluation with exceptions

A second evaluator, in which errors and returns are not values. An expression yields a value or
throws an error; a statement yields a value or exits, with an error or with the value of a return.
Every rule is a sequence of its parts from left to right, and nothing but a call and the top level
catches anything: a call catches the returns of its own body, and at top level a return that is left
over becomes an error.

* `Throwing.expression`, `Throwing.statement` and `Throwing.block` follow the tree.
* `Throwing.apply` calls a function, and recurs on the number of calls that may still be nested.
* `Throwing.program` runs a program at top level.
-/

namespace MonkeyLang

/-- An error that has been thrown. -/
structure Thrown where
  id : ObjectId
  fault : Fault

/-- Why a statement ends early. -/
inductive Exit where
  | thrown (error : Thrown)
  | returned (id : ObjectId) (value : Value)

namespace Throwing

/-- A computation that may throw an error. -/
abbrev Raising := ExceptT Thrown Eval

/-- A computation that may exit. -/
abbrev Exiting := ExceptT Exit Eval

/-- What evaluation needs to know beside the scope. -/
structure Context where
  table : ObjectId
  call : Value → List Value → Raising Value

/-- Throws a new error. -/
def fail {α : Type} (fault : Fault) : Raising α := do
  let id ← Eval.fresh
  throw ⟨id, fault⟩

/-- The result of an operation; a fault is thrown. -/
def ofResult : Except Fault Value → Raising Value
  | .ok value => return value
  | .error fault => fail fault

/-- An expression as a part of a statement. -/
def part {α : Type} (x : Raising α) : Exiting α := ExceptT.adapt .thrown x

/-- The value of a name. -/
def name (ctx : Context) (scope : ScopeId) (name : String) : Raising Value := do
  let machine ← (get : Eval Machine)
  match machine.lookup scope name with
  | some value => return value
  | none =>
    match Builtin.ofName? name with
    | some builtin => return .builtin ctx.table builtin
    | none => fail (.unknownIdentifier name)

/-- The hash key of a value. -/
def hashKey (key : Value) : Raising HashKey :=
  match key.hashKey? with
  | some hashKey => return hashKey
  | none => fail (.unhashableKey key.type)

/-- The truth value of a condition. -/
def truth : Value → Raising Bool
  | .boolean b => return b
  | value => fail (.conditionNotBoolean value.type)

mutual

/-- The value of an expression. -/
def expression (ctx : Context) (scope : ScopeId) : Expr → Raising Value
  | .missing => fail .incompleteProgram
  | .unknown label _ => fail (.unknownNode label)
  | .identifier ident => name ctx scope ident.name
  | .integer _ n => return .integer n
  | .boolean _ b => return .boolean b
  | .text _ s => return .text s
  | .unary _ operator operand => do
    let value ← expression ctx scope operand
    ofResult (value.unary operator)
  | .binary _ left operator right => do
    let a ← expression ctx scope left
    let b ← expression ctx scope right
    ofResult (Value.binary operator a b)
  | .function _ parameters body => do
    let id ← Eval.fresh
    return .function id parameters body scope
  | .call _ callee arguments => do
    let function ← expression ctx scope callee
    let values ← list ctx scope arguments
    ctx.call function values
  | .array _ elements => do
    let values ← list ctx scope elements
    Eval.newArray values
  | .index _ collection position => do
    let c ← expression ctx scope collection
    let p ← expression ctx scope position
    ofResult (c.index p)
  | .hash _ ps => do
    let entries ← pairs ctx scope [] ps
    Eval.newHash entries

/-- The values of expressions. -/
def list (ctx : Context) (scope : ScopeId) : List Expr → Raising (List Value)
  | [] => return []
  | e :: es => do
    let value ← expression ctx scope e
    let values ← list ctx scope es
    return value :: values

/-- The entries of a hash literal behind those already made. -/
def pairs (ctx : Context) (scope : ScopeId) (entries : List (HashKey × Value × Value)) :
    List (Expr × Expr) → Raising (List (HashKey × Value × Value))
  | [] => return entries
  | (keyExpr, valueExpr) :: ps => do
    let key ← expression ctx scope keyExpr
    let word ← hashKey key
    let value ← expression ctx scope valueExpr
    pairs ctx scope (Dict.insert entries word (key, value)) ps

/-- The value of a statement. -/
def statement (ctx : Context) (scope : ScopeId) : Stmt → Exiting Value
  | .unknown label _ => part (fail (.unknownNode label))
  | .declaration keyword ident valueExpr => do
    let machine ← (get : Eval Machine)
    match machine.lookupLocal scope ident.name with
    | some _ => part (fail (.redeclared (isConstant keyword) ident.name))
    | none =>
      let value ← part (expression ctx scope valueExpr)
      Eval.declare scope ident.name value
      return value
  | .ret _ .missing => do
    let id ← Eval.fresh
    throw (.returned id .void)
  | .ret _ valueExpr => do
    let value ← part (expression ctx scope valueExpr)
    let id ← Eval.fresh
    throw (.returned id value)
  | .expression _ value => part (expression ctx scope value)
  | .block body => block ctx scope body
  | .ifThen _ condition consequence => do
    let value ← part (expression ctx scope condition)
    let holds ← part (truth value)
    if holds then block ctx scope consequence else return .null
  | .ifElse _ condition consequence alternative => do
    let value ← part (expression ctx scope condition)
    let holds ← part (truth value)
    if holds then block ctx scope consequence else block ctx scope alternative

/-- The value of the last of some statements. `last` is the value of the one before them. -/
def sequence (ctx : Context) (scope : ScopeId) (last : Value) : List Stmt → Exiting Value
  | [] => return last
  | s :: ss => do
    let value ← statement ctx scope s
    sequence ctx scope value ss

/-- The value of a block, which has a scope of its own inside `outer`. -/
def block (ctx : Context) (outer : ScopeId) : Block → Exiting Value
  | ⟨_, statements⟩ => do
    let scope ← Eval.newScope (some outer)
    sequence ctx scope .null statements

end

/-! ### Calls -/

/-- The only argument of a built-in function. -/
def only : List Value → Raising Value
  | [argument] => return argument
  | arguments => fail (.builtinArgumentCount arguments.length 1)

/-- The elements of an array. -/
def elements (builtin : Builtin) : Value → Raising (List Value)
  | .array _ elements => return elements
  | argument => fail (.arrayExpected builtin argument.type)

/-- Calls a built-in function. -/
def builtin (arguments : List Value) : Builtin → Raising Value
  | .len => do
    match ← only arguments with
    | .text s => return .integer s.utf8ByteSize
    | .array _ elements => return .integer elements.length
    | argument => fail (.lengthUnsupported argument.type)
  | .first => do
    let argument ← only arguments
    let elements ← elements .first argument
    return elements.head?.getD .null
  | .last => do
    let argument ← only arguments
    let elements ← elements .last argument
    return elements.getLast?.getD .null
  | .rest => do
    let argument ← only arguments
    match ← elements .rest argument with
    | [] => return .null
    | _ :: elements => Eval.newArray elements
  | .push =>
    match arguments with
    | [argument, value] => do
      let elements ← elements .push argument
      Eval.newArray (elements ++ [value])
    | _ => fail (.builtinArgumentCount arguments.length 2)
  | .print => do
    Eval.print (" ".intercalate (arguments.map Value.inspect) ++ "\n")
    return .void

/-- Catches the return of a body. A body that ends without one fails. -/
def catchReturn (body : Exiting Value) : Raising Value := ExceptT.mk do
  match ← body.run with
  | .ok _ => (fail .missingReturn).run
  | .error (.returned _ value) => return .ok value
  | .error (.thrown error) => return .error error

/-- Calls a value, when `depth` further calls may be nested. -/
def apply (table : ObjectId) : (depth : Nat) → Value → List Value → Raising Value
  | depth, .function _ parameters body outer, arguments =>
    if arguments.length ≠ parameters.length then
      fail (.argumentCount parameters.length arguments.length)
    else
      match depth with
      | 0 => (throw .callDepth : Eval Value)
      | depth + 1 => do
        let scope ← Eval.newScope (some outer)
        bindParameters scope parameters arguments
        catchReturn (sequence ⟨table, apply table depth⟩ scope .null body.statements)
  | _, .builtin _ b, arguments => builtin arguments b
  | _, value, _ => fail (.notAFunction value.type)

/-- The context of a table of built-in functions, when `limit` calls may be nested. -/
def Context.ofTable (table : ObjectId) (limit : Nat) : Context := ⟨table, apply table limit⟩

/-- Runs a program in a scope. A return that nothing caught is an error. -/
def program (ctx : Context) (scope : ScopeId) (program : Program) : Raising Value := ExceptT.mk do
  match ← (sequence ctx scope .null program.statements).run with
  | .ok value => return .ok value
  | .error (.returned ..) => (fail .returnOutsideFunction).run
  | .error (.thrown error) => return .error error

end Throwing

end MonkeyLang
