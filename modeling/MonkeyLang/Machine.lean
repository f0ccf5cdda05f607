import MonkeyLang.Value

/-!
# The machine

The state of evaluation: the scopes made so far, a supply of identities, and the text printed so
far. A scope holds the names declared in one block and points to the scope around it; scopes are
only ever added.

`Eval` is a computation on the machine that may exceed the limit on nested calls; what it did up to
then stays done.
-/

namespace MonkeyLang

/-- A scope: the names bound in it, and the scope around it. -/
structure Scope where
  bindings : Dict String Value
  outer : Option ScopeId

/-- The state of evaluation. -/
structure Machine where
  scopes : Array Scope
  /-- the next identity to be given out -/
  supply : ObjectId
  /-- what has been printed -/
  output : String

namespace Machine

/-- A machine on which nothing has run. -/
def initial : Machine := ⟨#[], 0, ""⟩

@[simp] theorem output_initial : initial.output = "" := rfl

/-- The scopes from one outwards, innermost first. Every scope points to an earlier one, which is
why the chain ends. -/
def chain (machine : Machine) (id : ScopeId) : List Scope :=
  match machine.scopes[id]? with
  | none => []
  | some scope =>
    match scope.outer with
    | none => [scope]
    | some outer => if outer < id then scope :: machine.chain outer else [scope]
termination_by id

/-- The value a name has in a scope or in the scopes around it, the innermost first. -/
def lookup (machine : Machine) (id : ScopeId) (name : String) : Option Value :=
  (machine.chain id).findSome? fun scope => scope.bindings.find? name

/-- The value a name has in a scope itself. -/
def lookupLocal (machine : Machine) (id : ScopeId) (name : String) : Option Value :=
  machine.scopes[id]?.bind fun scope => scope.bindings.find? name

/-- Binds a name in a scope. -/
def declare (machine : Machine) (id : ScopeId) (name : String) (value : Value) : Machine :=
  { machine with
    scopes := machine.scopes.modify id fun scope =>
      { scope with bindings := scope.bindings.insert name value } }

/-- Adds a text to the output. -/
def write (machine : Machine) (text : String) : Machine :=
  { machine with output := machine.output ++ text }

end Machine

/-- Evaluation stopped because calls were nested beyond the limit. -/
inductive Overflow where
  | callDepth

/-- A computation on the machine. -/
abbrev Eval := EStateM Overflow Machine

namespace Eval

/-- An identity that no value has yet. -/
def fresh : Eval ObjectId := modifyGet fun m => (m.supply, { m with supply := m.supply + 1 })

/-- A new scope without bindings. -/
def newScope (outer : Option ScopeId) : Eval ScopeId :=
  modifyGet fun m => (m.scopes.size, { m with scopes := m.scopes.push ⟨[], outer⟩ })

/-- Binds a name in a scope. -/
def declare (scope : ScopeId) (name : String) (value : Value) : Eval Unit :=
  modify fun m => m.declare scope name value

/-- Prints a text. -/
def print (text : String) : Eval Unit := modify fun m => m.write text

/-- A new error. -/
def raise (fault : Fault) : Eval Value := return .error (← fresh) fault

/-- A new return. -/
def newReturn (value : Value) : Eval Value := return .ret (← fresh) value

/-- A new array. -/
def newArray (elements : List Value) : Eval Value := return .array (← fresh) elements

/-- A new hash. -/
def newHash (entries : List (HashKey × Value × Value)) : Eval Value :=
  return .hash (← fresh) entries

/-- The result of an operation, a fault as a new error. -/
def ofResult : Except Fault Value → Eval Value
  | .ok value => return value
  | .error fault => raise fault

end Eval

end MonkeyLang
