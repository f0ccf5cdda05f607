import MonkeyLang.Proofs.Evaluation.Calls

/-!
# Evaluation as plans

A `Job` is something that evaluation is asked for: the value of an expression or of a statement, a
call, the body of a function, a program. Its `Plan` tells how it is done: which other jobs are given
out, in which order and for which values of the jobs before, and which steps are taken on the machine
in between. A plan knows nothing of the limit on nested calls. It only marks the jobs that are nested
one call deeper.

* `Job.plan` has one clause for each rule of evaluation.
* `Job.run_eq` says that the plans leave nothing out: to carry out its plan is to do the job.
* `Event` is a job on its machine; `Event.Reaches` relates it to all jobs that come up while it is
  done.
-/

namespace MonkeyLang

/-- What evaluation can be asked for. -/
inductive Job where
  | expression (scope : ScopeId) (e : Expr)
  | statement (scope : ScopeId) (st : Stmt)
  | call (function : Value) (arguments : List Value)
  /-- the body of a function that is called with these arguments -/
  | body (outer : ScopeId) (parameters : List Ident) (body : Block) (arguments : List Value)
  | program (scope : ScopeId) (program : Program)

/-- Does a job, when `depth` further calls may be nested. -/
def Job.run (table : ObjectId) (depth : Nat) : Job → Eval Value
  | expression scope e => e.eval (.ofTable table depth) scope
  | statement scope st => st.eval (.ofTable table depth) scope
  | call function arguments => applyValue table depth function arguments
  | body outer parameters b arguments => do
    let scope ← Eval.newScope (some outer)
    bindParameters scope parameters arguments
    (← Stmt.evalSequence (.ofTable table depth) scope .null b.statements).result
  | program scope p => p.eval (.ofTable table depth) scope

/-- What is done on the way to a result. -/
inductive Plan (α : Type) where
  | done (result : α)
  /-- to give out a job -/
  | perform (job : Job) (next : Value → Plan α)
  /-- to give out a job that is nested one call deeper -/
  | nest (job : Job) (next : Value → Plan α)
  | fresh (next : ObjectId → Plan α)
  | print (text : String) (next : Plan α)
  /-- to open a scope in which the parameters are bound -/
  | enter (outer : ScopeId) (parameters : List Ident) (arguments : List Value)
      (next : ScopeId → Plan α)
  | declare (scope : ScopeId) (name : String) (value : Value) (next : Plan α)
  /-- to look at the machine -/
  | look (next : Machine → Plan α)

namespace Plan

variable {α β : Type}

/-- One plan after another. -/
def bind : Plan α → (α → Plan β) → Plan β
  | done result, f => f result
  | perform job next, f => perform job fun value => (next value).bind f
  | nest job next, f => nest job fun value => (next value).bind f
  | fresh next, f => fresh fun id => (next id).bind f
  | print text next, f => print text (next.bind f)
  | enter outer parameters arguments next, f =>
    enter outer parameters arguments fun scope => (next scope).bind f
  | declare scope name value next, f => declare scope name value (next.bind f)
  | look next, f => look fun machine => (next machine).bind f

instance : Monad Plan where
  pure := done
  bind := bind

/-- Carries out a plan, when `depth` further calls may be nested. -/
def run (table : ObjectId) (depth : Nat) : Plan α → Eval α
  | done result => return result
  | perform job next => do (next (← job.run table depth)).run table depth
  | nest job next =>
    match depth with
    | 0 => throw .callDepth
    | inner + 1 => do (next (← job.run table inner)).run table depth
  | fresh next => do (next (← Eval.fresh)).run table depth
  | print text next => do
    Eval.print text
    next.run table depth
  | enter outer parameters arguments next => do
    let scope ← Eval.newScope (some outer)
    bindParameters scope parameters arguments
    (next scope).run table depth
  | declare scope name value next => do
    Eval.declare scope name value
    next.run table depth
  | look next => do (next (← get)).run table depth

/-! ### Parts of plans -/

/-- The plan to do a job. -/
def job (job : Job) : Plan Value := perform job done

/-- The plan to take an identity. -/
def newId : Plan ObjectId := fresh done

/-- The plan to open a scope. -/
def newScope (outer : ScopeId) : Plan ScopeId := enter outer [] [] done

/-- The machine as it is. -/
def machine : Plan Machine := look done

/-- A new error. -/
def raise (fault : Fault) : Plan Value := return .error (← newId) fault

/-- The result of an operation, a fault as a new error. -/
def ofResult : Except Fault Value → Plan Value
  | .ok value => return value
  | .error fault => raise fault

/-- The value of a name. -/
def name (table : ObjectId) (scope : ScopeId) (name : String) : Plan Value := do
  match (← machine).lookup scope name with
  | some value => return value
  | none =>
    match Builtin.ofName? name with
    | some builtin => return .builtin table builtin
    | none => raise (.unknownIdentifier name)

/-- The values of expressions, or the first error among them. -/
def row (scope : ScopeId) : List Expr → Plan (Except Value (List Value))
  | [] => return .ok []
  | e :: es => do
    let value ← job (.expression scope e)
    if value.isError then return .error value
    else
      match ← row scope es with
      | .error error => return .error error
      | .ok values => return .ok (value :: values)

/-- The entries of a hash literal behind those already made, or the first error. -/
def pairs (scope : ScopeId) (entries : List (HashKey × Value × Value)) :
    List (Expr × Expr) → Plan (Except Value (List (HashKey × Value × Value)))
  | [] => return .ok entries
  | (keyExpr, valueExpr) :: ps => do
    let key ← job (.expression scope keyExpr)
    if key.isError then return .error key
    else
      match key.hashKey? with
      | none => return .error (← raise (.unhashableKey key.type))
      | some hashKey =>
        let value ← job (.expression scope valueExpr)
        if value.isError then return .error value
        else pairs scope (Dict.insert entries hashKey (key, value)) ps

/-- Statements in a scope. `last` is the value of the statement before them. -/
def sequence (scope : ScopeId) (last : Value) : List Stmt → Plan Sequel
  | [] => return .finished last
  | st :: sts => do
    let value ← job (.statement scope st)
    if value.isExit then return .exit value else sequence scope value sts

/-- The value of a block. -/
def block (outer : ScopeId) (b : Block) : Plan Value := do
  let scope ← newScope outer
  return (← sequence scope .null b.statements).value

/-- What follows a condition. -/
def choose (condition : Value) (yes no : Plan Value) : Plan Value :=
  match condition with
  | .boolean true => yes
  | .boolean false => no
  | value => if value.isError then return value else raise (.conditionNotBoolean value.type)

/-! ### The plans of jobs -/

/-- How the value of an expression is found. -/
def expression (table : ObjectId) (scope : ScopeId) : Expr → Plan Value
  | .missing => raise .incompleteProgram
  | .unknown label _ => raise (.unknownNode label)
  | .identifier ident => name table scope ident.name
  | .integer _ n => return .integer n
  | .boolean _ b => return .boolean b
  | .text _ s => return .text s
  | .unary _ operator operand => do
    let value ← job (.expression scope operand)
    if value.isError then return value else ofResult (value.unary operator)
  | .binary _ left operator right => do
    let a ← job (.expression scope left)
    if a.isError then return a
    else
      let b ← job (.expression scope right)
      if b.isError then return b else ofResult (Value.binary operator a b)
  | .function _ parameters body => return .function (← newId) parameters body scope
  | .call _ callee arguments => do
    let function ← job (.expression scope callee)
    if function.isError then return function
    else
      match ← row scope arguments with
      | .error error => return error
      | .ok values => job (.call function values)
  | .array _ elements => do
    match ← row scope elements with
    | .error error => return error
    | .ok values => return .array (← newId) values
  | .index _ collection position => do
    let c ← job (.expression scope collection)
    if c.isError then return c
    else
      let p ← job (.expression scope position)
      if p.isError then return p else ofResult (c.index p)
  | .hash _ ps => do
    match ← pairs scope [] ps with
    | .error error => return error
    | .ok entries => return .hash (← newId) entries

/-- How the value of a statement is found. -/
def statement (scope : ScopeId) : Stmt → Plan Value
  | .unknown label _ => raise (.unknownNode label)
  | .declaration keyword ident valueExpr => do
    match (← machine).lookupLocal scope ident.name with
    | some _ => raise (.redeclared (isConstant keyword) ident.name)
    | none =>
      let value ← job (.expression scope valueExpr)
      if value.isError then return value else declare scope ident.name value (done value)
  | .ret _ .missing => return .ret (← newId) .void
  | .ret _ valueExpr => do
    let value ← job (.expression scope valueExpr)
    if value.isError then return value else return .ret (← newId) value
  | .expression _ value => job (.expression scope value)
  | .block body => block scope body
  | .ifThen _ condition consequence => do
    let value ← job (.expression scope condition)
    choose value (block scope consequence) (return .null)
  | .ifElse _ condition consequence alternative => do
    let value ← job (.expression scope condition)
    choose value (block scope consequence) (block scope alternative)

/-- What a built-in function does with its only argument. -/
def withOne (arguments : List Value) (f : Value → Plan Value) : Plan Value :=
  match arguments with
  | [argument] => f argument
  | _ => raise (.builtinArgumentCount arguments.length 1)

/-- What a built-in function does with the elements of an array. -/
def withArray (b : Builtin) (argument : Value) (f : List Value → Plan Value) : Plan Value :=
  match argument with
  | .array _ elements => f elements
  | _ => raise (.arrayExpected b argument.type)

/-- What a built-in function does. -/
def builtin (arguments : List Value) : Builtin → Plan Value
  | .len => withOne arguments fun
    | .text s => return .integer s.utf8ByteSize
    | .array _ elements => return .integer elements.length
    | argument => raise (.lengthUnsupported argument.type)
  | .first => withOne arguments fun argument => withArray .first argument fun elements =>
    return elements.head?.getD .null
  | .last => withOne arguments fun argument => withArray .last argument fun elements =>
    return elements.getLast?.getD .null
  | .rest => withOne arguments fun argument => withArray .rest argument fun
    | [] => return .null
    | _ :: elements => return .array (← newId) elements
  | .push =>
    match arguments with
    | [argument, value] => withArray .push argument fun elements =>
      return .array (← newId) (elements ++ [value])
    | _ => raise (.builtinArgumentCount arguments.length 2)
  | .print => print (" ".intercalate (arguments.map Value.inspect) ++ "\n") (done .void)

/-- What a call does. -/
def call (arguments : List Value) : Value → Plan Value
  | .function _ parameters body outer =>
    if arguments.length ≠ parameters.length then
      raise (.argumentCount parameters.length arguments.length)
    else nest (.body outer parameters body arguments) done
  | .builtin _ b => builtin arguments b
  | value => raise (.notAFunction value.type)

/-- What a body does that ended so. -/
def result : Sequel → Plan Value
  | .exit (.ret _ value) => return value
  | .exit value => return value
  | .finished _ => raise .missingReturn

/-- What a program does whose statements ended so. -/
def outcome : Sequel → Plan Value
  | .exit (.ret ..) => raise .returnOutsideFunction
  | sequel => return sequel.value

end Plan

/-- How a job is done. -/
def Job.plan (table : ObjectId) : Job → Plan Value
  | expression scope e => .expression table scope e
  | statement scope st => .statement scope st
  | call function arguments => .call arguments function
  | body outer parameters b arguments =>
    .enter outer parameters arguments fun scope => do
      Plan.result (← Plan.sequence scope .null b.statements)
  | program scope p => do Plan.outcome (← Plan.sequence scope .null p.statements)

/-! ### A plan does its job -/

namespace Plan

variable {α β : Type} (table : ObjectId) (depth : Nat)

@[simp] theorem run_pure (a : α) : (pure a : Plan α).run table depth = pure a := rfl

@[simp] theorem run_job (j : Job) : (job j).run table depth = j.run table depth :=
  bind_pure _

/-- Plans that follow each other are carried out one after the other. -/
@[simp] theorem run_bind (p : Plan α) (f : α → Plan β) :
    (p >>= f).run table depth = p.run table depth >>= fun a => (f a).run table depth := by
  show (p.bind f).run table depth = _
  induction p with
  | done => exact (pure_bind _ _).symm
  | perform _ _ ih | fresh _ ih | look _ ih => simp only [bind, run, bind_assoc, ih]
  | print _ _ ih | declare _ _ _ _ ih => simp only [bind, run, bind_assoc, ih]
  | enter _ _ _ _ ih => simp only [bind, run, bind_assoc, ih]
  | nest _ _ ih =>
    cases depth with
    | zero => rfl
    | succ => simp only [bind, run, bind_assoc, ih]

@[simp] theorem run_newId : newId.run table depth = Eval.fresh := rfl

@[simp] theorem run_newScope (outer : ScopeId) :
    (newScope outer).run table depth = Eval.newScope (some outer) := rfl

@[simp] theorem run_machine : machine.run table depth = get := rfl

@[simp] theorem run_raise (fault : Fault) : (raise fault).run table depth = Eval.raise fault := rfl

@[simp] theorem run_ofResult (r : Except Fault Value) :
    (ofResult r).run table depth = Eval.ofResult r := by
  cases r <;> rfl

@[simp] theorem run_ite {c : Prop} [Decidable c] (p q : Plan α) :
    (if c then p else q).run table depth = if c then p.run table depth else q.run table depth :=
  apply_ite (run table depth) c p q

/-- A scope is opened and the parameters are bound in it. -/
theorem run_enter (outer : ScopeId) (parameters : List Ident) (arguments : List Value)
    (next : ScopeId → Plan α) (m : Machine) :
    ((enter outer parameters arguments next).run table depth).run m =
      ((next m.scopes.size).run table depth).run
        (Machine.bindParameters { m with scopes := m.scopes.push ⟨[], some outer⟩ } m.scopes.size
          parameters arguments) := by
  have hbound := run_bindParameters m.scopes.size parameters arguments
    { m with scopes := m.scopes.push ⟨[], some outer⟩ }
  exact run_bind_of_ok (f := fun _ => (next m.scopes.size).run table depth) hbound

/-- The values of expressions are found one after the other. -/
theorem run_row (scope : ScopeId) (es : List Expr) :
    (row scope es).run table depth = Expr.evalList (.ofTable table depth) scope es := by
  induction es with
  | nil => rw [row, Expr.evalList, run_pure]
  | cons e es ih =>
    rw [row, Expr.evalList, run_bind, run_job]
    refine bind_congr fun value => ?_
    rw [run_ite, run_bind, ih]
    refine ite_congr rfl (fun _ => rfl) fun _ => bind_congr fun r => ?_
    cases r <;> rfl

theorem run_pairs (scope : ScopeId) (ps : List (Expr × Expr))
    (entries : List (HashKey × Value × Value)) :
    (pairs scope entries ps).run table depth =
      Expr.evalPairs (.ofTable table depth) scope entries ps := by
  induction ps generalizing entries with
  | nil => rw [pairs, Expr.evalPairs, run_pure]
  | cons p ps ih =>
    obtain ⟨keyExpr, valueExpr⟩ := p
    rw [pairs, Expr.evalPairs, run_bind, run_job]
    refine bind_congr fun key => ?_
    rw [run_ite]
    refine ite_congr rfl (fun _ => rfl) fun _ => ?_
    cases key.hashKey? with
    | none => rfl
    | some hashKey =>
      rw [run_bind, run_job]
      refine bind_congr fun value => ?_
      rw [run_ite, ih]
      rfl

theorem run_sequence (scope : ScopeId) (sts : List Stmt) (last : Value) :
    (sequence scope last sts).run table depth =
      Stmt.evalSequence (.ofTable table depth) scope last sts := by
  induction sts generalizing last with
  | nil => rw [sequence, Stmt.evalSequence, run_pure]
  | cons st sts ih =>
    rw [sequence, Stmt.evalSequence, run_bind, run_job]
    refine bind_congr fun value => ?_
    rw [run_ite, ih]
    rfl

theorem run_block (outer : ScopeId) (b : Block) :
    (block outer b).run table depth = b.eval (.ofTable table depth) outer := by
  obtain ⟨token, sts⟩ := b
  rw [block, Block.eval, run_bind, run_newScope]
  refine bind_congr fun scope => ?_
  rw [run_bind, run_sequence]
  rfl

theorem run_name (scope : ScopeId) (n : String) :
    (name table scope n).run table depth = evalName (.ofTable table depth) scope n := by
  unfold name evalName
  rw [run_bind, run_machine]
  refine bind_congr fun m => ?_
  cases m.lookup scope n with
  | some value => rfl
  | none => cases Builtin.ofName? n <;> rfl

theorem run_choose (condition : Value) (yes no : Plan Value) :
    (choose condition yes no).run table depth =
      match condition with
      | .boolean true => yes.run table depth
      | .boolean false => no.run table depth
      | value =>
        if value.isError then return value else Eval.raise (.conditionNotBoolean value.type) := by
  cases condition with
  | boolean b => cases b <;> rfl
  | _ => rfl

/-- What each expression does is what its plan says. -/
theorem run_expression (scope : ScopeId) (e : Expr) :
    (expression table scope e).run table depth = e.eval (.ofTable table depth) scope := by
  cases e with
  | missing => rw [expression, Expr.eval, run_raise]
  | unknown => rw [expression, Expr.eval, run_raise]
  | identifier => rw [expression, Expr.eval, run_name]
  | integer | boolean | text => rw [expression, Expr.eval, run_pure]
  | unary _ operator operand =>
    rw [expression, Expr.eval, run_bind, run_job]
    refine bind_congr fun value => ?_
    rw [run_ite, run_ofResult]
    rfl
  | binary _ left operator right =>
    rw [expression, Expr.eval, run_bind, run_job]
    refine bind_congr fun a => ?_
    rw [run_ite, run_bind, run_job]
    refine ite_congr rfl (fun _ => rfl) fun _ => bind_congr fun b => ?_
    rw [run_ite, run_ofResult]
    rfl
  | function => rw [expression, Expr.eval, run_bind, run_newId]; rfl
  | call _ callee arguments =>
    rw [expression, Expr.eval, run_bind, run_job]
    refine bind_congr fun function => ?_
    rw [run_ite, run_bind, run_row]
    refine ite_congr rfl (fun _ => rfl) fun _ => bind_congr fun r => ?_
    cases r with
    | error error => rfl
    | ok values => exact run_job table depth _
  | array _ elements =>
    rw [expression, Expr.eval, run_bind, run_row]
    refine bind_congr fun r => ?_
    cases r <;> rfl
  | index _ collection position =>
    rw [expression, Expr.eval, run_bind, run_job]
    refine bind_congr fun c => ?_
    rw [run_ite, run_bind, run_job]
    refine ite_congr rfl (fun _ => rfl) fun _ => bind_congr fun p => ?_
    rw [run_ite, run_ofResult]
    rfl
  | hash _ ps =>
    rw [expression, Expr.eval, run_bind, run_pairs]
    refine bind_congr fun r => ?_
    cases r <;> rfl

theorem run_statement (scope : ScopeId) (st : Stmt) :
    (statement scope st).run table depth = st.eval (.ofTable table depth) scope := by
  cases st with
  | unknown => rw [statement, Stmt.eval, run_raise]
  | declaration keyword ident valueExpr =>
    rw [statement, Stmt.eval, run_bind, run_machine]
    refine bind_congr fun m => ?_
    cases m.lookupLocal scope ident.name with
    | some value => rfl
    | none =>
      rw [run_bind, run_job]
      refine bind_congr fun value => ?_
      rw [run_ite]
      rfl
  | ret _ valueExpr =>
    by_cases hmissing : valueExpr = .missing
    · subst hmissing
      rw [statement, Stmt.eval, run_bind, run_newId]
      rfl
    · rw [statement, Stmt.eval, run_bind, run_job]
      · refine bind_congr fun value => ?_
        rw [run_ite]
        rfl
      · exact hmissing
      · exact hmissing
  | expression => rw [statement, Stmt.eval, run_job]; rfl
  | block b => rw [statement, Stmt.eval, run_block]
  | ifThen _ condition consequence =>
    rw [statement, Stmt.eval, run_bind, run_job]
    refine bind_congr fun value => ?_
    rw [← run_block table depth scope consequence]
    exact run_choose table depth value _ _
  | ifElse _ condition consequence alternative =>
    rw [statement, Stmt.eval, run_bind, run_job]
    refine bind_congr fun value => ?_
    rw [← run_block table depth scope consequence,
      ← run_block table depth scope alternative]
    exact run_choose table depth value _ _

section Calls

variable (arguments : List Value)

theorem run_withOne {f : Value → Plan Value} {g : Value → Eval Value}
    (h : ∀ v, (f v).run table depth = g v) :
    (withOne arguments f).run table depth = Builtin.withOne arguments g := by
  match arguments with
  | [v] => exact h v
  | [] | _ :: _ :: _ => rfl

theorem run_withArray (b : Builtin) (argument : Value) {f : List Value → Plan Value}
    {g : List Value → Eval Value} (h : ∀ vs, (f vs).run table depth = g vs) :
    (withArray b argument f).run table depth = Builtin.withArray b argument g := by
  cases argument with
  | array id elements => exact h elements
  | _ => rfl

theorem run_builtin (b : Builtin) : (builtin arguments b).run table depth = b.apply arguments := by
  cases b with
  | len =>
    refine run_withOne table depth arguments fun v => ?_
    cases v <;> rfl
  | first | last =>
    exact run_withOne table depth arguments fun v =>
      run_withArray table depth _ v fun vs => rfl
  | rest =>
    refine run_withOne table depth arguments fun v =>
      run_withArray table depth _ v fun vs => ?_
    cases vs <;> rfl
  | push =>
    match arguments with
    | [v, u] => exact run_withArray table depth _ v fun vs => rfl
    | [] | [_] | _ :: _ :: _ :: _ => rfl
  | print => rfl

/-- A call of a function gives out its body, nested one call deeper. -/
theorem run_call (function : Value) :
    (call arguments function).run table depth = applyValue table depth function arguments := by
  cases function with
  | function id parameters b outer =>
    by_cases hlength : arguments.length = parameters.length
    · rw [call, if_neg (not_not_intro hlength)]
      cases depth with
      | zero => rw [applyValue_zero table arguments hlength]; rfl
      | succ d => rw [applyValue_succ table d arguments hlength]; exact bind_pure _
    · rw [call, if_pos hlength, applyValue_of_length_ne table depth arguments hlength, run_raise]
  | builtin t b => rw [call, run_builtin, applyValue_builtin]
  | integer | boolean | text | null | void | ret | error | array | hash =>
    rw [applyValue_of_not_callable table depth arguments (by simp [Value.type])
      (by simp [Value.type])]
    rfl

end Calls

theorem run_result (r : Sequel) : (result r).run table depth = r.result := by
  cases r with
  | exit value => cases value <;> rfl
  | finished last => rfl

end Plan

/-- To carry out the plan of a job is to do the job. -/
theorem Job.run_eq (table : ObjectId) (depth : Nat) (j : Job) :
    j.run table depth = (j.plan table).run table depth := by
  cases j with
  | expression scope e => exact (Plan.run_expression table depth scope e).symm
  | statement scope st => exact (Plan.run_statement table depth scope st).symm
  | call function arguments => exact (Plan.run_call table depth arguments function).symm
  | body outer parameters b arguments =>
    show _ = Plan.run table depth (.enter outer parameters arguments _)
    rw [Job.run, Plan.run]
    refine bind_congr fun scope => bind_congr fun _ => ?_
    rw [Plan.run_bind, Plan.run_sequence]
    exact bind_congr fun r => (Plan.run_result table depth r).symm
  | program scope p =>
    show Program.eval _ scope p = Plan.run table depth (_ >>= Plan.outcome)
    unfold Program.eval
    rw [Plan.run_bind, Plan.run_sequence]
    refine bind_congr fun r => ?_
    cases r with
    | exit value => cases value <;> rfl
    | finished last => rfl

/-! ### What comes up while a job is done -/

/-- A job at the moment at which it is given out: how many further calls may be nested, and the
machine. -/
structure Event where
  depth : Nat
  job : Job
  machine : Machine

/-- The jobs that a plan gives out when it is carried out on the machine, in their order. -/
def Plan.begun {α : Type} (table : ObjectId) (depth : Nat) : Plan α → Machine → List Event
  | done _, _ => []
  | perform job next, m =>
    ⟨depth, job, m⟩ :: match (job.run table depth).run m with
      | .ok value m' => (next value).begun table depth m'
      | .error .. => []
  | nest job next, m =>
    match depth with
    | 0 => []
    | inner + 1 => ⟨inner, job, m⟩ :: match (job.run table inner).run m with
      | .ok value m' => (next value).begun table depth m'
      | .error .. => []
  | fresh next, m => (next m.supply).begun table depth { m with supply := m.supply + 1 }
  | print text next, m => next.begun table depth { m with output := m.output ++ text }
  | enter outer parameters arguments next, m =>
    (next m.scopes.size).begun table depth
      (Machine.bindParameters { m with scopes := m.scopes.push ⟨[], some outer⟩ } m.scopes.size
        parameters arguments)
  | declare scope name value next, m => next.begun table depth (m.declare scope name value)
  | look next, m => (next m).begun table depth m

namespace Event

/-- How the job ends. -/
def result (table : ObjectId) (event : Event) : EStateM.Result Overflow Machine Value :=
  (event.job.run table event.depth).run event.machine

/-- The jobs that are given out to do the job of an event. -/
def begun (table : ObjectId) (event : Event) : List Event :=
  (event.job.plan table).begun table event.depth event.machine

/-- All jobs that come up while the job of an event is done, and this job itself. -/
inductive Reaches (table : ObjectId) : Event → Event → Prop
  | refl {event : Event} : Reaches table event event
  | step {event event' event'' : Event} : event' ∈ event.begun table →
      Reaches table event' event'' → Reaches table event event''

end Event

end MonkeyLang
