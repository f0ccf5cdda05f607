import Mathlib.Logic.Function.Basic
import MonkeyLang.Proofs.Evaluation.Calls
import MonkeyLang.Proofs.Evaluation.Place
import MonkeyLang.Proofs.Outcome

/-!
# Evaluation that keeps a record

`Trace` evaluates as the evaluator does and writes down, for every node it comes to, the frames
around the node in the source, the scope it is evaluated in, and the machine at that moment. The
frames are handed down the tree; the body of a function gets those of the place where its literal
was evaluated, which is remembered under the identity of the function.

`erases_program` says that the record changes nothing: without it, `Trace.program` is
`Program.eval`.
-/

namespace MonkeyLang

/-- The evaluation of a node: the frames around it, the scope, and the machine at its start. -/
structure Visit where
  frames : List Frame
  node : Node
  scope : ScopeId
  machine : Machine

/-- A machine with a record of evaluation. -/
structure Traced where
  machine : Machine
  /-- the frames that scopes were made for -/
  homes : ScopeId → List Frame
  /-- the frames around the literals that functions come from -/
  origins : ObjectId → List Frame
  /-- the nodes evaluated so far, the newest first -/
  visits : List Visit

namespace Traced

variable (t : Traced) (frames : List Frame)

/-- The evaluation of a node is put on record. -/
def visit (node : Node) (scope : ScopeId) : Traced :=
  { t with visits := ⟨frames, node, scope, t.machine⟩ :: t.visits }

/-- A scope has been added for the innermost of the frames. -/
def enter (outer : ScopeId) : Traced :=
  { t with
    machine := { t.machine with scopes := t.machine.scopes.push ⟨[], some outer⟩ }
    homes := Function.update t.homes t.machine.scopes.size frames }

theorem size_enter (outer : ScopeId) :
    t.machine.scopes.size < (t.enter frames outer).machine.scopes.size := by
  simp [enter]

/-- The identity of a function has been taken. -/
def newFunction : Traced :=
  { t with
    machine := { t.machine with supply := t.machine.supply + 1 }
    origins := Function.update t.origins t.machine.supply frames }

/-- The parameters of a function have been bound in the scope of a call. -/
def call (id : ObjectId) (parameters : List Ident) (body : Block) (outer : ScopeId)
    (arguments : List Value) : Traced :=
  let entered := t.enter (⟨parameters, body.statements⟩ :: t.origins id) outer
  { entered with
    machine := entered.machine.bindParameters t.machine.scopes.size parameters arguments }

theorem size_call (id : ObjectId) (parameters : List Ident) (body : Block) (outer : ScopeId)
    (arguments : List Value) :
    t.machine.scopes.size < (t.call id parameters body outer arguments).machine.scopes.size := by
  simp [call, enter]

end Traced

/-- A computation that keeps a record. -/
abbrev Tracing := EStateM Overflow Traced

namespace Trace

/-- The evaluator it is a record of, and how a value is called. -/
structure Context where
  plain : MonkeyLang.Context
  call : Value → List Value → Tracing Value

/-- A computation on the machine alone. -/
def act {α : Type} (x : Eval α) : Tracing α := fun t =>
  match x.run t.machine with
  | .ok a m => .ok a { t with machine := m }
  | .error overflow m => .error overflow { t with machine := m }

/-- Records the evaluation of a node. -/
def visit (frames : List Frame) (node : Node) (scope : ScopeId) : Tracing Unit :=
  modify fun t => t.visit frames node scope

/-- A new scope for the innermost of the frames. -/
def enter (frames : List Frame) (outer : ScopeId) : Tracing ScopeId :=
  modifyGet fun t => (t.machine.scopes.size, t.enter frames outer)

/-- A new function. -/
def newFunction (frames : List Frame) (parameters : List Ident) (body : Block) (scope : ScopeId) :
    Tracing Value :=
  modifyGet fun t => (.function t.machine.supply parameters body scope, t.newFunction frames)

/-- The value of an expression without parts. -/
def leaf (ctx : Context) (frames : List Frame) (scope : ScopeId) (e : Expr) : Tracing Value := do
  visit frames (.expression e) scope
  act (e.eval ctx.plain scope)

mutual

/-- The value of an expression. -/
def expression (ctx : Context) (frames : List Frame) (scope : ScopeId) : Expr → Tracing Value
  | .missing => leaf ctx frames scope .missing
  | .unknown label token => leaf ctx frames scope (.unknown label token)
  | .identifier ident => leaf ctx frames scope (.identifier ident)
  | .integer token n => leaf ctx frames scope (.integer token n)
  | .boolean token b => leaf ctx frames scope (.boolean token b)
  | .text token s => leaf ctx frames scope (.text token s)
  | .unary token operator operand => do
    visit frames (.expression (.unary token operator operand)) scope
    let value ← expression ctx frames scope operand
    if value.isError then return value else act (Eval.ofResult (value.unary operator))
  | .binary token left operator right => do
    visit frames (.expression (.binary token left operator right)) scope
    let a ← expression ctx frames scope left
    if a.isError then return a
    else
      let b ← expression ctx frames scope right
      if b.isError then return b else act (Eval.ofResult (Value.binary operator a b))
  | .function token parameters body => do
    visit frames (.expression (.function token parameters body)) scope
    newFunction frames parameters body scope
  | .call token callee arguments => do
    visit frames (.expression (.call token callee arguments)) scope
    let function ← expression ctx frames scope callee
    if function.isError then return function
    else
      match ← list ctx frames scope arguments with
      | .error error => return error
      | .ok values => ctx.call function values
  | .array token elements => do
    visit frames (.expression (.array token elements)) scope
    match ← list ctx frames scope elements with
    | .error error => return error
    | .ok values => act (Eval.newArray values)
  | .index token collection position => do
    visit frames (.expression (.index token collection position)) scope
    let c ← expression ctx frames scope collection
    if c.isError then return c
    else
      let p ← expression ctx frames scope position
      if p.isError then return p else act (Eval.ofResult (c.index p))
  | .hash token ps => do
    visit frames (.expression (.hash token ps)) scope
    match ← pairs ctx frames scope [] ps with
    | .error error => return error
    | .ok entries => act (Eval.newHash entries)

/-- The values of expressions, or the first error among them. -/
def list (ctx : Context) (frames : List Frame) (scope : ScopeId) :
    List Expr → Tracing (Except Value (List Value))
  | [] => return .ok []
  | e :: es => do
    let value ← expression ctx frames scope e
    if value.isError then return .error value
    else
      match ← list ctx frames scope es with
      | .error error => return .error error
      | .ok values => return .ok (value :: values)

/-- The entries of a hash literal behind those already made, or the first error. -/
def pairs (ctx : Context) (frames : List Frame) (scope : ScopeId)
    (entries : List (HashKey × Value × Value)) :
    List (Expr × Expr) → Tracing (Except Value (List (HashKey × Value × Value)))
  | [] => return .ok entries
  | (keyExpr, valueExpr) :: ps => do
    let key ← expression ctx frames scope keyExpr
    if key.isError then return .error key
    else
      match key.hashKey? with
      | none => return .error (← act (Eval.raise (.unhashableKey key.type)))
      | some hashKey =>
        let value ← expression ctx frames scope valueExpr
        if value.isError then return .error value
        else pairs ctx frames scope (Dict.insert entries hashKey (key, value)) ps

/-- The value of a statement. -/
def statement (ctx : Context) (frames : List Frame) (scope : ScopeId) : Stmt → Tracing Value
  | .unknown label token => do
    visit frames (.statement (.unknown label token)) scope
    act (Eval.raise (.unknownNode label))
  | .declaration keyword ident valueExpr => do
    visit frames (.statement (.declaration keyword ident valueExpr)) scope
    match (← get).machine.lookupLocal scope ident.name with
    | some _ => act (Eval.raise (.redeclared (isConstant keyword) ident.name))
    | none =>
      let value ← expression ctx frames scope valueExpr
      if value.isError then return value
      else
        act (Eval.declare scope ident.name value)
        return value
  | .ret token valueExpr => do
    visit frames (.statement (.ret token valueExpr)) scope
    if valueExpr.isMissing then act (Eval.newReturn .void)
    else
      let value ← expression ctx frames scope valueExpr
      if value.isError then return value else act (Eval.newReturn value)
  | .expression token value => do
    visit frames (.statement (.expression token value)) scope
    expression ctx frames scope value
  | .block body => do
    visit frames (.statement (.block body)) scope
    block ctx frames scope body
  | .ifThen token condition consequence => do
    visit frames (.statement (.ifThen token condition consequence)) scope
    match ← expression ctx frames scope condition with
    | .boolean true => block ctx frames scope consequence
    | .boolean false => return .null
    | value =>
      if value.isError then return value else act (Eval.raise (.conditionNotBoolean value.type))
  | .ifElse token condition consequence alternative => do
    visit frames (.statement (.ifElse token condition consequence alternative)) scope
    match ← expression ctx frames scope condition with
    | .boolean true => block ctx frames scope consequence
    | .boolean false => block ctx frames scope alternative
    | value =>
      if value.isError then return value else act (Eval.raise (.conditionNotBoolean value.type))

/-- Runs statements in a scope. -/
def sequence (ctx : Context) (frames : List Frame) (scope : ScopeId) (last : Value) :
    List Stmt → Tracing Sequel
  | [] => return .finished last
  | s :: ss => do
    let value ← statement ctx frames scope s
    if value.isExit then return .exit value else sequence ctx frames scope value ss

/-- The value of a block, which is a frame of its own. -/
def block (ctx : Context) (frames : List Frame) (outer : ScopeId) : Block → Tracing Value
  | ⟨token, statements⟩ => do
    visit frames (.block ⟨token, statements⟩) outer
    let scope ← enter (⟨[], statements⟩ :: frames) outer
    return (← sequence ctx (⟨[], statements⟩ :: frames) scope .null statements).value

end

/-- Calls a value, when `depth` further calls may be nested. -/
def apply (table : ObjectId) : (depth : Nat) → Value → List Value → Tracing Value
  | depth, .function id parameters body outer, arguments =>
    if arguments.length ≠ parameters.length then
      act (Eval.raise (.argumentCount parameters.length arguments.length))
    else
      match depth with
      | 0 => throw .callDepth
      | depth + 1 => do
        let frames := ⟨parameters, body.statements⟩ :: (← get).origins id
        let scope ← enter frames outer
        act (bindParameters scope parameters arguments)
        let ctx : Context := ⟨.ofTable table depth, apply table depth⟩
        act (← sequence ctx frames scope .null body.statements).result
  | _, .builtin _ builtin, arguments => act (builtin.apply arguments)
  | _, value, _ => act (Eval.raise (.notAFunction value.type))

/-- The context of a table of built-in functions, when `limit` calls may be nested. -/
def Context.ofTable (table : ObjectId) (limit : Nat) : Context :=
  ⟨.ofTable table limit, apply table limit⟩

/-- Runs a program in a scope. -/
def program (ctx : Context) (scope : ScopeId) (program : Program) : Tracing Value := do
  match ← sequence ctx [program.frame] scope .null program.statements with
  | .exit (.ret ..) => act (Eval.raise .returnOutsideFunction)
  | sequel => return sequel.value

/-! ### The record changes nothing -/

/-- A result without the record. -/
def withoutRecord {α : Type} : EStateM.Result Overflow Traced α → EStateM.Result Overflow Machine α
  | .ok a t => .ok a t.machine
  | .error overflow t => .error overflow t.machine

/-- Without its record, `y` is `x`. -/
def Erases {α : Type} (y : Tracing α) (x : Eval α) : Prop :=
  ∀ t, x.run t.machine = withoutRecord (y.run t)

section Erases

variable {α β : Type} {y y' : Tracing α} {x x' : Eval α}

theorem erases_pure (a : α) : Erases (pure a) (pure a) := fun _ => rfl

theorem erases_act (x : Eval α) : Erases (act x) x := by
  intro t
  show x.run t.machine = withoutRecord (act x t)
  unfold act
  cases x.run t.machine <;> rfl

theorem Erases.bind {g : α → Tracing β} {f : α → Eval β} (h : Erases y x)
    (hf : ∀ a, Erases (g a) (f a)) : Erases (y >>= g) (x >>= f) := by
  intro t
  have hy := h t
  cases hrun : y.run t with
  | ok a t' =>
    rw [hrun] at hy
    rw [run_bind_of_ok hrun, run_bind_of_ok hy]
    exact hf a t'
  | error o t' =>
    rw [hrun] at hy
    rw [run_bind_of_error hrun, run_bind_of_error hy]
    rfl

theorem erases_ite {c : Prop} [Decidable c] (h : Erases y x) (h' : Erases y' x') :
    Erases (if c then y else y') (if c then x else x') := by
  by_cases hc : c
  · rwa [if_pos hc, if_pos hc]
  · rwa [if_neg hc, if_neg hc]

theorem erases_visit {frames : List Frame} {node : Node} {scope : ScopeId} (h : Erases y x) :
    Erases (visit frames node scope >>= fun _ => y) x :=
  fun t => h (t.visit frames node scope)

theorem erases_enter (frames : List Frame) (outer : ScopeId) :
    Erases (enter frames outer) (Eval.newScope (some outer)) := fun _ => rfl

theorem erases_newFunction (frames : List Frame) (parameters : List Ident) (body : Block)
    (scope : ScopeId) : Erases (newFunction frames parameters body scope)
      (do return .function (← Eval.fresh) parameters body scope) := fun _ => rfl

theorem erases_get {f : Traced → Tracing α} {g : Machine → Eval α}
    (h : ∀ t, Erases (f t) (g t.machine)) : Erases (get >>= f) (get >>= g) := fun t => h t t

/-- The record may be looked at. -/
theorem erases_read {f : Traced → Tracing α} (h : ∀ t, Erases (f t) x) :
    Erases (get >>= f) x := fun t => h t t

/-- A condition and the two ways to go on. -/
theorem erases_condition {y k k' : Tracing Value} {x l l' : Eval Value} (h : Erases y x)
    (hk : Erases k l) (hk' : Erases k' l') :
    Erases (do
      match ← y with
      | .boolean true => k
      | .boolean false => k'
      | value =>
        if value.isError then return value else act (Eval.raise (.conditionNotBoolean value.type)))
      (do
        match ← x with
        | .boolean true => l
        | .boolean false => l'
        | value =>
          if value.isError then return value else Eval.raise (.conditionNotBoolean value.type)) := by
  refine h.bind fun v => ?_
  cases v with
  | boolean b =>
    cases b with
    | true => exact hk
    | false => exact hk'
  | integer | text | null | void | ret | error | function | builtin | array | hash =>
    exact erases_ite (erases_pure _) (erases_act _)

end Erases

theorem isMissing_ne_true {e : Expr} (h : e ≠ .missing) : e.isMissing ≠ true := by
  cases e with
  | missing => exact absurd rfl h
  | _ => exact Bool.false_ne_true

/-- What a computation without a record ensures, it ensures with one. -/
theorem Erases.ensures {α : Type} {y : Tracing α} {x : Eval α} (h : Erases y x) {t : Traced}
    {good : α → Machine → Prop} {bad : Overflow → Machine → Prop}
    (hx : Ensures x t.machine good bad) :
    Ensures y t (fun a t' => good a t'.machine) fun o t' => bad o t'.machine := by
  unfold Ensures at hx ⊢
  rw [h t] at hx
  cases hrun : y.run t <;> rw [hrun] at hx <;> exact hx

/-- Without their record, the calls are those of the evaluator. -/
def Context.Erases (ctx : Context) : Prop :=
  ∀ function arguments, Trace.Erases (ctx.call function arguments)
    (ctx.plain.call function arguments)

section Tree

variable {ctx : Context}

mutual

theorem erases_expression (h : ctx.Erases) (frames : List Frame) (scope : ScopeId) :
    ∀ e : Expr, Erases (expression ctx frames scope e) (e.eval ctx.plain scope)
  | .missing | .unknown .. | .identifier _ | .integer .. | .boolean .. | .text .. => by
    rw [expression]
    exact erases_visit (erases_act _)
  | .unary _ _ operand => by
    rw [expression, Expr.eval]
    refine erases_visit ((erases_expression h frames scope operand).bind fun v => ?_)
    exact erases_ite (erases_pure _) (erases_act _)
  | .binary _ left _ right => by
    rw [expression, Expr.eval]
    refine erases_visit ((erases_expression h frames scope left).bind fun a => ?_)
    refine erases_ite (erases_pure _) ((erases_expression h frames scope right).bind fun b => ?_)
    exact erases_ite (erases_pure _) (erases_act _)
  | .function _ parameters body => by
    rw [expression, Expr.eval]
    exact erases_visit (erases_newFunction frames parameters body scope)
  | .call _ callee arguments => by
    rw [expression, Expr.eval]
    refine erases_visit ((erases_expression h frames scope callee).bind fun f => ?_)
    refine erases_ite (erases_pure _) ((erases_list h frames scope arguments).bind fun r => ?_)
    cases r with
    | error error => exact erases_pure _
    | ok values => exact h f values
  | .array _ elements => by
    rw [expression, Expr.eval]
    refine erases_visit ((erases_list h frames scope elements).bind fun r => ?_)
    cases r with
    | error error => exact erases_pure _
    | ok values => exact erases_act _
  | .index _ collection position => by
    rw [expression, Expr.eval]
    refine erases_visit ((erases_expression h frames scope collection).bind fun c => ?_)
    refine erases_ite (erases_pure _) ((erases_expression h frames scope position).bind fun p => ?_)
    exact erases_ite (erases_pure _) (erases_act _)
  | .hash _ ps => by
    rw [expression, Expr.eval]
    refine erases_visit ((erases_pairs h frames scope ps []).bind fun r => ?_)
    cases r with
    | error error => exact erases_pure _
    | ok entries => exact erases_act _

theorem erases_list (h : ctx.Erases) (frames : List Frame) (scope : ScopeId) :
    ∀ es : List Expr, Erases (list ctx frames scope es) (Expr.evalList ctx.plain scope es)
  | [] => by
    rw [list, Expr.evalList]
    exact erases_pure _
  | e :: es => by
    rw [list, Expr.evalList]
    refine (erases_expression h frames scope e).bind fun v => erases_ite (erases_pure _) ?_
    refine (erases_list h frames scope es).bind fun r => ?_
    cases r with
    | error error => exact erases_pure _
    | ok values => exact erases_pure _

theorem erases_pairs (h : ctx.Erases) (frames : List Frame) (scope : ScopeId) :
    ∀ (ps : List (Expr × Expr)) (entries : List (HashKey × Value × Value)),
      Erases (pairs ctx frames scope entries ps) (Expr.evalPairs ctx.plain scope entries ps)
  | [], _ => by
    rw [pairs, Expr.evalPairs]
    exact erases_pure _
  | (keyExpr, valueExpr) :: ps, entries => by
    rw [pairs, Expr.evalPairs]
    refine (erases_expression h frames scope keyExpr).bind fun key => erases_ite (erases_pure _) ?_
    cases key.hashKey? with
    | none => exact (erases_act _).bind fun _ => erases_pure _
    | some word =>
      refine (erases_expression h frames scope valueExpr).bind fun v => ?_
      exact erases_ite (erases_pure _) (erases_pairs h frames scope ps _)

theorem erases_statement (h : ctx.Erases) (frames : List Frame) (scope : ScopeId) :
    ∀ st : Stmt, Erases (statement ctx frames scope st) (st.eval ctx.plain scope)
  | .unknown .. => by
    rw [statement, Stmt.eval]
    exact erases_visit (erases_act _)
  | .declaration _ ident valueExpr => by
    rw [statement, Stmt.eval]
    refine erases_visit (erases_get fun t => ?_)
    cases t.machine.lookupLocal scope ident.name with
    | some _ => exact erases_act _
    | none =>
      refine (erases_expression h frames scope valueExpr).bind fun v => ?_
      exact erases_ite (erases_pure _) ((erases_act _).bind fun _ => erases_pure _)
  | .ret _ valueExpr => by
    by_cases hmissing : valueExpr = .missing
    · subst hmissing
      rw [statement, Stmt.eval]
      exact erases_visit (erases_act _)
    · rw [statement, Stmt.eval, if_neg (isMissing_ne_true hmissing)]
      · refine erases_visit ((erases_expression h frames scope valueExpr).bind fun v => ?_)
        exact erases_ite (erases_pure _) (erases_act _)
      · exact hmissing
  | .expression _ value => by
    rw [statement, Stmt.eval]
    exact erases_visit (erases_expression h frames scope value)
  | .block body => by
    rw [statement, Stmt.eval]
    exact erases_visit (erases_block h frames scope body)
  | .ifThen _ condition consequence => by
    rw [statement, Stmt.eval]
    exact erases_visit (erases_condition (erases_expression h frames scope condition)
      (erases_block h frames scope consequence) (erases_pure _))
  | .ifElse _ condition consequence alternative => by
    rw [statement, Stmt.eval]
    exact erases_visit (erases_condition (erases_expression h frames scope condition)
      (erases_block h frames scope consequence) (erases_block h frames scope alternative))

theorem erases_sequence (h : ctx.Erases) (frames : List Frame) (scope : ScopeId) :
    ∀ (ss : List Stmt) (last : Value),
      Erases (sequence ctx frames scope last ss) (Stmt.evalSequence ctx.plain scope last ss)
  | [], _ => by
    rw [sequence, Stmt.evalSequence]
    exact erases_pure _
  | st :: ss, _ => by
    rw [sequence, Stmt.evalSequence]
    refine (erases_statement h frames scope st).bind fun v => ?_
    exact erases_ite (erases_pure _) (erases_sequence h frames scope ss v)

theorem erases_block (h : ctx.Erases) (frames : List Frame) (outer : ScopeId) :
    ∀ b : Block, Erases (block ctx frames outer b) (b.eval ctx.plain outer)
  | ⟨_, ss⟩ => by
    rw [block, Block.eval]
    refine erases_visit ((erases_enter _ outer).bind fun scope => ?_)
    exact (erases_sequence h _ scope ss .null).bind fun _ => erases_pure _

end

end Tree

/-- Without its record, a call is that of the evaluator if the calls nested in it are. -/
theorem erases_apply {table : ObjectId} {depth : Nat}
    (hnested : ∀ d, depth = d + 1 → (Context.ofTable table d).Erases) (function : Value)
    (arguments : List Value) :
    Erases (apply table depth function arguments) (applyValue table depth function arguments) := by
  cases function with
  | function id parameters body outer =>
    by_cases hlength : arguments.length = parameters.length
    · cases depth with
      | zero =>
        rw [applyValue_zero table arguments hlength, apply, if_neg (not_not_intro hlength)]
        exact fun _ => rfl
      | succ d =>
        rw [applyValue_succ table d arguments hlength, apply, if_neg (not_not_intro hlength)]
        refine erases_read fun t => ?_
        refine (erases_enter (⟨parameters, body.statements⟩ :: t.origins id) outer).bind
          fun scope => (erases_act _).bind fun _ => ?_
        exact (erases_sequence (hnested d rfl) _ scope body.statements .null).bind fun r =>
          erases_act _
    · rw [applyValue_of_length_ne table depth arguments hlength]
      cases depth <;> rw [apply, if_pos hlength] <;> exact erases_act _
  | builtin t b =>
    rw [applyValue_builtin]
    cases depth <;> exact erases_act _
  | integer | boolean | text | null | void | ret | error | array | hash =>
    cases depth <;> exact erases_act _

theorem erases_call (table : ObjectId) (limit : Nat) : (Context.ofTable table limit).Erases := by
  induction limit with
  | zero => exact fun f vs => erases_apply (fun _ hd => absurd hd (by omega)) f vs
  | succ limit ih =>
    refine fun f vs => erases_apply (fun d hd => ?_) f vs
    cases hd
    exact ih

/-- Without its record, the evaluation of a program is that of the evaluator. -/
theorem erases_program (table : ObjectId) (limit : Nat) (scope : ScopeId) (p : Program) :
    Erases (program (.ofTable table limit) scope p) (p.eval (.ofTable table limit) scope) := by
  unfold program Program.eval
  refine (erases_sequence (erases_call table limit) _ scope p.statements .null).bind fun r => ?_
  cases r with
  | finished v => exact erases_pure _
  | exit v =>
    cases v with
    | ret => exact erases_act _
    | integer | boolean | text | null | void | error | function | builtin | array | hash =>
      exact erases_pure _

end Trace

end MonkeyLang
