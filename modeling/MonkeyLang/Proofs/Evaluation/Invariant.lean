import MonkeyLang.Proofs.Evaluation.Calls
import MonkeyLang.Proofs.Evaluation.Place

/-!
# Invariants of evaluation

All that evaluation ever does to the machine is to take an identity, to print, to add a scope, and
to declare a name in a scope. `Invariant I own` says that the property `I` of machines survives these
steps, where declarations are made in scopes that satisfy `own`, as every new scope does. Then `I`
survives the evaluation of every expression and every block, and of every statement that is no
declaration or stands in a scope that satisfies `own`, also when evaluation stops because calls nest
too deeply.
-/

namespace MonkeyLang

/-- The steps of evaluation keep `I`, as long as names are declared in scopes that satisfy `own`. -/
structure Invariant (I : Machine → Prop) (own : ScopeId → Prop) : Prop where
  fresh : ∀ m, I m → I { m with supply := m.supply + 1 }
  print : ∀ m text, I m → I { m with output := m.output ++ text }
  push : ∀ m outer, I m → I { m with scopes := m.scopes.push ⟨[], outer⟩ } ∧ own m.scopes.size
  declare : ∀ m id name value, own id → I m → I (m.declare id name value)

/-- The computation keeps `I`, whether it ends or stops. -/
def Keeps {α : Type} (I : Machine → Prop) (x : Eval α) : Prop :=
  ∀ m, I m → Ensures x m (fun _ m' => I m') fun _ m' => I m'

section Keeps

variable {α β : Type} {I : Machine → Prop} {own : ScopeId → Prop} {x y : Eval α}

theorem keeps_pure (a : α) : Keeps I (pure a) := fun _ h => h

theorem Keeps.bind {f : α → Eval β} (hx : Keeps I x) (hf : ∀ a, Keeps I (f a)) :
    Keeps I (x >>= f) :=
  fun m hm => Ensures.bind (hx m hm) fun a m' hm' => hf a m' hm'

theorem keeps_ite {c : Prop} [Decidable c] (hx : Keeps I x) (hy : Keeps I y) :
    Keeps I (if c then x else y) := by
  by_cases h : c
  · rwa [if_pos h]
  · rwa [if_neg h]

theorem keeps_get {f : Machine → Eval α} (hf : ∀ m, Keeps I (f m)) : Keeps I (get >>= f) :=
  fun m hm => hf m m hm

variable (h : Invariant I own)

include h

theorem Invariant.keeps_fresh : Keeps I Eval.fresh := fun m hm => h.fresh m hm

theorem Invariant.keeps_raise (fault : Fault) : Keeps I (Eval.raise fault) :=
  h.keeps_fresh.bind fun _ => keeps_pure _

theorem Invariant.keeps_newReturn (value : Value) : Keeps I (Eval.newReturn value) :=
  h.keeps_fresh.bind fun _ => keeps_pure _

theorem Invariant.keeps_newArray (elements : List Value) : Keeps I (Eval.newArray elements) :=
  h.keeps_fresh.bind fun _ => keeps_pure _

theorem Invariant.keeps_newHash (entries : List (HashKey × Value × Value)) :
    Keeps I (Eval.newHash entries) :=
  h.keeps_fresh.bind fun _ => keeps_pure _

theorem Invariant.keeps_ofResult (r : Except Fault Value) : Keeps I (Eval.ofResult r) := by
  cases r with
  | ok value => exact keeps_pure value
  | error fault => exact h.keeps_raise fault

theorem Invariant.keeps_newScope {outer : Option ScopeId} {f : ScopeId → Eval α}
    (hf : ∀ id, own id → Keeps I (f id)) : Keeps I (Eval.newScope outer >>= f) := fun m hm =>
  let hpush := h.push m outer hm
  hf m.scopes.size hpush.2 _ hpush.1

theorem Invariant.keeps_declare {scope : ScopeId} (hscope : own scope) (name : String)
    (value : Value) : Keeps I (Eval.declare scope name value) :=
  fun m hm => h.declare m scope name value hscope hm

theorem Invariant.keeps_bindParameters {scope : ScopeId} (hscope : own scope)
    (parameters : List Ident) (arguments : List Value) :
    Keeps I (bindParameters scope parameters arguments) := by
  intro m hm
  unfold Ensures
  rw [run_bindParameters]
  exact Machine.bindParameters_induction (P := I)
    (fun m p _ a _ hm => h.declare m scope p.name a hscope hm) hm

theorem Invariant.keeps_builtin (b : Builtin) (arguments : List Value) :
    Keeps I (b.apply arguments) := by
  have hone : ∀ f : Value → Eval Value, (∀ v, Keeps I (f v)) →
      Keeps I (Builtin.withOne arguments f) := by
    intro f hf
    unfold Builtin.withOne
    split
    · exact hf _
    · exact h.keeps_raise _
  have harray : ∀ (argument : Value) (f : List Value → Eval Value), (∀ vs, Keeps I (f vs)) →
      Keeps I (Builtin.withArray b argument f) := by
    intro argument f hf
    unfold Builtin.withArray
    split
    · exact hf _
    · exact h.keeps_raise _
  cases b with
  | len =>
    refine hone _ fun v => ?_
    split
    · exact keeps_pure _
    · exact keeps_pure _
    · exact h.keeps_raise _
  | first => exact hone _ fun v => harray v _ fun vs => keeps_pure _
  | last => exact hone _ fun v => harray v _ fun vs => keeps_pure _
  | rest =>
    refine hone _ fun v => harray v _ fun vs => ?_
    cases vs with
    | nil => exact keeps_pure _
    | cons v vs => exact h.keeps_newArray vs
  | push =>
    match arguments with
    | [v, u] => exact harray v _ fun vs => h.keeps_newArray _
    | [] | [_] | _ :: _ :: _ :: _ => exact h.keeps_raise _
  | print => exact Keeps.bind (fun m hm => h.print m _ hm) fun _ => keeps_pure _

end Keeps

/-- Calls in the context keep `I`. -/
def Context.Keeps (I : Machine → Prop) (ctx : Context) : Prop :=
  ∀ function arguments, MonkeyLang.Keeps I (ctx.call function arguments)

section Tree

variable {I : Machine → Prop} {own : ScopeId → Prop} {ctx : Context}

theorem Invariant.keeps_name (h : Invariant I own) (ctx : Context) (scope : ScopeId)
    (name : String) : Keeps I (evalName ctx scope name) := by
  unfold evalName
  refine keeps_get fun m => ?_
  split
  · exact keeps_pure _
  · split
    · exact keeps_pure _
    · exact h.keeps_raise _

/-- A condition and the two ways to go on. -/
theorem Invariant.keeps_condition (h : Invariant I own) {x k k' : Eval Value} (hx : Keeps I x)
    (hk : Keeps I k) (hk' : Keeps I k') : Keeps I (do
      match ← x with
      | .boolean true => k
      | .boolean false => k'
      | value =>
        if value.isError then return value else Eval.raise (.conditionNotBoolean value.type)) := by
  refine hx.bind fun v => ?_
  split
  · exact hk
  · exact hk'
  · exact keeps_ite (keeps_pure _) (h.keeps_raise _)

mutual

theorem Expr.keeps (h : Invariant I own) (hctx : ctx.Keeps I) (scope : ScopeId) :
    ∀ e : Expr, Keeps I (e.eval ctx scope)
  | .missing => by rw [Expr.eval]; exact h.keeps_raise _
  | .unknown .. => by rw [Expr.eval]; exact h.keeps_raise _
  | .identifier ident => by rw [Expr.eval]; exact h.keeps_name ctx scope ident.name
  | .integer .. => by rw [Expr.eval]; exact keeps_pure _
  | .boolean .. => by rw [Expr.eval]; exact keeps_pure _
  | .text .. => by rw [Expr.eval]; exact keeps_pure _
  | .unary _ _ operand => by
    rw [Expr.eval]
    refine (Expr.keeps h hctx scope operand).bind fun v => ?_
    exact keeps_ite (keeps_pure _) (h.keeps_ofResult _)
  | .binary _ left _ right => by
    rw [Expr.eval]
    refine (Expr.keeps h hctx scope left).bind fun a => keeps_ite (keeps_pure _) ?_
    refine (Expr.keeps h hctx scope right).bind fun b => ?_
    exact keeps_ite (keeps_pure _) (h.keeps_ofResult _)
  | .function .. => by
    rw [Expr.eval]
    exact h.keeps_fresh.bind fun _ => keeps_pure _
  | .call _ callee arguments => by
    rw [Expr.eval]
    refine (Expr.keeps h hctx scope callee).bind fun f => keeps_ite (keeps_pure _) ?_
    refine (Expr.keepsList h hctx scope arguments).bind fun r => ?_
    cases r with
    | error error => exact keeps_pure _
    | ok values => exact hctx f values
  | .array _ elements => by
    rw [Expr.eval]
    refine (Expr.keepsList h hctx scope elements).bind fun r => ?_
    cases r with
    | error error => exact keeps_pure _
    | ok values => exact h.keeps_newArray values
  | .index _ collection position => by
    rw [Expr.eval]
    refine (Expr.keeps h hctx scope collection).bind fun c => keeps_ite (keeps_pure _) ?_
    refine (Expr.keeps h hctx scope position).bind fun p => ?_
    exact keeps_ite (keeps_pure _) (h.keeps_ofResult _)
  | .hash _ pairs => by
    rw [Expr.eval]
    refine (Expr.keepsPairs h hctx scope pairs []).bind fun r => ?_
    cases r with
    | error error => exact keeps_pure _
    | ok entries => exact h.keeps_newHash entries

theorem Expr.keepsList (h : Invariant I own) (hctx : ctx.Keeps I) (scope : ScopeId) :
    ∀ es : List Expr, Keeps I (Expr.evalList ctx scope es)
  | [] => by rw [Expr.evalList]; exact keeps_pure _
  | e :: es => by
    rw [Expr.evalList]
    refine (Expr.keeps h hctx scope e).bind fun v => keeps_ite (keeps_pure _) ?_
    refine (Expr.keepsList h hctx scope es).bind fun r => ?_
    cases r with
    | error error => exact keeps_pure _
    | ok values => exact keeps_pure _

theorem Expr.keepsPairs (h : Invariant I own) (hctx : ctx.Keeps I) (scope : ScopeId) :
    ∀ (ps : List (Expr × Expr)) (entries : List (HashKey × Value × Value)),
      Keeps I (Expr.evalPairs ctx scope entries ps)
  | [], _ => by rw [Expr.evalPairs]; exact keeps_pure _
  | (keyExpr, valueExpr) :: ps, entries => by
    rw [Expr.evalPairs]
    refine (Expr.keeps h hctx scope keyExpr).bind fun key => keeps_ite (keeps_pure _) ?_
    cases key.hashKey? with
    | none => exact (h.keeps_raise _).bind fun _ => keeps_pure _
    | some word =>
      refine (Expr.keeps h hctx scope valueExpr).bind fun value => keeps_ite (keeps_pure _) ?_
      exact Expr.keepsPairs h hctx scope ps _

/-- Only a declaration changes the scope it stands in. -/
theorem Stmt.keeps (h : Invariant I own) (hctx : ctx.Keeps I) (scope : ScopeId) :
    ∀ st : Stmt, (∀ name, st.declared? = some name → own scope) → Keeps I (st.eval ctx scope)
  | .unknown .., _ => by rw [Stmt.eval]; exact h.keeps_raise _
  | .declaration _ ident valueExpr, hscope => by
    rw [Stmt.eval]
    refine keeps_get fun m => ?_
    cases m.lookupLocal scope ident.name with
    | some value => exact h.keeps_raise _
    | none =>
      refine (Expr.keeps h hctx scope valueExpr).bind fun v => keeps_ite (keeps_pure _) ?_
      exact (h.keeps_declare (hscope _ rfl) ident.name v).bind fun _ => keeps_pure _
  | .ret _ valueExpr, _ => by
    by_cases hmissing : valueExpr = .missing
    · subst hmissing
      rw [Stmt.eval]
      exact h.keeps_newReturn _
    · rw [Stmt.eval]
      · refine (Expr.keeps h hctx scope valueExpr).bind fun v => ?_
        exact keeps_ite (keeps_pure _) (h.keeps_newReturn v)
      · exact hmissing
  | .expression _ value, _ => by rw [Stmt.eval]; exact Expr.keeps h hctx scope value
  | .block body, _ => by rw [Stmt.eval]; exact Block.keeps h hctx scope body
  | .ifThen _ condition consequence, _ => by
    rw [Stmt.eval]
    exact h.keeps_condition (Expr.keeps h hctx scope condition)
      (Block.keeps h hctx scope consequence) (keeps_pure _)
  | .ifElse _ condition consequence alternative, _ => by
    rw [Stmt.eval]
    exact h.keeps_condition (Expr.keeps h hctx scope condition)
      (Block.keeps h hctx scope consequence) (Block.keeps h hctx scope alternative)

theorem Stmt.keepsSequence (h : Invariant I own) (hctx : ctx.Keeps I) {scope : ScopeId}
    (hscope : own scope) : ∀ (ss : List Stmt) (last : Value),
      Keeps I (Stmt.evalSequence ctx scope last ss)
  | [], _ => by rw [Stmt.evalSequence]; exact keeps_pure _
  | st :: ss, last => by
    rw [Stmt.evalSequence]
    refine (Stmt.keeps h hctx scope st fun _ _ => hscope).bind fun v => keeps_ite (keeps_pure _) ?_
    exact Stmt.keepsSequence h hctx hscope ss v

/-- A block declares names in its own scope only, so it may stand in any scope. -/
theorem Block.keeps (h : Invariant I own) (hctx : ctx.Keeps I) (outer : ScopeId) :
    ∀ b : Block, Keeps I (b.eval ctx outer)
  | ⟨_, ss⟩ => by
    rw [Block.eval]
    refine h.keeps_newScope fun scope hscope => ?_
    exact (Stmt.keepsSequence h hctx hscope ss .null).bind fun _ => keeps_pure _

end

end Tree

section Calls

variable {I : Machine → Prop} {own : ScopeId → Prop}

theorem Invariant.keeps_result (h : Invariant I own) (sequel : Sequel) :
    Keeps I sequel.result := by
  unfold Sequel.result
  split
  · exact keeps_pure _
  · exact keeps_pure _
  · exact h.keeps_raise _

/-- A call keeps an invariant if the calls nested in it do. -/
theorem Invariant.keeps_apply (h : Invariant I own) {table : ObjectId} {depth : Nat}
    (hnested : ∀ d, depth = d + 1 → (Context.ofTable table d).Keeps I) (function : Value)
    (arguments : List Value) : Keeps I (applyValue table depth function arguments) := by
  cases function with
  | function id parameters body outer =>
    by_cases hlength : arguments.length = parameters.length
    · cases depth with
      | zero =>
        rw [applyValue_zero table arguments hlength]
        exact fun m hm => hm
      | succ d =>
        rw [applyValue_succ table d arguments hlength]
        refine h.keeps_newScope fun scope hscope => ?_
        refine (h.keeps_bindParameters hscope parameters arguments).bind fun _ => ?_
        refine (Stmt.keepsSequence h (hnested d rfl) hscope body.statements .null).bind fun r => ?_
        exact h.keeps_result r
    · rw [applyValue_of_length_ne table depth arguments hlength]
      exact h.keeps_raise _
  | builtin t b =>
    rw [applyValue_builtin]
    exact h.keeps_builtin b arguments
  | integer | boolean | text | null | void | ret | error | array | hash =>
    rw [applyValue_of_not_callable table depth arguments (by simp [Value.type]) (by simp [Value.type])]
    exact h.keeps_raise _

/-- Calls keep an invariant, however deeply they nest. -/
theorem Invariant.keeps_call (h : Invariant I own) (table : ObjectId) (limit : Nat) :
    (Context.ofTable table limit).Keeps I := by
  induction limit with
  | zero => exact fun f vs => h.keeps_apply (fun _ hd => absurd hd (by omega)) f vs
  | succ limit ih =>
    refine fun f vs => h.keeps_apply (fun d hd => ?_) f vs
    cases hd
    exact ih

end Calls

end MonkeyLang
