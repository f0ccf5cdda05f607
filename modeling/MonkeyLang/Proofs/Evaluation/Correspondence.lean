import MonkeyLang.Proofs.Evaluation.Relocation

/-!
# Jobs done elsewhere

A job is done elsewhere as it is done here. Its plans tell why: `Plan.Corresponds` relates two plans
that take the same steps in two places, for all values that the jobs they give out can end with, and
`Job.corresponds` goes through the rules of evaluation once. What a plan leads to is then the same in
both places, if this is so for the jobs that it gives out (`Plan.Corresponds.run_relocate`), and so it
is for every job (`Job.run_relocate`).
-/

namespace MonkeyLang

/-- The job elsewhere. -/
def Job.relocate (ρ : Relocation) : Job → Job
  | expression scope e => expression (ρ.scope scope) (e.mapLines ρ.lines)
  | statement scope st => statement (ρ.scope scope) (st.mapLines ρ.lines)
  | call function arguments => call (function.relocate ρ) (arguments.map (Value.relocate ρ))
  | body outer parameters b arguments =>
    body (ρ.scope outer) (parameters.map (Ident.mapLines ρ.lines)) (b.mapLines ρ.lines)
      (arguments.map (Value.relocate ρ))
  | program scope p => program (ρ.scope scope) (p.mapLines ρ.lines)

/-- The end of a sequence of statements elsewhere. -/
def Sequel.relocate (ρ : Relocation) : Sequel → Sequel
  | exit value => exit (value.relocate ρ)
  | finished last => finished (last.relocate ρ)

/-- What a row of expressions leads to elsewhere, if its values are moved by `g`. -/
def Relocation.row {α : Type} (ρ : Relocation) (g : α → α) : Except Value α → Except Value α
  | .ok values => .ok (g values)
  | .error error => .error (error.relocate ρ)

/-- The outcome elsewhere, if the results are moved by `map`. -/
def Relocation.outcome {ε α β : Type} (ρ : Relocation) (map : α → β) :
    EStateM.Result ε Machine α → EStateM.Result ε Machine β
  | .ok a m => .ok (map a) (m.relocate ρ)
  | .error e m => .error e (m.relocate ρ)

namespace Plan

/-- The second plan takes elsewhere the steps that the first one takes here. -/
inductive Corresponds (ρ : Relocation) {α β : Type} (map : α → β) : Plan α → Plan β → Prop
  | done (a : α) : Corresponds ρ map (done a) (done (map a))
  | perform {j : Job} {next next'} :
      (∀ v, ρ.standard.Sound v → Corresponds ρ map (next v) (next' (v.relocate ρ))) →
        Corresponds ρ map (perform j next) (perform (j.relocate ρ) next')
  | nest {j : Job} {next next'} :
      (∀ v, ρ.standard.Sound v → Corresponds ρ map (next v) (next' (v.relocate ρ))) →
        Corresponds ρ map (nest j next) (nest (j.relocate ρ) next')
  | fresh {next next'} : (∀ i, Corresponds ρ map (next i) (next' (ρ.object i))) →
      Corresponds ρ map (fresh next) (fresh next')
  | print {text next next'} : Corresponds ρ map next next' →
      Corresponds ρ map (print text next) (print text next')
  | enter {outer parameters arguments next next'} :
      (∀ s, Corresponds ρ map (next s) (next' (ρ.scope s))) →
        Corresponds ρ map (enter outer parameters arguments next)
          (enter (ρ.scope outer) (parameters.map (Ident.mapLines ρ.lines))
            (arguments.map (Value.relocate ρ)) next')
  | declare {scope name value next next'} : Corresponds ρ map next next' →
      Corresponds ρ map (declare scope name value next)
        (declare (ρ.scope scope) name (value.relocate ρ) next')
  | look {next next'} : (∀ m : Machine, Corresponds ρ map (next m) (next' (m.relocate ρ))) →
      Corresponds ρ map (look next) (look next')

section Steps

variable {ρ : Relocation} {α β γ δ : Type} {map : α → β} {map' : γ → δ}

theorem Corresponds.bind {p : Plan α} {p' : Plan β} {f : α → Plan γ} {f' : β → Plan δ}
    (hp : Corresponds ρ map p p') (hf : ∀ a, Corresponds ρ map' (f a) (f' (map a))) :
    Corresponds ρ map' (p >>= f) (p' >>= f') := by
  show Corresponds ρ map' (p.bind f) (p'.bind f')
  induction hp with
  | done a => exact hf a
  | perform _ ih => exact .perform ih
  | nest _ ih => exact .nest ih
  | fresh _ ih => exact .fresh ih
  | print _ ih => exact .print ih
  | enter _ ih => exact .enter ih
  | declare _ ih => exact .declare ih
  | look _ ih => exact .look ih

/-- A choice by what is the same in both places. -/
theorem corresponds_ite {c c' : Prop} [Decidable c] [Decidable c'] {p q : Plan α} {p' q' : Plan β}
    (hc : c ↔ c') (hp : Corresponds ρ map p p') (hq : Corresponds ρ map q q') :
    Corresponds ρ map (if c then p else q) (if c' then p' else q') := by
  by_cases h : c
  · rwa [if_pos h, if_pos (hc.1 h)]
  · rwa [if_neg h, if_neg (mt hc.2 h)]

/-- What follows a job is only asked for the values that the job can end with. -/
theorem corresponds_job_bind {j : Job} {f : Value → Plan α} {f' : Value → Plan β}
    (hf : ∀ v, ρ.standard.Sound v → Corresponds ρ map (f v) (f' (v.relocate ρ))) :
    Corresponds ρ map (job j >>= f) (job (j.relocate ρ) >>= f') :=
  .perform hf

theorem corresponds_job (j : Job) :
    Corresponds ρ (Value.relocate ρ) (job j) (job (j.relocate ρ)) :=
  .perform fun v _ => .done v

theorem corresponds_raise (fault : Fault) :
    Corresponds ρ (Value.relocate ρ) (raise fault) (raise fault) :=
  .fresh fun i => .done (Value.error i fault)

theorem corresponds_ofResult {r r' : Except Fault Value} (h : r' = r.map (Value.relocate ρ)) :
    Corresponds ρ (Value.relocate ρ) (ofResult r) (ofResult r') := by
  subst h
  cases r with
  | ok value => exact .done value
  | error fault => exact corresponds_raise fault

theorem corresponds_newArray (vs : List Value) : Corresponds ρ (Value.relocate ρ)
    (do return .array (← newId) vs) (do return .array (← newId) (vs.map (Value.relocate ρ))) := by
  refine .fresh fun i => ?_
  have hdone : Corresponds ρ (Value.relocate ρ) (done (.array i vs)) _ := .done _
  rwa [Value.relocate, Value.relocateList_eq] at hdone

/-- An error among the parts is the result in both places. -/
theorem corresponds_error {value : Value} {p p' : Plan Value}
    (h : Corresponds ρ (Value.relocate ρ) p p') :
    Corresponds ρ (Value.relocate ρ) (if value.isError then return value else p)
      (if (value.relocate ρ).isError then return (value.relocate ρ) else p') :=
  corresponds_ite (by rw [Value.isError_relocate]) (.done value) h

/-- The value of an expression as a part of something larger. -/
theorem corresponds_operand {scope : ScopeId} {e : Expr} {f f' : Value → Plan Value}
    (hf : ∀ v, ρ.standard.Sound v → Corresponds ρ (Value.relocate ρ) (f v) (f' (v.relocate ρ))) :
    Corresponds ρ (Value.relocate ρ)
      (do let v ← job (.expression scope e)
          if v.isError then return v else f v)
      (do let v ← job (.expression (ρ.scope scope) (e.mapLines ρ.lines))
          if v.isError then return v else f' v) := by
  refine corresponds_job_bind (j := .expression scope e) fun v hv => ?_
  exact corresponds_error (hf v hv)

theorem corresponds_row (scope : ScopeId) (es : List Expr) :
    Corresponds ρ (ρ.row (List.map (Value.relocate ρ))) (row scope es)
      (row (ρ.scope scope) (es.map (Expr.mapLines ρ.lines))) := by
  induction es with
  | nil => exact .done (Except.ok [])
  | cons e es ih =>
    refine corresponds_job_bind (j := .expression scope e) fun v _ => ?_
    refine corresponds_ite (by rw [Value.isError_relocate]) (.done (Except.error v)) ?_
    refine ih.bind fun r => ?_
    cases r with
    | ok values => exact .done (Except.ok (v :: values))
    | error error => exact .done (Except.error error)

theorem corresponds_pairs (scope : ScopeId) (ps : List (Expr × Expr))
    (entries : List (HashKey × Value × Value)) :
    Corresponds ρ (ρ.row (Value.relocateEntries ρ)) (pairs scope entries ps)
      (pairs (ρ.scope scope) (Value.relocateEntries ρ entries)
        (ps.map (Prod.map (Expr.mapLines ρ.lines) (Expr.mapLines ρ.lines)))) := by
  induction ps generalizing entries with
  | nil => exact .done (Except.ok entries)
  | cons p ps ih =>
    obtain ⟨keyExpr, valueExpr⟩ := p
    refine corresponds_job_bind (j := .expression scope keyExpr) fun key _ => ?_
    refine corresponds_ite (by rw [Value.isError_relocate]) (.done (Except.error key)) ?_
    rw [Value.hashKey?_relocate, Value.type_relocate]
    cases key.hashKey? with
    | none => exact (corresponds_raise _).bind fun error => .done (Except.error error)
    | some hashKey =>
      refine corresponds_job_bind (j := .expression scope valueExpr) fun value _ => ?_
      refine corresponds_ite (by rw [Value.isError_relocate]) (.done (Except.error value)) ?_
      have hinsert := Dict.insert_mapValues (Prod.map (Value.relocate ρ) (Value.relocate ρ)) entries
        hashKey (key, value)
      rw [← Value.relocateEntries_eq, ← Value.relocateEntries_eq] at hinsert
      show Corresponds ρ _ _ (pairs _ (Dict.insert (Value.relocateEntries ρ entries) hashKey
        (Prod.map (Value.relocate ρ) (Value.relocate ρ) (key, value))) _)
      rw [hinsert]
      exact ih _

theorem corresponds_sequence (scope : ScopeId) (sts : List Stmt) (last : Value) :
    Corresponds ρ (Sequel.relocate ρ) (sequence scope last sts)
      (sequence (ρ.scope scope) (last.relocate ρ) (sts.map (Stmt.mapLines ρ.lines))) := by
  induction sts generalizing last with
  | nil => exact .done (Sequel.finished last)
  | cons st sts ih =>
    refine corresponds_job_bind (j := .statement scope st) fun v _ => ?_
    exact corresponds_ite (by rw [Value.isExit_relocate]) (.done (Sequel.exit v)) (ih v)

theorem Sequel.value_relocate (r : Sequel) : (r.relocate ρ).value = r.value.relocate ρ := by
  cases r <;> rfl

theorem corresponds_block (outer : ScopeId) (b : Block) :
    Corresponds ρ (Value.relocate ρ) (block outer b) (block (ρ.scope outer) (b.mapLines ρ.lines)) := by
  obtain ⟨token, sts⟩ := b
  rw [Block.mapLines, Stmt.mapLinesList_eq]
  refine .enter fun scope => (corresponds_sequence scope sts .null).bind fun r => ?_
  rw [Sequel.value_relocate]
  exact .done r.value

theorem corresponds_choose (condition : Value) {yes no yes' no' : Plan Value}
    (hyes : Corresponds ρ (Value.relocate ρ) yes yes')
    (hno : Corresponds ρ (Value.relocate ρ) no no') :
    Corresponds ρ (Value.relocate ρ) (choose condition yes no)
      (choose (condition.relocate ρ) yes' no') := by
  cases condition with
  | boolean b =>
    cases b with
    | true => exact hyes
    | false => exact hno
  | error i fault => exact .done (Value.error i fault)
  | _ => exact corresponds_raise _

theorem corresponds_name (table : ObjectId) (scope : ScopeId) (n : String) :
    Corresponds ρ (Value.relocate ρ) (name table scope n) (name (ρ.table table) (ρ.scope scope) n) := by
  refine .look fun m => ?_
  simp only [Plan.bind]
  rw [Machine.lookup_relocate]
  cases m.lookup scope n with
  | some value => exact .done value
  | none =>
    cases Builtin.ofName? n with
    | some b => exact .done (Value.builtin table b)
    | none => exact corresponds_raise _

end Steps

/-! ### The rules of evaluation -/

section Rules

variable {ρ : Relocation}

/-- What each expression does here, it does elsewhere. -/
theorem corresponds_expression (table : ObjectId) (scope : ScopeId) (e : Expr) :
    Corresponds ρ (Value.relocate ρ) (expression table scope e)
      (expression (ρ.table table) (ρ.scope scope) (e.mapLines ρ.lines)) := by
  cases e with
  | missing => exact corresponds_raise _
  | unknown label token => exact corresponds_raise _
  | identifier ident => exact corresponds_name table scope ident.name
  | integer token n => exact .done (Value.integer n)
  | boolean token b => exact .done (Value.boolean b)
  | text token s => exact .done (Value.text s)
  | unary token operator operand =>
    refine corresponds_operand fun v _ => ?_
    exact corresponds_ofResult (Value.unary_relocate operator v)
  | binary token left operator right =>
    refine corresponds_operand fun a _ => corresponds_operand fun b _ => ?_
    exact corresponds_ofResult (Value.binary_relocate operator a b)
  | function token parameters body =>
    exact .fresh fun i => .done (Value.function i parameters body scope)
  | call token callee arguments =>
    rw [Expr.mapLines, Expr.mapLinesList_eq]
    refine corresponds_operand fun f _ => (corresponds_row scope arguments).bind fun r => ?_
    cases r with
    | ok values => exact corresponds_job (.call f values)
    | error error => exact .done error
  | array token elements =>
    rw [Expr.mapLines, Expr.mapLinesList_eq]
    refine (corresponds_row scope elements).bind fun r => ?_
    cases r with
    | ok values => exact corresponds_newArray values
    | error error => exact .done error
  | index token collection position =>
    refine corresponds_operand fun c hc => corresponds_operand fun p hp => ?_
    exact corresponds_ofResult (Value.index_relocate hc hp)
  | hash token ps =>
    rw [Expr.mapLines, Expr.mapLinesPairs_eq]
    refine (corresponds_pairs scope ps []).bind fun r => ?_
    cases r with
    | ok entries => exact .fresh fun i => .done (Value.hash i entries)
    | error error => exact .done error

theorem corresponds_statement (scope : ScopeId) (st : Stmt) :
    Corresponds ρ (Value.relocate ρ) (statement scope st)
      (statement (ρ.scope scope) (st.mapLines ρ.lines)) := by
  cases st with
  | unknown label token => exact corresponds_raise _
  | declaration keyword ident valueExpr =>
    refine .look fun m => ?_
    simp only [Plan.bind, Ident.mapLines]
    rw [Machine.lookupLocal_relocate]
    cases m.lookupLocal scope ident.name with
    | some value => exact corresponds_raise _
    | none => exact corresponds_operand fun v _ => .declare (.done v)
  | ret token valueExpr =>
    by_cases hmissing : valueExpr = .missing
    · subst hmissing
      exact .fresh fun i => .done (Value.ret i .void)
    · have hmissing' : valueExpr.mapLines ρ.lines ≠ .missing := by
        intro h
        cases valueExpr <;> first | exact hmissing rfl | cases h
      rw [Stmt.mapLines, statement, statement]
      · exact corresponds_operand fun v _ => .fresh fun i => .done (Value.ret i v)
      · exact hmissing'
      · exact hmissing
  | expression token e => exact corresponds_job (.expression scope e)
  | block b => exact corresponds_block scope b
  | ifThen token condition consequence =>
    refine corresponds_job_bind (j := .expression scope condition) fun v _ => ?_
    exact corresponds_choose v (corresponds_block scope consequence) (.done Value.null)
  | ifElse token condition consequence alternative =>
    refine corresponds_job_bind (j := .expression scope condition) fun v _ => ?_
    exact corresponds_choose v (corresponds_block scope consequence)
      (corresponds_block scope alternative)

section Calls

variable {arguments : List Value}

theorem corresponds_count (want : Nat) : Corresponds ρ (Value.relocate ρ)
    (raise (.builtinArgumentCount arguments.length want))
    (raise (.builtinArgumentCount (arguments.map (Value.relocate ρ)).length want)) := by
  rw [List.length_map]
  exact corresponds_raise _

theorem corresponds_withOne {f f' : Value → Plan Value}
    (hf : ∀ v, Corresponds ρ (Value.relocate ρ) (f v) (f' (v.relocate ρ))) :
    Corresponds ρ (Value.relocate ρ) (withOne arguments f)
      (withOne (arguments.map (Value.relocate ρ)) f') := by
  match arguments with
  | [v] => exact hf v
  | [] | _ :: _ :: _ => exact corresponds_count 1

theorem corresponds_withArray {b : Builtin} {argument : Value} {f f' : List Value → Plan Value}
    (hf : ∀ vs, Corresponds ρ (Value.relocate ρ) (f vs) (f' (vs.map (Value.relocate ρ)))) :
    Corresponds ρ (Value.relocate ρ) (withArray b argument f)
      (withArray b (argument.relocate ρ) f') := by
  cases argument with
  | array i elements =>
    rw [Value.relocate, Value.relocateList_eq]
    exact hf elements
  | _ => exact corresponds_raise _

/-- What is printed has the same text in both places. -/
theorem corresponds_builtin (b : Builtin) (harguments : ∀ v ∈ arguments, ρ.standard.Sound v) :
    Corresponds ρ (Value.relocate ρ) (builtin arguments b)
      (builtin (arguments.map (Value.relocate ρ)) b) := by
  cases b with
  | len =>
    refine corresponds_withOne fun v => ?_
    cases v with
    | array i elements =>
      rw [Value.relocate, Value.relocateList_eq]
      show Corresponds ρ _ _ (pure (Value.integer (elements.map (Value.relocate ρ)).length))
      rw [List.length_map]
      exact .done (Value.integer elements.length)
    | text s => exact .done (Value.integer _)
    | _ => exact corresponds_raise _
  | first =>
    refine corresponds_withOne fun v => corresponds_withArray fun vs => ?_
    cases vs with
    | nil => exact .done Value.null
    | cons v vs => exact .done v
  | last =>
    refine corresponds_withOne fun v => corresponds_withArray fun vs => ?_
    rw [List.getLast?_map]
    cases vs.getLast? with
    | none => exact .done Value.null
    | some v => exact .done v
  | rest =>
    refine corresponds_withOne fun v => corresponds_withArray fun vs => ?_
    cases vs with
    | nil => exact .done Value.null
    | cons v vs => exact corresponds_newArray vs
  | push =>
    match arguments with
    | [v, u] =>
      refine corresponds_withArray fun vs => ?_
      have happend := corresponds_newArray (ρ := ρ) (vs ++ [u])
      rwa [List.map_append] at happend
    | [] | [_] | _ :: _ :: _ :: _ => exact corresponds_count 2
  | print =>
    have htexts : (arguments.map (Value.relocate ρ)).map Value.inspect =
        arguments.map Value.inspect := by
      rw [List.map_map]
      exact List.map_congr_left fun v hv => Value.inspect_relocate (harguments v hv)
    rw [builtin, builtin, htexts]
    exact .print (.done Value.void)

theorem corresponds_call (function : Value) (harguments : ∀ v ∈ arguments, ρ.standard.Sound v) :
    Corresponds ρ (Value.relocate ρ) (call arguments function)
      (call (arguments.map (Value.relocate ρ)) (function.relocate ρ)) := by
  cases function with
  | function i parameters b outer =>
    rw [Value.relocate, call, call, List.length_map, List.length_map]
    refine corresponds_ite Iff.rfl (corresponds_raise _) ?_
    exact .nest (j := .body outer parameters b arguments) fun v _ => .done v
  | builtin table b => exact corresponds_builtin b harguments
  | _ => exact corresponds_raise _

end Calls

theorem corresponds_result (r : Sequel) :
    Corresponds ρ (Value.relocate ρ) (result r) (result (r.relocate ρ)) := by
  cases r with
  | exit value =>
    cases value with
    | ret i payload => exact .done payload
    | _ => exact .done (Sequel.exit _).value
  | finished last => exact corresponds_raise _

theorem corresponds_outcome (r : Sequel) :
    Corresponds ρ (Value.relocate ρ) (outcome r) (outcome (r.relocate ρ)) := by
  cases r with
  | exit value =>
    cases value with
    | ret i payload => exact corresponds_raise _
    | _ => exact .done (Sequel.exit _).value
  | finished last => exact .done last

end Rules

end Plan

/-- The plan of a job elsewhere takes the steps that its plan takes here. -/
theorem Job.corresponds {ρ : Relocation} {job : Job} {m : Machine} (table : ObjectId)
    (h : ρ.standard.Ready job m) : Plan.Corresponds ρ (Value.relocate ρ) (job.plan table)
      ((job.relocate ρ).plan (ρ.table table)) := by
  cases job with
  | expression scope e => exact Plan.corresponds_expression table scope e
  | statement scope st => exact Plan.corresponds_statement scope st
  | call function arguments => exact Plan.corresponds_call function h.2.2
  | body outer parameters b arguments =>
    obtain ⟨token, sts⟩ := b
    rw [Job.relocate, Block.mapLines, Stmt.mapLinesList_eq]
    refine .enter fun scope => ?_
    exact (Plan.corresponds_sequence scope sts .null).bind Plan.corresponds_result
  | program scope p =>
    exact (Plan.corresponds_sequence scope p.statements .null).bind Plan.corresponds_outcome

/-! ### The same outcome elsewhere -/

section Runs

variable {ρ : Relocation} {table : ObjectId} {depth : Nat} {m : Machine}

/-- The second computation does elsewhere what the first one does on the machine. -/
def Relocates {α β : Type} (ρ : Relocation) (map : α → β) (x : Eval α) (y : Eval β)
    (m : Machine) : Prop :=
  y.run (m.relocate ρ) = ρ.outcome map (x.run m)

theorem Relocates.bind {α β γ δ : Type} {map : α → β} {map' : γ → δ} {x : Eval α} {y : Eval β}
    {f : α → Eval γ} {g : β → Eval δ} (hx : Relocates ρ map x y m)
    (hf : ∀ a m', x.run m = .ok a m' → Relocates ρ map' (f a) (g (map a)) m') :
    Relocates ρ map' (x >>= f) (y >>= g) m := by
  unfold Relocates at hx hf ⊢
  cases hrun : x.run m with
  | ok a m' =>
    rw [hrun] at hx
    rw [run_bind_of_ok hrun, run_bind_of_ok hx, hf a m' hrun]
  | error e m' =>
    rw [hrun] at hx
    rw [run_bind_of_error hrun, run_bind_of_error hx]
    rfl

/-- Only the runs matter. -/
theorem relocates_congr {α β : Type} {map : α → β} {x x' : Eval α} {y y' : Eval β} {m' : Machine}
    (hx : x.run m = x'.run m') (hy : y.run (m.relocate ρ) = y'.run (m'.relocate ρ))
    (h : Relocates ρ map x' y' m') : Relocates ρ map x y m := by
  unfold Relocates at h ⊢
  rw [hx, hy, h]

/-- Every length is fine by the standard. -/
theorem Relocation.measured (event : Event) : ρ.standard.Measured table event := by
  intro _ _ _ _ _ _ _ _ _ _ h
  cases h

/-- A job that is ready has a sound result. -/
theorem Relocation.sound_of_run {job : Job} {value : Value} {m' : Machine}
    (hready : ρ.standard.Ready job m) (hrun : (job.run table depth).run m = .ok value m') :
    ρ.standard.Yields value m' :=
  Ensures.of_ok (Standard.does (show ρ.standard.Ready (Event.mk depth job m).job m from hready)
    fun e _ => ρ.measured e) hrun

/-- Corresponding plans lead to the same, if the jobs that they give out are done elsewhere as they
are done here. -/
theorem Plan.Corresponds.relocates {α β : Type} {map : α → β} {p : Plan α} {p' : Plan β}
    {size : Nat} {good : α → Machine → Prop} (h : Corresponds ρ map p p')
    (hp : p.Meets ρ.standard table depth size good m)
    (hperformed : ∀ (job : Job) m, job.size < size → ρ.standard.Ready job m → Relocates ρ
      (Value.relocate ρ) (job.run table depth) ((job.relocate ρ).run (ρ.table table) depth) m)
    (hnested : ∀ inner, depth = inner + 1 → ∀ (job : Job) m, ρ.standard.Ready job m → Relocates ρ
      (Value.relocate ρ) (job.run table inner) ((job.relocate ρ).run (ρ.table table) inner) m) :
    Relocates ρ map (p.run table depth) (p'.run (ρ.table table) depth) m := by
  induction h generalizing m with
  | done a => exact rfl
  | @perform job next next' _ ih =>
    obtain ⟨hsize, hready, hnext⟩ := hp
    refine (hperformed job m hsize hready).bind ?_
    intro value m' hrun
    have hyields := Relocation.sound_of_run hready hrun
    exact ih value hyields.2 (hnext value m' hrun hyields)
  | @nest job next next' _ ih =>
    obtain ⟨hready, hnext⟩ := hp
    cases depth with
    | zero => exact rfl
    | succ inner =>
      refine (hnested inner rfl job m hready).bind ?_
      intro value m' hrun
      have hyields := Relocation.sound_of_run hready hrun
      exact ih value hyields.2 (hnext inner value m' rfl hrun hyields)
  | fresh _ ih => exact ih m.supply hp
  | @print text next next' _ ih =>
    have hrun : ((Plan.print text next).run table depth).run m =
      (next.run table depth).run { m with output := m.output ++ text } := rfl
    refine relocates_congr hrun ?_ (ih hp)
    rw [Machine.relocate_print]
    rfl
  | @enter outer parameters arguments next next' _ ih =>
    refine relocates_congr (run_enter ..) ?_ (ih m.scopes.size hp)
    rw [run_enter, Machine.bindParameters_relocate, Machine.relocate_push, Machine.size_relocate]
    rfl
  | @declare scope name value next next' _ ih =>
    have hrun : ((Plan.declare scope name value next).run table depth).run m =
      (next.run table depth).run (m.declare scope name value) := rfl
    refine relocates_congr hrun ?_ (ih hp.2)
    rw [Machine.declare_relocate]
    rfl
  | look _ ih => exact ih m hp

/-- A job that is ready is done elsewhere as it is done here. -/
theorem Job.relocates (table : ObjectId) (depth : Nat) (job : Job) (h : ρ.standard.Ready job m) :
    Relocates ρ (Value.relocate ρ) (job.run table depth)
      ((job.relocate ρ).run (ρ.table table) depth) m := by
  induction depth, job using Job.induction generalizing m with
  | h depth job ih ihnested =>
    rw [Job.run_eq, Job.run_eq]
    refine (Job.corresponds table h).relocates (Job.meets h (ρ.measured _)) ?_ ?_
    · exact fun job' m' hsize hready => ih job' hsize hready
    · exact fun inner hdepth job' m' hready => ihnested inner hdepth job' hready

end Runs

end MonkeyLang
