import MonkeyLang.Proofs.Evaluation.Pipeline
import MonkeyLang.Proofs.Evaluation.Registry

/-!
# What jobs give out

A job gives out jobs of certain kinds only (`Job.Gives`): an expression gives out its parts and calls, a
call gives out the body of the function that is called, and a body or a program gives out its
statements, which give out expressions and the statements inside them.

Errors and returns are nowhere but where they are made. So a job that is done on a machine with genuine
bindings, for genuine values, gives out such jobs only (`Event.Clean`), and this holds of all jobs that
come up while it is done. `Plan.Tidy` goes through a plan for both. It only has to look at the values
that are given to jobs: the bindings stay genuine as every job agrees with the evaluator with exceptions
(`Job.answers`).
-/

namespace MonkeyLang

/-- The kinds of jobs that a job gives out. -/
inductive Job.Gives : Job → Job → Prop
  | part {scope scope' e e'} : Gives (.expression scope e) (.expression scope' e')
  | call {scope token callee es function arguments} :
      Gives (.expression scope (.call token callee es)) (.call function arguments)
  | body {id parameters b outer arguments} : arguments.length = parameters.length →
      Gives (.call (.function id parameters b outer) arguments) (.body outer parameters b arguments)
  | operand {scope st scope' e} : Gives (.statement scope st) (.expression scope' e)
  | inner {scope st scope' st'} : Gives (.statement scope st) (.statement scope' st')
  | bodyStatement {outer parameters b arguments scope st} :
      Gives (.body outer parameters b arguments) (.statement scope st)
  | topStatement {scope p scope' st} : Gives (.program scope p) (.statement scope' st)

/-- A job that is done for genuine values. -/
def Job.Genuine (job : Job) : Prop := ∀ v ∈ job.given, v.Genuine

/-- What an expression may be answered with. (What is done with other answers does not matter here.) -/
def Job.Answers : Job → Value → Prop
  | expression .., value => value.Genuine ∨ value.isError
  | _, _ => True

/-- What the plan gives out, binds and ends with is as it should be, if it finds genuine bindings and
gets such answers. -/
def Plan.Tidy {α : Type} (allowed : Job → Prop) (good : α → Prop) : Plan α → Prop
  | done result => good result
  | perform job next | nest job next =>
    (allowed job ∧ job.Genuine) ∧ ∀ value, job.Answers value → (next value).Tidy allowed good
  | fresh next => ∀ id, (next id).Tidy allowed good
  | print _ next => next.Tidy allowed good
  | enter _ _ arguments next =>
    (∀ v ∈ arguments, v.Genuine) ∧ ∀ scope, (next scope).Tidy allowed good
  | declare _ _ value next => value.Genuine ∧ next.Tidy allowed good
  | look next => ∀ m, m.Genuine → (next m).Tidy allowed good

namespace Plan

variable {α β : Type} {allowed : Job → Prop}

theorem tidy_bind {p : Plan α} {f : α → Plan β} {good : β → Prop} :
    (p >>= f).Tidy allowed good ↔ p.Tidy allowed fun a => (f a).Tidy allowed good := by
  show (p.bind f).Tidy allowed good ↔ _
  induction p with
  | done => exact Iff.rfl
  | perform _ _ ih | nest _ _ ih | fresh _ ih | look _ ih => simp only [bind, Tidy, ih]
  | print _ _ ih | declare _ _ _ _ ih | enter _ _ _ _ ih => simp only [bind, Tidy, ih]

theorem tidy_ite {c : Prop} [Decidable c] {p q : Plan α} {good : α → Prop}
    (hp : c → p.Tidy allowed good) (hq : ¬ c → q.Tidy allowed good) :
    (if c then p else q).Tidy allowed good := by
  by_cases h : c
  · rw [if_pos h]
    exact hp h
  · rw [if_neg h]
    exact hq h

/-! ### The rules of evaluation -/

section Rules

/-- The plan is tidy, whatever it ends with. -/
abbrev IsTidy (allowed : Job → Prop) (p : Plan Value) : Prop := p.Tidy allowed fun _ => True

theorem tidy_raise {fault : Fault} : (raise fault).IsTidy allowed := fun _ => trivial

theorem tidy_ofResult (r : Except Fault Value) : (ofResult r).IsTidy allowed := by
  cases r with
  | ok => exact trivial
  | error => exact tidy_raise

section Expressions

variable (hexpression : ∀ scope e, allowed (.expression scope e))

include hexpression

/-- The value of an expression as a part of something larger: if it is an error, it is the result. -/
theorem tidy_operand {scope : ScopeId} {e : Expr} {f : Value → Plan Value}
    (hf : ∀ value, value.Genuine → (f value).IsTidy allowed) :
    (do let value ← job (.expression scope e)
        if value.isError then return value else f value).IsTidy allowed := by
  refine ⟨⟨hexpression scope e, List.forall_mem_nil _⟩, fun value hvalue => ?_⟩
  exact tidy_ite (fun _ => trivial) fun hok => hf value (hvalue.resolve_right hok)

theorem tidy_row {scope : ScopeId} {es : List Expr} {good : Except Value (List Value) → Prop}
    (hok : ∀ values, (∀ v ∈ values, v.Genuine) → good (.ok values))
    (herror : ∀ error, good (.error error)) : (row scope es).Tidy allowed good := by
  induction es generalizing good with
  | nil => exact hok [] (List.forall_mem_nil _)
  | cons e es ih =>
    refine ⟨⟨hexpression scope e, List.forall_mem_nil _⟩, fun value hvalue => ?_⟩
    refine tidy_ite (fun _ => herror value) fun herr => tidy_bind.2 (ih ?_ herror)
    intro values hvalues
    exact hok _ (List.forall_mem_cons.2 ⟨hvalue.resolve_right herr, hvalues⟩)

theorem tidy_pairs {scope : ScopeId} {ps : List (Expr × Expr)}
    {entries : List (HashKey × Value × Value)}
    {good : Except Value (List (HashKey × Value × Value)) → Prop} (hgood : ∀ r, good r) :
    (pairs scope entries ps).Tidy allowed good := by
  induction ps generalizing entries with
  | nil => exact hgood _
  | cons p ps ih =>
    obtain ⟨keyExpr, valueExpr⟩ := p
    refine ⟨⟨hexpression scope keyExpr, List.forall_mem_nil _⟩, fun key _ => ?_⟩
    refine tidy_ite (fun _ => hgood _) fun _ => ?_
    cases key.hashKey? with
    | none => exact fun _ => hgood _
    | some hashKey =>
      refine ⟨⟨hexpression scope valueExpr, List.forall_mem_nil _⟩, fun value _ => ?_⟩
      exact tidy_ite (fun _ => hgood _) fun _ => ih

end Expressions

section Statements

variable (hstatement : ∀ scope st, allowed (.statement scope st))

include hstatement

theorem tidy_sequence {scope : ScopeId} {sts : List Stmt} {last : Value} {good : Sequel → Prop}
    (hgood : ∀ r, good r) : (sequence scope last sts).Tidy allowed good := by
  induction sts generalizing last with
  | nil => exact hgood _
  | cons st sts ih =>
    refine ⟨⟨hstatement scope st, List.forall_mem_nil _⟩, fun value _ => ?_⟩
    exact tidy_ite (fun _ => hgood _) fun _ => ih

theorem tidy_block {outer : ScopeId} {b : Block} : (block outer b).IsTidy allowed := by
  refine ⟨List.forall_mem_nil _, fun scope => ?_⟩
  have hsequence : (sequence scope .null b.statements >>= fun r => pure r.value).IsTidy allowed :=
    tidy_bind.2 (tidy_sequence hstatement fun _ => trivial)
  exact hsequence

end Statements

theorem tidy_choose {condition : Value} {yes no : Plan Value} (hyes : yes.IsTidy allowed)
    (hno : no.IsTidy allowed) : (choose condition yes no).IsTidy allowed := by
  unfold choose
  split
  · exact hyes
  · exact hno
  · exact tidy_ite (fun _ => trivial) fun _ => tidy_raise

theorem tidy_name {table : ObjectId} {scope : ScopeId} {n : String} :
    (name table scope n).IsTidy allowed := by
  intro m _
  simp only [Plan.bind]
  cases m.lookup scope n with
  | some value => exact trivial
  | none =>
    cases Builtin.ofName? n with
    | some b => exact trivial
    | none => exact tidy_raise

theorem tidy_expression {table : ObjectId} {scope : ScopeId} {e : Expr} :
    (expression table scope e).IsTidy (Job.expression scope e).Gives := by
  have hpart : ∀ scope' e', (Job.expression scope e).Gives (.expression scope' e') :=
    fun _ _ => .part
  cases e with
  | missing | unknown => exact tidy_raise
  | identifier ident => exact tidy_name
  | integer | boolean | text => exact trivial
  | unary token operator operand => exact tidy_operand hpart fun _ _ => tidy_ofResult _
  | binary token left operator right | index token collection position =>
    exact tidy_operand hpart fun _ _ => tidy_operand hpart fun _ _ => tidy_ofResult _
  | function token parameters body => exact fun _ => trivial
  | call token callee arguments =>
    refine tidy_operand hpart fun function hfunction => tidy_bind.2 (tidy_row hpart ?_ ?_)
    · intro values hvalues
      exact ⟨⟨.call, List.forall_mem_cons.2 ⟨hfunction, hvalues⟩⟩, fun _ _ => trivial⟩
    · exact fun _ => trivial
  | array token elements =>
    exact tidy_bind.2 (tidy_row hpart (fun _ _ _ => trivial) fun _ => trivial)
  | hash token ps =>
    refine tidy_bind.2 (tidy_pairs hpart fun r => ?_)
    cases r with
    | ok => exact fun _ => trivial
    | error => exact trivial

theorem tidy_statement {scope : ScopeId} {st : Stmt} :
    (statement scope st).IsTidy (Job.statement scope st).Gives := by
  have hoperand : ∀ scope' e, (Job.statement scope st).Gives (.expression scope' e) :=
    fun _ _ => .operand
  have hinner : ∀ scope' st', (Job.statement scope st).Gives (.statement scope' st') :=
    fun _ _ => .inner
  cases st with
  | unknown => exact tidy_raise
  | declaration keyword ident valueExpr =>
    intro m _
    simp only [Plan.bind]
    cases m.lookupLocal scope ident.name with
    | some value => exact tidy_raise
    | none => exact tidy_operand hoperand fun value hvalue => ⟨hvalue, trivial⟩
  | ret token valueExpr =>
    by_cases hmissing : valueExpr = .missing
    · subst hmissing
      exact fun _ => trivial
    · rw [statement]
      · exact tidy_operand hoperand fun _ _ _ => trivial
      · exact hmissing
  | expression token value =>
    exact ⟨⟨.operand, List.forall_mem_nil _⟩, fun _ _ => trivial⟩
  | block b => exact tidy_block hinner
  | ifThen token condition consequence =>
    refine ⟨⟨.operand, List.forall_mem_nil _⟩, fun value _ => ?_⟩
    exact tidy_choose (tidy_block hinner) trivial
  | ifElse token condition consequence alternative =>
    refine ⟨⟨.operand, List.forall_mem_nil _⟩, fun value _ => ?_⟩
    exact tidy_choose (tidy_block hinner) (tidy_block hinner)

/-- The built-in functions give out no jobs. -/
theorem tidy_builtin (arguments : List Value) (b : Builtin) :
    (builtin arguments b).IsTidy allowed := by
  have hone : ∀ {f : Value → Plan Value}, (∀ v, (f v).IsTidy allowed) →
      (withOne arguments f).IsTidy allowed := by
    intro f hf
    unfold withOne
    split
    · exact hf _
    · exact tidy_raise
  have harray : ∀ {b : Builtin} {argument : Value} {f : List Value → Plan Value},
      (∀ vs, (f vs).IsTidy allowed) → (withArray b argument f).IsTidy allowed := by
    intro b argument f hf
    unfold withArray
    split
    · exact hf _
    · exact tidy_raise
  cases b with
  | len =>
    refine hone fun v => ?_
    split
    · exact trivial
    · exact trivial
    · exact tidy_raise
  | first | last => exact hone fun v => harray fun vs => trivial
  | rest =>
    refine hone fun v => harray fun vs => ?_
    cases vs with
    | nil => exact trivial
    | cons => exact fun _ => trivial
  | push =>
    match arguments with
    | [v, u] => exact harray fun vs _ => trivial
    | [] | [_] | _ :: _ :: _ :: _ => exact tidy_raise
  | print => exact trivial

end Rules

end Plan

/-- Every job gives out jobs of its kinds, for genuine values. -/
theorem Job.tidy {table : ObjectId} {job : Job} (h : job.Genuine) :
    (job.plan table).IsTidy job.Gives := by
  cases job with
  | expression scope e => exact Plan.tidy_expression
  | statement scope st => exact Plan.tidy_statement
  | call function arguments =>
    obtain ⟨-, harguments⟩ := List.forall_mem_cons.1 h
    cases function with
    | function id parameters b outer =>
      refine Plan.tidy_ite (fun _ => Plan.tidy_raise) fun hlength => ?_
      exact ⟨⟨.body (not_not.1 hlength), harguments⟩, fun _ _ => trivial⟩
    | builtin t b => exact Plan.tidy_builtin arguments b
    | _ => exact Plan.tidy_raise
  | body outer parameters b arguments =>
    refine ⟨h, fun scope => Plan.tidy_bind.2 (Plan.tidy_sequence (fun _ _ => .bodyStatement) ?_)⟩
    intro r
    unfold Plan.result
    split
    · exact trivial
    · exact trivial
    · exact Plan.tidy_raise
  | program scope p =>
    refine Plan.tidy_bind.2 (Plan.tidy_sequence (fun _ _ => .topStatement) ?_)
    intro r
    unfold Plan.outcome
    split
    · exact Plan.tidy_raise
    · exact trivial

/-! ### Clean events -/

open Throwing

section Clean

variable {table : ObjectId} {depth : Nat} {m : Machine}

/-- A job that is done for genuine values keeps the bindings genuine. -/
theorem Job.answers (table : ObjectId) (depth : Nat) {job : Job} (hm : m.Genuine) (h : job.Genuine) :
    m.Yields (job.run table depth) job.Answers := by
  cases job with
  | expression scope e => exact hm.clean.expression table depth scope e
  | statement scope st =>
    exact (hm.clean.statement table depth scope st).mono (fun _ _ h => ⟨h.1, trivial⟩) fun _ _ h => h
  | call function arguments =>
    obtain ⟨hfunction, harguments⟩ := List.forall_mem_cons.1 h
    exact ((contextsAgree_ofTable table depth).call _ _ m hm hfunction harguments).yields
      (fun _ _ => trivial) fun _ _ => trivial
  | body outer parameters b arguments =>
    have hbound := Machine.Holds.bindParameters (Machine.Holds.push hm (some outer)) m.scopes.size
      parameters h
    have hsequence := agrees_sequence (contextsAgree_ofTable table depth) m.scopes.size b.statements
      hbound (Value.all_null.2 rfl)
    have hresult : Machine.Yields _ _ _ := (agrees_catchReturn hsequence).yields
      (P := fun _ => True) (fun _ _ => trivial) fun _ _ => trivial
    exact (ensures_congr (run_bind_of_ok (run_bindParameters ..))).2 hresult
  | program scope p =>
    exact (agrees_program scope p hm).yields (fun _ _ => trivial) fun _ _ => trivial

/-- The job is done on a machine with genuine bindings, for genuine values. -/
structure Event.Clean (event : Event) : Prop where
  bindings : event.machine.Genuine
  given : event.job.Genuine

/-- A tidy plan gives out clean jobs on a machine with genuine bindings. -/
theorem Plan.Tidy.clean {α : Type} {allowed : Job → Prop} {good : α → Prop} {p : Plan α}
    (hp : p.Tidy allowed good) (hm : m.Genuine) :
    ∀ e ∈ p.begun table depth m, e.Clean ∧ allowed e.job := by
  induction p generalizing m with
  | done result => exact List.forall_mem_nil _
  | perform job next ih =>
    obtain ⟨⟨hallowed, hjob⟩, hnext⟩ := hp
    have hanswers := Job.answers table depth hm hjob
    cases hrun : (job.run table depth).run m with
    | ok value m' =>
      rw [begun_perform_of_ok hrun, List.forall_mem_cons]
      obtain ⟨hm', hvalue⟩ := Ensures.of_ok hanswers hrun
      exact ⟨⟨⟨hm, hjob⟩, hallowed⟩, ih value (hnext value hvalue) hm'⟩
    | error overflow m' =>
      rw [begun_perform_of_error hrun, List.forall_mem_singleton]
      exact ⟨⟨hm, hjob⟩, hallowed⟩
  | nest job next ih =>
    obtain ⟨⟨hallowed, hjob⟩, hnext⟩ := hp
    cases depth with
    | zero => exact List.forall_mem_nil _
    | succ inner =>
      have hanswers := Job.answers table inner hm hjob
      cases hrun : (job.run table inner).run m with
      | ok value m' =>
        rw [begun_nest_of_ok hrun, List.forall_mem_cons]
        obtain ⟨hm', hvalue⟩ := Ensures.of_ok hanswers hrun
        exact ⟨⟨⟨hm, hjob⟩, hallowed⟩, ih value (hnext value hvalue) hm'⟩
      | error overflow m' =>
        rw [begun_nest_of_error hrun, List.forall_mem_singleton]
        exact ⟨⟨hm, hjob⟩, hallowed⟩
  | fresh next ih => exact ih _ (hp _) hm
  | print text next ih => exact ih hp hm
  | enter outer parameters arguments next ih =>
    exact ih _ (hp.2 _) ((Machine.Holds.push hm _).bindParameters _ _ hp.1)
  | declare scope name value next ih => exact ih hp.2 (Machine.Holds.declare hm scope name hp.1)
  | look next ih => exact ih m (hp m hm) hm

namespace Event

variable {event event' : Event}

/-- What a clean job gives out is clean, and of one of its kinds. -/
theorem Clean.begun (h : event.Clean) (h' : event' ∈ event.begun table) :
    event'.Clean ∧ event.job.Gives event'.job :=
  (Job.tidy h.given).clean h.bindings event' h'

/-- All jobs that come up while a clean job is done are clean. -/
theorem Clean.reaches (h : event.Clean) (h' : event.Reaches table event') : event'.Clean := by
  induction h' with
  | refl => exact h
  | step hbegun _ ih => exact ih (h.begun hbegun).1

end Event

end Clean

end MonkeyLang
