import MonkeyLang.Proofs.Evaluation.CallBoundary

/-!
# What can be read off a function

Four things about functions can be told from the source text, without running it. Functions that always
return do not miss a return; a function without a return never yields a value; a program whose returns
are all inside of functions has none outside of them; and a return ends the innermost call around it,
and nothing else.

A return is done inside the body of a call or by the program itself, and not both: between a call and
its returns there are only statements (`Event.enclosed`).
-/

namespace MonkeyLang

/-! ### Functions without a return -/

namespace Throwing

/-- What a computation with exceptions ensures of what is made of its result, so does what agrees with
it. -/
theorem Agrees.transfer {ε α β : Type} {out : Except ε β → α} {good : β → Prop} {bad : ε → Prop}
    {x : Eval α} {y : ExceptT ε Eval β} {m : Machine} {P : α → Machine → Prop}
    {Q : Overflow → Machine → Prop} (h : Agrees out good bad x y m)
    (hy : Ensures y.run m (fun r m' => P (out r) m') Q) : Ensures x m P Q := by
  unfold Agrees Ensures at h
  unfold Ensures at hy ⊢
  cases hrun : y.run.run m with
  | ok r m' =>
    rw [hrun] at h hy
    rw [h.1]
    exact hy
  | error overflow m' =>
    rw [hrun] at h hy
    rw [h.1]
    exact hy

/-- A body that does not end at a return is no body of a function. -/
theorem throws_catchReturn {y : Exiting Value} (h : Ends y IsNoReturn) :
    Ends (catchReturn y) fun r => ∃ error, r = .error error := by
  refine fun m => ensures_bind.2 ((h m).mono (fun r m' hr => ?_) fun _ _ h => h)
  cases r with
  | ok value => exact ⟨_, rfl⟩
  | error exit =>
    cases exit with
    | thrown error => exact ⟨error, rfl⟩
    | returned id value => exact absurd rfl (hr id value)

/-- A function without a return throws an error, whatever it is called with. -/
theorem throws_apply {body : Block} (h : Stmt.anyHasReturn body.statements = false)
    (table : ObjectId) (depth : Nat) (id : ObjectId) (parameters : List Ident) (outer : ScopeId)
    (arguments : List Value) :
    Ends (apply table depth (.function id parameters body outer) arguments)
      fun r => ∃ error, r = .error error := by
  by_cases hlength : arguments.length ≠ parameters.length
  · cases depth <;> rw [apply, if_pos hlength] <;> exact fun m => ⟨_, rfl⟩
  · cases depth with
    | zero =>
      rw [apply, if_neg hlength]
      exact fun m => trivial
    | succ d =>
      rw [apply, if_neg hlength]
      refine (ends_any _).bind (fun scope _ => ?_) fun e _ => ⟨e, rfl⟩
      refine (ends_any _).bind (fun _ _ => ?_) fun e _ => ⟨e, rfl⟩
      exact throws_catchReturn (isNoReturn_sequence _ scope body.statements .null h)

end Throwing

/-- What is given out, is no statement and gives out statements itself is the body of a call. -/
theorem Job.Gives.isCall {job job' job'' : Job} (h : job.Gives job') (h' : job'.Gives job'')
    (hjob' : ¬ job'.isStatement) (hjob'' : job''.isStatement) : job.isCall := by
  cases h with
  | body => rfl
  | inner | bodyStatement | topStatement => exact absurd rfl hjob'
  | part | call | operand => cases h' <;> cases hjob''

namespace Event

variable {table : ObjectId} {event event' : Event} {value : Value} {m : Machine}

/-- A call of a function without a return yields no value but an error. -/
theorem Clean.isError_of_call (hclean : event.Clean) {id : ObjectId} {parameters : List Ident}
    {body : Block} {outer : ScopeId} {arguments : List Value}
    (hjob : event.job = .call (.function id parameters body outer) arguments)
    (h : ¬ (Node.block body).ExposesReturn) (hresult : event.result table = .ok value m) :
    value.isError := by
  have hgiven := hclean.given
  rw [hjob] at hgiven
  obtain ⟨hfunction, harguments⟩ := List.forall_mem_cons.1 hgiven
  have hagrees := (Throwing.contextsAgree_ofTable table event.depth).call _ _ event.machine
    hclean.bindings hfunction harguments
  have hbody : Stmt.anyHasReturn body.statements = false := by
    obtain ⟨token, sts⟩ := body
    exact Bool.eq_false_iff.2 fun hreturn => h ((Block.hasReturn_iff _).1 (by rwa [Block.hasReturn]))
  have hthrows := Throwing.throws_apply hbody table event.depth id parameters outer arguments
    event.machine
  have hends : Ensures (applyValue table event.depth _ arguments) event.machine
      (fun value _ => value.isError) fun _ _ => True :=
    hagrees.transfer (hthrows.mono (fun r _ ⟨error, hr⟩ => hr ▸ rfl) fun _ _ h => h)
  unfold Event.result at hresult
  rw [hjob] at hresult
  exact hends.of_ok hresult

section Enclosed

/-- A statement is done as a part of the job itself, or inside the body of a call. -/
theorem Clean.enclosed (hclean : event.Clean) (hreaches : event.Reaches table event')
    (hstatement : event'.job.isStatement) : event.Inside table event' ∨
      ∃ call body, event.Reaches table call ∧ call.job.isCall ∧ body ∈ call.begun table ∧
        body.Inside table event' := by
  induction hreaches with
  | refl => exact .inl .refl
  | @step event next event' hbegun hreaches ih =>
    obtain ⟨hnext, hgives⟩ := hclean.begun hbegun
    rcases ih hnext hstatement with hinside | ⟨call, body, hcall, hrest⟩
    · by_cases hjob : next.job.isStatement
      · exact .inl (.step hbegun hjob hinside)
      · refine .inr ⟨event, next, .refl, ?_, hbegun, hinside⟩
        cases hinside with
        | refl => exact absurd hstatement hjob
        | step hbegun' hstatement' _ => exact hgives.isCall (hnext.begun hbegun').2 hjob hstatement'
    · exact .inr ⟨call, body, .step hbegun hcall, hrest⟩

end Enclosed

end Event

/-! ### What a return gives back -/

/-- The value of a return: void for a bare one, else the value of the expression on this machine. -/
structure Expr.Returned (table : ObjectId) (depth : Nat) (scope : ScopeId) (e : Expr) (m : Machine)
    (value : Value) : Prop where
  bare : e = .missing → value = .void
  given : e ≠ .missing → ∃ m', (e.eval (.ofTable table depth) scope).run m = .ok value m'

/-- A return ends in an error, or carries its value. -/
theorem Event.returned {table : ObjectId} {event : Event} {scope : ScopeId} {token : Token} {e : Expr}
    {r : Value} {m : Machine} (hjob : event.job = .statement scope (.ret token e))
    (hresult : event.result table = .ok r m) : r.isError ∨
      ∃ id value, r = .ret id value ∧ e.Returned table event.depth scope event.machine value := by
  unfold Event.result at hresult
  rw [hjob] at hresult
  change ((Stmt.ret token e).eval (.ofTable table event.depth) scope).run event.machine = .ok r m
    at hresult
  by_cases hmissing : e = .missing
  · subst hmissing
    rw [Stmt.eval] at hresult
    cases hresult
    exact .inr ⟨_, _, rfl, fun _ => rfl, fun h => absurd rfl h⟩
  · have heval : (Stmt.ret token e).eval (.ofTable table event.depth) scope = (do
        let value ← e.eval (.ofTable table event.depth) scope
        if value.isError then return value else Eval.newReturn value) := by
      rw [Stmt.eval]
      exact hmissing
    rw [heval] at hresult
    cases hvalue : (e.eval (.ofTable table event.depth) scope).run event.machine with
    | error overflow m' =>
      rw [run_bind_of_error hvalue] at hresult
      cases hresult
    | ok value m' =>
      rw [run_bind_of_ok hvalue] at hresult
      by_cases herror : value.isError
      · rw [if_pos herror] at hresult
        cases hresult
        exact .inl herror
      · rw [if_neg herror] at hresult
        cases hresult
        exact .inr ⟨_, _, rfl, fun h => absurd h hmissing, fun _ => ⟨m', hvalue⟩⟩

/-! ### The contract -/

/-- What can be told of the functions of a program whose text runs in a new scope. -/
structure FunctionContract (m : Machine) (limit : Nat) (source : String) (program : Program) :
    Prop where
  /-- the run is the job that the events come from -/
  run_eq : (runAlone limit source).run m =
    runOutcome program ((Event.ofRun m.withScope limit m.scopes.size program).result m.supply)
  /-- functions that always return do not miss a return -/
  missing : program.FunctionsReturn → ∀ result m' id fault,
    (runAlone limit source).run m = .ok result m' → result.value = some (.error id fault) →
      fault.message ≠ "missing return at the end of function body"
  /-- a function without a return of its own yields errors only, even with the right arguments -/
  unreturned : ∀ call, (Event.ofRun m.withScope limit m.scopes.size program).Reaches m.supply call →
    ∀ id parameters body outer arguments,
      call.job = .call (.function id parameters body outer) arguments →
      ¬ (Node.block body).ExposesReturn → ∀ value m', call.result m.supply = .ok value m' → value.isError
  /-- without a return outside of functions, none is reported -/
  escaped : (∀ st ∈ program.statements, ¬ (Node.statement st).ExposesReturn) → ∀ result m' id fault,
    (runAlone limit source).run m = .ok result m' → result.value = some (.error id fault) →
      fault.message ≠ "return statement not permitted outside function body"
  /-- every statement that is done belongs to the program itself, or to the body of a call -/
  enclosed : ∀ event, (Event.ofRun m.withScope limit m.scopes.size program).Reaches m.supply event →
    event.job.isStatement →
      (Event.ofRun m.withScope limit m.scopes.size program).Inside m.supply event ∨
      ∃ call body, (Event.ofRun m.withScope limit m.scopes.size program).Reaches m.supply call ∧
        call.job.isCall ∧ body ∈ call.begun m.supply ∧ body.Inside m.supply event
  /-- a return that is done in the body of a call, and does not fail, ends this call and no other -/
  returns : ∀ call body ret,
    (Event.ofRun m.withScope limit m.scopes.size program).Reaches m.supply call → call.job.isCall →
      body ∈ call.begun m.supply → body.Inside m.supply ret →
      ∀ scope token e, ret.job = .statement scope (.ret token e) →
      ∀ r m', ret.result m.supply = .ok r m' → r.isError ∨ ∃ id value, r = .ret id value ∧
        e.Returned m.supply ret.depth scope ret.machine value ∧
        Event.EndsCall m.supply call body ret value m'

section Contract

variable {m : Machine} {limit : Nat} {source : String} {program : Program}

theorem Sourced.clean_ofRun (hm : Sourced m) (limit : Nat) (program : Program) :
    (Event.ofRun m.withScope limit m.scopes.size program).Clean where
  bindings := (Sourced.scope none hm).holds.genuine
  given := List.forall_mem_nil _

/-- If a program ends in an error about returns, the condition on its statements is not met. -/
theorem allowed_of_result {result : RunResult} {m' : Machine} {id : ObjectId} {fault fault' : Fault}
    (hparse : parse source = .ok ⟨program, []⟩)
    (hrun : (runAlone limit source).run m = .ok result m')
    (hvalue : result.value = some (.error id fault)) (hreturns : fault'.IsAboutReturns)
    (hmessage : fault.message = fault'.message) : (Policy.returning program).Allowed fault' := by
  have hresult : result = ⟨program, [], some (.error id fault)⟩ := by
    rw [runAlone_of_parse hparse] at hrun
    unfold runOutcome at hrun
    split at hrun
    · cases hrun
      rw [Option.some.inj hvalue]
    · cases hrun
  subst hresult
  exact allowed_of_run hparse hrun hreturns hmessage

/-- The functions of a source text that parses without an error keep to the contract, wherever it
runs. -/
theorem functions_return_as_written (hm : Sourced m) (hparse : parse source = .ok ⟨program, []⟩)
    (limit : Nat) : FunctionContract m limit source program := by
  have hroot := hm.clean_ofRun limit program
  refine ⟨runAlone_of_parse hparse, ?_, ?_, ?_, ?_, ?_⟩
  · intro hfunctions result m' id fault hrun hvalue hmessage
    have hreturns : Fault.missingReturn.IsAboutReturns := .inl rfl
    exact (allowed_of_result hparse hrun hvalue hreturns hmessage).2.1 rfl hfunctions
  · intro call hcall id parameters body outer arguments hjob hnone value m' hresult
    exact (hroot.reaches hcall).isError_of_call hjob hnone hresult
  · intro hnone result m' id fault hrun hvalue hmessage
    have hreturns : Fault.returnOutsideFunction.IsAboutReturns := .inr rfl
    have hallowed := allowed_of_result hparse hrun hvalue hreturns hmessage
    obtain ⟨st, hst, hexposes⟩ := (Stmt.anyHasReturn_iff _).1 (hallowed.2.2 rfl)
    exact hnone st hst hexposes
  · intro event hevent hstatement
    exact hroot.enclosed hevent hstatement
  · intro call body ret hcall hisCall hbody hinside scope token e hjob r m' hresult
    refine (Event.returned hjob hresult).imp_right ?_
    rintro ⟨id, value, rfl, hvalue⟩
    have hret : ret.job.isStatement := by
      rw [hjob]
      rfl
    exact ⟨id, value, rfl, hvalue,
      Event.endsCall (hroot.reaches hcall) hisCall hbody hinside hret hresult⟩

end Contract

/-! ### Checking a program -/

/-- Whether this holds of the node and of all that occurs in it, if its parts are nested in each other
fewer than `fuel` times. -/
def Node.all (check : Node → Bool) : (fuel : Nat) → Node → Bool
  | 0, _ => false
  | fuel + 1, node => check node && node.children.all fun part => part.2.all check fuel

/-- Whether the node is no function literal, or one that always returns. -/
def Node.functionReturns : Node → Bool
  | .expression (.function _ _ body) => body.alwaysReturns
  | _ => true

/-- What is checked of the statements holds of all that occurs in the program. -/
theorem Occurs.all {check : Node → Bool} {fuel : Nat} {program : Program} {frames : List Frame}
    {node : Node} (hoccurs : Occurs program frames node)
    (h : program.statements.all fun st => (Node.statement st).all check fuel) :
    ∃ fuel, node.all check fuel := by
  induction hoccurs with
  | top hst => exact ⟨fuel, List.all_eq_true.1 h _ hst⟩
  | child _ hchild ih =>
    obtain ⟨fuel, hall⟩ := ih
    cases fuel with
    | zero => cases hall
    | succ fuel =>
      rw [Node.all, Bool.and_eq_true, List.all_eq_true] at hall
      exact ⟨fuel, hall.2 _ hchild⟩

/-- Whether all functions always return can be computed. -/
theorem functionsReturn_of_all {fuel : Nat} {program : Program}
    (h : program.statements.all fun st => (Node.statement st).all Node.functionReturns fuel) :
    program.FunctionsReturn := by
  intro frames token parameters body hoccurs
  obtain ⟨fuel, hall⟩ := hoccurs.all h
  cases fuel with
  | zero => cases hall
  | succ fuel =>
    rw [Node.all, Bool.and_eq_true] at hall
    exact hall.1

/-- A function in a function, both of which return from inside of branches. -/
def clamp : String :=
  "var clamp = fun(x) \x7b if (x < 0) \x7b return; \x7d else \x7b if (9 < x) \x7b return 9; \x7d " ++
  "return fun() \x7b return x; \x7d; \x7d print(x); \x7d; clamp(12); clamp(3)();"

/-- Its functions always return, so it does not end in an error about that. -/
theorem functions_return_as_written_of_clamp : Sourced .initial ∧ ∃ program,
    parse clamp = .ok ⟨program, []⟩ ∧ program.FunctionsReturn ∧
      FunctionContract .initial 10 clamp program := by
  obtain ⟨program, hparse, hall⟩ := exists_of_checked clamp
    (fun program => program.statements.all fun st => (Node.statement st).all Node.functionReturns 20)
    (by decide +kernel)
  exact ⟨.initial, program, hparse, functionsReturn_of_all hall,
    functions_return_as_written .initial hparse 10⟩

end MonkeyLang
