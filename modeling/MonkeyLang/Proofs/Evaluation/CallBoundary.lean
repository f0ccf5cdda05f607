import MonkeyLang.Proofs.Evaluation.Jobs
import MonkeyLang.Proofs.Evaluation.Returning
import MonkeyLang.Proofs.Evaluation.Words

/-!
# Where a return stops

A return travels outwards through the blocks and branches around it, and each of them ends with it: it
is the last job that they give out (`Plan.Stops`). At the body of a function it stops. The body ends
with the value that is returned, and so does the call; as this is no return, nothing else is ended by
it.

`Event.Inside` relates the body of a call, or a program, to the statements that are done as a part of
it, and `Event.EndsCall` says all that becomes of a return inside the body of a call.
-/

namespace MonkeyLang

/-- The job is a statement. -/
def Job.isStatement : Job → Bool
  | statement .. => true
  | _ => false

/-- The job is a call. -/
def Job.isCall : Job → Bool
  | call .. => true
  | _ => false

/-- What a return carries; another value itself. -/
def Value.carried : Value → Value
  | .ret _ value => value
  | value => value

namespace Plan

variable {α β : Type} {table : ObjectId} {depth : Nat} {m m' : Machine}

/-! ### Jobs of one plan after another -/

/-- The jobs that are given out after a computation that ended so. -/
def behind (r : EStateM.Result Overflow Machine α) (g : α → Machine → List Event) : List Event :=
  match r with
  | .ok a m => g a m
  | .error .. => []

/-- The jobs of the second plan come behind those of the first one. -/
theorem begun_bind (p : Plan α) (f : α → Plan β) : (p >>= f).begun table depth m =
    p.begun table depth m ++
      behind ((p.run table depth).run m) fun a m' => (f a).begun table depth m' := by
  show (p.bind f).begun table depth m = _
  induction p generalizing m with
  | done result => rfl
  | perform job next ih =>
    rw [bind, run]
    cases hrun : (job.run table depth).run m with
    | ok value m₁ =>
      rw [begun_perform_of_ok hrun, begun_perform_of_ok hrun, run_bind_of_ok hrun, ih value]
      rfl
    | error overflow m₁ =>
      rw [begun_perform_of_error hrun, begun_perform_of_error hrun, run_bind_of_error hrun]
      rfl
  | nest job next ih =>
    rw [bind]
    cases depth with
    | zero => rfl
    | succ inner =>
      rw [run]
      cases hrun : (job.run table inner).run m with
      | ok value m₁ =>
        rw [begun_nest_of_ok hrun, begun_nest_of_ok hrun, run_bind_of_ok hrun, ih value]
        rfl
      | error overflow m₁ =>
        rw [begun_nest_of_error hrun, begun_nest_of_error hrun, run_bind_of_error hrun]
        rfl
  | fresh next ih => exact ih _
  | print text next ih => exact ih
  | enter outer parameters arguments next ih =>
    rw [run_enter]
    exact ih _
  | declare scope name value next ih => exact ih
  | look next ih => exact ih m

theorem mem_begun_job {job : Job} {event : Event} (h : event ∈ (Plan.job job).begun table depth m) :
    event = ⟨depth, job, m⟩ := by
  rw [Plan.job, begun] at h
  rcases List.mem_cons.1 h with h | h
  · exact h
  · cases hrun : (job.run table depth).run m <;> rw [hrun] at h <;> cases h

/-- The jobs of a row are expressions. -/
theorem isExpression_of_row {scope : ScopeId} {es : List Expr} {event : Event}
    (h : event ∈ (row scope es).begun table depth m) : ∃ e, event.job = .expression scope e := by
  induction es generalizing m with
  | nil => cases h
  | cons e es ih =>
    rw [row, begun_bind] at h
    rcases List.mem_append.1 h with h | h
    · exact ⟨e, congrArg Event.job (mem_begun_job h)⟩
    · cases hrun : ((Plan.job (.expression scope e)).run table depth).run m with
      | error overflow m' =>
        rw [hrun] at h
        cases h
      | ok value m' =>
        rw [hrun] at h
        unfold behind at h
        dsimp only at h
        split at h
        · cases h
        · rw [begun_bind] at h
          rcases List.mem_append.1 h with h | h
          · exact ih h
          · cases hrun' : ((row scope es).run table depth).run m' with
            | error overflow m'' =>
              rw [hrun'] at h
              cases h
            | ok r m'' =>
              rw [hrun'] at h
              cases r <;> cases h

/-! ### Plans that stop -/

/-- If one of the jobs is final, with this result, it is the last one that the plan gives out, and the
plan ends with what `out` makes of the result. -/
def Stops (table : ObjectId) (depth : Nat) (final : Event → Value → Machine → Prop) (out : Value → α)
    (p : Plan α) (m : Machine) : Prop :=
  ∀ i event value m', (p.begun table depth m)[i]? = some event → final event value m' →
    (p.run table depth).run m = .ok (out value) m' ∧ i + 1 = (p.begun table depth m).length

section Stops

variable {final : Event → Value → Machine → Prop} {out : Value → α} {out' : Value → β}

theorem stops_of_jobless {p : Plan α} (h : p.begun table depth m = []) :
    p.Stops table depth final out m := by
  intro i event value m' hi
  rw [h] at hi
  cases hi

/-- What comes behind jobs that are not final. -/
theorem stops_after {p : Plan α} {f : α → Plan β}
    (hp : ∀ event ∈ p.begun table depth m, ∀ value m', ¬ final event value m')
    (hf : ∀ a m', (f a).Stops table depth final out' m') :
    (p >>= f).Stops table depth final out' m := by
  intro i event value m' hi hfinal
  rw [begun_bind] at hi ⊢
  rw [run_bind]
  -- the final job cannot be one of `p`, so it is one that is given out behind `p`
  by_cases hlt : i < (p.begun table depth m).length
  · rw [List.getElem?_append_left hlt] at hi
    exact absurd hfinal (hp event (List.mem_of_getElem? hi) value m')
  · rw [List.getElem?_append_right (Nat.le_of_not_lt hlt)] at hi
    cases hrun : (p.run table depth).run m with
    | error overflow m₁ =>
      rw [hrun] at hi
      cases hi
    | ok a m₁ =>
      rw [hrun] at hi
      obtain ⟨hend, hlast⟩ := hf a m₁ _ event value m' hi hfinal
      rw [run_bind_of_ok hrun, hend, List.length_append]
      refine ⟨rfl, ?_⟩
      unfold behind
      dsimp only
      omega

/-- What comes behind a job that is not final. -/
theorem stops_perform {job : Job} {next : Value → Plan α}
    (hjob : ∀ value m', ¬ final ⟨depth, job, m⟩ value m')
    (h : ∀ value m', (next value).Stops table depth final out m') :
    (perform job next).Stops table depth final out m := by
  refine stops_after (p := Plan.job job) (fun event hevent => ?_) h
  rw [mem_begun_job hevent]
  exact hjob

/-- What is made of the end without further jobs. -/
theorem Stops.bind {p : Plan α} {f : α → Plan β} (h : p.Stops table depth final out m)
    (hjobless : ∀ a m', (f a).begun table depth m' = [])
    (hf : ∀ value m', ((f (out value)).run table depth).run m' = .ok (out' value) m') :
    (p >>= f).Stops table depth final out' m := by
  have hbegun : (p >>= f).begun table depth m = p.begun table depth m := by
    rw [begun_bind]
    cases (p.run table depth).run m with
    | ok a m' => exact (congrArg _ (hjobless a m')).trans (List.append_nil _)
    | error overflow m' => exact List.append_nil _
  intro i event value m' hi hfinal
  rw [hbegun] at hi ⊢
  obtain ⟨hend, hlast⟩ := h i event value m' hi hfinal
  rw [run_bind, run_bind_of_ok hend]
  exact ⟨hf value m', hlast⟩

theorem stops_look {next : Machine → Plan α} (h : (next m).Stops table depth final out m) :
    (look next).Stops table depth final out m := h

theorem stops_enter {outer : ScopeId} {parameters : List Ident} {arguments : List Value}
    {next : ScopeId → Plan α} (h : ∀ scope m', (next scope).Stops table depth final out m') :
    (enter outer parameters arguments next).Stops table depth final out m := by
  intro i event value m' hi hfinal
  rw [run_enter]
  exact h _ _ i event value m' hi hfinal

end Stops

/-! ### Exits of statements -/

/-- The job of an event is a statement, and ends with an exit. -/
structure Exits (table : ObjectId) (event : Event) (value : Value) (m : Machine) : Prop where
  isStatement : event.job.isStatement
  result : event.result table = .ok value m
  isExit : value.isExit

/-- The value of an expression as a part of a statement. -/
theorem stops_operand {scope : ScopeId} {e : Expr} {f : Value → Plan Value}
    (h : ∀ value m', (f value).begun table depth m' = []) :
    (do let value ← job (.expression scope e)
        if value.isError then return value else f value).Stops table depth (Exits table) id m := by
  refine stops_perform (fun _ _ hexits => nomatch hexits.isStatement) fun value m' =>
    stops_of_jobless ?_
  show (if value.isError then pure value else f value : Plan Value).begun table depth m' = []
  split
  · rfl
  · exact h value m'

theorem sequence_cons (scope : ScopeId) (last : Value) (st : Stmt) (sts : List Stmt) :
    sequence scope last (st :: sts) = perform (.statement scope st) fun value =>
      if value.isExit then done (.exit value) else sequence scope value sts := rfl

/-- A sequence of statements stops at its first exit. -/
theorem stops_sequence {scope : ScopeId} {sts : List Stmt} {last : Value} :
    (sequence scope last sts).Stops table depth (Exits table) Sequel.exit m := by
  induction sts generalizing m last with
  | nil => exact stops_of_jobless rfl
  | cons st sts ih =>
    intro i event value m' hi hexits
    rw [sequence_cons] at hi ⊢
    rw [run]
    cases hrun : ((Job.statement scope st).run table depth).run m with
    | ok answer m₁ =>
      rw [begun_perform_of_ok hrun] at hi ⊢
      rw [run_bind_of_ok hrun]
      cases i with
      -- the exit is the answer of the first statement, or else that one has gone on to the others
      | zero =>
        cases hi
        cases hrun.symm.trans hexits.result
        rw [if_pos hexits.isExit]
        exact ⟨rfl, rfl⟩
      | succ i =>
        by_cases hanswer : answer.isExit
        · rw [if_pos hanswer] at hi
          cases hi
        · rw [if_neg hanswer] at hi ⊢
          obtain ⟨hend, hlast⟩ := ih i event value m' hi hexits
          rw [List.length_cons, ← hlast]
          exact ⟨hend, rfl⟩
    | error overflow m₁ =>
      rw [begun_perform_of_error hrun] at hi
      cases i with
      | zero =>
        cases hi
        cases hrun.symm.trans hexits.result
      | succ i => cases hi

/-- A block ends with the exit at which its statements stop. -/
theorem stops_block {outer : ScopeId} {b : Block} : (block outer b).Stops table depth (Exits table) id m := by
  have hsequence : ∀ scope m, ((sequence scope .null b.statements >>= fun r => pure r.value :
      Plan Value)).Stops table depth (Exits table) id m := fun scope m =>
    stops_sequence.bind (fun _ _ => rfl) fun _ _ => rfl
  exact hsequence m.scopes.size _

theorem stops_choose {condition : Value} {yes no : Plan Value}
    (hyes : yes.Stops table depth (Exits table) id m)
    (hno : no.Stops table depth (Exits table) id m) :
    (choose condition yes no).Stops table depth (Exits table) id m := by
  unfold choose
  split
  · exact hyes
  · exact hno
  · split <;> exact stops_of_jobless rfl

/-- A statement ends with the exit of a statement inside it. -/
theorem stops_statement {scope : ScopeId} {st : Stmt} :
    (statement scope st).Stops table depth (Exits table) id m := by
  have hoperand : ∀ {e : Expr} value m',
      ¬ Exits table ⟨depth, .expression scope e, m⟩ value m' := fun _ _ h => nomatch h.isStatement
  cases st with
  | unknown => exact stops_of_jobless rfl
  | declaration keyword ident value =>
    refine stops_look ?_
    simp only [Plan.bind]
    cases m.lookupLocal scope ident.name with
    | some _ => exact stops_of_jobless rfl
    | none => exact stops_operand fun _ _ => rfl
  | ret token value =>
    by_cases hmissing : value = .missing
    · subst hmissing
      exact stops_of_jobless rfl
    · rw [statement]
      · exact stops_operand fun _ _ => rfl
      · exact hmissing
  | expression token value => exact stops_perform hoperand fun _ _ => stops_of_jobless rfl
  | block b => exact stops_block
  | ifThen token condition consequence =>
    exact stops_perform hoperand fun _ _ => stops_choose stops_block (stops_of_jobless rfl)
  | ifElse token condition consequence alternative =>
    exact stops_perform hoperand fun _ _ => stops_choose stops_block stops_block

/-- The body of a function ends with what the return carries at which its statements stop. -/
theorem stops_body {outer : ScopeId} {parameters : List Ident} {b : Block} {arguments : List Value} :
    ((Job.body outer parameters b arguments).plan table).Stops table depth (Exits table)
      Value.carried m := by
  refine stops_enter fun scope m' => stops_sequence.bind (fun r m'' => ?_) fun value m'' => ?_
  · unfold result
    split <;> rfl
  · cases value <;> rfl

/-! ### Calls in expressions -/

/-- The job of an event is a call, and ends with the value. -/
structure Calls (table : ObjectId) (event : Event) (value : Value) (m : Machine) : Prop where
  isCall : event.job.isCall
  result : event.result table = .ok value m

/-- The call is the last thing that is done for the value of a call expression. -/
theorem stops_call (scope : ScopeId) (token : Token) (callee : Expr) (es : List Expr) :
    (expression table scope (.call token callee es)).Stops table depth (Calls table) id m := by
  refine stops_perform (fun _ _ h => nomatch h.isCall) fun function m₁ => ?_
  show (if function.isError then pure function else _ : Plan Value).Stops table depth _ _ m₁
  split
  · exact stops_of_jobless rfl
  refine stops_after (fun event hevent value m' h => ?_) fun r m₂ => ?_
  · obtain ⟨e, he⟩ := isExpression_of_row hevent
    have hcall := h.isCall
    rw [he] at hcall
    cases hcall
  · cases r with
    | error => exact stops_of_jobless rfl
    | ok values =>
      intro i event value m' hi h
      cases mem_begun_job (List.mem_of_getElem? hi)
      have hrun : ((Job.call function values).run table depth).run m₂ = .ok value m' := h.result
      refine ⟨by rw [run_job, hrun]; rfl, ?_⟩
      have hbegun : (Plan.job (.call function values)).begun table depth m₂ =
          [⟨depth, .call function values, m₂⟩] := begun_perform_of_ok hrun
      change ((Plan.job (.call function values)).begun table depth m₂)[i]? = _ at hi
      change i + 1 = ((Plan.job (.call function values)).begun table depth m₂).length
      rw [hbegun] at hi ⊢
      cases i with
      | zero => rfl
      | succ i => cases hi

end Plan

/-! ### The way of a return -/

namespace Event

/-- The other event is a statement that is done as a part of the job, itself or inside another one; or
it is the event itself. -/
inductive Inside (table : ObjectId) : Event → Event → Prop
  | refl {event : Event} : Inside table event event
  | step {event event' event'' : Event} : event' ∈ event.begun table → event'.job.isStatement →
      Inside table event' event'' → Inside table event event''

/-- Of the jobs that the event gives out, the other one is the last. -/
def IsLast (table : ObjectId) (event last : Event) : Prop :=
  ∀ i, (event.begun table)[i]? = some last → i + 1 = (event.begun table).length

/-- What becomes of the call of a body that has a return inside it: it ends with the value, and the
machine, of the return. -/
structure EndsCall (table : ObjectId) (call body ret : Event) (value : Value) (m : Machine) :
    Prop where
  /-- the value is no return and no error, so it ends nothing else -/
  genuine : value.Genuine
  body_result : body.result table = .ok value m
  call_result : call.result table = .ok value m
  /-- it is the value of the expression for which the function is called -/
  caller_result : ∀ event : Event, event.Clean → call ∈ event.begun table →
    event.result table = .ok value m
  /-- no other statement is done after the one that is the return, or that has it inside -/
  last : ∀ event event' : Event, body.Inside table event → event' ∈ event.begun table →
    event'.job.isStatement → event'.Inside table ret → event.IsLast table event'

section Returns

variable {table : ObjectId} {event event' call body ret : Event} {value : Value} {m : Machine}

/-- A job stops where its plan does. -/
theorem stops {final : Event → Value → Machine → Prop} {out : Value → Value}
    (h : (event.job.plan table).Stops table event.depth final out event.machine)
    (h' : event' ∈ event.begun table) (hfinal : final event' value m) :
    event.result table = .ok (out value) m ∧ event.IsLast table event' := by
  have hall : ∀ i, (event.begun table)[i]? = some event' →
      event.result table = .ok (out value) m ∧ i + 1 = (event.begun table).length := by
    intro i hi
    rw [Event.result, Job.run_eq]
    exact h i event' value m hi hfinal
  obtain ⟨i, hi⟩ := List.mem_iff_getElem?.1 h'
  exact ⟨(hall i hi).1, fun j hj => (hall j hj).2⟩

theorem stops_of_isStatement (hevent : event.job.isStatement) :
    (event.job.plan table).Stops table event.depth (Plan.Exits table) id event.machine := by
  obtain ⟨depth, job, machine⟩ := event
  cases job with
  | statement scope st => exact Plan.stops_statement
  | _ => cases hevent

/-- A statement ends with the exit of a statement inside it. -/
theorem Inside.exits (h : event.Inside table event') (hevent : event.job.isStatement)
    (hexits : Plan.Exits table event' value m) : Plan.Exits table event value m := by
  induction h with
  | refl => exact hexits
  | step hbegun hstatement _ ih =>
    have hinner := ih hstatement hexits
    exact ⟨hevent, (stops (stops_of_isStatement hevent) hbegun hinner).1, hexits.isExit⟩

theorem Inside.reaches (h : event.Inside table event') : event.Reaches table event' := by
  induction h with
  | refl => exact .refl
  | step hbegun _ _ ih => exact .step hbegun ih

theorem Inside.isStatement (h : event.Inside table event') :
    event' = event ∨ event'.job.isStatement := by
  induction h with
  | refl => exact .inl rfl
  | step _ hstatement _ ih => exact .inr (ih.elim (fun he => he ▸ hstatement) id)

/-- A call of a function ends as its body does. -/
theorem call_result (hbody : body ∈ call.begun table) (hgives : call.job.Gives body.job)
    (hcall : call.job.isCall) : call.result table = body.result table := by
  obtain ⟨depth, job, machine⟩ := call
  obtain ⟨depth', job', machine'⟩ := body
  cases hgives with
  | @body id parameters b outer arguments hlength =>
    have hplan : Plan.call arguments (.function id parameters b outer) =
        .nest (.body outer parameters b arguments) .done := if_neg (not_not_intro hlength)
    have hbegun : Event.begun table ⟨depth, .call (.function id parameters b outer) arguments, machine⟩
        = (Plan.nest (.body outer parameters b arguments) .done).begun table depth machine :=
      congrArg (Plan.begun table depth · machine) hplan
    rw [hbegun] at hbody
    cases depth with
    | zero => cases hbody
    | succ inner =>
      have hsame : Event.mk depth' (.body outer parameters b arguments) machine' =
          ⟨inner, .body outer parameters b arguments, machine⟩ := by
        rw [Plan.begun] at hbody
        rcases List.mem_cons.1 hbody with h | h
        · exact h
        · cases hrun : ((Job.body outer parameters b arguments).run table inner).run machine <;>
            rw [hrun] at h <;> cases h
      cases hsame
      unfold Event.result
      rw [Job.run_eq]
      show ((Plan.call arguments (.function id parameters b outer)).run table (depth' + 1)).run
        machine = _
      rw [hplan]
      exact congrArg (EStateM.run · machine) (bind_pure _)
  | _ => cases hcall

/-- What gives out a call is a call expression. -/
theorem stops_of_gives_call (hgives : event.job.Gives call.job) (hcall : call.job.isCall) :
    (event.job.plan table).Stops table event.depth (Plan.Calls table) id event.machine := by
  obtain ⟨depth, job, machine⟩ := event
  obtain ⟨depth', job', machine'⟩ := call
  cases hgives with
  | @call scope token callee es => exact Plan.stops_call scope token callee es
  | _ => cases hcall

/-- The value that a return carries is genuine. -/
theorem Clean.carried (h : event.Clean) (hevent : event.job.isStatement) {id : ObjectId}
    (hresult : event.result table = .ok (.ret id value) m) : value.Genuine := by
  obtain ⟨depth, job, machine⟩ := event
  cases job with
  | statement scope st =>
    obtain ⟨-, hvalue | hvalue | ⟨id', payload, hpayload, hgenuine⟩⟩ :=
      Ensures.of_ok (h.bindings.clean.statement table depth scope st) hresult
    · cases hvalue.isExit
    · cases hvalue
    · cases hpayload
      exact hgenuine
  | _ => cases hevent

/-- A return inside the body of a call ends the call. -/
theorem endsCall (hclean : call.Clean) (hcall : call.job.isCall) (hbody : body ∈ call.begun table)
    (hinside : body.Inside table ret) (hret : ret.job.isStatement) {id : ObjectId}
    (hresult : ret.result table = .ok (.ret id value) m) : EndsCall table call body ret value m := by
  obtain ⟨hbodyClean, hgives⟩ := hclean.begun hbody
  obtain ⟨outer, parameters, b, arguments, hjob⟩ : ∃ outer parameters b arguments,
      body.job = .body outer parameters b arguments := by
    generalize call.job = job at hcall hgives
    generalize body.job = job' at hgives
    cases hgives with
    | body => exact ⟨_, _, _, _, rfl⟩
    | _ => cases hcall
  have hbodyStops : (body.job.plan table).Stops table body.depth (Plan.Exits table) Value.carried
      body.machine := by
    rw [hjob]
    exact Plan.stops_body
  have hbodyJob : body.job.isStatement = false := by
    rw [hjob]
    rfl
  have hexits : Plan.Exits table ret (.ret id value) m := ⟨hret, hresult, rfl⟩
  have hbodyResult : body.result table = .ok value m := by
    cases hinside with
    | refl => exact absurd hret (Bool.eq_false_iff.1 hbodyJob)
    | step hbegun hstatement hinside =>
      exact (stops hbodyStops hbegun (hinside.exits hstatement hexits)).1
  refine ⟨?_, hbodyResult, (call_result hbody hgives hcall).trans hbodyResult, ?_, ?_⟩
  · exact (hbodyClean.reaches hinside.reaches).carried hret hresult
  · intro event hevent hbegun
    have hresult' : call.result table = .ok value m :=
      (call_result hbody hgives hcall).trans hbodyResult
    exact (stops (stops_of_gives_call (hevent.begun hbegun).2 hcall) hbegun ⟨hcall, hresult'⟩).1
  · intro event event' hevent hbegun hstatement hinside'
    have hexits' := hinside'.exits hstatement hexits
    rcases hevent.isStatement with rfl | hevent
    · exact (stops hbodyStops hbegun hexits').2
    · exact (stops (stops_of_isStatement hevent) hbegun hexits').2

end Returns

end Event

end MonkeyLang
