import MonkeyLang.Proofs.Evaluation.Calls
import MonkeyLang.Proofs.Evaluation.Session
import MonkeyLang.Proofs.Evaluation.Throwing

/-!
# Errors and returns as values do what exceptions do

The evaluator hands errors and returns on as values; `Throwing` throws them. `Agrees` relates a
computation of the one with a computation of the other on a machine: they end alike, with the same
machine, and what was thrown by the second is the value of the first. It is carried through
sequences by `Agrees.bind` and through the tree by induction, and holds of calls by induction on
their depth.

The invariant is that values are `Genuine`: no error and no return is ever stored. An error among the
elements of an array, say, would be an error for the first evaluator as soon as it is taken out, and
no error for the second.
-/

namespace MonkeyLang

/-- No part of the value is an error or a return. -/
def Value.Genuine (value : Value) : Prop := value.All fun part => part.isExit = false

/-- Every value bound in a scope is genuine. -/
def Machine.Genuine (machine : Machine) : Prop := machine.Holds Value.Genuine

/-- What is thrown has a genuine value to return, if any. -/
def Exit.Genuine : Exit → Prop
  | thrown _ => True
  | returned _ value => value.Genuine

/-- A thrown error as a value. -/
def Thrown.value (error : Thrown) : Value := .error error.id error.fault

/-- What is thrown as a value. -/
def Exit.value : Exit → Value
  | thrown error => error.value
  | returned id value => .ret id value

/-- How an expression ends, as a value. -/
def Throwing.inBand : Except Thrown Value → Value
  | .ok value => value
  | .error error => error.value

/-- How a statement ends, as a value. -/
def Throwing.exitInBand : Except Exit Value → Value
  | .ok value => value
  | .error exit => exit.value

/-- How a sequence of statements ends. -/
def Throwing.sequel : Except Exit Value → Sequel
  | .ok value => .finished value
  | .error exit => .exit exit.value

theorem plain_isExit : Value.Plain fun part => part.isExit = false :=
  ⟨fun _ => rfl, fun _ => rfl, fun _ => rfl, rfl, rfl, fun _ _ => rfl, fun _ _ => rfl,
    fun _ _ => rfl⟩

namespace Value.Genuine

variable {value : Value}

theorem isExit (h : value.Genuine) : value.isExit = false := h.self

theorem isError (h : value.Genuine) : value.isError = false := by
  have := h.isExit
  cases value <;> first | rfl | cases this

/-- Evaluation goes on after a genuine value. -/
theorem ite_isError {α : Type} (h : value.Genuine) (x y : α) :
    (if value.isError then x else y) = y :=
  if_neg (by rw [h.isError]; decide)

theorem ite_isExit {α : Type} (h : value.Genuine) (x y : α) :
    (if value.isExit then x else y) = y :=
  if_neg (by rw [h.isExit]; decide)

theorem array {id : ObjectId} {elements : List Value} (h : ∀ v ∈ elements, v.Genuine) :
    (Value.array id elements).Genuine := by
  unfold Value.Genuine
  exact Value.all_array.2 ⟨rfl, h⟩

theorem hash {id : ObjectId} {entries : List (HashKey × Value × Value)}
    (h : Value.AllEntries (fun part => part.isExit = false) entries) :
    (Value.hash id entries).Genuine := by
  unfold Value.Genuine
  exact Value.all_hash.2 ⟨rfl, h⟩

end Value.Genuine

namespace Throwing

/-- `x` ends as `y` does, with what `out` makes of its result. Results are `good`, what is thrown is
`bad`, and the machine stays genuine. -/
def Agrees {ε α β : Type} (out : Except ε β → α) (good : β → Prop) (bad : ε → Prop) (x : Eval α)
    (y : ExceptT ε Eval β) (m : Machine) : Prop :=
  Ensures y.run m
    (fun r m' => x.run m = .ok (out r) m' ∧ m'.Genuine ∧
      match r with | .ok b => good b | .error e => bad e)
    (fun o m' => x.run m = .error o m' ∧ m'.Genuine)

/-- Agreement of expressions. -/
abbrev AgreesValue (x : Eval Value) (y : Raising Value) (m : Machine) : Prop :=
  Agrees inBand Value.Genuine (fun _ => True) x y m

/-- Agreement of expressions in a row. -/
abbrev AgreesList (x : Eval (Except Value (List Value))) (y : Raising (List Value)) (m : Machine) :
    Prop :=
  Agrees (Except.mapError Thrown.value) (fun vs => ∀ v ∈ vs, v.Genuine) (fun _ => True) x y m

/-- Agreement of the pairs of a hash literal. -/
abbrev AgreesEntries (x : Eval (Except Value (List (HashKey × Value × Value))))
    (y : Raising (List (HashKey × Value × Value))) (m : Machine) : Prop :=
  Agrees (Except.mapError Thrown.value) (Value.AllEntries fun part => part.isExit = false)
    (fun _ => True) x y m

/-- Agreement of statements. -/
abbrev AgreesStatement (x : Eval Value) (y : Exiting Value) (m : Machine) : Prop :=
  Agrees exitInBand Value.Genuine Exit.Genuine x y m

/-- Agreement of statements in a row. -/
abbrev AgreesSequence (x : Eval Sequel) (y : Exiting Value) (m : Machine) : Prop :=
  Agrees sequel Value.Genuine Exit.Genuine x y m

section Agrees

variable {ε α α' β β' : Type} {out : Except ε β → α} {good : β → Prop} {bad bad' : ε → Prop}
  {out' : Except ε β' → α'} {good' : β' → Prop} {x : Eval α} {y : ExceptT ε Eval β} {m : Machine}

theorem Agrees.mono (h : Agrees out good bad x y m) (hbad : ∀ e, bad e → bad' e) :
    Agrees out good bad' x y m := by
  refine Ensures.mono h (fun r m' ⟨hrun, hm', hr⟩ => ⟨hrun, hm', ?_⟩) fun _ _ h => h
  cases r with
  | ok b => exact hr
  | error e => exact hbad e hr

/-- In a sequence, the second parts only need to agree after a result; after something thrown, the
first evaluator must skip what follows. -/
theorem Agrees.bind {k : α → Eval α'} {k' : β → ExceptT ε Eval β'} (h : Agrees out good bad x y m)
    (hok : ∀ b m', m'.Genuine → good b → Agrees out' good' bad' (k (out (.ok b))) (k' b) m')
    (herr : ∀ e m', bad e → (k (out (.error e))).run m' = .ok (out' (.error e)) m' ∧ bad' e) :
    Agrees out' good' bad' (x >>= k) (y >>= k') m := by
  refine ensures_except_bind.2 (Ensures.mono h (fun r m' ⟨hrun, hm', hr⟩ => ?_)
    fun o m' ⟨hrun, hm'⟩ => ⟨run_bind_of_error hrun, hm'⟩)
  cases r with
  | ok b =>
    have hk := hok b m' hm' hr
    unfold Agrees at hk
    rwa [← run_bind_of_ok hrun] at hk
  | error e =>
    obtain ⟨hk, he⟩ := herr e m' hr
    exact ⟨(run_bind_of_ok hrun).trans hk, hm', he⟩

/-- What agrees with a computation with exceptions ends as that does, with what `out` makes of its
result. -/
theorem Agrees.ensures (h : Agrees out good bad x y m) :
    Ensures x m
      (fun a m' => m'.Genuine ∧
        ∃ r, a = out r ∧ match r with | .ok b => good b | .error e => bad e)
      fun _ m' => m'.Genuine := by
  unfold Agrees Ensures at h
  unfold Ensures
  cases hrun : y.run.run m with
  | ok r m' =>
    rw [hrun] at h
    obtain ⟨hx, hm', hr⟩ := h
    rw [hx]
    exact ⟨hm', r, rfl, hr⟩
  | error o m' =>
    rw [hrun] at h
    obtain ⟨hx, hm'⟩ := h
    rw [hx]
    exact hm'

/-- Agreeing with a computation with exceptions keeps the machine genuine. -/
theorem Agrees.genuine (h : Agrees out good bad x y m) :
    Ensures x m (fun _ m' => m'.Genuine) fun _ m' => m'.Genuine :=
  h.ensures.mono (fun _ _ h => h.1) fun _ _ h => h

/-- Two computations that agree with the same one run alike. -/
theorem Agrees.run_eq {x' : Eval α} (h : Agrees out good bad x y m)
    (h' : Agrees out good bad x' y m) : x'.run m = x.run m := by
  unfold Agrees Ensures at h h'
  cases hrun : y.run.run m with
  | ok r m' =>
    rw [hrun] at h h'
    rw [h.1, h'.1]
  | error o m' =>
    rw [hrun] at h h'
    rw [h.1, h'.1]

theorem agrees_pure {b : β} (hm : m.Genuine) (hb : good b) :
    Agrees out good bad (pure (out (.ok b))) (pure b) m := ⟨rfl, hm, hb⟩

/-- A new identity changes nothing else. -/
theorem agrees_fresh {k : ObjectId → Eval α} {k' : ObjectId → ExceptT ε Eval β} (hm : m.Genuine)
    (h : ∀ id m', m'.Genuine → Agrees out good bad (k id) (k' id) m') :
    Agrees out good bad (Eval.fresh >>= k) ((Eval.fresh : Eval ObjectId) >>= k') m :=
  h m.supply { m with supply := m.supply + 1 } hm

/-- A part that both evaluators share. -/
theorem agrees_lift {γ : Type} {z : Eval γ} {c : γ} {m' : Machine} {k : γ → Eval α}
    {k' : γ → ExceptT ε Eval β} (hz : z.run m = .ok c m')
    (h : Agrees out good bad (k c) (k' c) m') :
    Agrees out good bad (z >>= k) ((z : Eval γ) >>= k') m := by
  unfold Agrees
  rw [run_bind_of_ok hz]
  exact (ensures_congr (run_lift_bind_of_ok hz)).2 h

/-- A look at the machine. -/
theorem agrees_get {k : Machine → Eval α} {k' : Machine → ExceptT ε Eval β}
    (h : Agrees out good bad (k m) (k' m) m) : Agrees out good bad (get >>= k) (get >>= k') m := h

/-- A new scope holds no value. -/
theorem agrees_newScope {outer : Option ScopeId} {k : ScopeId → Eval α}
    {k' : ScopeId → ExceptT ε Eval β} (hm : m.Genuine)
    (h : ∀ id m', m'.Genuine → Agrees out good bad (k id) (k' id) m') :
    Agrees out good bad (Eval.newScope outer >>= k) ((Eval.newScope outer : Eval ScopeId) >>= k') m :=
  h m.scopes.size { m with scopes := m.scopes.push ⟨[], outer⟩ } (hm.push outer)

/-- A declaration stores the value it is given. -/
theorem agrees_declare {scope : ScopeId} {name : String} {value : Value} {k : Unit → Eval α}
    {k' : Unit → ExceptT ε Eval β} (hm : m.Genuine) (hvalue : value.Genuine)
    (h : ∀ m', m'.Genuine → Agrees out good bad (k ()) (k' ()) m') :
    Agrees out good bad (Eval.declare scope name value >>= k)
      ((Eval.declare scope name value : Eval Unit) >>= k') m :=
  h (m.declare scope name value) (hm.declare scope name hvalue)

/-- A fault. -/
theorem agrees_fail (fault : Fault) (hm : m.Genuine) :
    AgreesValue (Eval.raise fault) (fail fault) m := ⟨rfl, hm, trivial⟩

theorem agrees_ofResult {r : Except Fault Value} (hm : m.Genuine)
    (h : ∀ v, r = .ok v → v.Genuine) : AgreesValue (Eval.ofResult r) (ofResult r) m := by
  cases r with
  | ok v => exact agrees_pure hm (h v rfl)
  | error fault => exact agrees_fail fault hm

/-- An expression as a part of a statement throws what it throws as an expression. -/
theorem ensures_part {y : Raising β} {good : Except Exit β → Machine → Prop}
    {bad : Overflow → Machine → Prop} :
    Ensures (part y).run m good bad ↔
      Ensures y.run m (fun r m' => good (r.mapError .thrown) m') bad := by
  show Ensures (Except.mapError Exit.thrown <$> y.run) m _ _ ↔ _
  rw [map_eq_pure_bind, ensures_bind]
  rfl

/-- An expression as a statement. -/
theorem AgreesValue.part {x : Eval Value} {y : Raising Value} (h : AgreesValue x y m) :
    Agrees exitInBand Value.Genuine (fun e => ∃ error, e = .thrown error) x (part y) m := by
  refine ensures_part.2 (Ensures.mono h (fun r m' ⟨hrun, hm', hr⟩ => ?_) fun _ _ h => h)
  cases r with
  | ok v => exact ⟨hrun, hm', hr⟩
  | error e => exact ⟨hrun, hm', e, rfl⟩

theorem Agrees.statement {x : Eval Value} {y : Exiting Value}
    (h : Agrees exitInBand Value.Genuine (fun e => ∃ error, e = .thrown error) x y m) :
    AgreesStatement x y m :=
  h.mono fun _ ⟨_, he⟩ => he ▸ trivial

end Agrees

/-- The contexts call genuine values alike. -/
structure ContextsAgree (ctx : MonkeyLang.Context) (ctx' : Context) : Prop where
  table : ctx.table = ctx'.table
  call : ∀ function arguments m, m.Genuine → function.Genuine → (∀ v ∈ arguments, v.Genuine) →
    AgreesValue (ctx.call function arguments) (ctx'.call function arguments) m

/-- The value of a sequence of statements. -/
theorem AgreesSequence.value {x : Eval Sequel} {y : Exiting Value} {m : Machine}
    (h : AgreesSequence x y m) : AgreesStatement (do return (← x).value) y m := by
  refine Ensures.mono h (fun r m' ⟨hrun, hm', hr⟩ => ⟨?_, hm', hr⟩) fun o m' ⟨hrun, hm'⟩ => ⟨?_, hm'⟩
  · rw [run_bind_of_ok hrun]
    cases r <;> rfl
  · exact run_bind_of_error hrun

section Tree

variable {ctx : MonkeyLang.Context} {ctx' : Context} {m : Machine}

theorem agrees_name (h : ContextsAgree ctx ctx') (scope : ScopeId) (name : String)
    (hm : m.Genuine) : AgreesValue (evalName ctx scope name) (Throwing.name ctx' scope name) m := by
  unfold evalName Throwing.name
  refine agrees_get ?_
  cases hlookup : m.lookup scope name with
  | some value => exact agrees_pure hm (hm.lookup hlookup)
  | none =>
    cases Builtin.ofName? name with
    | some builtin =>
      rw [h.table]
      exact agrees_pure hm (Value.all_builtin.2 rfl)
    | none => exact agrees_fail _ hm

/-- A condition is checked after its value is known. -/
theorem agrees_condition {x : Eval Value} {y : Raising Value} {k k' : Eval Value}
    {l l' : Exiting Value} (h : AgreesValue x y m)
    (hk : ∀ m', m'.Genuine → AgreesStatement k l m')
    (hk' : ∀ m', m'.Genuine → AgreesStatement k' l' m') :
    AgreesStatement (do
      match ← x with
      | .boolean true => k
      | .boolean false => k'
      | value =>
        if value.isError then return value else Eval.raise (.conditionNotBoolean value.type))
      (do
        let value ← part y
        let holds ← part (truth value)
        if holds then l else l') m := by
  refine h.part.bind (fun v m' hm' hv => ?_) fun e m' ⟨_, he⟩ => he ▸ ⟨rfl, trivial⟩
  have herror := hv.isError
  unfold exitInBand
  cases v with
  | boolean b =>
    cases b with
    | true => exact hk m' hm'
    | false => exact hk' m' hm'
  | error => cases herror
  | integer | text | null | void | ret | function | builtin | array | hash =>
    exact ⟨rfl, hm', trivial⟩

mutual

theorem agrees_expression (h : ContextsAgree ctx ctx') (scope : ScopeId) : ∀ (e : Expr) {m : Machine},
    m.Genuine → AgreesValue (e.eval ctx scope) (expression ctx' scope e) m
  | .missing, _, hm => by
    rw [Expr.eval, expression]
    exact agrees_fail _ hm
  | .unknown .., _, hm => by
    rw [Expr.eval, expression]
    exact agrees_fail _ hm
  | .identifier ident, _, hm => by
    rw [Expr.eval, expression]
    exact agrees_name h scope ident.name hm
  | .integer .., _, hm => by
    rw [Expr.eval, expression]
    exact agrees_pure hm (Value.all_integer.2 rfl)
  | .boolean .., _, hm => by
    rw [Expr.eval, expression]
    exact agrees_pure hm (Value.all_boolean.2 rfl)
  | .text .., _, hm => by
    rw [Expr.eval, expression]
    exact agrees_pure hm (Value.all_text.2 rfl)
  | .unary _ operator operand, _, hm => by
    rw [Expr.eval, expression]
    refine (agrees_expression h scope operand hm).bind (fun v m' hm' hv => ?_) fun _ _ h => ⟨rfl, h⟩
    rw [inBand, hv.ite_isError]
    exact agrees_ofResult hm' fun _ hr => Value.all_unary plain_isExit.computed hr
  | .binary _ left operator right, _, hm => by
    rw [Expr.eval, expression]
    refine (agrees_expression h scope left hm).bind (fun a m' hm' ha => ?_) fun _ _ h => ⟨rfl, h⟩
    rw [inBand, ha.ite_isError]
    refine (agrees_expression h scope right hm').bind (fun b m' hm' hb => ?_) fun _ _ h => ⟨rfl, h⟩
    rw [inBand, hb.ite_isError]
    exact agrees_ofResult hm' fun _ hr => Value.all_binary plain_isExit.computed hr
  | .function .., _, hm => by
    rw [Expr.eval, expression]
    exact agrees_fresh hm fun _ _ hm' => agrees_pure hm' (Value.all_function.2 rfl)
  | .call _ callee arguments, _, hm => by
    rw [Expr.eval, expression]
    refine (agrees_expression h scope callee hm).bind (fun f m' hm' hf => ?_) fun _ _ h => ⟨rfl, h⟩
    rw [inBand, hf.ite_isError]
    refine (agrees_list h scope arguments hm').bind (fun vs m' hm' hvs => ?_) fun _ _ h => ⟨rfl, h⟩
    exact h.call f vs m' hm' hf hvs
  | .array _ elements, _, hm => by
    rw [Expr.eval, expression]
    refine (agrees_list h scope elements hm).bind (fun vs m' hm' hvs => ?_) fun _ _ h => ⟨rfl, h⟩
    exact agrees_fresh hm' fun _ _ hm'' => agrees_pure hm'' (.array hvs)
  | .index _ collection position, _, hm => by
    rw [Expr.eval, expression]
    refine (agrees_expression h scope collection hm).bind (fun c m' hm' hc => ?_) fun _ _ h => ⟨rfl, h⟩
    rw [inBand, hc.ite_isError]
    refine (agrees_expression h scope position hm').bind (fun p m' hm' hp => ?_) fun _ _ h => ⟨rfl, h⟩
    rw [inBand, hp.ite_isError]
    exact agrees_ofResult hm' fun _ hr => Value.all_index hc hr
  | .hash _ ps, _, hm => by
    rw [Expr.eval, expression]
    refine (agrees_pairs h scope ps hm (List.forall_mem_nil _)).bind
      (fun entries m' hm' hentries => ?_) fun _ _ h => ⟨rfl, h⟩
    exact agrees_fresh hm' fun _ _ hm'' => agrees_pure hm'' (.hash hentries)

theorem agrees_list (h : ContextsAgree ctx ctx') (scope : ScopeId) : ∀ (es : List Expr) {m : Machine},
    m.Genuine → AgreesList (Expr.evalList ctx scope es) (list ctx' scope es) m
  | [], _, hm => by
    rw [Expr.evalList, list]
    exact agrees_pure hm fun _ hv => nomatch hv
  | e :: es, _, hm => by
    rw [Expr.evalList, list]
    refine (agrees_expression h scope e hm).bind (fun v m' hm' hv => ?_) fun _ _ h => ⟨rfl, h⟩
    rw [inBand, hv.ite_isError]
    refine (agrees_list h scope es hm').bind (fun vs m' hm' hvs => ?_) fun _ _ h => ⟨rfl, h⟩
    exact agrees_pure hm' (List.forall_mem_cons.2 ⟨hv, hvs⟩)

theorem agrees_pairs (h : ContextsAgree ctx ctx') (scope : ScopeId) :
    ∀ (ps : List (Expr × Expr)) {m : Machine} {entries : List (HashKey × Value × Value)},
    m.Genuine → Value.AllEntries (fun part => part.isExit = false) entries →
      AgreesEntries (Expr.evalPairs ctx scope entries ps) (pairs ctx' scope entries ps) m
  | [], _, _, hm, hentries => by
    rw [Expr.evalPairs, pairs]
    exact agrees_pure hm hentries
  | (keyExpr, valueExpr) :: ps, _, entries, hm, hentries => by
    rw [Expr.evalPairs, pairs]
    refine (agrees_expression h scope keyExpr hm).bind (fun k m' hm' hk => ?_) fun _ _ h => ⟨rfl, h⟩
    rw [inBand, hk.ite_isError]
    unfold hashKey
    cases k.hashKey? with
    | none => exact ⟨rfl, hm', trivial⟩
    | some word =>
      refine (agrees_expression h scope valueExpr hm').bind (fun v m' hm' hv => ?_) fun _ _ h => ⟨rfl, h⟩
      rw [inBand, hv.ite_isError]
      exact agrees_pairs h scope ps hm' (hentries.insert hk hv)

theorem agrees_statement (h : ContextsAgree ctx ctx') (scope : ScopeId) : ∀ (st : Stmt) {m : Machine},
    m.Genuine → AgreesStatement (st.eval ctx scope) (statement ctx' scope st) m
  | .unknown .., _, hm => by
    rw [Stmt.eval, statement]
    exact (agrees_fail _ hm).part.statement
  | .declaration keyword ident valueExpr, m, hm => by
    rw [Stmt.eval, statement]
    refine agrees_get ?_
    cases m.lookupLocal scope ident.name with
    | some _ => exact (agrees_fail _ hm).part.statement
    | none =>
      refine (agrees_expression h scope valueExpr hm).part.bind (fun v m' hm' hv => ?_)
        fun e m' ⟨_, he⟩ => he ▸ ⟨rfl, trivial⟩
      rw [exitInBand, hv.ite_isError]
      exact agrees_declare hm' hv fun m'' hm'' => agrees_pure hm'' hv
  | .ret _ valueExpr, _, hm => by
    by_cases hmissing : valueExpr = .missing
    · subst hmissing
      rw [Stmt.eval, statement]
      exact agrees_fresh hm fun _ _ hm' => ⟨rfl, hm', Value.all_void.2 rfl⟩
    · rw [Stmt.eval, statement]
      · refine (agrees_expression h scope valueExpr hm).part.bind (fun v m' hm' hv => ?_)
          fun e m' ⟨_, he⟩ => he ▸ ⟨rfl, trivial⟩
        rw [exitInBand, hv.ite_isError]
        exact agrees_fresh hm' fun _ _ hm'' => ⟨rfl, hm'', hv⟩
      all_goals exact hmissing
  | .expression _ value, _, hm => by
    rw [Stmt.eval, statement]
    exact (agrees_expression h scope value hm).part.statement
  | .block body, _, hm => by
    rw [Stmt.eval, statement]
    exact agrees_block h scope body hm
  | .ifThen _ condition consequence, _, hm => by
    rw [Stmt.eval, statement]
    exact agrees_condition (agrees_expression h scope condition hm)
      (fun _ hm' => agrees_block h scope consequence hm')
      fun _ hm' => agrees_pure hm' (Value.all_null.2 rfl)
  | .ifElse _ condition consequence alternative, _, hm => by
    rw [Stmt.eval, statement]
    exact agrees_condition (agrees_expression h scope condition hm)
      (fun _ hm' => agrees_block h scope consequence hm')
      fun _ hm' => agrees_block h scope alternative hm'

theorem agrees_sequence (h : ContextsAgree ctx ctx') (scope : ScopeId) :
    ∀ (ss : List Stmt) {m : Machine} {last : Value}, m.Genuine → last.Genuine →
      AgreesSequence (Stmt.evalSequence ctx scope last ss) (sequence ctx' scope last ss) m
  | [], _, _, hm, hlast => by
    rw [Stmt.evalSequence, sequence]
    exact agrees_pure hm hlast
  | st :: ss, _, _, hm, _ => by
    rw [Stmt.evalSequence, sequence]
    refine (agrees_statement h scope st hm).bind (fun v m' hm' hv => ?_)
      fun e m' he => ⟨by cases e <;> rfl, he⟩
    rw [exitInBand, hv.ite_isExit]
    exact agrees_sequence h scope ss hm' hv

theorem agrees_block (h : ContextsAgree ctx ctx') (scope : ScopeId) : ∀ (b : Block) {m : Machine},
    m.Genuine → AgreesStatement (b.eval ctx scope) (block ctx' scope b) m
  | ⟨_, ss⟩, _, hm => by
    rw [Block.eval, block]
    refine agrees_newScope hm fun id m' hm' => ?_
    exact (agrees_sequence h id ss hm' (Value.all_null.2 rfl)).value

end

end Tree

/-! ### Calls -/

section Calls

variable {m : Machine}

theorem agrees_only {arguments : List Value} {f : Value → Eval Value} {f' : Value → Raising Value}
    (hm : m.Genuine) (harguments : ∀ v ∈ arguments, v.Genuine)
    (h : ∀ v, v.Genuine → AgreesValue (f v) (f' v) m) :
    AgreesValue (Builtin.withOne arguments f) (only arguments >>= f') m := by
  unfold Builtin.withOne only
  cases arguments with
  | nil => exact ⟨rfl, hm, trivial⟩
  | cons v vs =>
    cases vs with
    | nil => exact h v (harguments v List.mem_cons_self)
    | cons => exact ⟨rfl, hm, trivial⟩

theorem agrees_elements {b : Builtin} {argument : Value} {f : List Value → Eval Value}
    {f' : List Value → Raising Value} (hm : m.Genuine) (hargument : argument.Genuine)
    (h : ∀ vs, (∀ v ∈ vs, v.Genuine) → AgreesValue (f vs) (f' vs) m) :
    AgreesValue (Builtin.withArray b argument f) (elements b argument >>= f') m := by
  unfold Builtin.withArray elements
  cases argument with
  | array id vs => exact h vs (Value.all_array.1 hargument).2
  | integer | boolean | text | null | void | ret | error | function | builtin | hash =>
    exact ⟨rfl, hm, trivial⟩

theorem agrees_builtin (b : Builtin) {arguments : List Value} (hm : m.Genuine)
    (harguments : ∀ v ∈ arguments, v.Genuine) :
    AgreesValue (b.apply arguments) (builtin arguments b) m := by
  have hnull : Value.Genuine .null := Value.all_null.2 rfl
  cases b with
  | len =>
    refine agrees_only hm harguments fun v _ => ?_
    cases v with
    | text s => exact agrees_pure hm (Value.all_integer.2 rfl)
    | array id vs => exact agrees_pure hm (Value.all_integer.2 rfl)
    | integer | boolean | null | void | ret | error | function | builtin | hash =>
      exact agrees_fail _ hm
  | first =>
    refine agrees_only hm harguments fun v hv => agrees_elements hm hv fun vs hvs => ?_
    refine agrees_pure hm ?_
    cases vs with
    | nil => exact hnull
    | cons v vs => exact hvs v List.mem_cons_self
  | last =>
    refine agrees_only hm harguments fun v hv => agrees_elements hm hv fun vs hvs => ?_
    refine agrees_pure hm ?_
    cases hlast : vs.getLast? with
    | none => exact hnull
    | some v => exact hvs v (List.mem_of_getLast? hlast)
  | rest =>
    refine agrees_only hm harguments fun v hv => agrees_elements hm hv fun vs hvs => ?_
    cases vs with
    | nil => exact agrees_pure hm hnull
    | cons v vs =>
      exact agrees_fresh hm fun _ _ hm' =>
        agrees_pure hm' (.array fun u hu => hvs u (List.mem_cons_of_mem v hu))
  | push =>
    match arguments, harguments with
    | [v, u], harguments =>
      refine agrees_elements hm (harguments v List.mem_cons_self) fun vs hvs => ?_
      refine agrees_fresh hm fun _ _ hm' => agrees_pure hm' (.array fun w hw => ?_)
      rcases List.mem_append.1 hw with hw | hw
      · exact hvs w hw
      · exact harguments w (List.mem_cons_of_mem v hw)
    | [], _ | [_], _ | _ :: _ :: _ :: _, _ => exact agrees_fail _ hm
  | print => exact ⟨rfl, hm, Value.all_void.2 rfl⟩

/-- Only the returns of the body itself are caught. -/
theorem agrees_catchReturn {x : Eval Sequel} {y : Exiting Value} (h : AgreesSequence x y m) :
    AgreesValue (do (← x).result) (catchReturn y) m := by
  refine Ensures.bind (Ensures.mono h (fun r m' h => h)
    fun o m' ⟨hrun, hm'⟩ => ⟨run_bind_of_error hrun, hm'⟩) ?_
  intro r m' ⟨hrun, hm', hr⟩
  rw [run_bind_of_ok hrun]
  cases r with
  | ok v => exact ⟨rfl, hm', trivial⟩
  | error e =>
    cases e with
    | thrown error => exact ⟨rfl, hm', trivial⟩
    | returned id v => exact ⟨rfl, hm', hr⟩

/-- A call agrees if the calls nested in it do. -/
theorem agrees_apply {table : ObjectId} {depth : Nat}
    (hnested : ∀ d, depth = d + 1 → ContextsAgree (.ofTable table d) (.ofTable table d))
    {function : Value} {arguments : List Value} (hm : m.Genuine)
    (harguments : ∀ v ∈ arguments, v.Genuine) :
    AgreesValue (applyValue table depth function arguments)
      (apply table depth function arguments) m := by
  cases function with
  | function id parameters body outer =>
    by_cases hlength : arguments.length = parameters.length
    · cases depth with
      | zero =>
        rw [applyValue_zero table arguments hlength, apply, if_neg (not_not_intro hlength)]
        exact ⟨rfl, hm⟩
      | succ d =>
        rw [applyValue_succ table d arguments hlength, apply, if_neg (not_not_intro hlength)]
        refine agrees_newScope hm fun scope m' hm' => ?_
        refine agrees_lift (run_bindParameters scope parameters arguments m') ?_
        refine agrees_catchReturn (agrees_sequence (hnested d rfl) scope body.statements ?_ ?_)
        · exact Machine.Holds.bindParameters hm' scope parameters harguments
        · exact Value.all_null.2 rfl
    · rw [applyValue_of_length_ne table depth arguments hlength]
      cases depth <;> rw [apply, if_pos hlength] <;> exact agrees_fail _ hm
  | builtin t b =>
    rw [applyValue_builtin]
    cases depth <;> exact agrees_builtin b hm harguments
  | integer | boolean | text | null | void | ret | error | array | hash =>
    cases depth <;> exact agrees_fail _ hm

theorem contextsAgree_ofTable (table : ObjectId) (limit : Nat) :
    ContextsAgree (.ofTable table limit) (.ofTable table limit) := by
  induction limit with
  | zero => exact ⟨rfl, fun _ _ _ hm _ hvs => agrees_apply (fun _ h => absurd h (by omega)) hm hvs⟩
  | succ limit ih =>
    refine ⟨rfl, fun _ _ _ hm _ hvs => agrees_apply (fun d hd => ?_) hm hvs⟩
    cases hd
    exact ih

end Calls

/-! ### Programs -/

theorem agrees_program {table : ObjectId} {limit : Nat} (scope : ScopeId) (p : Program) {m : Machine}
    (hm : m.Genuine) : AgreesValue (p.eval (.ofTable table limit) scope)
      (program (.ofTable table limit) scope p) m := by
  have h : AgreesSequence (Stmt.evalSequence (.ofTable table limit) scope .null p.statements) _ m :=
    agrees_sequence (contextsAgree_ofTable table limit) scope p.statements hm
      (Value.all_null.2 rfl)
  refine Ensures.bind (Ensures.mono h (fun r m' h => h)
    fun o m' ⟨hrun, hm'⟩ => ⟨run_bind_of_error hrun, hm'⟩) ?_
  intro r m' ⟨hrun, hm', hr⟩
  unfold Program.eval
  rw [run_bind_of_ok hrun]
  cases r with
  | ok v => exact ⟨rfl, hm', hr⟩
  | error e =>
    cases e with
    | thrown error => exact ⟨rfl, hm', trivial⟩
    | returned id v => exact ⟨rfl, hm', trivial⟩

end Throwing

/-- Sessions store genuine values only. -/
theorem Session.genuine {m m' : Machine} (h : Session m m') (hm : m.Genuine) : m'.Genuine := by
  induction h with
  | refl => exact hm
  | scope outer _ ih => exact Machine.Holds.push ih outer
  | table _ ih => exact ih
  | output _ _ ih => exact ih
  | run program _ _ _ _ hrun ih =>
    exact (Throwing.agrees_program _ program ih).genuine.of_leaves hrun

theorem Reachable.genuine {m : Machine} (h : Reachable m) : m.Genuine :=
  Session.genuine h Machine.Holds.initial

/-- A program ends as it does with exceptions, with the same machine: the value of the one is the
value of the other, or the error that the other throws. -/
theorem eval_eq_throwing {m : Machine} (hm : Reachable m) (program : Program) (table : ObjectId)
    (limit : Nat) (scope : ScopeId) :
    match (Throwing.program (.ofTable table limit) scope program).run.run m with
    | .ok (.ok value) m' =>
      (program.eval (.ofTable table limit) scope).run m = .ok value m' ∧ value.Genuine
    | .ok (.error error) m' =>
      (program.eval (.ofTable table limit) scope).run m = .ok (.error error.id error.fault) m'
    | .error overflow m' =>
      (program.eval (.ofTable table limit) scope).run m = .error overflow m' := by
  have hagrees : Throwing.AgreesValue (program.eval (.ofTable table limit) scope)
      (Throwing.program (.ofTable table limit) scope program) m :=
    Throwing.agrees_program scope program hm.genuine
  unfold Throwing.AgreesValue Throwing.Agrees Ensures at hagrees
  cases hrun : (Throwing.program (.ofTable table limit) scope program).run.run m with
  | ok r m' =>
    rw [hrun] at hagrees
    cases r with
    | ok value => exact ⟨hagrees.1, hagrees.2.2⟩
    | error error => exact hagrees.1
  | error overflow m' =>
    rw [hrun] at hagrees
    exact hagrees.1

/-- A return that leaves the program: thrown by the one, made an error by the other. -/
theorem eval_eq_throwing_of_escaping_return :
    Reachable ⟨#[⟨[], none⟩], 0, ""⟩ ∧
    (Program.eval (.ofTable 0 10) 0
      ⟨[.ret ⟨.ret, "return", 1⟩ (.integer ⟨.integer, "1", 1⟩ 1)]⟩).run ⟨#[⟨[], none⟩], 0, ""⟩ =
      .ok (.error 1 .returnOutsideFunction) ⟨#[⟨[], none⟩], 2, ""⟩ := by
  have hm : Reachable ⟨#[⟨[], none⟩], 0, ""⟩ := .scope none .refl
  have heval := eval_eq_throwing hm
    ⟨[.ret ⟨.ret, "return", 1⟩ (.integer ⟨.integer, "1", 1⟩ 1)]⟩ 0 10 0
  exact ⟨hm, heval⟩

end MonkeyLang
