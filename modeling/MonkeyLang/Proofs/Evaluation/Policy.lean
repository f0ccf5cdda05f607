import MonkeyLang.Proofs.Evaluation.Agreement
import MonkeyLang.Proofs.Evaluation.Place

/-!
# Policies

A `Policy` says which nodes may be evaluated, what the parts of values may be, and which faults may
occur. Its fields ask for what is special to one kind of node, value or fault; that evaluation
follows the policy then is one induction over the tree and one over the depth of calls.

The induction is about the evaluator with exceptions, where errors and returns are no values and
every rule is a sequence of its parts. `Policy.ensures_program` carries the result over to the
evaluator itself, with which it agrees.
-/

namespace MonkeyLang

/-- Whether the fault is one of the values, names and counts that evaluation meets. The others are
faults of the form of a program, or come from outside. -/
def Fault.isData : Fault → Bool
  | .incompleteProgram | .unknownNode _ | .missingReturn | .returnOutsideFunction | .custom _ => false
  | _ => true

/-- The statements may end without an exit. -/
def Finishes (statements : List Stmt) : Prop :=
  ∃ ctx scope last m value m', (Throwing.sequence ctx scope last statements).run.run m =
    .ok (.ok value) m'

/-- What is evaluated, stored and thrown. -/
structure Policy where
  /-- the nodes that may be evaluated -/
  Fits : Node → Prop
  /-- the parts that values may have -/
  Fine : Value → Prop
  /-- the faults that may occur -/
  Allowed : Fault → Prop
  fits_child : ∀ {node inner node'}, Fits node → (inner, node') ∈ node.evaluated → Fits node'
  fine_genuine : ∀ {value}, Fine value → value.isExit = false
  fine_plain : Value.Plain Fine
  fine_function : ∀ {token parameters body}, Fits (.expression (.function token parameters body)) →
    ∀ id scope, Fine (.function id parameters body scope)
  fits_body : ∀ {id parameters body scope}, Fine (.function id parameters body scope) →
    ∀ st ∈ body.statements, Fits (.statement st)
  data : ∀ fault, fault.isData → Allowed fault
  missing : Fits (.expression .missing) → Allowed .incompleteProgram
  unknownExpr : ∀ {label token}, Fits (.expression (.unknown label token)) →
    Allowed (.unknownNode label)
  unknownStmt : ∀ {label token}, Fits (.statement (.unknown label token)) →
    Allowed (.unknownNode label)
  finishes : ∀ {id parameters body scope}, Fine (.function id parameters body scope) →
    Finishes body.statements → Allowed .missingReturn

/-! ### The faults of operations -/

namespace Value

variable {operator : String} {a b : Value} {fault : Fault}

theorem isData_of_unary (h : a.unary operator = .error fault) : fault.isData := by
  unfold unary at h
  repeat' split at h
  all_goals cases h
  all_goals rfl

theorem isData_of_integerBinary {m n : Int} (h : integerBinary operator m n = .error fault) :
    fault.isData := by
  unfold integerBinary at h
  repeat' split at h
  all_goals cases h
  all_goals rfl

theorem isData_of_textBinary {s t : String} (h : textBinary operator s t = .error fault) :
    fault.isData := by
  unfold textBinary at h
  repeat' split at h
  all_goals cases h
  all_goals rfl

theorem isData_of_binary (h : binary operator a b = .error fault) : fault.isData := by
  unfold binary at h
  split at h
  · cases h; rfl
  split at h
  · exact isData_of_integerBinary h
  · exact isData_of_textBinary h
  · repeat' split at h
    all_goals cases h
    all_goals rfl

theorem isData_of_index (h : a.index b = .error fault) : fault.isData := by
  unfold index at h
  split at h
  · unfold elementAt at h
    repeat' split at h
    all_goals cases h
    all_goals rfl
  · repeat' split at h
    all_goals cases h
    all_goals rfl
  · cases h; rfl

end Value

open Throwing

namespace Policy

variable (P : Policy)

/-- The parts of the value are as they may be. -/
def Sound (value : Value) : Prop := value.All P.Fine

/-- Every value bound in a scope is sound. -/
def Holds (m : Machine) : Prop := m.Holds P.Sound

/-- What may be thrown by a statement: an allowed fault, or a sound value to return. -/
def Exits : Exit → Prop
  | .thrown error => P.Allowed error.fault
  | .returned _ value => P.Sound value

/-- From the machine `m`, the computation has a good result or throws what is bad, and the machine
goes on to hold sound values only. -/
def Follows {ε β : Type} (good : β → Prop) (bad : ε → Prop) (y : ExceptT ε Eval β) (m : Machine) :
    Prop :=
  Ensures y.run m
    (fun r m' => P.Holds m' ∧ match r with | .ok b => good b | .error e => bad e)
    fun _ m' => P.Holds m'

/-- A computation of an expression. -/
abbrev FollowsRaising {β : Type} (good : β → Prop) (y : Raising β) (m : Machine) : Prop :=
  P.Follows good (fun error => P.Allowed error.fault) y m

/-- A computation of a statement. -/
abbrev FollowsExiting (y : Exiting Value) (m : Machine) : Prop := P.Follows P.Sound P.Exits y m

/-- Calls of sound values follow the policy. -/
def Calls (ctx : Throwing.Context) : Prop :=
  ∀ function arguments m, P.Holds m → P.Sound function → (∀ v ∈ arguments, P.Sound v) →
    P.FollowsRaising P.Sound (ctx.call function arguments) m

variable {P}

theorem Sound.genuine {value : Value} (h : P.Sound value) : value.Genuine :=
  Value.All.mono h fun _ => P.fine_genuine

theorem Holds.genuine {m : Machine} (h : P.Holds m) : m.Genuine :=
  fun id scope hscope entry hentry => Sound.genuine (h id scope hscope entry hentry)

theorem sound_null : P.Sound .null := Value.all_null.2 P.fine_plain.null

/-- A part of a node that has no new frame around it. -/
theorem fits_part {node node' : Node} {nodes : List Node} (h : P.Fits node)
    (hevaluated : node.evaluated = Node.here nodes) (hnode : node' ∈ nodes) : P.Fits node' := by
  have hchild : ([], node') ∈ node.evaluated := by
    rw [hevaluated]
    exact Node.mem_here hnode
  exact P.fits_child h hchild

/-- A statement of a block. -/
theorem fits_within {node : Node} {frame : Frame} {st : Stmt} (h : P.Fits node)
    (hevaluated : node.evaluated = Node.within frame) (hst : st ∈ frame.statements) :
    P.Fits (.statement st) := by
  have hchild : ([frame], .statement st) ∈ node.evaluated := by
    rw [hevaluated]
    exact Node.mem_within hst
  exact P.fits_child h hchild

section Steps

variable {ε β β' : Type} {good : β → Prop} {good' : β' → Prop} {bad : ε → Prop}
  {y : ExceptT ε Eval β} {m : Machine}

theorem follows_pure {b : β} (hm : P.Holds m) (hb : good b) :
    P.Follows good bad (pure b) m := ⟨hm, hb⟩

/-- What follows is run after a result only. -/
theorem Follows.bind {k : β → ExceptT ε Eval β'} (h : P.Follows good bad y m)
    (hk : ∀ b m', P.Holds m' → good b → P.Follows good' bad (k b) m') :
    P.Follows good' bad (y >>= k) m := by
  refine ensures_except_bind.2 (Ensures.mono h (fun r m' ⟨hm', hr⟩ => ?_) fun _ _ h => h)
  cases r with
  | ok b => exact hk b m' hm' hr
  | error e => exact ⟨hm', hr⟩

/-- A new identity changes nothing else. -/
theorem follows_fresh {k : ObjectId → ExceptT ε Eval β} (hm : P.Holds m)
    (hk : ∀ id m', P.Holds m' → P.Follows good bad (k id) m') :
    P.Follows good bad ((Eval.fresh : Eval ObjectId) >>= k) m :=
  hk m.supply { m with supply := m.supply + 1 } hm

/-- A new scope holds no value. -/
theorem follows_newScope {outer : Option ScopeId} {k : ScopeId → ExceptT ε Eval β}
    (hm : P.Holds m) (hk : ∀ id m', P.Holds m' → P.Follows good bad (k id) m') :
    P.Follows good bad ((Eval.newScope outer : Eval ScopeId) >>= k) m :=
  hk m.scopes.size { m with scopes := m.scopes.push ⟨[], outer⟩ } (hm.push outer)

/-- A declaration stores the value it is given. -/
theorem follows_declare {scope : ScopeId} {name : String} {value : Value}
    {k : Unit → ExceptT ε Eval β} (hm : P.Holds m) (hvalue : P.Sound value)
    (hk : ∀ m', P.Holds m' → P.Follows good bad (k ()) m') :
    P.Follows good bad ((Eval.declare scope name value : Eval Unit) >>= k) m :=
  hk (m.declare scope name value) (Machine.Holds.declare hm scope name hvalue)

/-- The parameters of a call are bound to its arguments. -/
theorem follows_bindParameters {scope : ScopeId} {parameters : List Ident}
    {arguments : List Value} {k : Unit → ExceptT ε Eval β} (hm : P.Holds m)
    (harguments : ∀ v ∈ arguments, P.Sound v)
    (hk : ∀ m', P.Holds m' → P.Follows good bad (k ()) m') :
    P.Follows good bad ((bindParameters scope parameters arguments : Eval Unit) >>= k) m := by
  have hbound : P.Holds (m.bindParameters scope parameters arguments) :=
    Machine.Holds.bindParameters hm scope parameters harguments
  exact (ensures_congr (run_lift_bind_of_ok (run_bindParameters scope parameters arguments m))).2
    (hk _ hbound)

theorem follows_get {k : Machine → ExceptT ε Eval β} (h : P.Follows good bad (k m) m) :
    P.Follows good bad ((get : Eval Machine) >>= k) m := h

theorem follows_fail {fault : Fault} (hm : P.Holds m) (hfault : P.Allowed fault) :
    P.FollowsRaising good (fail fault) m := ⟨hm, hfault⟩

theorem follows_data {fault : Fault} (hm : P.Holds m) (hfault : fault.isData) :
    P.FollowsRaising good (fail fault) m := follows_fail hm (P.data fault hfault)

theorem follows_ofResult {r : Except Fault Value} (hm : P.Holds m)
    (hok : ∀ v, r = .ok v → P.Sound v) (herror : ∀ fault, r = .error fault → fault.isData) :
    P.FollowsRaising P.Sound (Throwing.ofResult r) m := by
  cases r with
  | ok v => exact follows_pure hm (hok v rfl)
  | error fault => exact follows_data hm (herror fault rfl)

/-- An expression as a part of a statement. -/
theorem follows_part {y : Raising β} (h : P.FollowsRaising good y m) :
    P.Follows good P.Exits (part y) m := by
  refine ensures_part.2 (Ensures.mono h (fun r m' ⟨hm', hr⟩ => ?_) fun _ _ h => h)
  cases r with
  | ok b => exact ⟨hm', hr⟩
  | error e => exact ⟨hm', hr⟩

theorem follows_newArray {vs : List Value} (hm : P.Holds m) (hvs : ∀ v ∈ vs, P.Sound v) :
    P.FollowsRaising P.Sound ((Eval.newArray vs : Eval Value) : Raising Value) m :=
  ⟨hm, Value.all_array.2 ⟨P.fine_plain.array _ _, hvs⟩⟩

theorem follows_newHash {entries : List (HashKey × Value × Value)} (hm : P.Holds m)
    (hentries : Value.AllEntries P.Fine entries) :
    P.FollowsRaising P.Sound ((Eval.newHash entries : Eval Value) : Raising Value) m :=
  ⟨hm, Value.all_hash.2 ⟨P.fine_plain.hash _ _, hentries⟩⟩

end Steps

section Tree

variable {ctx : Throwing.Context}

theorem follows_name {m : Machine} (scope : ScopeId) (name : String) (hm : P.Holds m) :
    P.FollowsRaising P.Sound (Throwing.name ctx scope name) m := by
  unfold Throwing.name
  refine follows_get ?_
  cases hlookup : m.lookup scope name with
  | some value => exact follows_pure hm (hm.lookup hlookup)
  | none =>
    cases Builtin.ofName? name with
    | some builtin => exact follows_pure hm (Value.all_builtin.2 (P.fine_plain.builtin _ _))
    | none => exact follows_data hm rfl

theorem follows_hashKey {m : Machine} (key : Value) (hm : P.Holds m) :
    P.FollowsRaising (fun _ => True) (hashKey key) m := by
  unfold hashKey
  cases key.hashKey? with
  | some word => exact follows_pure hm trivial
  | none => exact follows_data hm rfl

theorem follows_truth {m : Machine} (value : Value) (hm : P.Holds m) :
    P.FollowsRaising (fun _ => True) (truth value) m := by
  cases value with
  | boolean b => exact follows_pure hm trivial
  | integer | text | null | void | ret | error | function | builtin | array | hash =>
    exact follows_data hm rfl

mutual

theorem follows_expression (hctx : P.Calls ctx) (scope : ScopeId) : ∀ (e : Expr) {m : Machine},
    P.Holds m → P.Fits (.expression e) →
      P.FollowsRaising P.Sound (Throwing.expression ctx scope e) m
  | .missing, _, hm, h => by
    rw [Throwing.expression]
    exact follows_fail hm (P.missing h)
  | .unknown .., _, hm, h => by
    rw [Throwing.expression]
    exact follows_fail hm (P.unknownExpr h)
  | .identifier ident, _, hm, _ => by
    rw [Throwing.expression]
    exact follows_name scope ident.name hm
  | .integer .., _, hm, _ => by
    rw [Throwing.expression]
    exact follows_pure hm (Value.all_integer.2 (P.fine_plain.integer _))
  | .boolean .., _, hm, _ => by
    rw [Throwing.expression]
    exact follows_pure hm (Value.all_boolean.2 (P.fine_plain.boolean _))
  | .text .., _, hm, _ => by
    rw [Throwing.expression]
    exact follows_pure hm (Value.all_text.2 (P.fine_plain.text _))
  | .unary _ operator operand, _, hm, h => by
    rw [Throwing.expression]
    have hoperand := fits_part h rfl (List.mem_singleton.2 rfl)
    refine (follows_expression hctx scope operand hm hoperand).bind fun v m' hm' _ => ?_
    exact follows_ofResult hm' (fun _ hr => Value.all_unary P.fine_plain.computed hr)
      fun _ hr => Value.isData_of_unary hr
  | .binary _ left operator right, _, hm, h => by
    rw [Throwing.expression]
    have hleft : P.Fits (.expression left) := fits_part h rfl (by simp)
    have hright : P.Fits (.expression right) := fits_part h rfl (by simp)
    refine (follows_expression hctx scope left hm hleft).bind fun a m' hm' _ => ?_
    refine (follows_expression hctx scope right hm' hright).bind fun b m' hm' _ => ?_
    exact follows_ofResult hm' (fun _ hr => Value.all_binary P.fine_plain.computed hr)
      fun _ hr => Value.isData_of_binary hr
  | .function _ parameters body, _, hm, h => by
    rw [Throwing.expression]
    exact follows_fresh hm fun id _ hm' =>
      follows_pure hm' (Value.all_function.2 (P.fine_function h id scope))
  | .call _ callee arguments, _, hm, h => by
    rw [Throwing.expression]
    have hcallee : P.Fits (.expression callee) := fits_part h rfl (by simp)
    have harguments : ∀ e ∈ arguments, P.Fits (.expression e) := fun e he =>
      fits_part h rfl (by simp [he])
    refine (follows_expression hctx scope callee hm hcallee).bind fun f m' hm' hf => ?_
    refine (follows_list hctx scope arguments hm' harguments).bind fun vs m' hm' hvs => ?_
    exact hctx f vs m' hm' hf hvs
  | .array _ elements, _, hm, h => by
    rw [Throwing.expression]
    have helements : ∀ e ∈ elements, P.Fits (.expression e) := fun e he =>
      fits_part h rfl (by simp [he])
    refine (follows_list hctx scope elements hm helements).bind fun vs m' hm' hvs => ?_
    exact follows_newArray hm' hvs
  | .index _ collection position, _, hm, h => by
    rw [Throwing.expression]
    have hcollection : P.Fits (.expression collection) := fits_part h rfl (by simp)
    have hposition : P.Fits (.expression position) := fits_part h rfl (by simp)
    refine (follows_expression hctx scope collection hm hcollection).bind fun c m' hm' hc => ?_
    refine (follows_expression hctx scope position hm' hposition).bind fun p m' hm' _ => ?_
    exact follows_ofResult hm' (fun _ hr => Value.all_index hc hr)
      fun _ hr => Value.isData_of_index hr
  | .hash _ ps, _, hm, h => by
    rw [Throwing.expression]
    have hps : ∀ p ∈ ps, P.Fits (.expression p.1) ∧ P.Fits (.expression p.2) := fun p hp =>
      ⟨fits_part h rfl (List.mem_flatMap.2 ⟨p, hp, by simp⟩),
        fits_part h rfl (List.mem_flatMap.2 ⟨p, hp, by simp⟩)⟩
    refine (follows_pairs hctx scope ps hm hps (List.forall_mem_nil _)).bind
      fun entries m' hm' hentries => ?_
    exact follows_newHash hm' hentries

theorem follows_list (hctx : P.Calls ctx) (scope : ScopeId) : ∀ (es : List Expr) {m : Machine},
    P.Holds m → (∀ e ∈ es, P.Fits (.expression e)) →
      P.FollowsRaising (fun vs => ∀ v ∈ vs, P.Sound v) (Throwing.list ctx scope es) m
  | [], _, hm, _ => by
    rw [Throwing.list]
    exact follows_pure hm (List.forall_mem_nil _)
  | e :: es, _, hm, h => by
    rw [Throwing.list]
    obtain ⟨he, hes⟩ := List.forall_mem_cons.1 h
    refine (follows_expression hctx scope e hm he).bind fun v m' hm' hv => ?_
    refine (follows_list hctx scope es hm' hes).bind fun vs m' hm' hvs => ?_
    exact follows_pure hm' (List.forall_mem_cons.2 ⟨hv, hvs⟩)

theorem follows_pairs (hctx : P.Calls ctx) (scope : ScopeId) :
    ∀ (ps : List (Expr × Expr)) {m : Machine} {entries : List (HashKey × Value × Value)},
    P.Holds m → (∀ p ∈ ps, P.Fits (.expression p.1) ∧ P.Fits (.expression p.2)) →
      Value.AllEntries P.Fine entries →
      P.FollowsRaising (Value.AllEntries P.Fine) (Throwing.pairs ctx scope entries ps) m
  | [], _, _, hm, _, hentries => by
    rw [Throwing.pairs]
    exact follows_pure hm hentries
  | (keyExpr, valueExpr) :: ps, _, entries, hm, h, hentries => by
    rw [Throwing.pairs]
    obtain ⟨⟨hkey, hvalue⟩, hps⟩ := List.forall_mem_cons.1 h
    -- the key is checked before its value is evaluated
    refine (follows_expression hctx scope keyExpr hm hkey).bind fun k m' hm' hk => ?_
    refine (follows_hashKey k hm').bind fun word m' hm' _ => ?_
    refine (follows_expression hctx scope valueExpr hm' hvalue).bind fun v m' hm' hv => ?_
    exact follows_pairs hctx scope ps hm' hps (hentries.insert hk hv)

theorem follows_statement (hctx : P.Calls ctx) (scope : ScopeId) : ∀ (st : Stmt) {m : Machine},
    P.Holds m → P.Fits (.statement st) → P.FollowsExiting (Throwing.statement ctx scope st) m
  | .unknown .., _, hm, h => by
    rw [Throwing.statement]
    exact follows_part (follows_fail hm (P.unknownStmt h))
  | .declaration keyword ident valueExpr, m, hm, h => by
    rw [Throwing.statement]
    have hvalue := fits_part h rfl (List.mem_singleton.2 rfl)
    refine follows_get ?_
    cases m.lookupLocal scope ident.name with
    | some _ => exact follows_part (follows_data hm rfl)
    | none =>
      refine (follows_part (follows_expression hctx scope valueExpr hm hvalue)).bind
        fun v m' hm' hv => ?_
      exact follows_declare hm' hv fun _ hm' => follows_pure hm' hv
  | .ret _ valueExpr, _, hm, h => by
    -- the value of a bare return is missing, and not evaluated: it need not fit
    by_cases hmissing : valueExpr = .missing
    · subst hmissing
      rw [Throwing.statement]
      exact follows_fresh hm fun _ _ hm' => ⟨hm', Value.all_void.2 P.fine_plain.void⟩
    · have hvalue : P.Fits (.expression valueExpr) :=
        fits_part h (Node.evaluated_ret hmissing) (List.mem_singleton.2 rfl)
      rw [Throwing.statement]
      · refine (follows_part (follows_expression hctx scope valueExpr hm hvalue)).bind
          fun v m' hm' hv => ?_
        exact follows_fresh hm' fun _ _ hm' => ⟨hm', hv⟩
      · exact hmissing
  | .expression _ value, _, hm, h => by
    rw [Throwing.statement]
    have hvalue := fits_part h rfl (List.mem_singleton.2 rfl)
    exact follows_part (follows_expression hctx scope value hm hvalue)
  | .block body, _, hm, h => by
    rw [Throwing.statement]
    have hbody := fits_part h rfl (List.mem_singleton.2 rfl)
    exact follows_block hctx scope body hm hbody
  | .ifThen _ condition consequence, _, hm, h => by
    rw [Throwing.statement]
    have hcondition : P.Fits (.expression condition) := fits_part h rfl (by simp)
    have hconsequence : P.Fits (.block consequence) := fits_part h rfl (by simp)
    refine (follows_part (follows_expression hctx scope condition hm hcondition)).bind
      fun v m' hm' _ => ?_
    refine (follows_part (follows_truth v hm')).bind fun holds m' hm' _ => ?_
    cases holds with
    | true => exact follows_block hctx scope consequence hm' hconsequence
    | false => exact follows_pure hm' sound_null
  | .ifElse _ condition consequence alternative, _, hm, h => by
    rw [Throwing.statement]
    have hcondition : P.Fits (.expression condition) := fits_part h rfl (by simp)
    have hconsequence : P.Fits (.block consequence) := fits_part h rfl (by simp)
    have halternative : P.Fits (.block alternative) := fits_part h rfl (by simp)
    refine (follows_part (follows_expression hctx scope condition hm hcondition)).bind
      fun v m' hm' _ => ?_
    refine (follows_part (follows_truth v hm')).bind fun holds m' hm' _ => ?_
    cases holds with
    | true => exact follows_block hctx scope consequence hm' hconsequence
    | false => exact follows_block hctx scope alternative hm' halternative

theorem follows_sequence (hctx : P.Calls ctx) (scope : ScopeId) :
    ∀ (ss : List Stmt) {m : Machine} {last : Value}, P.Holds m →
      (∀ st ∈ ss, P.Fits (.statement st)) → P.Sound last →
      P.FollowsExiting (Throwing.sequence ctx scope last ss) m
  | [], _, _, hm, _, hlast => by
    rw [Throwing.sequence]
    exact follows_pure hm hlast
  | st :: ss, _, _, hm, h, _ => by
    rw [Throwing.sequence]
    obtain ⟨hst, hss⟩ := List.forall_mem_cons.1 h
    refine (follows_statement hctx scope st hm hst).bind fun v m' hm' hv => ?_
    exact follows_sequence hctx scope ss hm' hss hv

theorem follows_block (hctx : P.Calls ctx) (scope : ScopeId) : ∀ (b : Block) {m : Machine},
    P.Holds m → P.Fits (.block b) → P.FollowsExiting (Throwing.block ctx scope b) m
  | ⟨_, ss⟩, _, hm, h => by
    rw [Throwing.block]
    have hss : ∀ st ∈ ss, P.Fits (.statement st) := fun st hst => fits_within h rfl hst
    exact follows_newScope hm fun id _ hm' => follows_sequence hctx id ss hm' hss sound_null

end

end Tree

/-! ### Calls -/

section Calls

variable {m : Machine} {arguments : List Value}

theorem follows_only (hm : P.Holds m) (harguments : ∀ v ∈ arguments, P.Sound v) :
    P.FollowsRaising P.Sound (only arguments) m := by
  match arguments, harguments with
  | [v], harguments => exact follows_pure hm (harguments v List.mem_cons_self)
  | [], _ | _ :: _ :: _, _ => exact follows_data hm rfl

theorem follows_elements (b : Builtin) {argument : Value} (hm : P.Holds m)
    (hargument : P.Sound argument) :
    P.FollowsRaising (fun vs => ∀ v ∈ vs, P.Sound v) (elements b argument) m := by
  cases argument with
  | array id vs => exact follows_pure hm (Value.all_array.1 hargument).2
  | integer | boolean | text | null | void | ret | error | function | builtin | hash =>
    exact follows_data hm rfl

theorem follows_builtin (b : Builtin) (hm : P.Holds m) (harguments : ∀ v ∈ arguments, P.Sound v) :
    P.FollowsRaising P.Sound (Throwing.builtin arguments b) m := by
  cases b with
  | len =>
    refine (follows_only hm harguments).bind fun v m' hm' _ => ?_
    cases v with
    | text | array => exact follows_pure hm' (Value.all_integer.2 (P.fine_plain.integer _))
    | integer | boolean | null | void | ret | error | function | builtin | hash =>
      exact follows_data hm' rfl
  | first =>
    refine (follows_only hm harguments).bind fun v m' hm' hv => ?_
    refine (follows_elements .first hm' hv).bind fun vs m' hm' hvs => follows_pure hm' ?_
    cases vs with
    | nil => exact sound_null
    | cons v vs => exact hvs v List.mem_cons_self
  | last =>
    refine (follows_only hm harguments).bind fun v m' hm' hv => ?_
    refine (follows_elements .last hm' hv).bind fun vs m' hm' hvs => follows_pure hm' ?_
    cases hlast : vs.getLast? with
    | none => exact sound_null
    | some v => exact hvs v (List.mem_of_getLast? hlast)
  | rest =>
    refine (follows_only hm harguments).bind fun v m' hm' hv => ?_
    refine (follows_elements .rest hm' hv).bind fun vs m' hm' hvs => ?_
    cases vs with
    | nil => exact follows_pure hm' sound_null
    | cons v vs => exact follows_newArray hm' fun u hu => hvs u (List.mem_cons_of_mem v hu)
  | push =>
    match arguments, harguments with
    | [v, u], harguments =>
      have hv := harguments v List.mem_cons_self
      refine (follows_elements .push hm hv).bind fun vs m' hm' hvs => ?_
      refine follows_newArray hm' fun w hw => ?_
      rcases List.mem_append.1 hw with hw | hw
      · exact hvs w hw
      · exact harguments w (List.mem_cons_of_mem v hw)
    | [], _ | [_], _ | _ :: _ :: _ :: _, _ => exact follows_data hm rfl
  | print => exact ⟨hm, Value.all_void.2 P.fine_plain.void⟩

/-- A body that ends without a return fails, and a return gives its value. -/
theorem follows_catchReturn {y : Exiting Value} (h : P.FollowsExiting y m)
    (hfinishes : ∀ value m', y.run.run m = .ok (.ok value) m' → P.Allowed .missingReturn) :
    P.FollowsRaising P.Sound (catchReturn y) m := by
  refine ensures_bind.2 ((Ensures.and_run h).mono (fun r m' ⟨⟨hm', hr⟩, hrun⟩ => ?_)
    fun _ _ h => h.1)
  cases r with
  | ok value => exact ⟨hm', hfinishes value m' hrun⟩
  | error e =>
    cases e with
    | thrown error => exact ⟨hm', hr⟩
    | returned id value => exact ⟨hm', hr⟩

/-- A call follows the policy if the calls nested in it do. -/
theorem follows_apply {table : ObjectId} {depth : Nat}
    (hnested : ∀ d, depth = d + 1 → P.Calls (.ofTable table d)) {function : Value} (hm : P.Holds m)
    (hfunction : P.Sound function) (harguments : ∀ v ∈ arguments, P.Sound v) :
    P.FollowsRaising P.Sound (Throwing.apply table depth function arguments) m := by
  cases function with
  | function id parameters body outer =>
    have hfine := Value.all_function.1 hfunction
    by_cases hlength : arguments.length = parameters.length
    · cases depth with
      | zero =>
        rw [Throwing.apply, if_neg (not_not_intro hlength)]
        exact hm
      | succ d =>
        rw [Throwing.apply, if_neg (not_not_intro hlength)]
        refine follows_newScope hm fun scope m' hm' => ?_
        refine follows_bindParameters hm' harguments fun m' hm' => ?_
        -- the body fits as the function was fine when it was stored
        have hbody : P.FollowsExiting
            (Throwing.sequence (.ofTable table d) scope .null body.statements) m' :=
          follows_sequence (hnested d rfl) scope body.statements hm' (P.fits_body hfine) sound_null
        exact follows_catchReturn hbody fun value m'' hrun =>
          P.finishes hfine ⟨_, scope, .null, m', value, m'', hrun⟩
    · cases depth <;> rw [Throwing.apply, if_pos hlength] <;> exact follows_data hm rfl
  | builtin t b => cases depth <;> exact follows_builtin b hm harguments
  | integer | boolean | text | null | void | ret | error | array | hash =>
    cases depth <;> exact follows_data hm rfl

variable (P) in
/-- Calls follow the policy, however deeply they nest. -/
theorem calls_ofTable (table : ObjectId) (limit : Nat) : P.Calls (.ofTable table limit) := by
  induction limit with
  | zero => exact fun f vs m hm => follows_apply (fun _ hd => absurd hd (by omega)) hm
  | succ limit ih =>
    refine fun f vs m hm => follows_apply (fun d hd => ?_) hm
    cases hd
    exact ih

end Calls

/-! ### Programs -/

section Programs

variable {table : ObjectId} {limit : Nat} {scope : ScopeId} {m : Machine}

/-- A return that leaves the program must be allowed for. -/
theorem follows_program {program : Program} (hm : P.Holds m)
    (hprogram : ∀ st ∈ program.statements, P.Fits (.statement st))
    (hreturn : ∀ id value m', (Throwing.sequence (.ofTable table limit) scope .null
      program.statements).run.run m = .ok (.error (.returned id value)) m' →
        P.Allowed .returnOutsideFunction) :
    P.FollowsRaising P.Sound (Throwing.program (.ofTable table limit) scope program) m := by
  have h : P.FollowsExiting
      (Throwing.sequence (.ofTable table limit) scope .null program.statements) m :=
    follows_sequence (P.calls_ofTable table limit) scope program.statements hm hprogram sound_null
  refine ensures_bind.2 ((Ensures.and_run h).mono (fun r m' ⟨⟨hm', hr⟩, hrun⟩ => ?_)
    fun _ _ h => h.1)
  cases r with
  | ok value => exact ⟨hm', hr⟩
  | error e =>
    cases e with
    | thrown error => exact ⟨hm', hr⟩
    | returned id value => exact ⟨hm', hreturn id value m' hrun⟩

/-- What the evaluator with exceptions does, the evaluator does with errors as values. -/
theorem ensures_of_follows {x : Eval Value} {y : Raising Value} (hagrees : AgreesValue x y m)
    (h : P.FollowsRaising P.Sound y m) :
    Ensures x m
      (fun value m' => P.Holds m' ∧
        (P.Sound value ∨ ∃ id fault, value = .error id fault ∧ P.Allowed fault))
      fun _ m' => P.Holds m' := by
  unfold AgreesValue Agrees Ensures at hagrees
  unfold FollowsRaising Follows Ensures at h
  unfold Ensures
  cases hrun : y.run.run m with
  | error o m' =>
    rw [hrun] at h hagrees
    rw [hagrees.1]
    exact h
  | ok r m' =>
    rw [hrun] at h hagrees
    rw [hagrees.1]
    obtain ⟨hm', hr⟩ := h
    cases r with
    | ok value => exact ⟨hm', .inl hr⟩
    | error e => exact ⟨hm', .inr ⟨e.id, e.fault, rfl, hr⟩⟩

/-- A program whose statements fit follows the policy: its value is sound, or an error with an
allowed fault. -/
theorem ensures_program {program : Program} (hm : P.Holds m)
    (hprogram : ∀ st ∈ program.statements, P.Fits (.statement st))
    (hreturn : ∀ id value m', (Throwing.sequence (.ofTable table limit) scope .null
      program.statements).run.run m = .ok (.error (.returned id value)) m' →
        P.Allowed .returnOutsideFunction) :
    Ensures (program.eval (.ofTable table limit) scope) m
      (fun value m' => P.Holds m' ∧
        (P.Sound value ∨ ∃ id fault, value = .error id fault ∧ P.Allowed fault))
      fun _ m' => P.Holds m' :=
  ensures_of_follows (agrees_program scope program hm.genuine)
    (follows_program hm hprogram hreturn)

end Programs

end Policy

end MonkeyLang
