import Mathlib.Data.List.Forall2
import MonkeyLang.Proofs.Evaluation.Storing

/-!
# Evaluation of known programs on unknown machines

How a program is evaluated whose text is known, on a machine of which little is known. All that is
needed of the machine are the bindings that are seen from a scope (`Machine.Sees`): they tell what
every name stands for.

Most programs do not print, and change no scope that was there before (`Machine.Quiet`). Of such a
computation, `Machine.Gets` says what it ends with, if not too many calls are nested. There is one rule
for each construct of the language.
-/

namespace MonkeyLang

/-! ### Quiet machines -/

/-- No scope of `m` has changed in `m'`, and nothing has been printed. -/
structure Machine.Quiet (m m' : Machine) : Prop where
  kept : m.Kept m'
  output : m'.output = m.output

section Quiet

variable {m m' m'' : Machine}

theorem Machine.Kept.trans (h : m.Kept m') (h' : m'.Kept m'') : m.Kept m'' := fun id hid =>
  (h' id (Nat.lt_of_lt_of_le hid h.extends.size_le)).trans (h id hid)

theorem Machine.Quiet.refl (m : Machine) : m.Quiet m := ⟨fun _ _ => rfl, rfl⟩

theorem Machine.Quiet.trans (h : m.Quiet m') (h' : m'.Quiet m'') : m.Quiet m'' :=
  ⟨h.kept.trans h'.kept, h'.output.trans h.output⟩

theorem Machine.quiet_of_push {scope : Scope} (h : m'.scopes = m.scopes.push scope)
    (houtput : m'.output = m.output) : m.Quiet m' := by
  refine ⟨fun id hid => ?_, houtput⟩
  rw [h, Array.getElem?_push_lt hid, ← Array.getElem?_eq_getElem]

end Quiet

/-! ### Names -/

/-- The value of a name, from the innermost bindings that have one. -/
def seen? : List (Dict String Value) → String → Option Value
  | [], _ => none
  | bindings :: frames, name => (Dict.find? bindings name).or (seen? frames name)

/-- The bindings that are seen from the scope, the innermost ones first. -/
structure Machine.Sees (m : Machine) (scope : ScopeId) (frames : List (Dict String Value)) :
    Prop where
  lt : scope < m.scopes.size
  chain : (m.chain scope).map Scope.bindings = frames

section Names

variable {m m' : Machine} {scope outer : ScopeId} {frames : List (Dict String Value)}

theorem Machine.Sees.lookup (h : m.Sees scope frames) (name : String) :
    m.lookup scope name = seen? frames name := by
  rw [← h.chain, Machine.lookup]
  induction m.chain scope with
  | nil => rfl
  | cons first rest ih =>
    rw [List.findSome?_cons, List.map_cons, seen?, ih]
    cases Dict.find? first.bindings name <;> rfl

theorem Machine.lt_of_lookup {name : String} {value : Value}
    (h : m.lookup scope name = some value) : scope < m.scopes.size := by
  refine Nat.lt_of_not_le fun hle => ?_
  rw [Machine.lookup, Machine.chain, Array.getElem?_eq_none hle] at h
  cases h

/-- Scopes that are kept are linked as before. -/
theorem Machine.Kept.chain (h : m.Kept m') (hscope : scope < m.scopes.size) :
    m'.chain scope = m.chain scope := by
  fun_induction Machine.chain m scope with
  | case1 id hnone =>
    rw [Array.getElem?_eq_getElem hscope] at hnone
    cases hnone
  | case2 id scope hid houter =>
    rw [Machine.chain, h id hscope, hid]
    dsimp only
    rw [houter]
  | case3 id scope hid outer houter hlt ih =>
    rw [Machine.chain, h id hscope, hid]
    dsimp only
    rw [houter]
    dsimp only
    rw [if_pos hlt, ih (Nat.lt_trans hlt hscope)]
  | case4 id scope hid outer houter hlt =>
    rw [Machine.chain, h id hscope, hid]
    dsimp only
    rw [houter]
    dsimp only
    rw [if_neg hlt]

/-- In scopes that are kept, the names stand for what they did. -/
theorem Machine.Kept.lookup (h : m.Kept m') {name : String} {value : Value}
    (hvalue : m.lookup scope name = some value) : m'.lookup scope name = some value := by
  rw [Machine.lookup, h.chain (Machine.lt_of_lookup hvalue)]
  exact hvalue

theorem Machine.Sees.kept (h : m.Sees scope frames) (hkept : m.Kept m') : m'.Sees scope frames where
  lt := Nat.lt_of_lt_of_le h.lt hkept.extends.size_le
  chain := by rw [hkept.chain h.lt, h.chain]

theorem Machine.sees_of_top {bindings : Dict String Value}
    (h : m.scopes[scope]? = some ⟨bindings, none⟩) : m.Sees scope [bindings] := by
  refine ⟨(Array.getElem?_eq_some_iff.1 h).1, ?_⟩
  rw [Machine.chain, h]
  rfl

/-- From a new scope, its own bindings are seen before the others. -/
theorem Machine.Sees.push {bindings : Dict String Value} (h : m.Sees outer frames)
    (hscopes : m'.scopes = m.scopes.push ⟨bindings, some outer⟩) (houtput : m'.output = m.output) :
    m'.Sees m.scopes.size (bindings :: frames) := by
  have hbefore := h.kept (quiet_of_push hscopes houtput).kept
  refine ⟨by rw [hscopes, Array.size_push]; exact Nat.lt_succ_self _, ?_⟩
  rw [Machine.chain, hscopes, Array.getElem?_push_size]
  dsimp only
  rw [if_pos h.lt, List.map_cons, hbefore.chain]

/-- The bindings of parameters to arguments. -/
def bound (parameters : List Ident) (arguments : List Value) : Dict String Value :=
  (parameters.zip arguments).foldl (fun bindings p => bindings.insert p.1.name p.2) []

theorem scopes_declare {scopes : Array Scope} {bindings : Dict String Value}
    {outer : Option ScopeId} (h : m.scopes = scopes.push ⟨bindings, outer⟩) (name : String)
    (value : Value) : (m.declare scopes.size name value).scopes =
      scopes.push ⟨bindings.insert name value, outer⟩ := by
  unfold Machine.declare
  -- only the scope that was pushed last is another one
  refine Array.ext_getElem? fun i => ?_
  rw [h, Array.getElem?_modify, Array.getElem?_push, Array.getElem?_push]
  by_cases hi : i = scopes.size
  · rw [if_pos hi.symm, if_pos hi, if_pos hi]
    rfl
  · rw [if_neg (Ne.symm hi), if_neg hi, if_neg hi]

/-- The scope of a call binds the parameters. -/
theorem scopes_called (m : Machine) (outer : ScopeId) (parameters : List Ident)
    (arguments : List Value) : (m.called outer parameters arguments).scopes =
      m.scopes.push ⟨bound parameters arguments, some outer⟩ := by
  have hbind : ∀ (entries : List (Ident × Value)) (bindings : Dict String Value) (m' : Machine),
      m'.scopes = m.scopes.push ⟨bindings, some outer⟩ →
      (entries.foldl (fun m' p => m'.declare m.scopes.size p.1.name p.2) m').scopes =
        m.scopes.push ⟨entries.foldl (fun b p => b.insert p.1.name p.2) bindings, some outer⟩ := by
    intro entries
    induction entries with
    | nil => exact fun _ _ h => h
    | cons entry entries ih => exact fun _ _ h => ih _ _ (scopes_declare h _ _)
  exact hbind _ [] _ rfl

theorem output_called (m : Machine) (outer : ScopeId) (parameters : List Ident)
    (arguments : List Value) : (m.called outer parameters arguments).output = m.output :=
  Machine.bindParameters_induction (P := fun m' => m'.output = m.output) (fun _ _ _ _ _ h => h) rfl

end Names

/-! ### Computations -/

/-- The computation changes no scope of the machine, prints nothing and ends with such a result,
unless too many calls are nested. -/
def Machine.Gets {α : Type} (m : Machine) (x : Eval α) (good : α → Prop) (short : Prop) : Prop :=
  Ensures x m (fun a m' => m.Quiet m' ∧ good a) fun _ _ => short

section Gets

variable {α β : Type} {m m' : Machine} {x : Eval α} {good : α → Prop} {short : Prop}

theorem Machine.Gets.mono {good' : α → Prop} {short' : Prop} (h : m.Gets x good short)
    (hgood : ∀ a, good a → good' a) (hshort : short → short') : m.Gets x good' short' :=
  Ensures.mono h (fun a _ h => ⟨h.1, hgood a h.2⟩) fun _ _ h => hshort h

/-- Quiet as seen from an earlier machine. -/
theorem Machine.Gets.since (h : m'.Gets x good short) (hquiet : m.Quiet m') :
    Ensures x m' (fun a m'' => m.Quiet m'' ∧ good a) fun _ _ => short :=
  Ensures.mono h (fun _ _ h => ⟨hquiet.trans h.1, h.2⟩) fun _ _ h => h

theorem Machine.Gets.bind {f : α → Eval β} {good' : β → Prop} (h : m.Gets x good short)
    (hf : ∀ a m', m.Quiet m' → good a → m'.Gets (f a) good' short) : m.Gets (x >>= f) good' short :=
  Ensures.bind h fun a m' ⟨hquiet, ha⟩ => (hf a m' hquiet ha).since hquiet

theorem gets_pure {a : α} (ha : good a) : m.Gets (pure a) good short := ⟨.refl m, ha⟩

/-- New identities change nothing that is seen. -/
theorem gets_of_fresh {f : ObjectId → α} (h : ∀ id, good (f id)) :
    m.Gets (do return f (← Eval.fresh)) good short := ⟨⟨fun _ _ => rfl, rfl⟩, h _⟩

/-- A known value is no error if it is not. -/
theorem Machine.Gets.proper {x : Eval Value} {good : Value → Prop} (h : m.Gets x good short)
    (hgood : ∀ value, good value → value.isError = false) :
    m.Gets x (fun value => value.isError = false ∧ good value) short :=
  h.mono (fun value hvalue => ⟨hgood value hvalue, hvalue⟩) fun h => h

end Gets

/-! ### Expressions -/

/-- The expression has such a value, which is no error. -/
def Machine.Has (m : Machine) (ctx : Context) (scope : ScopeId) (e : Expr) (good : Value → Prop)
    (short : Prop) : Prop :=
  m.Gets (e.eval ctx scope) (fun value => value.isError = false ∧ good value) short

section Expressions

variable {m : Machine} {ctx : Context} {scope : ScopeId} {good : Value → Prop} {short : Prop}
  {frames : List (Dict String Value)}

/-- What is got of an expression goes on. -/
theorem Machine.Has.bind {e : Expr} {f : Value → Eval Value} {good' : Value → Prop}
    (h : m.Has ctx scope e good short)
    (hf : ∀ value m', m.Quiet m' → good value → m'.Gets (f value) good' short) :
    m.Gets (do let value ← e.eval ctx scope
               if value.isError then return value else f value) good' short := by
  refine Machine.Gets.bind h fun value m' hquiet ⟨hvalue, hgood⟩ => ?_
  rw [if_neg (Bool.eq_false_iff.1 hvalue)]
  exact hf value m' hquiet hgood

theorem has_name (h : m.Sees scope frames) {ident : Ident} {value : Value}
    (hname : seen? frames ident.name = some value) (hvalue : value.isError = false) :
    m.Has ctx scope (.identifier ident) (· = value) short := by
  unfold Machine.Has
  rw [Expr.eval, evalName]
  refine ensures_get_bind ?_
  rw [h.lookup, hname]
  exact ⟨.refl m, hvalue, rfl⟩

theorem ofName?_name (b : Builtin) : Builtin.ofName? b.name = some b := by
  cases b <;> rfl

/-- A name that nothing is bound to stands for the built-in function. -/
theorem has_builtin (h : m.Sees scope frames) {ident : Ident} {b : Builtin}
    (hident : ident.name = b.name) (hname : seen? frames b.name = none) :
    m.Has ctx scope (.identifier ident) (· = .builtin ctx.table b) short := by
  unfold Machine.Has
  rw [Expr.eval, evalName, hident]
  refine ensures_get_bind ?_
  rw [h.lookup, hname]
  dsimp only
  rw [ofName?_name]
  exact ⟨.refl m, rfl, rfl⟩

theorem has_integer {token : Token} {n : Int} :
    m.Has ctx scope (.integer token n) (· = .integer n) short := by
  unfold Machine.Has
  rw [Expr.eval]
  exact gets_pure ⟨rfl, rfl⟩

theorem has_function {token : Token} {parameters : List Ident} {body : Block} :
    m.Has ctx scope (.function token parameters body)
      (fun value => ∃ id, value = .function id parameters body scope) short := by
  unfold Machine.Has
  rw [Expr.eval]
  exact gets_of_fresh fun id => ⟨rfl, id, rfl⟩

theorem has_binary {token : Token} {left right : Expr} {operator : String} {a b c : Value}
    (hleft : m.Has ctx scope left (· = a) short)
    (hright : ∀ m', m.Quiet m' → m'.Has ctx scope right (· = b) short)
    (hoperator : Value.binary operator a b = .ok c) (hc : c.isError = false) :
    m.Has ctx scope (.binary token left operator right) (· = c) short := by
  unfold Machine.Has
  rw [Expr.eval]
  refine hleft.bind fun value m' hquiet hvalue => ?_
  refine (hright m' hquiet).bind fun value' m'' _ hvalue' => ?_
  rw [hvalue, hvalue', hoperator]
  exact gets_pure ⟨hc, rfl⟩

/-- Expressions in a row have values, one for each, from this machine on. -/
def Machine.HaveEach (m : Machine) (ctx : Context) (scope : ScopeId) (es : List Expr)
    (goods : List (Value → Prop)) (short : Prop) : Prop :=
  List.Forall₂ (fun e good => ∀ m', m.Quiet m' → m'.Has ctx scope e good short) es goods

/-- The values are such, one for each. -/
def AreEach (goods : List (Value → Prop)) (values : List Value) : Prop :=
  List.Forall₂ (fun good value => good value) goods values

theorem gets_row {es : List Expr} {goods : List (Value → Prop)}
    (h : m.HaveEach ctx scope es goods short) {m' : Machine} (hquiet : m.Quiet m') :
    m'.Gets (Expr.evalList ctx scope es) (fun r => ∃ values, r = .ok values ∧ AreEach goods values)
      short := by
  unfold Machine.HaveEach at h
  induction h generalizing m' with
  | nil =>
    rw [Expr.evalList]
    exact gets_pure ⟨[], rfl, .nil⟩
  | cons he _ ih =>
    rw [Expr.evalList]
    refine Machine.Gets.bind (he m' hquiet) fun value m'' hquiet' ⟨hvalue, hgood⟩ => ?_
    rw [if_neg (Bool.eq_false_iff.1 hvalue)]
    refine Machine.Gets.bind (ih (hquiet.trans hquiet')) fun r _ _ ⟨values, hr, hvalues⟩ => ?_
    subst hr
    exact gets_pure ⟨_, rfl, .cons hgood hvalues⟩

/-- Finding the values of a row leaves the scopes alone, and the values are no errors. -/
theorem Expr.Valued.kept {table : ObjectId} {depth : Nat} {m' : Machine} {es : List Expr}
    {values : List Value} (h : Expr.Valued (.ofTable table depth) scope es m values m') :
    m.Kept m' ∧ ∀ value ∈ values, value.isError = false := by
  induction h with
  | nil => exact ⟨fun _ _ => rfl, nofun⟩
  | @cons e es value values m m₁ m₂ he hvalue _ ih =>
    have hkept : m.Kept m₁ := e.eval_kept.of_ok he
    exact ⟨hkept.trans ih.1, List.forall_mem_cons.2 ⟨hvalue, ih.2⟩⟩

theorem has_array {token : Token} {es : List Expr} {goods : List (Value → Prop)}
    (h : m.HaveEach ctx scope es goods short) : m.Has ctx scope (.array token es)
      (fun value => ∃ id values, value = .array id values ∧ AreEach goods values) short := by
  unfold Machine.Has
  rw [Expr.eval]
  refine (gets_row h (.refl m)).bind fun r _ _ ⟨values, hr, hvalues⟩ => ?_
  subst hr
  exact gets_of_fresh fun id => ⟨rfl, id, values, rfl, hvalues⟩

theorem gets_call {token : Token} {callee : Expr} {es : List Expr} {function : Value}
    {goods : List (Value → Prop)} (hcallee : m.Has ctx scope callee (· = function) short)
    (hes : m.HaveEach ctx scope es goods short)
    (hcall : ∀ m' values, m.Quiet m' → AreEach goods values →
      m'.Gets (ctx.call function values) good short) :
    m.Gets ((Expr.call token callee es).eval ctx scope) good short := by
  rw [Expr.eval]
  refine hcallee.bind fun value m' hquiet hvalue => ?_
  refine (gets_row hes hquiet).bind fun r m'' hquiet' ⟨values, hr, hvalues⟩ => ?_
  subst hr hvalue
  exact hcall m'' values (hquiet.trans hquiet') hvalues

end Expressions

/-! ### Statements -/

/-- The statements end at a return of such a value. -/
def Sequel.Returns (good : Value → Prop) (sequel : Sequel) : Prop :=
  ∃ id value, sequel = .exit (.ret id value) ∧ good value

section Statements

variable {m : Machine} {ctx : Context} {scope : ScopeId} {good : Value → Prop} {short : Prop}
  {frames : List (Dict String Value)}

theorem gets_return {token : Token} {e : Expr} (h : m.Has ctx scope e good short)
    (he : e ≠ .missing) : m.Gets ((Stmt.ret token e).eval ctx scope)
      (fun value => ∃ id result, value = .ret id result ∧ good result) short := by
  rw [Stmt.eval]
  · refine h.bind fun value m' _ hgood => ?_
    exact gets_of_fresh fun id => ⟨id, value, rfl, hgood⟩
  · exact he

theorem gets_sequence_of_return {st : Stmt} {sts : List Stmt} {last : Value}
    (h : m.Gets (st.eval ctx scope) (fun value => ∃ id result, value = .ret id result ∧ good result)
      short) : m.Gets (Stmt.evalSequence ctx scope last (st :: sts)) (Sequel.Returns good) short := by
  rw [Stmt.evalSequence]
  refine h.bind fun value m' _ ⟨id, result, hvalue, hgood⟩ => ?_
  subst hvalue
  exact gets_pure ⟨id, result, rfl, hgood⟩

theorem gets_sequence_of_ongoing {st : Stmt} {sts : List Stmt} {last : Value} {good : Sequel → Prop}
    (h : m.Gets (st.eval ctx scope) (fun value => value.isExit = false) short)
    (hsts : ∀ m' value, m.Quiet m' → m'.Gets (Stmt.evalSequence ctx scope value sts) good short) :
    m.Gets (Stmt.evalSequence ctx scope last (st :: sts)) good short := by
  rw [Stmt.evalSequence]
  refine h.bind fun value m' hquiet hvalue => ?_
  rw [if_neg (Bool.eq_false_iff.1 hvalue)]
  exact hsts m' value hquiet

/-- A block of one return. -/
theorem gets_block_of_return (hsees : m.Sees scope frames) {brace token : Token} {e : Expr}
    (he : e ≠ .missing)
    (h : ∀ m' inner, m.Quiet m' → m'.Sees inner ([] :: frames) → m'.Has ctx inner e good short) :
    m.Gets (Block.eval ctx scope ⟨brace, [.ret token e]⟩)
      (fun value => ∃ id result, value = .ret id result ∧ good result) short := by
  rw [Block.eval]
  have hquiet : m.Quiet { m with scopes := m.scopes.push ⟨[], some scope⟩ } :=
    Machine.quiet_of_push rfl rfl
  have hreturn : Machine.Gets _ (Stmt.evalSequence ctx m.scopes.size .null [.ret token e])
      (Sequel.Returns good) short :=
    gets_sequence_of_return (gets_return (h _ _ hquiet (hsees.push rfl rfl)) he)
  have hnew : (Eval.newScope (some scope)).run m =
      .ok m.scopes.size { m with scopes := m.scopes.push ⟨[], some scope⟩ } := rfl
  refine (ensures_congr (run_bind_of_ok hnew)).2 (Machine.Gets.since ?_ hquiet)
  refine hreturn.bind fun r m' _ ⟨id, value, hr, hgood⟩ => ?_
  subst hr
  exact gets_pure ⟨id, value, rfl, hgood⟩

theorem gets_if_true {token : Token} {condition : Expr} {consequence : Block}
    (hcondition : m.Has ctx scope condition (· = .boolean true) short)
    (h : ∀ m', m.Quiet m' → m'.Gets (consequence.eval ctx scope) good short) :
    m.Gets ((Stmt.ifThen token condition consequence).eval ctx scope) good short := by
  rw [Stmt.eval]
  refine Machine.Gets.bind hcondition fun value m' hquiet ⟨_, hvalue⟩ => ?_
  subst hvalue
  exact h m' hquiet

theorem gets_if_false {token : Token} {condition : Expr} {consequence : Block}
    (hcondition : m.Has ctx scope condition (· = .boolean false) short) (hnull : good .null) :
    m.Gets ((Stmt.ifThen token condition consequence).eval ctx scope) good short := by
  rw [Stmt.eval]
  refine Machine.Gets.bind hcondition fun value m' hquiet ⟨_, hvalue⟩ => ?_
  subst hvalue
  exact gets_pure hnull

/-- The declaration of a function in the newest scope, with statements behind it. -/
theorem run_declaration {scopes : Array Scope} {bindings : Dict String Value}
    {outer : Option ScopeId} (hscopes : m.scopes = scopes.push ⟨bindings, outer⟩) {ident : Ident}
    (hnew : bindings.find? ident.name = none) (ctx : Context) (keyword token : Token)
    (parameters : List Ident) (body : Block) (last : Value) (sts : List Stmt) :
    ∃ m', m'.scopes = scopes.push ⟨bindings ++
        [(ident.name, .function m.supply parameters body scopes.size)], outer⟩ ∧
      m'.output = m.output ∧ (Stmt.evalSequence ctx scopes.size last
        (.declaration keyword ident (.function token parameters body) :: sts)).run m =
        (Stmt.evalSequence ctx scopes.size (.function m.supply parameters body scopes.size) sts).run
          m' := by
  have hlocal : m.lookupLocal scopes.size ident.name = none := by
    unfold Machine.lookupLocal
    rw [hscopes, Array.getElem?_push_size]
    exact hnew
  have hget : (get : Eval Machine).run m = .ok m m := rfl
  have heval : ((Stmt.declaration keyword ident (.function token parameters body)).eval ctx
      scopes.size).run m = .ok (.function m.supply parameters body scopes.size)
        (Machine.declare ⟨m.scopes, m.supply + 1, m.output⟩ scopes.size ident.name
          (.function m.supply parameters body scopes.size)) := by
    rw [Stmt.eval, run_bind_of_ok hget, hlocal, Expr.eval]
    rfl
  have hdeclared := scopes_declare (m := ⟨m.scopes, m.supply + 1, m.output⟩) hscopes ident.name
    (.function m.supply parameters body scopes.size)
  rw [Dict.insert_of_find?_eq_none hnew] at hdeclared
  refine ⟨_, hdeclared, rfl, ?_⟩
  rw [Stmt.evalSequence, run_bind_of_ok heval]
  rfl

end Statements

/-! ### Calls -/

section Calls

variable {m : Machine} {table : ObjectId} {depth : Nat} {good : Value → Prop} {short : Prop}
  {frames : List (Dict String Value)} {id : ObjectId} {parameters : List Ident} {body : Block}
  {outer : ScopeId} {arguments : List Value}

/-- A function whose body ends at a return, in the new scope of a call. -/
theorem gets_apply_of_body (hlength : arguments.length = parameters.length) (hzero : depth = 0 → short)
    (hbody : ∀ d, depth = d + 1 → Ensures (Stmt.evalSequence (.ofTable table d) m.scopes.size .null
        body.statements) (m.called outer parameters arguments)
      (fun r m' => m.Quiet m' ∧ r.Returns good) fun _ _ => short) :
    m.Gets (applyValue table depth (.function id parameters body outer) arguments) good short := by
  cases depth with
  | zero =>
    rw [applyValue_zero table arguments hlength]
    exact hzero rfl
  | succ d =>
    rw [applyValue_succ table d arguments hlength]
    have hnew : (Eval.newScope (some outer)).run m =
      .ok m.scopes.size { m with scopes := m.scopes.push ⟨[], some outer⟩ } := rfl
    unfold Machine.Gets
    refine (ensures_congr ((run_bind_of_ok hnew).trans (run_bind_of_ok (run_bindParameters ..)))).2 ?_
    refine Ensures.bind (hbody d rfl) fun r m' ⟨hquiet, id, value, hr, hgood⟩ => ?_
    subst hr
    exact ⟨hquiet, hgood⟩

/-- A function whose body changes no scope that is there already. -/
theorem gets_apply (hsees : m.Sees outer frames) (hlength : arguments.length = parameters.length)
    (hzero : depth = 0 → short)
    (hbody : ∀ d m' scope, depth = d + 1 → m.Quiet m' →
      m'.Sees scope (bound parameters arguments :: frames) →
      m'.Gets (Stmt.evalSequence (.ofTable table d) scope .null body.statements)
        (Sequel.Returns good) short) :
    m.Gets (applyValue table depth (.function id parameters body outer) arguments) good short := by
  have hscopes := scopes_called m outer parameters arguments
  have houtput := output_called m outer parameters arguments
  have hquiet := Machine.quiet_of_push hscopes houtput
  refine gets_apply_of_body hlength hzero fun d hd => ?_
  exact (hbody d _ _ hd hquiet (hsees.push hscopes houtput)).since hquiet

end Calls

/-! ### Built-in functions -/

section Builtins

variable {m : Machine} {table t : ObjectId} {depth : Nat} {short : Prop} {id : ObjectId}
  {values : List Value}

theorem gets_len : m.Gets (applyValue table depth (.builtin t .len) [.array id values])
    (fun value => value.isError = false ∧ value = .integer values.length) short := by
  rw [applyValue_builtin]
  exact gets_pure ⟨rfl, rfl⟩

theorem gets_first {value : Value} (hvalue : value.isError = false) :
    m.Gets (applyValue table depth (.builtin t .first) [.array id (value :: values)])
      (fun first => first.isError = false ∧ first = value) short := by
  rw [applyValue_builtin]
  exact gets_pure ⟨hvalue, rfl⟩

theorem gets_rest {value : Value} :
    m.Gets (applyValue table depth (.builtin t .rest) [.array id (value :: values)])
      (fun rest => rest.isError = false ∧ ∃ id, rest = .array id values) short := by
  rw [applyValue_builtin]
  exact gets_of_fresh fun id => ⟨rfl, id, rfl⟩

theorem gets_push {value : Value} :
    m.Gets (applyValue table depth (.builtin t .push) [.array id values, value])
      (fun longer => longer.isError = false ∧ ∃ id, longer = .array id (values ++ [value])) short := by
  rw [applyValue_builtin]
  exact gets_of_fresh fun id => ⟨rfl, id, rfl⟩

end Builtins

end MonkeyLang
