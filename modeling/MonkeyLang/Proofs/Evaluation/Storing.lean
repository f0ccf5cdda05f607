import MonkeyLang.Proofs.Evaluation.Limit
import MonkeyLang.Proofs.Evaluation.Relocation

/-!
# Storing a value and reading it back

A value is copied as a whole wherever it is bound, passed, returned or stored, and with it its
identity. So what is read back is equal to what was put in: `ReadsBack` says so for the names that
are declared, for parameters, for the values of calls, for the elements of arrays and for the values
in hashes. A name that is bound again, and a key that is inserted again, give the value put in last.
-/

namespace MonkeyLang

namespace Value

/-- What the operator `==` does with two values of one type. -/
theorem binary_equal {x y : Value} (h : x.type = y.type) :
    binary "==" x y = .ok (boolean (x.same y)) := by
  by_cases hinteger : x.type = .integer
  · obtain ⟨m, rfl⟩ := type_eq_integer.1 hinteger
    obtain ⟨n, rfl⟩ := type_eq_integer.1 (h.symm.trans hinteger)
    rfl
  by_cases htext : x.type = .text
  · obtain ⟨s, rfl⟩ := type_eq_text.1 htext
    obtain ⟨t, rfl⟩ := type_eq_text.1 (h.symm.trans htext)
    rfl
  rw [binary_of_compared h hinteger htext, if_pos rfl]

theorem binary_notEqual {x y : Value} (h : x.type = y.type) :
    binary "!=" x y = .ok (boolean !x.same y) := by
  by_cases hinteger : x.type = .integer
  · obtain ⟨m, rfl⟩ := type_eq_integer.1 hinteger
    obtain ⟨n, rfl⟩ := type_eq_integer.1 (h.symm.trans hinteger)
    exact congrArg (fun b => Except.ok (boolean b)) decide_not
  by_cases htext : x.type = .text
  · obtain ⟨s, rfl⟩ := type_eq_text.1 htext
    obtain ⟨t, rfl⟩ := type_eq_text.1 (h.symm.trans htext)
    exact congrArg (fun b => Except.ok (boolean b)) decide_not
  rw [binary_of_compared h hinteger htext, if_neg (by decide), if_pos rfl]

@[simp] theorem same_refl (x : Value) : x.same x = true := by cases x <;> simp [same]

/-- The operator `==` gives true for the values. -/
def Equals (x y : Value) : Prop := binary "==" x y = .ok (boolean true)

theorem equals_iff {x y : Value} : x.Equals y ↔ x.type = y.type ∧ x.same y = true := by
  unfold Equals
  by_cases h : x.type = y.type
  · rw [binary_equal h]
    simp [h]
  · rw [binary_of_type_ne h]
    simp [h]

theorem Equals.refl (x : Value) : x.Equals x := equals_iff.2 ⟨rfl, same_refl x⟩

end Value

/-! ### Names -/

section Names

variable {m m' : Machine} {scope : ScopeId} {name : String} {value : Value}

/-- The second scope is the first one or lies in it, and the scopes on the way out to the first one do
not bind the name. -/
inductive Machine.Inside (m : Machine) (name : String) (scope : ScopeId) : ScopeId → Prop
  | same : Inside m name scope scope
  | step {inner outer : ScopeId} {bindings : List (String × Value)} :
      m.scopes[inner]? = some ⟨bindings, some outer⟩ → outer < inner →
      Dict.find? bindings name = none → Inside m name scope outer → Inside m name scope inner

/-- What is bound in a scope is found from the scopes inside it that do not bind the name again. -/
theorem Machine.Inside.lookup {inner : ScopeId} (h : m.Inside name scope inner)
    (hbound : m.lookupLocal scope name = some value) : m.lookup inner name = some value := by
  induction h with
  | same =>
    obtain ⟨bound, hscope, hfind⟩ := Option.bind_eq_some_iff.1 hbound
    have hchain : ∃ outer, m.chain scope = bound :: outer := by
      rw [chain, hscope]
      dsimp only
      split
      · exact ⟨[], rfl⟩
      · split
        · exact ⟨_, rfl⟩
        · exact ⟨[], rfl⟩
    obtain ⟨outer, hchain⟩ := hchain
    rw [Machine.lookup, hchain, List.findSome?_cons, hfind]
  | step hscope hlt hfind _ ih =>
    unfold Machine.lookup at ih ⊢
    rw [chain, hscope]
    dsimp only
    rw [if_pos hlt, List.findSome?_cons, hfind, ih]

theorem Machine.lookupLocal_declare (hscope : scope < m.scopes.size) (name' : String) :
    (m.declare scope name value).lookupLocal scope name' =
      if name = name' then some value else m.lookupLocal scope name' := by
  have hbound : m.scopes[scope]? = some m.scopes[scope] := Array.getElem?_eq_getElem hscope
  unfold lookupLocal declare
  rw [Array.getElem?_modify, if_pos rfl, hbound]
  exact Dict.find?_insert ..

/-- The binding of parameters with other names leaves a name alone. -/
theorem Machine.lookupLocal_bindParameters_of_ne {parameters : List Ident} {arguments : List Value}
    (hscope : scope < m.scopes.size) (h : ∀ p ∈ parameters, p.name ≠ name) :
    (m.bindParameters scope parameters arguments).lookupLocal scope name =
      m.lookupLocal scope name := by
  have hkept : (m.bindParameters scope parameters arguments).scopes.size = m.scopes.size ∧
      (m.bindParameters scope parameters arguments).lookupLocal scope name =
        m.lookupLocal scope name := by
    refine Machine.bindParameters_induction (P := fun m' => m'.scopes.size = m.scopes.size ∧
      m'.lookupLocal scope name = m.lookupLocal scope name) ?_ ⟨rfl, rfl⟩
    rintro m' p hp argument - ⟨hsize, hlookup⟩
    refine ⟨(m'.size_declare ..).trans hsize, ?_⟩
    rw [Machine.lookupLocal_declare (hsize ▸ hscope), if_neg (h p hp), hlookup]
  exact hkept.2

/-- The last parameter of a name is bound to its argument. -/
theorem Machine.lookupLocal_bindParameters {parameters : List Ident} {arguments : List Value}
    {i : Nat} {parameter : Ident} {argument : Value} (hscope : scope < m.scopes.size)
    (hparameter : parameters[i]? = some parameter) (hargument : arguments[i]? = some argument)
    (hlast : ∀ p ∈ parameters.drop (i + 1), p.name ≠ parameter.name) :
    (m.bindParameters scope parameters arguments).lookupLocal scope parameter.name =
      some argument := by
  induction parameters generalizing m i arguments with
  | nil => cases hparameter
  | cons p parameters ih =>
    cases arguments with
    | nil => cases hargument
    | cons a arguments =>
      have hdeclared : scope < (m.declare scope p.name a).scopes.size :=
        (m.size_declare ..).symm ▸ hscope
      show ((m.declare scope p.name a).bindParameters scope parameters arguments).lookupLocal
        scope parameter.name = _
      cases i with
      | zero =>
        cases hparameter
        cases hargument
        have hothers : ∀ p ∈ parameters, p.name ≠ parameter.name := hlast
        rw [lookupLocal_bindParameters_of_ne hdeclared hothers, lookupLocal_declare hscope,
          if_pos rfl]
      | succ i => exact ih hdeclared hparameter hargument hlast

end Names

/-- The name gives a value that is equal to this one, on all machines that have come to have more
bindings, in the scope and in all scopes inside it that do not bind the name again. -/
def Ident.Gives (ident : Ident) (ctx : Context) (scope : ScopeId) (m : Machine) (value : Value) :
    Prop :=
  ∀ m' inner, m.Extends m' → m'.Inside ident.name scope inner →
    ∃ w, ((Expr.identifier ident).eval ctx inner).run m' = .ok w m' ∧ value.Equals w

theorem Ident.gives_of_lookupLocal {ident : Ident} {ctx : Context} {scope : ScopeId} {m : Machine}
    {value : Value} (h : m.lookupLocal scope ident.name = some value) :
    ident.Gives ctx scope m value := by
  intro m' inner hextends hinside
  have hlookup : m'.lookup inner ident.name = some value :=
    hinside.lookup (hextends.lookupLocal h)
  refine ⟨value, ?_, .refl value⟩
  have hget : (get : Eval Machine).run m' = .ok m' m' := rfl
  rw [Expr.eval, evalName, run_bind_of_ok hget, hlookup]
  rfl

/-! ### Rows of expressions -/

/-- The expressions have these values, one after the other. -/
inductive Expr.Valued (ctx : Context) (scope : ScopeId) :
    List Expr → Machine → List Value → Machine → Prop
  | nil {m} : Valued ctx scope [] m [] m
  | cons {e es v vs m m₁ m₂} : (e.eval ctx scope).run m = .ok v m₁ → v.isError = false →
      Valued ctx scope es m₁ vs m₂ → Valued ctx scope (e :: es) m (v :: vs) m₂

/-- The pairs of expressions have these keys and values, one after the other. -/
inductive Expr.Paired (ctx : Context) (scope : ScopeId) :
    List (Expr × Expr) → Machine → List (Value × Value) → Machine → Prop
  | nil {m} : Paired ctx scope [] m [] m
  | cons {keyExpr valueExpr ps key hashKey value kvs m m₁ m₂ m₃} :
      (keyExpr.eval ctx scope).run m = .ok key m₁ → key.hashKey? = some hashKey →
      (valueExpr.eval ctx scope).run m₁ = .ok value m₂ → value.isError = false →
      Paired ctx scope ps m₂ kvs m₃ →
        Paired ctx scope ((keyExpr, valueExpr) :: ps) m ((key, value) :: kvs) m₃

/-- The entries of a hash after those have been stored in it. -/
def Value.storeAll (entries : List (HashKey × Value × Value)) :
    List (Value × Value) → List (HashKey × Value × Value)
  | [] => entries
  | (key, value) :: kvs =>
    match key.hashKey? with
    | some hashKey => storeAll (Dict.insert entries hashKey (key, value)) kvs
    | none => storeAll entries kvs

section Rows

variable {ctx : Context} {scope : ScopeId} {m m' : Machine}

theorem Value.isError_of_hashKey? {key : Value} {hashKey : HashKey}
    (h : key.hashKey? = some hashKey) : key.isError = false := by
  cases key <;> first | rfl | cases h

theorem run_bind_of_operand {e : Expr} {v : Value} {f : Value → Eval Value}
    (h : (e.eval ctx scope).run m = .ok v m') (hv : v.isError = false) :
    (do let value ← e.eval ctx scope
        if value.isError then return value else f value).run m = (f v).run m' := by
  rw [run_bind_of_ok h, if_neg (Bool.eq_false_iff.1 hv)]

theorem Expr.Valued.run {es : List Expr} {vs : List Value} (h : Valued ctx scope es m vs m') :
    (Expr.evalList ctx scope es).run m = .ok (.ok vs) m' := by
  induction h with
  | nil => rw [evalList]; rfl
  | cons he hv _ ih =>
    rw [evalList, run_bind_of_ok he, if_neg (Bool.eq_false_iff.1 hv), run_bind_of_ok ih]
    rfl

theorem Expr.Paired.hashKey {ps : List (Expr × Expr)} {kvs : List (Value × Value)}
    (h : Paired ctx scope ps m kvs m') {kv : Value × Value} (hkv : kv ∈ kvs) :
    ∃ hashKey, kv.1.hashKey? = some hashKey := by
  induction h with
  | nil => cases hkv
  | cons _ hhash _ _ _ ih =>
    rcases List.mem_cons.1 hkv with rfl | hkv
    · exact ⟨_, hhash⟩
    · exact ih hkv

theorem Expr.Paired.run {ps : List (Expr × Expr)} {kvs : List (Value × Value)}
    (h : Paired ctx scope ps m kvs m') (entries : List (HashKey × Value × Value)) :
    (Expr.evalPairs ctx scope entries ps).run m = .ok (.ok (Value.storeAll entries kvs)) m' := by
  induction h generalizing entries with
  | nil => rw [evalPairs]; rfl
  | cons hkey hhash hvalue hv _ ih =>
    rw [evalPairs, run_bind_of_ok hkey,
      if_neg (Bool.eq_false_iff.1 (Value.isError_of_hashKey? hhash)), Value.storeAll, hhash]
    dsimp only
    rw [run_bind_of_ok hvalue, if_neg (Bool.eq_false_iff.1 hv), ih]

/-- Keys with other hash keys leave an entry alone. -/
theorem Value.find?_storeAll_of_ne {hashKey : HashKey} {kvs : List (Value × Value)}
    (h : ∀ kv ∈ kvs, kv.1.hashKey? ≠ some hashKey) (entries : List (HashKey × Value × Value)) :
    Dict.find? (storeAll entries kvs) hashKey = Dict.find? entries hashKey := by
  induction kvs generalizing entries with
  | nil => rfl
  | cons kv kvs ih =>
    obtain ⟨hkv, hkvs⟩ := List.forall_mem_cons.1 h
    rw [storeAll]
    cases hhash : kv.1.hashKey? with
    | none => exact ih hkvs entries
    | some hashKey' =>
      have hne : hashKey' ≠ hashKey := fun he => hkv (by rw [hhash, he])
      refine (ih hkvs _).trans ?_
      rw [Dict.find?_insert, if_neg hne]

/-- The value that is stored last under a hash key is found there. -/
theorem Value.find?_storeAll {hashKey : HashKey} {kvs : List (Value × Value)} {i : Nat}
    {key value : Value} (hi : kvs[i]? = some (key, value)) (hkey : key.hashKey? = some hashKey)
    (hlast : ∀ kv ∈ kvs.drop (i + 1), kv.1.hashKey? ≠ some hashKey)
    (entries : List (HashKey × Value × Value)) :
    Dict.find? (storeAll entries kvs) hashKey = some (key, value) := by
  induction kvs generalizing i entries with
  | nil => cases hi
  | cons kv kvs ih =>
    cases i with
    | zero =>
      cases hi
      rw [storeAll, hkey]
      refine (find?_storeAll_of_ne hlast _).trans ?_
      rw [Dict.find?_insert, if_pos rfl]
    | succ i =>
      rw [storeAll]
      split
      · exact ih hi hlast _
      · exact ih hi hlast _

end Rows

/-! ### What is read back -/

/-- The machine on which the body of a function runs that is called with these arguments. -/
def Machine.called (m : Machine) (outer : ScopeId) (parameters : List Ident)
    (arguments : List Value) : Machine :=
  Machine.bindParameters { m with scopes := m.scopes.push ⟨[], some outer⟩ } m.scopes.size parameters
    arguments

/-- Read from the array, by position and as the first and the last one, the values are equal to
these. -/
structure Value.ReadsAs (array : Value) (ctx : Context) (values : List Value) : Prop where
  index : ∀ (scope : ScopeId) (m m₁ m₂ : Machine) (token : Token) (collection position : Expr)
    (n : Nat) (v : Value), (collection.eval ctx scope).run m = .ok array m₁ →
    (position.eval ctx scope).run m₁ = .ok (.integer n) m₂ → values[n]? = some v →
      ∃ w, ((Expr.index token collection position).eval ctx scope).run m = .ok w m₂ ∧ v.Equals w
  first : ∀ (table : ObjectId) (m : Machine) (v : Value), values.head? = some v →
    ∃ w, (ctx.call (.builtin table .first) [array]).run m = .ok w m ∧ v.Equals w
  last : ∀ (table : ObjectId) (m : Machine) (v : Value), values.getLast? = some v →
    ∃ w, (ctx.call (.builtin table .last) [array]).run m = .ok w m ∧ v.Equals w

/-- Read from the hash with a key of the same hash key as this one, the value is equal to this one. -/
def Value.ReadsUnder (hash : Value) (ctx : Context) (key value : Value) : Prop :=
  ∀ (scope : ScopeId) (m m₁ m₂ : Machine) (token : Token) (collection position : Expr)
    (key' : Value), (collection.eval ctx scope).run m = .ok hash m₁ →
    (position.eval ctx scope).run m₁ = .ok key' m₂ → key'.hashKey? = key.hashKey? →
      ∃ w, ((Expr.index token collection position).eval ctx scope).run m = .ok w m₂ ∧ value.Equals w

/-- What is stored is read back, with a table of built-in functions and a limit on nested calls. -/
structure ReadsBack (table : ObjectId) (depth : Nat) : Prop where
  /-- by the name that it is bound to -/
  declared : ∀ (scope : ScopeId) (m m₁ : Machine) (keyword : Token) (ident : Ident) (e : Expr)
    (v : Value), scope < m.scopes.size → m.lookupLocal scope ident.name = none →
    (e.eval (.ofTable table depth) scope).run m = .ok v m₁ → v.isError = false →
      ∃ m₂, ((Stmt.declaration keyword ident e).eval (.ofTable table depth) scope).run m =
        .ok v m₂ ∧ ident.Gives (.ofTable table depth) scope m₂ v
  /-- by the last parameter of a name, if it is passed as an argument -/
  passed : ∀ (m : Machine) (outer : ScopeId) (parameters : List Ident) (arguments : List Value)
    (i : Nat) (parameter : Ident) (argument : Value), parameters[i]? = some parameter →
    arguments[i]? = some argument → (∀ p ∈ parameters.drop (i + 1), p.name ≠ parameter.name) →
      parameter.Gives (.ofTable table depth) m.scopes.size (m.called outer parameters arguments)
        argument
  /-- by the return statement that it is the value of -/
  carried : ∀ (scope : ScopeId) (m m₁ : Machine) (token : Token) (e : Expr) (v : Value),
    (e.eval (.ofTable table depth) scope).run m = .ok v m₁ → v.isError = false →
      ∃ id m₂, ((Stmt.ret token e).eval (.ofTable table depth) scope).run m = .ok (.ret id v) m₂
  /-- by the call, if a return ends the body -/
  returned : ∀ (m m₁ : Machine) (function : ObjectId) (parameters : List Ident) (body : Block)
    (outer : ScopeId) (arguments : List Value) (id : ObjectId) (v : Value),
    arguments.length = parameters.length →
    (Stmt.evalSequence (.ofTable table depth) m.scopes.size .null body.statements).run
      (m.called outer parameters arguments) = .ok (.exit (.ret id v)) m₁ →
        ∃ w, (applyValue table (depth + 1) (.function function parameters body outer) arguments).run
          m = .ok w m₁ ∧ v.Equals w
  /-- from the array that it is an element of -/
  listed : ∀ (scope : ScopeId) (m m₁ : Machine) (token : Token) (es : List Expr) (vs : List Value),
    Expr.Valued (.ofTable table depth) scope es m vs m₁ →
      ∃ a m₂, ((Expr.array token es).eval (.ofTable table depth) scope).run m = .ok a m₂ ∧
        a.ReadsAs (.ofTable table depth) vs
  /-- from the array that it is pushed to the end of -/
  pushed : ∀ (m : Machine) (t id : ObjectId) (vs : List Value) (v : Value),
    ∃ a m₁, (applyValue table depth (.builtin t .push) [.array id vs, v]).run m = .ok a m₁ ∧
      a.ReadsAs (.ofTable table depth) (vs ++ [v])
  /-- from the hash in which it is the last value of its hash key -/
  hashed : ∀ (scope : ScopeId) (m m₁ : Machine) (token : Token) (ps : List (Expr × Expr))
    (kvs : List (Value × Value)), Expr.Paired (.ofTable table depth) scope ps m kvs m₁ →
      ∃ h m₂, ((Expr.hash token ps).eval (.ofTable table depth) scope).run m = .ok h m₂ ∧
        ∀ (i : Nat) (key v : Value), kvs[i]? = some (key, v) →
          (∀ kv ∈ kvs.drop (i + 1), kv.1.hashKey? ≠ key.hashKey?) →
            h.ReadsUnder (.ofTable table depth) key v

section Reading

variable {table : ObjectId} {depth : Nat} {ctx : Context} {scope : ScopeId} {m m₁ m₂ : Machine}

theorem run_index {token : Token} {collection position : Expr} {c p v : Value}
    (hc : (collection.eval ctx scope).run m = .ok c m₁) (hc' : c.isError = false)
    (hp : (position.eval ctx scope).run m₁ = .ok p m₂) (hp' : p.isError = false)
    (h : c.index p = .ok v) :
    ((Expr.index token collection position).eval ctx scope).run m = .ok v m₂ := by
  rw [Expr.eval, run_bind_of_operand hc hc', run_bind_of_operand hp hp', h]
  rfl

/-- An array with these elements is read as these. -/
theorem readsAs_array (id : ObjectId) (vs : List Value) :
    (Value.array id vs).ReadsAs (.ofTable table depth) vs where
  index := by
    intro scope m m₁ m₂ token collection position n v hc hp hv
    refine ⟨v, run_index hc rfl hp rfl ?_, .refl v⟩
    have hn : ¬ (n : Int) < 0 := by omega
    rw [Value.index, Value.elementAt, if_neg hn, Int.toNat_natCast, hv]
  first := by
    intro t m v hv
    refine ⟨v, ?_, .refl v⟩
    show (applyValue table depth (.builtin t .first) [.array id vs]).run m = _
    rw [applyValue_builtin]
    show EStateM.Result.ok (vs.head?.getD .null) m = _
    rw [hv]
    rfl
  last := by
    intro t m v hv
    refine ⟨v, ?_, .refl v⟩
    show (applyValue table depth (.builtin t .last) [.array id vs]).run m = _
    rw [applyValue_builtin]
    show EStateM.Result.ok (vs.getLast?.getD .null) m = _
    rw [hv]
    rfl

theorem reads_declared {keyword : Token} {ident : Ident} {e : Expr} {v : Value}
    (hscope : scope < m.scopes.size) (hunbound : m.lookupLocal scope ident.name = none)
    (he : (e.eval (.ofTable table depth) scope).run m = .ok v m₁) (hv : v.isError = false) :
    ∃ m₂, ((Stmt.declaration keyword ident e).eval (.ofTable table depth) scope).run m = .ok v m₂ ∧
      ident.Gives (.ofTable table depth) scope m₂ v := by
  have hkept : m.Kept m₁ := (e.eval_kept).of_ok he
  have hscope₁ : scope < m₁.scopes.size := Nat.lt_of_lt_of_le hscope hkept.extends.size_le
  refine ⟨m₁.declare scope ident.name v, ?_, Ident.gives_of_lookupLocal ?_⟩
  · have hget : (get : Eval Machine).run m = .ok m m := rfl
    rw [Stmt.eval, run_bind_of_ok hget, hunbound]
    exact run_bind_of_operand he hv
  · rw [Machine.lookupLocal_declare hscope₁, if_pos rfl]

theorem reads_passed {outer : ScopeId} {parameters : List Ident} {arguments : List Value} {i : Nat}
    {parameter : Ident} {argument : Value} (hparameter : parameters[i]? = some parameter)
    (hargument : arguments[i]? = some argument)
    (hlast : ∀ p ∈ parameters.drop (i + 1), p.name ≠ parameter.name) :
    parameter.Gives (.ofTable table depth) m.scopes.size (m.called outer parameters arguments)
      argument := by
  refine Ident.gives_of_lookupLocal ?_
  exact Machine.lookupLocal_bindParameters (by simp) hparameter hargument hlast

theorem reads_carried {token : Token} {e : Expr} {v : Value}
    (he : (e.eval (.ofTable table depth) scope).run m = .ok v m₁) (hv : v.isError = false) :
    ∃ id m₂, ((Stmt.ret token e).eval (.ofTable table depth) scope).run m = .ok (.ret id v) m₂ := by
  have hmissing : e ≠ .missing := by
    rintro rfl
    rw [Expr.eval] at he
    cases he
    cases hv
  refine ⟨m₁.supply, { m₁ with supply := m₁.supply + 1 }, ?_⟩
  rw [Stmt.eval]
  · exact run_bind_of_operand he hv
  · exact hmissing

theorem reads_returned {function : ObjectId} {parameters : List Ident} {body : Block}
    {outer : ScopeId} {arguments : List Value} {id : ObjectId} {v : Value}
    (hlength : arguments.length = parameters.length)
    (hbody : (Stmt.evalSequence (.ofTable table depth) m.scopes.size .null body.statements).run
      (m.called outer parameters arguments) = .ok (.exit (.ret id v)) m₁) :
    ∃ w, (applyValue table (depth + 1) (.function function parameters body outer) arguments).run m =
      .ok w m₁ ∧ v.Equals w := by
  refine ⟨v, ?_, .refl v⟩
  have hbound := run_bindParameters m.scopes.size parameters arguments
    { m with scopes := m.scopes.push ⟨[], some outer⟩ }
  rw [applyValue_succ table depth arguments hlength]
  refine (run_bind_of_ok hbound).trans ?_
  exact run_bind_of_ok hbody

theorem reads_listed {token : Token} {es : List Expr} {vs : List Value}
    (h : Expr.Valued (.ofTable table depth) scope es m vs m₁) :
    ∃ a m₂, ((Expr.array token es).eval (.ofTable table depth) scope).run m = .ok a m₂ ∧
      a.ReadsAs (.ofTable table depth) vs := by
  refine ⟨.array m₁.supply vs, { m₁ with supply := m₁.supply + 1 }, ?_, readsAs_array _ vs⟩
  rw [Expr.eval, run_bind_of_ok h.run]
  rfl

theorem reads_pushed (t id : ObjectId) (vs : List Value) (v : Value) :
    ∃ a m₁, (applyValue table depth (.builtin t .push) [.array id vs, v]).run m = .ok a m₁ ∧
      a.ReadsAs (.ofTable table depth) (vs ++ [v]) := by
  refine ⟨.array m.supply (vs ++ [v]), { m with supply := m.supply + 1 }, ?_, readsAs_array _ _⟩
  rw [applyValue_builtin]
  rfl

theorem reads_hashed {token : Token} {ps : List (Expr × Expr)} {kvs : List (Value × Value)}
    (h : Expr.Paired (.ofTable table depth) scope ps m kvs m₁) :
    ∃ h m₂, ((Expr.hash token ps).eval (.ofTable table depth) scope).run m = .ok h m₂ ∧
      ∀ (i : Nat) (key v : Value), kvs[i]? = some (key, v) →
        (∀ kv ∈ kvs.drop (i + 1), kv.1.hashKey? ≠ key.hashKey?) →
          h.ReadsUnder (.ofTable table depth) key v := by
  refine ⟨.hash m₁.supply (Value.storeAll [] kvs), { m₁ with supply := m₁.supply + 1 }, ?_, ?_⟩
  · rw [Expr.eval, run_bind_of_ok (h.run [])]
    rfl
  · intro i key v hi hlast scope n n₁ n₂ token collection position key' hc hp hkey'
    obtain ⟨hashKey, hkey⟩ := h.hashKey (List.mem_of_getElem? hi)
    rw [hkey] at hlast hkey'
    refine ⟨v, run_index hc rfl hp (Value.isError_of_hashKey? hkey') ?_, .refl v⟩
    have hfind := Value.find?_storeAll hi hkey hlast []
    simp only [Value.index, hkey', hfind]

end Reading

/-- Whatever is stored is read back. -/
theorem readsBack (table : ObjectId) (depth : Nat) : ReadsBack table depth where
  declared _ _ _ _ _ _ _ := reads_declared
  passed _ _ _ _ _ _ _ := reads_passed
  carried _ _ _ _ _ _ := reads_carried
  returned _ _ _ _ _ _ _ _ _ := reads_returned
  listed _ _ _ _ _ _ := reads_listed
  pushed _ := reads_pushed
  hashed _ _ _ _ _ _ := reads_hashed

end MonkeyLang
