import MonkeyLang.Proofs.Evaluation.Parts

/-!
# What a call does

The equations of `applyValue`, by what is called; what a built-in function does to the machine
(`harmless_builtin`); and the machine that the binding of parameters leads to.
-/

namespace MonkeyLang

section Apply

variable (table : ObjectId) (depth : Nat) (arguments : List Value)

theorem applyValue_of_length_ne {id : ObjectId} {parameters : List Ident} {body : Block}
    {outer : ScopeId} (h : arguments.length ≠ parameters.length) :
    applyValue table depth (.function id parameters body outer) arguments =
      Eval.raise (.argumentCount parameters.length arguments.length) := by
  cases depth <;> rw [applyValue, if_pos h]

theorem applyValue_zero {id : ObjectId} {parameters : List Ident} {body : Block} {outer : ScopeId}
    (h : arguments.length = parameters.length) :
    applyValue table 0 (.function id parameters body outer) arguments = throw .callDepth := by
  rw [applyValue, if_neg (not_not_intro h)]

theorem applyValue_succ {id : ObjectId} {parameters : List Ident} {body : Block} {outer : ScopeId}
    (h : arguments.length = parameters.length) :
    applyValue table (depth + 1) (.function id parameters body outer) arguments = (do
      let scope ← Eval.newScope (some outer)
      bindParameters scope parameters arguments
      (← Stmt.evalSequence (.ofTable table depth) scope .null body.statements).result) := by
  rw [applyValue, if_neg (not_not_intro h)]
  rfl

theorem applyValue_builtin {t : ObjectId} {b : Builtin} :
    applyValue table depth (.builtin t b) arguments = b.apply arguments := by
  cases depth <;> rw [applyValue]

theorem applyValue_of_not_callable {value : Value} (hfunction : value.type ≠ .function)
    (hbuiltin : value.type ≠ .builtin) :
    applyValue table depth value arguments = Eval.raise (.notAFunction value.type) := by
  cases value with
  | function => exact absurd rfl hfunction
  | builtin => exact absurd rfl hbuiltin
  | integer | boolean | text | null | void | ret | error | array | hash =>
    cases depth <;> rfl

end Apply

/-! ### Steps that leave the scopes alone -/

section Harmless

variable {P : Value → Prop} {arguments : List Value} {m : Machine}

/-- The scopes stay as they are, identities are only taken, and every part of the result satisfies
`P`. -/
def Harmless (P : Value → Prop) (x : Eval Value) (m : Machine) : Prop :=
  Ensures x m (fun v m' => m'.scopes = m.scopes ∧ m.supply ≤ m'.supply ∧ v.All P) fun _ _ => False

theorem harmless_pure {value : Value} (h : value.All P) : Harmless P (pure value) m :=
  ⟨rfl, Nat.le_refl _, h⟩

theorem harmless_raise (herror : ∀ id fault, P (.error id fault)) (fault : Fault) :
    Harmless P (Eval.raise fault) m :=
  ⟨rfl, Nat.le_succ _, Value.all_error.2 (herror _ _)⟩

theorem harmless_ofResult (herror : ∀ id fault, P (.error id fault)) {r : Except Fault Value}
    (h : ∀ v, r = .ok v → v.All P) : Harmless P (Eval.ofResult r) m := by
  cases r with
  | ok v => exact harmless_pure (h v rfl)
  | error fault => exact harmless_raise herror fault

theorem harmless_newArray (hP : Value.Plain P) {vs : List Value} (hvs : ∀ v ∈ vs, v.All P) :
    Harmless P (Eval.newArray vs) m :=
  ⟨rfl, Nat.le_succ _, Value.all_array.2 ⟨hP.array _ _, hvs⟩⟩

theorem harmless_newHash (hP : Value.Plain P) {entries : List (HashKey × Value × Value)}
    (h : Value.AllEntries P entries) : Harmless P (Eval.newHash entries) m :=
  ⟨rfl, Nat.le_succ _, Value.all_hash.2 ⟨hP.hash _ _, h⟩⟩

theorem harmless_withOne (herror : ∀ id fault, P (.error id fault))
    (harguments : ∀ v ∈ arguments, v.All P) {f : Value → Eval Value}
    (hf : ∀ v, v.All P → Harmless P (f v) m) : Harmless P (Builtin.withOne arguments f) m := by
  unfold Builtin.withOne
  split
  · exact hf _ (harguments _ List.mem_cons_self)
  · exact harmless_raise herror _

theorem harmless_withArray (herror : ∀ id fault, P (.error id fault)) {b : Builtin}
    {argument : Value} (hargument : argument.All P) {f : List Value → Eval Value}
    (hf : ∀ vs, (∀ v ∈ vs, v.All P) → Harmless P (f vs) m) :
    Harmless P (Builtin.withArray b argument f) m := by
  unfold Builtin.withArray
  split
  · exact hf _ (Value.all_array.1 hargument).2
  · exact harmless_raise herror _

/-- A built-in function is harmless if its arguments are. -/
theorem harmless_builtin (hP : Value.Plain P) (herror : ∀ id fault, P (.error id fault))
    (b : Builtin) (harguments : ∀ v ∈ arguments, v.All P) :
    Harmless P (b.apply arguments) m := by
  have hnull : Value.All P .null := Value.all_null.2 hP.null
  cases b with
  | len =>
    refine harmless_withOne herror harguments fun v _ => ?_
    split
    · exact ⟨rfl, Nat.le_refl _, Value.all_integer.2 (hP.integer _)⟩
    · exact ⟨rfl, Nat.le_refl _, Value.all_integer.2 (hP.integer _)⟩
    · exact harmless_raise herror _
  | first =>
    refine harmless_withOne herror harguments fun v hv =>
      harmless_withArray herror hv fun vs hvs => ⟨rfl, Nat.le_refl _, ?_⟩
    cases vs with
    | nil => exact hnull
    | cons v vs => exact hvs v List.mem_cons_self
  | last =>
    refine harmless_withOne herror harguments fun v hv =>
      harmless_withArray herror hv fun vs hvs => ⟨rfl, Nat.le_refl _, ?_⟩
    cases hlast : vs.getLast? with
    | none => exact hnull
    | some v => exact hvs v (List.mem_of_getLast? hlast)
  | rest =>
    refine harmless_withOne herror harguments fun v hv =>
      harmless_withArray herror hv fun vs hvs => ?_
    cases vs with
    | nil => exact ⟨rfl, Nat.le_refl _, hnull⟩
    | cons v vs => exact harmless_newArray hP fun u hu => hvs u (List.mem_cons_of_mem v hu)
  | push =>
    match arguments, harguments with
    | [v, u], harguments =>
      refine harmless_withArray herror (harguments v List.mem_cons_self) fun vs hvs => ?_
      refine harmless_newArray hP fun w hw => ?_
      rcases List.mem_append.1 hw with hw | hw
      · exact hvs w hw
      · exact harguments w (List.mem_cons_of_mem v hw)
    | [], _ | [_], _ | _ :: _ :: _ :: _, _ => exact harmless_raise herror _
  | print => exact ⟨rfl, Nat.le_refl _, Value.all_void.2 hP.void⟩

end Harmless

/-! ### Parameters -/

/-- The machine after the parameters of a call have been bound in its scope. -/
def Machine.bindParameters (machine : Machine) (id : ScopeId) (parameters : List Ident)
    (arguments : List Value) : Machine :=
  (parameters.zip arguments).foldl (fun m entry => m.declare id entry.1.name entry.2) machine

/-- Binding parameters always ends. -/
theorem run_bindParameters (scope : ScopeId) (parameters : List Ident) (arguments : List Value)
    (m : Machine) : (bindParameters scope parameters arguments).run m =
      .ok () (m.bindParameters scope parameters arguments) := by
  induction parameters generalizing m arguments with
  | nil => rfl
  | cons parameter parameters ih =>
    cases arguments with
    | nil => rfl
    | cons argument arguments => exact ih arguments (m.declare scope parameter.name argument)

/-- What every declaration in a scope keeps, the binding of parameters in it keeps. -/
theorem Machine.bindParameters_induction {P : Machine → Prop} {id : ScopeId}
    {parameters : List Ident} {arguments : List Value}
    (h : ∀ m, ∀ parameter ∈ parameters, ∀ argument ∈ arguments, P m →
      P (m.declare id parameter.name argument)) {m : Machine} (hm : P m) :
    P (m.bindParameters id parameters arguments) := by
  unfold Machine.bindParameters
  induction parameters generalizing m arguments with
  | nil => exact hm
  | cons parameter parameters ih =>
    cases arguments with
    | nil => exact hm
    | cons argument arguments =>
      refine ih (fun m p hp a ha => h m p (List.mem_cons_of_mem _ hp) a (List.mem_cons_of_mem _ ha)) ?_
      exact h m parameter List.mem_cons_self argument List.mem_cons_self hm

/-- Parameters are bound to the arguments. -/
theorem Machine.Holds.bindParameters {P : Value → Prop} {m : Machine} (h : m.Holds P)
    (id : ScopeId) (parameters : List Ident) {arguments : List Value}
    (harguments : ∀ v ∈ arguments, P v) : (m.bindParameters id parameters arguments).Holds P :=
  Machine.bindParameters_induction (P := Machine.Holds P)
    (fun _ p _ a ha hm => hm.declare id p.name (harguments a ha)) h

@[simp] theorem Machine.size_bindParameters (machine : Machine) (id : ScopeId)
    (parameters : List Ident) (arguments : List Value) :
    (machine.bindParameters id parameters arguments).scopes.size = machine.scopes.size :=
  Machine.bindParameters_induction (P := fun m => m.scopes.size = machine.scopes.size)
    (fun m _ _ _ _ hm => (m.size_declare _ _ _).trans hm) rfl

end MonkeyLang
