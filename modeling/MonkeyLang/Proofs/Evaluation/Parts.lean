import MonkeyLang.Evaluation
import MonkeyLang.Proofs.Outcome

/-!
# What a value is made of

The parts of a value are the value itself and the values stored in it, at any depth: the elements of
an array, the keys and values of a hash, and what a return carries. `Value.All P` says that every
part satisfies `P`, `Machine.Holds P` that `P` holds of every value bound in a scope.

Operations and built-in functions only put together the parts they are given and data that a `Plain`
predicate admits, so what is true of all parts before them is true of all parts of their results.
-/

namespace MonkeyLang

namespace Value

mutual

/-- The value and everything stored in it. -/
def parts : Value → List Value
  | ret id value => ret id value :: value.parts
  | array id elements => array id elements :: partsList elements
  | hash id entries => hash id entries :: partsEntries entries
  | value => [value]

/-- The parts of values. -/
def partsList : List Value → List Value
  | [] => []
  | value :: values => value.parts ++ partsList values

/-- The parts of the keys and values of a hash. -/
def partsEntries : List (HashKey × Value × Value) → List Value
  | [] => []
  | (_, key, value) :: entries => key.parts ++ value.parts ++ partsEntries entries

end

/-- Every part of the value satisfies `P`. -/
def All (P : Value → Prop) (value : Value) : Prop := ∀ part ∈ value.parts, P part

/-- Every part of the keys and values of a hash satisfies `P`. -/
def AllEntries (P : Value → Prop) (entries : List (HashKey × Value × Value)) : Prop :=
  ∀ entry ∈ entries, All P entry.2.1 ∧ All P entry.2.2

/-- The predicate admits all values but returns, errors and functions. -/
structure Plain (P : Value → Prop) : Prop where
  integer : ∀ n, P (integer n)
  boolean : ∀ b, P (boolean b)
  text : ∀ s, P (text s)
  null : P null
  void : P void
  builtin : ∀ table b, P (builtin table b)
  array : ∀ id elements, P (array id elements)
  hash : ∀ id entries, P (hash id entries)

/-- The predicate admits whatever operators compute. -/
structure Computed (P : Value → Prop) : Prop where
  integer : ∀ n, P (integer (Word.wrap n))
  boolean : ∀ b, P (boolean b)
  text : ∀ s, P (text s)

theorem Plain.computed {P : Value → Prop} (h : Plain P) : Computed P :=
  ⟨fun _ => h.integer _, h.boolean, h.text⟩

section All

variable {P Q : Value → Prop} {value : Value} {id : ObjectId} {elements : List Value}
  {entries : List (HashKey × Value × Value)}

theorem All.mono (h : All P value) (hPQ : ∀ v, P v → Q v) : All Q value :=
  fun part hpart => hPQ part (h part hpart)

theorem mem_partsList {part : Value} :
    part ∈ partsList elements ↔ ∃ value ∈ elements, part ∈ value.parts := by
  induction elements with
  | nil => simp [partsList]
  | cons value values ih => simp [partsList, ih]

theorem mem_partsEntries {part : Value} : part ∈ partsEntries entries ↔
    ∃ entry ∈ entries, part ∈ entry.2.1.parts ∨ part ∈ entry.2.2.parts := by
  induction entries with
  | nil => simp [partsEntries]
  | cons entry entries ih =>
    obtain ⟨_, key, value⟩ := entry
    simp [partsEntries, ih, or_assoc]

@[simp] theorem all_ret : All P (ret id value) ↔ P (ret id value) ∧ All P value := by
  simp [All, parts]

@[simp] theorem all_array :
    All P (array id elements) ↔ P (array id elements) ∧ ∀ v ∈ elements, All P v := by
  simp only [All, parts, List.forall_mem_cons, mem_partsList]
  exact and_congr_right fun _ =>
    ⟨fun h v hv p hp => h p ⟨v, hv, hp⟩, fun h p ⟨v, hv, hp⟩ => h v hv p hp⟩

@[simp] theorem all_hash :
    All P (hash id entries) ↔ P (hash id entries) ∧ AllEntries P entries := by
  simp only [All, AllEntries, parts, List.forall_mem_cons, mem_partsEntries]
  refine and_congr_right fun _ => ⟨fun h e he => ⟨fun p hp => h p ⟨e, he, .inl hp⟩,
    fun p hp => h p ⟨e, he, .inr hp⟩⟩, fun h p ⟨e, he, hp⟩ => ?_⟩
  rcases hp with hp | hp
  · exact (h e he).1 p hp
  · exact (h e he).2 p hp

@[simp] theorem all_integer {n : Int} : All P (integer n) ↔ P (integer n) := by simp [All, parts]

@[simp] theorem all_boolean {b : Bool} : All P (boolean b) ↔ P (boolean b) := by simp [All, parts]

@[simp] theorem all_text {s : String} : All P (text s) ↔ P (text s) := by simp [All, parts]

@[simp] theorem all_null : All P null ↔ P null := by simp [All, parts]

@[simp] theorem all_void : All P void ↔ P void := by simp [All, parts]

@[simp] theorem all_error {fault : Fault} : All P (error id fault) ↔ P (error id fault) := by
  simp [All, parts]

@[simp] theorem all_function {parameters : List Ident} {body : Block} {scope : ScopeId} :
    All P (function id parameters body scope) ↔ P (function id parameters body scope) := by
  simp [All, parts]

@[simp] theorem all_builtin {table : ObjectId} {b : Builtin} :
    All P (builtin table b) ↔ P (builtin table b) := by simp [All, parts]

/-- A value is one of its parts. -/
theorem All.self (h : All P value) : P value := by
  apply h
  cases value <;> simp [parts]

end All

/-! ### Operations -/

section Operations

variable {P : Value → Prop} {a b value : Value}

theorem all_unary (hP : Computed P) {operator : String} (h : a.unary operator = .ok value) :
    All P value := by
  unfold unary at h
  split at h
  · split at h
    · cases h; exact all_boolean.2 (hP.boolean _)
    · cases h
  · split at h
    · split at h
      · cases h; exact all_integer.2 (hP.integer _)
      · cases h
    · cases h

theorem all_integerBinary (hP : Computed P) {operator : String} {m n : Int}
    (h : integerBinary operator m n = .ok value) : All P value := by
  unfold integerBinary at h
  repeat' split at h
  all_goals cases h
  all_goals first
    | exact all_integer.2 (hP.integer _)
    | exact all_boolean.2 (hP.boolean _)

theorem all_textBinary (hP : Computed P) {operator s t : String}
    (h : textBinary operator s t = .ok value) : All P value := by
  unfold textBinary at h
  repeat' split at h
  all_goals cases h
  all_goals first
    | exact all_text.2 (hP.text _)
    | exact all_boolean.2 (hP.boolean _)

theorem all_binary (hP : Computed P) {operator : String} (h : binary operator a b = .ok value) :
    All P value := by
  unfold binary at h
  split at h
  · cases h
  split at h
  · exact all_integerBinary hP h
  · exact all_textBinary hP h
  · repeat' split at h
    all_goals cases h
    all_goals exact all_boolean.2 (hP.boolean _)

/-- An element of an array or a value of a hash is a part of it. -/
theorem all_index (ha : All P a) (h : a.index b = .ok value) : All P value := by
  unfold index at h
  split at h
  · unfold elementAt at h
    split at h
    · cases h
    split at h
    · next hget =>
      cases h
      exact (all_array.1 ha).2 _ (List.mem_of_getElem? hget)
    · cases h
  · split at h
    · cases h
    split at h
    · next hfind =>
      cases h
      exact ((all_hash.1 ha).2 _ (Dict.mem_of_find? hfind)).2
    · cases h
  · cases h

theorem AllEntries.insert {entries : List (HashKey × Value × Value)} {key : HashKey}
    (h : AllEntries P entries) (ha : All P a) (hb : All P b) :
    AllEntries P (Dict.insert entries key (a, b)) := by
  intro entry hentry
  rcases Dict.mem_insert hentry with rfl | hentry
  · exact ⟨ha, hb⟩
  · exact h entry hentry

end Operations

end Value

/-! ### Values in scopes -/

namespace Machine

/-- Every value bound in a scope satisfies `P`. -/
def Holds (P : Value → Prop) (machine : Machine) : Prop :=
  ∀ (id : ScopeId) (scope : Scope), machine.scopes[id]? = some scope →
    ∀ entry ∈ scope.bindings, P entry.2

variable {P : Value → Prop} {machine : Machine}

@[simp] theorem size_declare (machine : Machine) (id : ScopeId) (name : String) (value : Value) :
    (machine.declare id name value).scopes.size = machine.scopes.size :=
  Array.size_modify

theorem Holds.initial : Holds P initial := by
  intro id scope h
  simp [Machine.initial] at h

theorem Holds.push (h : machine.Holds P) (outer : Option ScopeId) :
    Holds P { machine with scopes := machine.scopes.push ⟨[], outer⟩ } := by
  intro id scope hid entry hentry
  rw [Array.getElem?_push] at hid
  split at hid
  · cases hid; cases hentry
  · exact h id scope hid entry hentry

theorem Holds.declare (h : machine.Holds P) (id : ScopeId) (name : String) {value : Value}
    (hvalue : P value) : (machine.declare id name value).Holds P := by
  intro id' scope' hid entry hentry
  unfold Machine.declare at hid
  rw [Array.getElem?_modify] at hid
  split at hid
  · obtain ⟨scope, hscope, rfl⟩ := Option.map_eq_some_iff.1 hid
    rcases Dict.mem_insert hentry with rfl | hentry
    · exact hvalue
    · exact h id' scope hscope entry hentry
  · exact h id' scope' hid entry hentry

/-- Only scopes of the machine are on a chain, and what holds of a scope and passes on to the scope
around it holds of all of them. -/
theorem exists_of_mem_chain (machine : Machine) {P : ScopeId → Prop}
    (hP : ∀ (id : ScopeId) (scope : Scope) (outer : ScopeId), P id →
      machine.scopes[id]? = some scope → scope.outer = some outer → P outer)
    (id : ScopeId) (hid : P id) {scope : Scope} (h : scope ∈ machine.chain id) :
    ∃ id' : ScopeId, P id' ∧ machine.scopes[id']? = some scope := by
  fun_induction chain machine id with
  | case1 => cases h
  | case2 id scope' hscope => exact ⟨id, hid, by simpa [List.mem_singleton.1 h] using hscope⟩
  | case3 id scope' hscope outer houter hlt ih =>
    rcases List.mem_cons.1 h with rfl | h
    · exact ⟨id, hid, hscope⟩
    · exact ih (hP id scope' outer hid hscope houter) h
  | case4 id scope' hscope => exact ⟨id, hid, by simpa [List.mem_singleton.1 h] using hscope⟩

/-- The value of a name is bound in a scope of the chain. -/
theorem exists_of_lookup {P : ScopeId → Prop}
    (hP : ∀ (id : ScopeId) (scope : Scope) (outer : ScopeId), P id →
      machine.scopes[id]? = some scope → scope.outer = some outer → P outer)
    {id : ScopeId} (hid : P id) {name : String} {value : Value}
    (hvalue : machine.lookup id name = some value) :
    ∃ (id' : ScopeId) (scope : Scope), P id' ∧ machine.scopes[id']? = some scope ∧
      (name, value) ∈ scope.bindings := by
  obtain ⟨scope, hscope, hfind⟩ := List.exists_of_findSome?_eq_some hvalue
  obtain ⟨id', hid', hscope'⟩ := exists_of_mem_chain machine hP id hid hscope
  exact ⟨id', scope, hid', hscope', Dict.mem_of_find? hfind⟩

theorem Holds.lookup (h : machine.Holds P) {id : ScopeId} {name : String} {value : Value}
    (hvalue : machine.lookup id name = some value) : P value := by
  obtain ⟨id', scope, -, hscope, hentry⟩ :=
    exists_of_lookup (P := fun _ => True) (fun _ _ _ _ _ _ => trivial) trivial hvalue
  exact h id' scope hscope _ hentry

end Machine

end MonkeyLang
