import MonkeyLang.Proofs.Evaluation.Standard
import MonkeyLang.Proofs.Parsing.Unlined

/-!
# Values and machines elsewhere

An evaluation can be carried out behind anything that has been done on a machine before: its scopes
and its identities come behind those that are there already. A `Relocation` says which machine that
is, and moreover which table of built-in functions takes the place of another one, and how the lines
of the trees are moved.

* `Value.relocate` and `Machine.relocate` are the values and the machine of an evaluation, elsewhere.
* What the operators compute and what is found on a machine is the same elsewhere.
* A value has the same text elsewhere (`Value.inspect_relocate`), unless lines are moved and it is a
  function with a node that is no construct of the language in it. `Relocation.standard` excludes
  them.
-/

namespace MonkeyLang

/-- Where an evaluation is moved to. -/
structure Relocation where
  /-- the machine with all that has been done before -/
  before : Machine
  table : ObjectId → ObjectId
  lines : Nat → Nat
  table_injective : Function.Injective table

namespace Relocation

variable (ρ : Relocation)

/-- An identity elsewhere. -/
def object (i : ObjectId) : ObjectId := ρ.before.supply + i

/-- The place of a scope elsewhere. -/
def scope (s : ScopeId) : ScopeId := ρ.before.scopes.size + s

end Relocation

/-! ### Values -/

namespace Value

mutual

/-- The value elsewhere. -/
def relocate (ρ : Relocation) : Value → Value
  | integer n => integer n
  | boolean b => boolean b
  | text s => text s
  | null => null
  | void => void
  | ret id value => ret (ρ.object id) (value.relocate ρ)
  | error id fault => error (ρ.object id) fault
  | function id parameters body scope =>
    function (ρ.object id) (parameters.map (Ident.mapLines ρ.lines)) (body.mapLines ρ.lines)
      (ρ.scope scope)
  | builtin table b => builtin (ρ.table table) b
  | array id elements => array (ρ.object id) (relocateList ρ elements)
  | hash id entries => hash (ρ.object id) (relocateEntries ρ entries)

/-- The values elsewhere. -/
def relocateList (ρ : Relocation) : List Value → List Value
  | [] => []
  | value :: values => value.relocate ρ :: relocateList ρ values

/-- The entries of a hash elsewhere. -/
def relocateEntries (ρ : Relocation) : List (HashKey × Value × Value) → List (HashKey × Value × Value)
  | [] => []
  | (hashKey, key, value) :: entries =>
    (hashKey, key.relocate ρ, value.relocate ρ) :: relocateEntries ρ entries

end

variable {ρ : Relocation}

@[simp] theorem relocateList_eq (values : List Value) :
    relocateList ρ values = values.map (relocate ρ) := by
  induction values with
  | nil => rfl
  | cons value values ih => rw [relocateList, ih, List.map_cons]

@[simp] theorem relocateEntries_eq (entries : List (HashKey × Value × Value)) :
    relocateEntries ρ entries = Dict.mapValues (Prod.map (relocate ρ) (relocate ρ)) entries := by
  induction entries with
  | nil => rfl
  | cons entry entries ih => rw [relocateEntries, ih]; rfl

@[simp] theorem type_relocate (value : Value) : (value.relocate ρ).type = value.type := by
  cases value <;> rfl

@[simp] theorem isError_relocate (value : Value) : (value.relocate ρ).isError = value.isError := by
  cases value <;> rfl

@[simp] theorem isExit_relocate (value : Value) : (value.relocate ρ).isExit = value.isExit := by
  cases value <;> rfl

@[simp] theorem hashKey?_relocate (value : Value) :
    (value.relocate ρ).hashKey? = value.hashKey? := by
  cases value <;> rfl

@[simp] theorem object_beq (i j : ObjectId) : (ρ.object i == ρ.object j) = (i == j) := by
  simp [Relocation.object, BEq.beq]

@[simp] theorem table_beq (i j : ObjectId) : (ρ.table i == ρ.table j) = (i == j) := by
  simp [ρ.table_injective.eq_iff, BEq.beq]

/-- Two values are the same one elsewhere exactly if they are here. -/
@[simp] theorem same_relocate (a b : Value) : (a.relocate ρ).same (b.relocate ρ) = a.same b := by
  cases a <;> cases b <;> simp [same, relocate]

/-! ### Operations -/

theorem unary_relocate (operator : String) (value : Value) :
    (value.relocate ρ).unary operator = (value.unary operator).map (relocate ρ) := by
  cases value <;> simp only [unary, relocate, type] <;> repeat' split
  all_goals rfl

theorem integerBinary_relocate (operator : String) (a b : Int) :
    (integerBinary operator a b).map (relocate ρ) = integerBinary operator a b := by
  unfold integerBinary
  repeat' split
  all_goals rfl

theorem textBinary_relocate (operator a b : String) :
    (textBinary operator a b).map (relocate ρ) = textBinary operator a b := by
  unfold textBinary
  repeat' split
  all_goals rfl

theorem type_eq_integer {value : Value} : value.type = .integer ↔ ∃ n, value = integer n := by
  cases value <;> simp [type]

theorem type_eq_text {value : Value} : value.type = .text ↔ ∃ s, value = text s := by
  cases value <;> simp [type]

/-- Operands of different types are a fault. -/
theorem binary_of_type_ne {operator : String} {a b : Value} (h : a.type ≠ b.type) :
    binary operator a b = .error (.typeMismatch a.type operator b.type) := by
  unfold binary
  rw [if_pos h]

/-- Operands that are neither numbers nor texts can only be compared. -/
theorem binary_of_compared {operator : String} {a b : Value} (h : a.type = b.type)
    (hinteger : a.type ≠ .integer) (htext : a.type ≠ .text) : binary operator a b =
      if operator = "==" then .ok (boolean (a.same b))
      else if operator = "!=" then .ok (boolean !a.same b)
      else .error (.unknownBinary a.type operator b.type) := by
  unfold binary
  rw [if_neg (not_not_intro h)]
  split
  · exact absurd rfl hinteger
  · exact absurd rfl htext
  · rfl

theorem binary_relocate (operator : String) (a b : Value) :
    binary operator (a.relocate ρ) (b.relocate ρ) = (binary operator a b).map (relocate ρ) := by
  have htypes : (a.relocate ρ).type = (b.relocate ρ).type ↔ a.type = b.type := by
    rw [type_relocate, type_relocate]
  by_cases htype : a.type = b.type
  · by_cases hinteger : a.type = .integer
    · obtain ⟨m, rfl⟩ := type_eq_integer.1 hinteger
      obtain ⟨n, rfl⟩ := type_eq_integer.1 (htype.symm.trans hinteger)
      exact (integerBinary_relocate operator m n).symm
    by_cases htext : a.type = .text
    · obtain ⟨s, rfl⟩ := type_eq_text.1 htext
      obtain ⟨t, rfl⟩ := type_eq_text.1 (htype.symm.trans htext)
      exact (textBinary_relocate operator s t).symm
    rw [binary_of_compared (htypes.2 htype) (by rwa [type_relocate]) (by rwa [type_relocate]),
      binary_of_compared htype hinteger htext, same_relocate, type_relocate, type_relocate]
    repeat' split
    all_goals rfl
  · rw [binary_of_type_ne (mt htypes.1 htype), binary_of_type_ne htype, type_relocate,
      type_relocate]
    rfl

end Value

/-! ### What has the same text elsewhere -/

namespace Relocation

variable (ρ : Relocation)

/-- Nodes whose text shows no line, unless no line is moved. -/
def standard : Standard where
  Fits := fun node => ρ.lines = id ∨ node.Whole
  Fine := fun value => ∀ i parameters body scope, value = .function i parameters body scope →
    ∀ st ∈ body.statements, ρ.lines = id ∨ (Node.statement st).Whole
  fits_child := fun h hchild => h.imp_right fun h => h.child hchild
  fine_literal := by
    intro _ _ _ _ _ _ _ h
    cases h
  fine_wrap := by
    intro _ _ _ _ _ h
    cases h
  fine_function := by
    rintro _ _ _ h _ _ _ _ _ _ ⟨⟩ st hst
    exact h.imp_right fun h => h.child (Node.mem_within hst)
  fits_body := fun h => h _ _ _ _ rfl
  fine_other := by
    rintro _ _ hfunction _ _ _ _ rfl
    exact absurd rfl hfunction

end Relocation

namespace Value

variable {ρ : Relocation}

theorem render_relocate {b : Block}
    (h : ∀ st ∈ b.statements, ρ.lines = id ∨ (Node.statement st).Whole) :
    (b.mapLines ρ.lines).render = b.render := by
  by_cases hlines : ρ.lines = id
  · rw [hlines, Block.mapLines_id]
  · exact Block.render_mapLines fun st hst => ((h st hst).resolve_left hlines).text_mapLines

mutual

/-- A value has the same text elsewhere. -/
theorem inspect_relocate : ∀ {value : Value}, ρ.standard.Sound value →
    (value.relocate ρ).inspect = value.inspect
  | .integer _, _ | .boolean _, _ | .text _, _ | .null, _ | .void, _ | .error .., _
  | .builtin .., _ => rfl
  | .ret _ value, h => by rw [relocate, inspect, inspect, inspect_relocate (all_ret.1 h).2]
  | .function _ parameters body _, h => by
    have hbody := render_relocate ((all_function.1 h) _ _ _ _ rfl)
    rw [relocate, inspect, inspect, renderParameters_map, hbody]
  | .array _ elements, h => by
    rw [relocate, inspect, inspect, inspectList_relocate (all_array.1 h).2]
  | .hash _ entries, h => by
    rw [relocate, inspect, inspect, inspectEntries_relocate (all_hash.1 h).2]

theorem inspectList_relocate : ∀ {values : List Value}, (∀ v ∈ values, ρ.standard.Sound v) →
    inspectList (relocateList ρ values) = inspectList values
  | [], _ => rfl
  | value :: values, h => by
    obtain ⟨hvalue, hvalues⟩ := List.forall_mem_cons.1 h
    rw [relocateList, inspectList, inspectList, inspect_relocate hvalue,
      inspectList_relocate hvalues]

theorem inspectEntries_relocate : ∀ {entries : List (HashKey × Value × Value)},
    AllEntries ρ.standard.Fine entries →
      inspectEntries (relocateEntries ρ entries) = inspectEntries entries
  | [], _ => rfl
  | (_, key, value) :: entries, h => by
    obtain ⟨⟨hkey, hvalue⟩, hentries⟩ := List.forall_mem_cons.1 h
    rw [relocateEntries, inspectEntries, inspectEntries, inspect_relocate hkey,
      inspect_relocate hvalue, inspectEntries_relocate hentries]

end

theorem elementAt_relocate (elements : List Value) (position : Int) :
    elementAt (elements.map (relocate ρ)) position = (elementAt elements position).map (relocate ρ) := by
  unfold elementAt
  split
  · rfl
  · rw [List.getElem?_map]
    cases elements[position.toNat]? <;> rfl

/-- Where an element is missing, the fault shows the texts of the hash and of the key. -/
theorem index_relocate {collection position : Value} (hcollection : ρ.standard.Sound collection)
    (hposition : ρ.standard.Sound position) :
    (collection.relocate ρ).index (position.relocate ρ) =
      (collection.index position).map (relocate ρ) := by
  cases collection with
  | array id elements =>
    cases position with
    | integer n =>
      simp only [relocate, index, relocateList_eq]
      exact elementAt_relocate elements n
    | _ => rfl
  | hash id entries =>
    have hhash := inspect_relocate hcollection
    have hkey := inspect_relocate hposition
    simp only [relocate, index, hashKey?_relocate, type_relocate, relocateEntries_eq] at hhash ⊢
    cases position.hashKey? with
    | none => rfl
    | some key =>
      simp only [Dict.find?_mapValues, hhash, hkey]
      cases Dict.find? entries key <;> rfl
  | _ =>
    simp only [relocate, index, type_relocate]
    rfl

end Value

/-! ### Machines -/

/-- The scope elsewhere. -/
def Scope.relocate (ρ : Relocation) (scope : Scope) : Scope :=
  ⟨Dict.mapValues (Value.relocate ρ) scope.bindings, scope.outer.map ρ.scope⟩

namespace Machine

/-- The machine elsewhere: its scopes and what it has printed come behind what was there before. -/
def relocate (ρ : Relocation) (machine : Machine) : Machine where
  scopes := ρ.before.scopes ++ machine.scopes.map (Scope.relocate ρ)
  supply := ρ.object machine.supply
  output := ρ.before.output ++ machine.output

variable {ρ : Relocation} (machine : Machine)

@[simp] theorem size_relocate : (machine.relocate ρ).scopes.size = ρ.scope machine.scopes.size := by
  simp [relocate, Relocation.scope]

@[simp] theorem getElem?_relocate (s : ScopeId) :
    (machine.relocate ρ).scopes[ρ.scope s]? = machine.scopes[s]?.map (Scope.relocate ρ) := by
  simp [relocate, Relocation.scope, Array.getElem?_append_right]

theorem relocate_push (outer : Option ScopeId) :
    relocate ρ { machine with scopes := machine.scopes.push ⟨[], outer⟩ } =
      { machine.relocate ρ with
        scopes := (machine.relocate ρ).scopes.push ⟨[], outer.map ρ.scope⟩ } := by
  simp [relocate, Scope.relocate, Dict.mapValues]

theorem relocate_print (text : String) :
    relocate ρ { machine with output := machine.output ++ text } =
      { machine.relocate ρ with output := (machine.relocate ρ).output ++ text } :=
  congrArg (Machine.mk _ _) String.append_assoc.symm

theorem chain_relocate (s : ScopeId) :
    (machine.relocate ρ).chain (ρ.scope s) = (machine.chain s).map (Scope.relocate ρ) := by
  fun_induction chain machine s with
  | case1 s hscope =>
    rw [chain, getElem?_relocate, hscope]
    rfl
  | case2 s scope hscope houter =>
    rw [chain, getElem?_relocate, hscope]
    simp [Scope.relocate, houter]
  | case3 s scope hscope outer houter hlt ih =>
    have hlt' : ρ.scope outer < ρ.scope s := Nat.add_lt_add_left hlt _
    rw [chain, getElem?_relocate, hscope]
    simp [Scope.relocate, houter, hlt', ih]
  | case4 s scope hscope outer houter hlt =>
    have hlt' : ¬ ρ.scope outer < ρ.scope s := fun h => hlt (Nat.lt_of_add_lt_add_left h)
    rw [chain, getElem?_relocate, hscope]
    simp [Scope.relocate, houter, hlt']

/-- A name has the same value elsewhere. -/
theorem lookup_relocate (s : ScopeId) (name : String) :
    (machine.relocate ρ).lookup (ρ.scope s) name =
      (machine.lookup s name).map (Value.relocate ρ) := by
  rw [lookup, lookup, chain_relocate]
  induction machine.chain s with
  | nil => rfl
  | cons scope scopes ih =>
    rw [List.map_cons, List.findSome?_cons, List.findSome?_cons, ih, Scope.relocate,
      Dict.find?_mapValues]
    cases Dict.find? scope.bindings name <;> rfl

theorem lookupLocal_relocate (s : ScopeId) (name : String) :
    (machine.relocate ρ).lookupLocal (ρ.scope s) name =
      (machine.lookupLocal s name).map (Value.relocate ρ) := by
  rw [lookupLocal, lookupLocal, getElem?_relocate]
  cases machine.scopes[s]? with
  | none => rfl
  | some scope => exact Dict.find?_mapValues _ _ _

theorem declare_relocate (s : ScopeId) (name : String) (value : Value) :
    (machine.declare s name value).relocate ρ =
      (machine.relocate ρ).declare (ρ.scope s) name (value.relocate ρ) := by
  have hscopes : ((machine.declare s name value).relocate ρ).scopes =
      ((machine.relocate ρ).declare (ρ.scope s) name (value.relocate ρ)).scopes := by
    refine Array.ext_getElem? fun i => ?_
    by_cases hi : i < ρ.before.scopes.size
    · have hne : ρ.scope s ≠ i := Nat.ne_of_gt (Nat.lt_of_lt_of_le hi (Nat.le_add_right _ s))
      simp [relocate, declare, Array.getElem?_modify, hne, hi, Array.getElem?_append_left]
    · obtain ⟨j, rfl⟩ : ∃ j, i = ρ.scope j :=
        ⟨i - ρ.before.scopes.size, (Nat.add_sub_of_le (Nat.le_of_not_lt hi)).symm⟩
      have hiff : ρ.scope s = ρ.scope j ↔ s = j := Nat.add_left_cancel_iff
      rw [getElem?_relocate]
      simp only [declare, Array.getElem?_modify, getElem?_relocate, hiff]
      split
      · cases machine.scopes[j]? with
        | none => rfl
        | some scope =>
          simp [Scope.relocate, Dict.insert_mapValues]
      · rfl
  exact congrArg (fun scopes => Machine.mk scopes (ρ.object machine.supply) _) hscopes

/-- The parameters of a call are bound elsewhere. -/
theorem bindParameters_relocate (s : ScopeId) (parameters : List Ident) (arguments : List Value) :
    (machine.bindParameters s parameters arguments).relocate ρ =
      (machine.relocate ρ).bindParameters (ρ.scope s) (parameters.map (Ident.mapLines ρ.lines))
        (arguments.map (Value.relocate ρ)) := by
  induction parameters generalizing machine arguments with
  | nil => rfl
  | cons parameter parameters ih =>
    cases arguments with
    | nil => rfl
    | cons argument arguments =>
      have hrest := ih (machine.declare s parameter.name argument) arguments
      rw [declare_relocate] at hrest
      exact hrest

end Machine

end MonkeyLang
