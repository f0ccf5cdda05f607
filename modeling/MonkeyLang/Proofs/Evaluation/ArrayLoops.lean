import Mathlib.Data.ENat.Basic
import MonkeyLang.Proofs.Evaluation.Arithmetic
import MonkeyLang.Proofs.Evaluation.Symbolic

/-!
# Loops over arrays

The language has no loops. A function that goes through an array defines another one, which calls
itself with the rest of the array and with what has come out so far (`HigherOrder.looping`). What
differs from one such function to the other is what is made of an element.

In each of the calls, the rest of the array and the accumulator are bound in a new scope inside the
one of the first call, under the same names as before. `HigherOrder.Steps.gets_loop` follows the
calls, by induction on the array: if each element is dealt with as it should be, then the function
folds the array.
-/

namespace MonkeyLang

namespace HigherOrder

/-! ### Trees -/

section Tree

variable (line : Nat)

/-- A name in a line. -/
def ident (name : String) : Ident := ⟨⟨.identifier, name, line⟩, name⟩

def named (name : String) : Expr := .identifier (ident line name)

def calling (name : String) (arguments : List Expr) : Expr :=
  .call ⟨.leftParen, "(", line⟩ (named line name) arguments

def returning (e : Expr) : Stmt := .ret ⟨.ret, "return", line⟩ e

def braces (statements : List Stmt) : Block := ⟨⟨.leftBrace, "\x7b", line⟩, statements⟩

/-- A function literal. -/
def function (parameters : List String) (statements : List Stmt) : Expr :=
  .function ⟨.function, "fun", line⟩ (parameters.map (ident line)) (braces line statements)

/-- The declaration of a constant. -/
def constant (name : String) (value : Expr) : Stmt :=
  .declaration ⟨.const, "const", line⟩ (ident line name) value

/-- The value of a function literal. -/
def closure (parameters : List String) (statements : List Stmt) (id : ObjectId) (scope : ScopeId) :
    Value :=
  .function id (parameters.map (ident line)) (braces line statements) scope

/-- What a function does that calls itself for the rest of an array: with the empty array it returns
the accumulator, and else it makes a step. -/
def loop (accumulator : String) (step : Expr) : List Stmt :=
  [.ifThen ⟨.ifWord, "if", line + 1⟩
    (.binary ⟨.equal, "==", line + 1⟩ (calling (line + 1) "len" [named (line + 1) "arr"]) "=="
      (.integer ⟨.integer, "0", line + 1⟩ 0))
    (braces (line + 1) [returning (line + 2) (named (line + 2) accumulator)]),
  returning (line + 4)
    (calling (line + 4) "iter" [calling (line + 4) "rest" [named (line + 4) "arr"], step])]

/-- The function that does so. -/
def iteration (accumulator : String) (step : Expr) (id : ObjectId) (scope : ScopeId) : Value :=
  closure line ["arr", accumulator] (loop line accumulator step) id scope

/-- What a function does that goes through an array in this way. -/
def looping (accumulator : String) (step start : Expr) : List Stmt :=
  [constant (line + 1) "iter"
    (function (line + 1) ["arr", accumulator] (loop (line + 1) accumulator step)),
  returning (line + 7) (calling (line + 7) "iter" [named (line + 7) "arr", start])]

end Tree

/-! ### Going through an array -/

section Loop

variable {m : Machine} {table : ObjectId} {depth line : Nat} {scope outer : ScopeId}
  {frames : List (Dict String Value)} {short : Prop} {good : Value → Prop}

theorem bound_two {a b : String} (hab : a ≠ b) (x y : Value) :
    bound ([a, b].map (ident line)) [x, y] = [(a, x), (b, y)] := by
  simp [bound, ident, Dict.insert, hab]

/-- A call of a built-in function by its name. -/
theorem has_builtin_call (hsees : m.Sees scope frames) {b : Builtin}
    (hname : seen? frames b.name = none) {es : List Expr} {goods : List (Value → Prop)}
    (hes : m.HaveEach (.ofTable table depth) scope es goods short)
    (hcall : ∀ (m' : Machine) values, AreEach goods values →
      m'.Gets (applyValue table depth (.builtin table b) values)
        (fun value => value.isError = false ∧ good value) short) :
    m.Has (.ofTable table depth) scope (calling line b.name es) good short :=
  gets_call (has_builtin hsees rfl hname) hes fun m' values _ h => hcall m' values h

/-- An array that a name is bound to. -/
theorem has_array_name (hsees : m.Sees scope frames) {name : String} {id : ObjectId}
    {values : List Value} (harr : seen? frames name = some (.array id values)) :
    m.HaveEach (.ofTable table depth) scope [named line name] [(· = .array id values)] short :=
  .cons (fun _ hquiet => has_name (hsees.kept hquiet.kept) harr rfl) .nil

/-- The condition of the loop. -/
theorem has_isEmpty (hsees : m.Sees scope frames) {id : ObjectId} {values : List Value}
    (hlen : seen? frames "len" = none) (harr : seen? frames "arr" = some (.array id values))
    (token number : Token) : m.Has (.ofTable table depth) scope
      (.binary token (calling line "len" [named line "arr"]) "==" (.integer number 0))
      (· = .boolean values.isEmpty) short := by
  have hcall : m.Has (.ofTable table depth) scope (calling line "len" [named line "arr"])
      (· = .integer values.length) short := by
    refine has_builtin_call (b := .len) hsees hlen (has_array_name hsees harr) ?_
    rintro m' _ (_ | ⟨rfl, _ | _⟩)
    exact gets_len
  refine has_binary hcall (fun _ _ => has_integer) ?_ rfl
  cases values with
  | nil => rfl
  | cons value values =>
    simp [Value.binary, Value.integerBinary, Value.type]
    omega

theorem has_first (hsees : m.Sees scope frames) {id : ObjectId} {value : Value} {values : List Value}
    (hfirst : seen? frames "first" = none)
    (harr : seen? frames "arr" = some (.array id (value :: values))) (hvalue : value.isError = false) :
    m.Has (.ofTable table depth) scope (calling line "first" [named line "arr"])
      (· = value) short := by
  refine has_builtin_call (b := .first) hsees hfirst (has_array_name hsees harr) ?_
  rintro m' _ (_ | ⟨rfl, _ | _⟩)
  exact gets_first hvalue

theorem has_rest (hsees : m.Sees scope frames) {id : ObjectId} {value : Value} {values : List Value}
    (hrest : seen? frames "rest" = none)
    (harr : seen? frames "arr" = some (.array id (value :: values))) :
    m.Has (.ofTable table depth) scope (calling line "rest" [named line "arr"])
      (fun rest => ∃ id, rest = .array id values) short := by
  refine has_builtin_call (b := .rest) hsees hrest (has_array_name hsees harr) ?_
  rintro m' _ (_ | ⟨rfl, _ | _⟩)
  exact gets_rest

end Loop

/-- What is needed of a function that goes through an array: what its accumulator stands for, and
that a step is right, on all machines that have gone on quietly from this one. The frames are what is
seen from the call that the function is defined in. For a step, more than `need` calls have to be
allowed. -/
structure Steps {σ : Type} (table : ObjectId) (line : Nat) (accumulator : String) (step : Expr)
    (m : Machine) (scope : ScopeId) (id : ObjectId) (frames : List (Dict String Value))
    (stands : σ → Value → Prop) (next : σ → BitVec 64 → σ) (need : ℕ∞) : Prop where
  iter : seen? frames "iter" = some (iteration line accumulator step id scope)
  unbound : ∀ b : Builtin, seen? frames b.name = none
  fresh : accumulator ∉ "arr" :: "iter" :: Builtin.all.map Builtin.name
  proper : ∀ state value, stands state value → value.isError = false
  step : ∀ (m' : Machine) depth scope id x xs state value, m.Quiet m' →
    m'.Sees scope ([("arr", .array id (.ofWord x :: xs)), (accumulator, value)] :: frames) →
    stands state value →
      m'.Has (.ofTable table depth) scope step (stands (next state x)) ((depth : ℕ∞) ≤ need)

section Steps

variable {σ : Type} {m m' : Machine} {table id : ObjectId} {depth line : Nat} {scope : ScopeId}
  {frames : List (Dict String Value)} {accumulator : String} {step : Expr}
  {stands : σ → Value → Prop} {next : σ → BitVec 64 → σ} {need : ℕ∞}

/-- Names that are not bound innermost. -/
theorem seen?_of_ne {a b name : String} {x y : Value} (ha : a ≠ name) (hb : b ≠ name) :
    seen? ([(a, x), (b, y)] :: frames) name = seen? frames name := by
  simp [seen?, Dict.find?, ha, hb]

/-- What is seen from a call of the loop. -/
structure Inner (table : ObjectId) (m : Machine) (scope : ScopeId)
    (frames : List (Dict String Value)) (accumulator : String) (iter array value : Value) :
    Prop where
  sees : m.Sees scope frames
  iter : seen? frames "iter" = some iter
  arr : seen? frames "arr" = some array
  accumulator : seen? frames accumulator = some value
  unbound : ∀ b : Builtin, seen? frames b.name = none

theorem Steps.inner (h : Steps table line accumulator step m scope id frames stands next need)
    {inner : ScopeId} {array value : Value}
    (hsees : m'.Sees inner ([("arr", array), (accumulator, value)] :: frames)) :
    Inner table m' inner ([("arr", array), (accumulator, value)] :: frames) accumulator
      (iteration line accumulator step id scope) array value := by
  obtain ⟨harr, hiter, hbuiltin⟩ : accumulator ≠ "arr" ∧ accumulator ≠ "iter" ∧
      accumulator ∉ Builtin.all.map Builtin.name := by
    simpa only [List.mem_cons, not_or] using h.fresh
  refine ⟨hsees, ?_, ?_, ?_, fun b => ?_⟩
  · rw [seen?_of_ne (by decide) hiter, h.iter]
  · simp [seen?, Dict.find?]
  · simp [seen?, Dict.find?, harr.symm]
  · have hb : b.name ∈ Builtin.all.map Builtin.name := by cases b <;> decide
    have hne : "arr" ≠ b.name := by cases b <;> decide
    rw [seen?_of_ne hne (fun he => hbuiltin (by rwa [he])), h.unbound]

/-- Without an element left, the accumulator is returned. -/
theorem Inner.gets_end {frames : List (Dict String Value)} {iter value : Value}
    {good : Value → Prop} {short : Prop}
    (h : Inner table m scope frames accumulator iter (.array id []) value)
    (hvalue : value.isError = false) (hgood : good value) :
    m.Gets (Stmt.evalSequence (.ofTable table depth) scope .null (loop line accumulator step))
      (Sequel.Returns good) short := by
  refine gets_sequence_of_return (gets_if_true (has_isEmpty h.sees (h.unbound .len) h.arr _ _) ?_)
  intro m' hquiet
  refine gets_block_of_return (h.sees.kept hquiet.kept) (fun h => by cases h)
    fun m'' inner _ hsees => ?_
  have haccumulator : seen? ([] :: frames) (ident (line + 2) accumulator).name = some value :=
    h.accumulator
  exact (has_name hsees haccumulator hvalue).mono (fun _ ⟨_, he⟩ => he ▸ ⟨hvalue, hgood⟩) fun h => h

/-- With an element left, a step is made and the function is called for the rest. -/
theorem Inner.gets_step {frames : List (Dict String Value)} {iter x value : Value} {xs : List Value}
    {good stepped : Value → Prop} {short : Prop}
    (h : Inner table m scope frames accumulator iter (.array id (x :: xs)) value)
    (hiter : iter.isError = false)
    (hstep : ∀ m', m.Quiet m' → m'.Has (.ofTable table depth) scope step stepped short)
    (hcall : ∀ m' id value, m.Quiet m' → stepped value →
      m'.Gets (applyValue table depth iter [.array id xs, value])
        (fun value => value.isError = false ∧ good value) short) :
    m.Gets (Stmt.evalSequence (.ofTable table depth) scope .null (loop line accumulator step))
      (Sequel.Returns good) short := by
  refine gets_sequence_of_ongoing
    (gets_if_false (has_isEmpty h.sees (h.unbound .len) h.arr _ _) rfl) fun m' _ hquiet => ?_
  have hsees' := h.sees.kept hquiet.kept
  have harguments : m'.HaveEach (.ofTable table depth) scope
      [calling (line + 4) "rest" [named (line + 4) "arr"], step]
      [fun rest => ∃ id, rest = .array id xs, stepped] short := by
    refine .cons (fun m'' hquiet' => ?_) (.cons (fun m'' hquiet' => ?_) .nil)
    · exact has_rest (hsees'.kept hquiet'.kept) (h.unbound .rest) h.arr
    · exact hstep m'' (hquiet.trans hquiet')
  refine gets_sequence_of_return
    (gets_return (gets_call (has_name hsees' h.iter hiter) harguments ?_) fun h => by cases h)
  rintro m'' _ hquiet' (_ | ⟨⟨id, rfl⟩, _ | ⟨hvalue, _ | _⟩⟩)
  exact hcall m'' id _ (hquiet.trans hquiet') hvalue

/-- One call more for one element more. -/
theorem cast_succ_le {d n : ℕ} (h : (d : ℕ∞) ≤ n + need) :
    ((d + 1 : ℕ) : ℕ∞) ≤ (n + 1 : ℕ) + need := by
  push_cast
  rw [add_right_comm]
  exact add_le_add_left h 1

/-- A function that goes through an array folds its elements. -/
theorem Steps.gets_loop (h : Steps table line accumulator step m scope id frames stands next need)
    (xs : List (BitVec 64)) {depth : Nat} {arr : ObjectId} {state : σ} {value : Value}
    (hquiet : m.Quiet m') (hsees : m'.Sees scope frames) (hvalue : stands state value) :
    m'.Gets (applyValue table depth (iteration line accumulator step id scope)
        [.array arr (xs.map .ofWord), value])
      (stands (xs.foldl next state)) ((depth : ℕ∞) ≤ xs.length + need) := by
  have hne : "arr" ≠ accumulator := fun he => h.fresh (he ▸ List.mem_cons_self)
  -- every call has a shorter array, one call less and another accumulator, on a later machine
  induction xs generalizing m' depth arr state value with
  | nil =>
    refine gets_apply hsees rfl (fun hd => hd ▸ by simp) fun d m₁ inner _ hquiet' hsees' => ?_
    rw [bound_two hne] at hsees'
    exact (h.inner hsees').gets_end (h.proper _ _ hvalue) hvalue
  | cons x xs ih =>
    refine gets_apply hsees rfl (fun hd => hd ▸ by simp) fun d m₁ inner hd hquiet' hsees' => ?_
    rw [bound_two hne] at hsees'
    have hshort : ((d : ℕ∞) ≤ xs.length + need) → ((depth : ℕ∞) ≤ (x :: xs).length + need) :=
      fun hd' => hd ▸ cast_succ_le hd'
    have hstep : ∀ m₂, m₁.Quiet m₂ → m₂.Has (.ofTable table d) inner step (stands (next state x))
        ((depth : ℕ∞) ≤ (x :: xs).length + need) := fun m₂ hquiet₂ =>
      (h.step m₂ d inner arr x _ state value (hquiet.trans (hquiet'.trans hquiet₂))
        (hsees'.kept hquiet₂.kept) hvalue).mono (fun _ h => h)
          fun hd' => hshort (hd'.trans le_add_self)
    refine (h.inner hsees').gets_step rfl hstep fun m₂ rest value' hquiet₂ hvalue' => ?_
    have hsees₂ := hsees.kept (hquiet'.trans hquiet₂).kept
    exact ((ih (hquiet.trans (hquiet'.trans hquiet₂)) hsees₂ hvalue').proper
      fun _ => h.proper _ _).mono (fun _ h => h) hshort

/-- The first call is of the whole array, with what `start` stands for. -/
theorem Steps.gets_start {arr : ObjectId} {xs : List (BitVec 64)} {start : Expr} {state : σ}
    (h : Steps table line accumulator step m scope id frames stands next need) (line' : Nat)
    (last : Value) (hsees : m.Sees scope frames)
    (harr : seen? frames "arr" = some (.array arr (xs.map .ofWord)))
    (hstart : ∀ m' short, m.Quiet m' →
      m'.Has (.ofTable table depth) scope start (stands state) short) :
    m.Gets (Stmt.evalSequence (.ofTable table depth) scope last
        [returning line' (calling line' "iter" [named line' "arr", start])])
      (Sequel.Returns (stands (xs.foldl next state))) ((depth : ℕ∞) ≤ xs.length + need) := by
  have harguments : m.HaveEach (.ofTable table depth) scope [named line' "arr", start]
      [(· = .array arr (xs.map .ofWord)), stands state] ((depth : ℕ∞) ≤ xs.length + need) := by
    refine .cons (fun m' hquiet => ?_) (.cons (fun m' hquiet => ?_) .nil)
    · exact has_name (hsees.kept hquiet.kept) harr rfl
    · exact hstart m' _ hquiet
  refine gets_sequence_of_return
    (gets_return (gets_call (has_name hsees h.iter rfl) harguments ?_) fun h => by cases h)
  rintro m' _ hquiet (_ | ⟨rfl, _ | ⟨hvalue, _ | _⟩⟩)
  exact (h.gets_loop xs hquiet (hsees.kept hquiet.kept) hvalue).proper fun _ => h.proper _ _

/-- A function that goes through an array folds its elements, beginning with what `start` stands for.
In its call, the parameters are bound to the arguments, and then `iter` to the function that calls
itself. -/
theorem gets_looping {parameters : List String} {arguments : List Value}
    {bindings : Dict String Value} {start : Expr} {arr : ObjectId} {xs : List (BitVec 64)}
    {state : σ} (hsees : m.Sees scope frames)
    (hlength : arguments.length = (parameters.map (ident line)).length)
    (hbound : bound (parameters.map (ident line)) arguments = bindings)
    (harr : Dict.find? bindings "arr" = some (.array arr (xs.map .ofWord)))
    (hiter : Dict.find? bindings "iter" = none)
    (hstart : ∀ (m' : Machine) inner depth value short,
      m'.Sees inner ((bindings ++ [("iter", value)]) :: frames) →
        m'.Has (.ofTable table depth) inner start (stands state) short)
    (hsteps : ∀ m' inner id, m.Quiet m' → Steps table (line + 1) accumulator step m' inner id
      ((bindings ++ [("iter", iteration (line + 1) accumulator step id inner)]) :: frames)
      stands next need) :
    m.Gets (applyValue table depth
        (closure line parameters (looping line accumulator step start) id scope) arguments)
      (stands (xs.foldl next state)) ((depth : ℕ∞) ≤ xs.length + 1 + need) := by
  refine gets_apply_of_body hlength (fun hd => hd ▸ by simp) fun d hd => ?_
  have hcalled := scopes_called m scope (parameters.map (ident line)) arguments
  rw [hbound] at hcalled
  have hnew : Dict.find? bindings (ident (line + 1) "iter").name = none := hiter
  obtain ⟨m', hscopes, houtput, hrun⟩ := run_declaration hcalled hnew (.ofTable table d)
    ⟨.const, "const", line + 1⟩ ⟨.function, "fun", line + 1⟩
    (["arr", accumulator].map (ident (line + 1)))
    (braces (line + 1) (loop (line + 1) accumulator step)) .null
    [returning (line + 7) (calling (line + 7) "iter" [named (line + 7) "arr", start])]
  refine (ensures_congr hrun).2 ?_
  have houtput' := houtput.trans (output_called m scope (parameters.map (ident line)) arguments)
  have hquiet : m.Quiet m' := Machine.quiet_of_push hscopes houtput'
  obtain ⟨id', hsees'⟩ : ∃ id', m'.Sees m.scopes.size ((bindings ++
      [("iter", iteration (line + 1) accumulator step id' m.scopes.size)]) :: frames) :=
    ⟨_, hsees.push hscopes houtput'⟩
  have harr' : seen? ((bindings ++
      [("iter", iteration (line + 1) accumulator step id' m.scopes.size)]) :: frames) "arr" =
        some (.array arr (xs.map .ofWord)) := by
    rw [seen?, Dict.find?_append_of_eq_some harr]
    rfl
  have hreturns := fun last => (hsteps m' m.scopes.size id' hquiet).gets_start (line + 7) last hsees'
    harr' fun m'' short hquiet' => hstart m'' _ d _ short (hsees'.kept hquiet'.kept)
  refine ((hreturns _).mono (fun _ h => h) fun hd' => ?_).since hquiet
  rw [hd]
  exact_mod_cast cast_succ_le hd'

end Steps

/-! ### Functions of one return -/

section Returning

variable {m : Machine} {table id : ObjectId} {depth : Nat} {scope : ScopeId}
  {frames : List (Dict String Value)}

theorem isError_ofWord (x : BitVec 64) : (Value.ofWord x).isError = false := rfl

/-- A call of the function that is bound to a name. -/
theorem has_call {f : Value} {line : Nat} {name : String} {es : List Expr}
    {goods : List (Value → Prop)} {good : Value → Prop} {short : Prop} (hsees : m.Sees scope frames)
    (hname : seen? frames name = some f) (hf : f.isError = false)
    (hes : m.HaveEach (.ofTable table depth) scope es goods short)
    (hcall : ∀ m' values, m.Quiet m' → AreEach goods values →
      m'.Gets (applyValue table depth f values)
        (fun value => value.isError = false ∧ good value) short) :
    m.Has (.ofTable table depth) scope (calling line name es) good short :=
  gets_call (has_name hsees hname hf) hes hcall

theorem seen?_cons_eq_none {bindings : Dict String Value} {name : String}
    (hbindings : Dict.find? bindings name = none) (hframes : seen? frames name = none) :
    seen? (bindings :: frames) name = none := by
  rw [seen?, hbindings, hframes]
  rfl

/-- A function of one return. -/
theorem gets_returning {line line' : Nat} {parameters : List String} {arguments : List Value}
    {e : Expr} {good : Value → Prop} {short : Prop} (hsees : m.Sees scope frames)
    (hlength : arguments.length = (parameters.map (ident line)).length) (hzero : depth = 0 → short)
    (h : ∀ d m' inner, depth = d + 1 → m.Quiet m' →
      m'.Sees inner (bound (parameters.map (ident line)) arguments :: frames) →
      m'.Has (.ofTable table d) inner e good short) (he : e ≠ .missing) :
    m.Gets (applyValue table depth (closure line parameters [returning line' e] id scope) arguments)
      good short := by
  refine gets_apply hsees hlength hzero fun d m' inner hd hquiet hsees' => ?_
  exact gets_sequence_of_return (gets_return (h d m' inner hd hquiet hsees') he)

/-- A function that returns the value of an operator between its two parameters. -/
theorem gets_operation (op : Operation) {operation : BitVec 64 → BitVec 64 → BitVec 64}
    (hop : ∀ x y, op.words x y = some (operation x y)) {a b : String} (hab : a ≠ b) {line : Nat}
    {token : Token} (x y : BitVec 64) (hsees : m.Sees scope frames) :
    m.Gets (applyValue table depth (closure line [a, b]
        [returning line (.binary token (named line a) op.symbol (named line b))] id scope)
        [.ofWord x, .ofWord y])
      (· = .ofWord (operation x y)) ((depth : ℕ∞) ≤ 0) := by
  have hbinary : Value.binary op.symbol (.ofWord x) (.ofWord y) = .ok (.ofWord (operation x y)) := by
    rw [binary_ofWord, hop]
    rfl
  have hoperated : ∀ d m' inner, depth = d + 1 → m.Quiet m' →
      m'.Sees inner (bound ([a, b].map (ident line)) [.ofWord x, .ofWord y] :: frames) →
      m'.Has (.ofTable table d) inner (.binary token (named line a) op.symbol (named line b))
        (· = .ofWord (operation x y)) ((depth : ℕ∞) ≤ 0) := by
    intro d m' inner _ _ hsees'
    rw [bound_two hab] at hsees'
    refine has_binary (has_name hsees' ?_ (isError_ofWord x))
      (fun _ hquiet => has_name (hsees'.kept hquiet.kept) ?_ (isError_ofWord y)) hbinary
      (isError_ofWord _)
    · simp [ident, seen?, Dict.find?]
    · simp [ident, seen?, Dict.find?, hab]
  exact gets_returning hsees rfl (fun hd => hd ▸ le_rfl) hoperated fun h => by cases h

end Returning

end HigherOrder

end MonkeyLang
