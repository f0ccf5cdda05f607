import MonkeyLang.Proofs.Evaluation.ArrayLoops
import MonkeyLang.Proofs.Evaluation.Sources
import MonkeyLang.Proofs.Parsing.Concatenation

/-!
# Functions on arrays

`HigherOrder.text` declares functions that go through an array by recursion, taking it apart and
putting together a new one with the built-in functions: `map`, `reduce`, and `double` and `sum` that
are used with them. They are right for arrays of any length, as long as so many calls may be nested
(`HigherOrder.functions_on_arrays_are_right`).
-/

namespace MonkeyLang

namespace HigherOrder

/-! ### The text -/

/-- Declarations of functions on arrays. -/
def text : String := "// map and reduce built from the array builtins
const map = fun(arr, f) \x7b
    const iter = fun(arr, acc) \x7b
        if (len(arr) == 0) \x7b
            return acc;
        \x7d
        return iter(rest(arr), push(acc, f(first(arr))));
    \x7d;
    return iter(arr, []);
\x7d;

const reduce = fun(arr, initial, f) \x7b
    const iter = fun(arr, result) \x7b
        if (len(arr) == 0) \x7b
            return result;
        \x7d
        return iter(rest(arr), f(result, first(arr)));
    \x7d;
    return iter(arr, initial);
\x7d;

const double = fun(x) \x7b return x * 2; \x7d;
const sum = fun(arr) \x7b
    return reduce(arr, 0, fun(acc, x) \x7b return acc + x; \x7d);
\x7d;
"

/-- What `map` makes of an element. -/
def mapStep : Expr :=
  calling 7 "push" [named 7 "acc", calling 7 "f" [calling 7 "first" [named 7 "arr"]]]

/-- The body of `map`. -/
def mapBody : List Stmt := looping 2 "acc" mapStep (.array ⟨.leftBracket, "[", 9⟩ [])

/-- What `reduce` makes of an element. -/
def reduceStep : Expr := calling 17 "f" [named 17 "result", calling 17 "first" [named 17 "arr"]]

/-- The body of `reduce`. -/
def reduceBody : List Stmt := looping 12 "result" reduceStep (named 19 "initial")

/-- The body of `double`. -/
def doubleBody : List Stmt :=
  [returning 22 (.binary ⟨.asterisk, "*", 22⟩ (named 22 "x") "*" (.integer ⟨.integer, "2", 22⟩ 2))]

/-- The body of the function that `sum` reduces an array with. -/
def addBody : List Stmt :=
  [returning 24 (.binary ⟨.plus, "+", 24⟩ (named 24 "acc") "+" (named 24 "x"))]

/-- The body of `sum`. -/
def sumBody : List Stmt :=
  [returning 24 (calling 24 "reduce"
    [named 24 "arr", .integer ⟨.integer, "0", 24⟩ 0, function 24 ["acc", "x"] addBody])]

/-- A function that a line declares. -/
structure Declared where
  line : Nat
  name : String
  parameters : List String
  body : List Stmt

def Declared.statement (d : Declared) : Stmt :=
  constant d.line d.name (function d.line d.parameters d.body)

def Declared.value (d : Declared) (id : ObjectId) (scope : ScopeId) : Value :=
  closure d.line d.parameters d.body id scope

/-- What the text declares. -/
def functions : List Declared :=
  [⟨2, "map", ["arr", "f"], mapBody⟩, ⟨12, "reduce", ["arr", "initial", "f"], reduceBody⟩,
   ⟨22, "double", ["x"], doubleBody⟩, ⟨23, "sum", ["arr"], sumBody⟩]

/-- The tree of the text. -/
def program : Program := ⟨functions.map Declared.statement⟩

/-- A text is parsed as its characters are. -/
theorem parse_ofList {cs : List Char} {program : Program}
    (h : (Parsing.ofTokens (Cursor.tokens ⟨0, 1, cs⟩)).toOption = some ⟨program, []⟩) :
    parse (String.ofList cs) = .ok ⟨program, []⟩ := by
  rw [Parsing.parse_eq_ofTokens, tokenize, Cursor.start, String.toList_ofList]
  revert h
  cases Parsing.ofTokens (Cursor.tokens ⟨0, 1, cs⟩) with
  | error => exact nofun
  | ok parsed => exact fun h => congrArg Except.ok (Option.some.inj h)

set_option maxRecDepth 8000 in
theorem parse_text : parse text = .ok ⟨program, []⟩ := by
  refine parse_ofList ?_
  decide +kernel

/-! ### The functions -/

section Functions

variable {m : Machine} {table id arr : ObjectId} {depth : Nat} {scope : ScopeId}
  {frames : List (Dict String Value)} {f : Value} {xs : List (BitVec 64)} {need : ℕ∞}

/-- A step of `map` puts what the function gives for the element behind the accumulator. -/
theorem has_mapStep {x image : Value} {values images : List Value} {acc : ObjectId} {short : Prop}
    (hsees : m.Sees scope frames) (harr : seen? frames "arr" = some (.array arr (x :: values)))
    (hacc : seen? frames "acc" = some (.array acc images)) (hf : seen? frames "f" = some f)
    (hfirst : seen? frames "first" = none) (hpush : seen? frames "push" = none)
    (hproper : f.isError = false) (hx : x.isError = false) (himage : image.isError = false)
    (hcall : ∀ m', m.Quiet m' → m'.Gets (applyValue table depth f [x]) (· = image) short) :
    m.Has (.ofTable table depth) scope mapStep
      (fun value => ∃ id, value = .array id (images ++ [image])) short := by
  have himaged : ∀ m', m.Quiet m' → m'.Has (.ofTable table depth) scope
      (calling 7 "f" [calling 7 "first" [named 7 "arr"]]) (· = image) short := by
    intro m' hquiet
    have hsees' := hsees.kept hquiet.kept
    refine has_call hsees' hf hproper
      (.cons (fun m'' hquiet' => has_first (hsees'.kept hquiet'.kept) hfirst harr hx) .nil) ?_
    rintro m'' _ hquiet' (_ | ⟨rfl, _ | _⟩)
    exact (hcall m'' (hquiet.trans hquiet')).proper fun _ he => he ▸ himage
  refine has_builtin_call (b := .push) hsees hpush
    (.cons (fun m' hquiet => has_name (hsees.kept hquiet.kept) hacc rfl) (.cons himaged .nil)) ?_
  rintro m' _ (_ | ⟨rfl, _ | ⟨rfl, _ | _⟩⟩)
  exact gets_push

/-- A step of `reduce` gives the accumulator and the element to the function. -/
theorem has_reduceStep {x state result : Value} {values : List Value} {short : Prop}
    (hsees : m.Sees scope frames) (harr : seen? frames "arr" = some (.array arr (x :: values)))
    (hstate : seen? frames "result" = some state) (hf : seen? frames "f" = some f)
    (hfirst : seen? frames "first" = none) (hproper : f.isError = false) (hx : x.isError = false)
    (hstateproper : state.isError = false) (hresult : result.isError = false)
    (hcall : ∀ m', m.Quiet m' → m'.Gets (applyValue table depth f [state, x]) (· = result) short) :
    m.Has (.ofTable table depth) scope reduceStep (· = result) short := by
  refine has_call hsees hf hproper
    (.cons (fun m' hquiet => has_name (hsees.kept hquiet.kept) hstate hstateproper)
      (.cons (fun m' hquiet => has_first (hsees.kept hquiet.kept) hfirst harr hx) .nil)) ?_
  rintro m' _ hquiet (_ | ⟨rfl, _ | ⟨rfl, _ | _⟩⟩)
  exact (hcall m' hquiet).proper fun _ he => he ▸ hresult

/-- `map` gives the array of what the function gives for the elements. -/
theorem gets_map {image : BitVec 64 → Value} (hsees : m.Sees scope frames)
    (hunbound : ∀ b : Builtin, seen? frames b.name = none) (hf : f.isError = false)
    (himage : ∀ x, (image x).isError = false)
    (hcalls : ∀ m', m.Quiet m' → ∀ d x,
      m'.Gets (applyValue table d f [.ofWord x]) (· = image x) ((d : ℕ∞) ≤ need)) :
    m.Gets (applyValue table depth (closure 2 ["arr", "f"] mapBody id scope)
        [.array arr (xs.map .ofWord), f])
      (fun value => ∃ id, value = .array id (xs.map image))
      ((depth : ℕ∞) ≤ xs.length + 1 + need) := by
  have hfold : xs.foldl (fun values x => values ++ [image x]) [] = xs.map image := by
    rw [List.map_eq_flatMap]
    simp [List.flatMap]
  rw [← hfold]
  -- the accumulator is an array of the images so far; which object it is does not matter
  have hsteps : ∀ m' inner id', m.Quiet m' → Steps table 3 "acc" mapStep m' inner id'
      ([("arr", .array arr (xs.map .ofWord)), ("f", f),
        ("iter", iteration 3 "acc" mapStep id' inner)] :: frames)
      (fun values value => ∃ id, value = .array id values) (fun values x => values ++ [image x])
      need := by
    intro m' inner id' hquiet
    refine ⟨rfl, fun b => seen?_cons_eq_none ?_ (hunbound b), by decide, ?_, ?_⟩
    · cases b <;> rfl
    · rintro _ _ ⟨id, rfl⟩
      rfl
    · rintro m'' d scope' arr' x values images _ hquiet' hsees' ⟨acc, rfl⟩
      refine has_mapStep hsees' rfl rfl rfl ?_ ?_ hf (isError_ofWord x) (himage x) fun m₁ hquiet₁ =>
        hcalls m₁ (hquiet.trans (hquiet'.trans hquiet₁)) d x
      · exact hunbound .first
      · exact hunbound .push
  refine gets_looping hsees rfl (bound_two (by decide) _ _) rfl rfl ?_ hsteps
  intro m' inner d _ short _
  refine Machine.Gets.mono (has_array .nil) ?_ fun h => h
  rintro _ ⟨-, id, _, rfl, _ | _⟩
  exact ⟨rfl, id, rfl⟩

/-- `reduce` folds the array with what the function computes. -/
theorem gets_reduce {operation : BitVec 64 → BitVec 64 → BitVec 64} {initial : BitVec 64}
    (hsees : m.Sees scope frames) (hunbound : ∀ b : Builtin, seen? frames b.name = none)
    (hf : f.isError = false) (hcalls : ∀ m', m.Quiet m' → ∀ d a b,
      m'.Gets (applyValue table d f [.ofWord a, .ofWord b]) (· = .ofWord (operation a b))
        ((d : ℕ∞) ≤ need)) :
    m.Gets (applyValue table depth (closure 12 ["arr", "initial", "f"] reduceBody id scope)
        [.array arr (xs.map .ofWord), .ofWord initial, f])
      (· = .ofWord (xs.foldl operation initial)) ((depth : ℕ∞) ≤ xs.length + 1 + need) := by
  have hsteps : ∀ m' inner id', m.Quiet m' → Steps table 13 "result" reduceStep m' inner id'
      ([("arr", .array arr (xs.map .ofWord)), ("initial", .ofWord initial), ("f", f),
        ("iter", iteration 13 "result" reduceStep id' inner)] :: frames)
      (fun word value => value = .ofWord word) operation need := by
    intro m' inner id' hquiet
    refine ⟨rfl, fun b => seen?_cons_eq_none ?_ (hunbound b), by decide, ?_, ?_⟩
    · cases b <;> rfl
    · rintro _ _ rfl
      exact isError_ofWord _
    · rintro m'' d scope' arr' x values word _ hquiet' hsees' rfl
      refine has_reduceStep hsees' rfl rfl rfl ?_ hf (isError_ofWord x) (isError_ofWord word)
        (isError_ofWord _) fun m₁ hquiet₁ =>
          hcalls m₁ (hquiet.trans (hquiet'.trans hquiet₁)) d word x
      exact hunbound .first
  have hbound : bound (["arr", "initial", "f"].map (ident 12))
      [.array arr (xs.map .ofWord), .ofWord initial, f] =
        [("arr", .array arr (xs.map .ofWord)), ("initial", .ofWord initial), ("f", f)] := rfl
  refine gets_looping hsees rfl hbound rfl rfl ?_ hsteps
  intro m' inner d _ short hsees'
  exact has_name hsees' rfl (isError_ofWord initial)

/-- `double` doubles a word. -/
theorem gets_double {x : BitVec 64} (hsees : m.Sees scope frames) :
    m.Gets (applyValue table depth (closure 22 ["x"] doubleBody id scope) [.ofWord x])
      (· = .integer (Word.wrap (2 * x.toInt))) ((depth : ℕ∞) ≤ 0) := by
  have hdoubled : ∀ d m' inner, depth = d + 1 → m.Quiet m' →
      m'.Sees inner (bound (["x"].map (ident 22)) [.ofWord x] :: frames) →
      m'.Has (.ofTable table d) inner (.binary ⟨.asterisk, "*", 22⟩ (named 22 "x") "*"
        (.integer ⟨.integer, "2", 22⟩ 2)) (· = .integer (Word.wrap (2 * x.toInt)))
        ((depth : ℕ∞) ≤ 0) := by
    intro d m' inner _ _ hsees'
    refine has_binary (has_name hsees' rfl (isError_ofWord x)) (fun _ _ => has_integer) ?_ rfl
    show Except.ok (Value.integer (Word.wrap (x.toInt * 2))) = _
    rw [Int.mul_comm]
  exact gets_returning hsees rfl (fun hd => hd ▸ le_rfl) hdoubled fun h => by cases h

/-- The sum of words is the exact sum, wrapped around once. -/
theorem toInt_foldl_add (xs : List (BitVec 64)) (initial : BitVec 64) :
    (xs.foldl (· + ·) initial).toInt = Word.wrap (initial.toInt + (xs.map BitVec.toInt).sum) := by
  induction xs generalizing initial with
  | nil =>
    rw [List.map_nil, List.sum_nil, Int.add_zero, Word.wrap_eq_bmod]
    exact initial.toInt_bmod_cancel.symm
  | cons x xs ih =>
    rw [List.foldl_cons, ih, List.map_cons, List.sum_cons, BitVec.toInt_add, ← Int.add_assoc,
      Word.wrap_eq_bmod, Word.wrap_eq_bmod]
    exact Int.bmod_add_bmod

theorem le_of_cast_le {d n : ℕ} (h : (d : ℕ∞) ≤ n + 1 + 0) : d ≤ n + 1 := by
  rw [add_zero] at h
  exact_mod_cast h

/-- `sum` adds the words of an array. -/
theorem gets_sum {reduceId : ObjectId} (hsees : m.Sees scope frames)
    (hunbound : ∀ b : Builtin, seen? frames b.name = none)
    (hreduce : seen? frames "reduce" =
      some (closure 12 ["arr", "initial", "f"] reduceBody reduceId scope)) :
    m.Gets (applyValue table depth (closure 23 ["arr"] sumBody id scope)
        [.array arr (xs.map .ofWord)])
      (· = .integer (Word.wrap (xs.map BitVec.toInt).sum)) (depth ≤ xs.length + 2) := by
  have hsum : Value.ofWord (xs.foldl (· + ·) 0) =
      .integer (Word.wrap (xs.map BitVec.toInt).sum) := by
    rw [Value.ofWord, toInt_foldl_add]
    simp
  rw [← hsum]
  have hreduced : ∀ d m' inner, depth = d + 1 → m.Quiet m' →
      m'.Sees inner (bound (["arr"].map (ident 23)) [.array arr (xs.map .ofWord)] :: frames) →
      m'.Has (.ofTable table d) inner (calling 24 "reduce" [named 24 "arr",
        .integer ⟨.integer, "0", 24⟩ 0, function 24 ["acc", "x"] addBody])
        (· = .ofWord (xs.foldl (· + ·) 0)) (depth ≤ xs.length + 2) := by
    intro d m' inner hd hquiet hsees'
    refine has_call hsees' hreduce rfl (.cons (fun m'' hquiet' => has_name (hsees'.kept hquiet'.kept)
      rfl rfl) (.cons (fun _ _ => has_integer) (.cons (fun _ _ => has_function) .nil))) ?_
    rintro m'' _ hquiet' (_ | ⟨rfl, _ | ⟨rfl, _ | ⟨⟨addId, rfl⟩, _ | _⟩⟩⟩)
    -- the function that adds is inside the call of `sum`, `reduce` is beside `sum`
    have hadds : ∀ m₁, m''.Quiet m₁ → ∀ d a b, m₁.Gets
        (applyValue table d (closure 24 ["acc", "x"] addBody addId inner) [.ofWord a, .ofWord b])
        (· = .ofWord (a + b)) ((d : ℕ∞) ≤ 0) := fun m₁ hquiet₁ d a b =>
      gets_operation .sum (fun _ _ => rfl) (by decide) a b
        (hsees'.kept (hquiet'.trans hquiet₁).kept)
    have hfolds : m''.Gets (applyValue table d
        (closure 12 ["arr", "initial", "f"] reduceBody reduceId scope)
        [.array arr (xs.map .ofWord), .ofWord 0, closure 24 ["acc", "x"] addBody addId inner])
        (· = .ofWord (xs.foldl (· + ·) 0)) ((d : ℕ∞) ≤ xs.length + 1 + 0) :=
      gets_reduce (hsees.kept (hquiet.trans hquiet').kept) hunbound rfl hadds
    refine (hfolds.proper fun _ h => h ▸ isError_ofWord _).mono (fun _ h => h) fun hd' => ?_
    rw [hd]
    exact Nat.succ_le_succ (le_of_cast_le hd')
  exact gets_returning hsees rfl (fun hd => hd ▸ Nat.zero_le _) hreduced fun h => by cases h

end Functions

/-! ### Running the text -/

section Running

variable {m : Machine} {scopes : Array Scope} {bindings : Dict String Value}
  {outer : Option ScopeId} {last : Value}

/-- The functions are bound to their names, in order. -/
def Bind (scope : ScopeId) (bindings : Dict String Value) (ds : List Declared) : Prop :=
  List.Forall₂ (fun binding d => ∃ id, binding = (d.name, d.value id scope)) bindings ds

/-- Declarations of functions with different names bind them in the newest scope, and do nothing
else. -/
theorem run_declared (ctx : Context) (ds : List Declared)
    (hscopes : m.scopes = scopes.push ⟨bindings, outer⟩)
    (hnew : ∀ d ∈ ds, bindings.find? d.name = none) (hnames : (ds.map Declared.name).Nodup)
    (hlast : last.isError = false) :
    ∃ added value m', m'.scopes = scopes.push ⟨bindings ++ added, outer⟩ ∧
      m'.output = m.output ∧ Bind scopes.size added ds ∧ value.isError = false ∧
      (Stmt.evalSequence ctx scopes.size last (ds.map Declared.statement)).run m =
        .ok (.finished value) m' := by
  induction ds generalizing m bindings last with
  | nil =>
    refine ⟨[], last, m, ?_, rfl, .nil, hlast, ?_⟩
    · rw [hscopes, List.append_nil]
    · rw [List.map_nil, Stmt.evalSequence]
      rfl
  | cons d ds ih =>
    rw [List.map_cons, List.nodup_cons] at hnames
    have hhead : bindings.find? (ident d.line d.name).name = none := hnew d List.mem_cons_self
    obtain ⟨m₁, hscopes₁, houtput₁, hrun₁⟩ := run_declaration hscopes hhead ctx
      ⟨.const, "const", d.line⟩ ⟨.function, "fun", d.line⟩ (d.parameters.map (ident d.line))
      (braces d.line d.body) last (ds.map Declared.statement)
    have hvalue₁ : (d.value m.supply scopes.size).isError = false := rfl
    have hnew₁ : ∀ d' ∈ ds,
        Dict.find? (bindings ++ [(d.name, d.value m.supply scopes.size)]) d'.name = none := by
      intro d' hd'
      have hne : d.name ≠ d'.name := fun he => hnames.1 (he ▸ List.mem_map_of_mem hd')
      rw [← Dict.insert_of_find?_eq_none (hnew d List.mem_cons_self), Dict.find?_insert, if_neg hne]
      exact hnew d' (List.mem_cons_of_mem d hd')
    obtain ⟨added, value, m₂, hscopes₂, houtput₂, hadded, hvalue, hrun₂⟩ :=
      ih hscopes₁ hnew₁ hnames.2 hvalue₁
    refine ⟨_ :: added, value, m₂, ?_, houtput₂.trans houtput₁, .cons ⟨m.supply, rfl⟩ hadded, hvalue,
      hrun₁.trans hrun₂⟩
    rw [hscopes₂, List.append_assoc]
    rfl

end Running

/-- The text runs to its end and binds the functions. -/
theorem run_text (m : Machine) (limit : Nat) : ∃ result m' bindings,
    (runAlone limit text).run m = .ok result m' ∧ result.isOk ∧ m'.output = m.output ∧
      m'.scopes = m.scopes.push ⟨bindings, none⟩ ∧ Bind m.scopes.size bindings functions := by
  have hnull : Value.null.isError = false := rfl
  obtain ⟨bindings, value, m', hscopes, houtput, hbind, hvalue, hrun⟩ :=
    run_declared (m := ⟨m.scopes.push ⟨[], none⟩, m.supply + 1, m.output⟩) (.ofTable m.supply limit)
      functions rfl (fun _ _ => rfl) (by decide) hnull
  have heval : (program.eval (.ofTable m.supply limit) m.scopes.size).run
      ⟨m.scopes.push ⟨[], none⟩, m.supply + 1, m.output⟩ = .ok value m' := by
    rw [Program.eval]
    exact run_bind_of_ok hrun
  have halone : (program.evalAlone (.ofTable m.supply limit)).run
      ⟨m.scopes, m.supply + 1, m.output⟩ = .ok value m' := heval
  refine ⟨⟨program, [], some value⟩, m', bindings, ?_, ?_, houtput, hscopes, hbind⟩
  · rw [runAlone_of_parse parse_text, halone]
    rfl
  · simp [RunResult.isOk, hvalue]

/-! ### The functions are right -/

section Right

variable {m m' : Machine} {base : ScopeId} {table : ObjectId} {depth : Nat}

/-- A call of the function with this name, the values of whose arguments have been found on the way to
`m'`, has such a value. It changes no scope and prints nothing, and every name stands for what it did,
an array for one with the same elements. -/
def Answers (m : Machine) (base : ScopeId) (table : ObjectId) (depth : Nat) (name : String)
    (arguments : List Value) (m' : Machine) (good : Value → Prop) (short : Prop) : Prop :=
  ∀ (token : Token) (callee : Ident) (es : List Expr), callee.name = name →
    Expr.Valued (.ofTable table depth) base es m arguments m' →
      Ensures ((Expr.call token (.identifier callee) es).eval (.ofTable table depth) base) m
        (fun value m'' => good value ∧ m'.Quiet m'' ∧
          ∀ scope name old, m'.lookup scope name = some old → m''.lookup scope name = some old)
        fun _ _ => short

/-- Of two words, the value gives what the operation makes of them and prints nothing. So it is from
`m` on, unless no more than `need` calls may be nested. -/
def Computes (table : ObjectId) (m : Machine) (f : Value)
    (operation : BitVec 64 → BitVec 64 → BitVec 64) (need : ℕ∞) : Prop :=
  ∀ (m' : Machine) (depth : Nat) (a b : BitVec 64), m.Quiet m' →
    Ensures (applyValue table depth f [.ofWord a, .ofWord b]) m'
      (fun value m'' => value = .ofWord (operation a b) ∧ m''.output = m'.output)
      fun _ _ => (depth : ℕ∞) ≤ need

/-- The functions do with arrays of words what they are meant to, and no more, unless too few calls
may be nested for the length of the array. -/
structure Right (m : Machine) (base : ScopeId) : Prop where
  /-- `map` with `double` gives the array of the words twice as large, wrapped around -/
  mapped : ∃ double, m.lookup base "double" = some double ∧ double.isError = false ∧
    ∀ (table : ObjectId) (depth : Nat) (id : ObjectId) (xs : List (BitVec 64)) (m' : Machine),
      Answers m base table depth "map" [.array id (xs.map .ofWord), double] m'
        (fun value => ∃ id', value = .array id' (xs.map fun x => .integer (Word.wrap (2 * x.toInt))))
        (depth ≤ xs.length + 1)
  /-- `sum` gives the sum of the words, wrapped around -/
  summed : ∀ (table : ObjectId) (depth : Nat) (id : ObjectId) (xs : List (BitVec 64)) (m' : Machine),
    Answers m base table depth "sum" [.array id (xs.map .ofWord)] m'
      (· = .integer (Word.wrap (xs.map BitVec.toInt).sum)) (depth ≤ xs.length + 2)
  /-- `reduce` folds the words from the left with any operation that a function computes -/
  reduced : ∀ (table : ObjectId) (depth : Nat) (id : ObjectId) (xs : List (BitVec 64))
    (initial : BitVec 64) (f : Value) (operation : BitVec 64 → BitVec 64 → BitVec 64) (need : ℕ∞)
    (m' : Machine), Computes table m' f operation need →
      Answers m base table depth "reduce" [.array id (xs.map .ofWord), .ofWord initial, f] m'
        (· = .ofWord (xs.foldl operation initial)) ((depth : ℕ∞) ≤ xs.length + 1 + need)

/-- What is got of a function when it is applied is what a call of it has for its value. -/
theorem answers_of_gets {frames : List (Dict String Value)} {name : String} {f : Value}
    {arguments : List Value} {good : Value → Prop} {short : Prop} (hsees : m.Sees base frames)
    (hname : seen? frames name = some f) (hf : f.isError = false)
    (h : m'.Sees base frames → (∀ value ∈ arguments, value.isError = false) →
      m'.Gets (applyValue table depth f arguments) good short) :
    Answers m base table depth name arguments m' good short := by
  rintro token callee es rfl hes
  obtain ⟨hkept, hproper⟩ := hes.kept
  have hget : (get : Eval Machine).run m = .ok m m := rfl
  have hcallee : ((Expr.identifier callee).eval (.ofTable table depth) base).run m = .ok f m := by
    rw [Expr.eval, evalName, run_bind_of_ok hget, hsees.lookup, hname]
    rfl
  rw [Expr.eval]
  refine (ensures_congr ((run_bind_of_operand hcallee hf).trans (run_bind_of_ok hes.run))).2 ?_
  exact Ensures.mono (h (hsees.kept hkept) hproper)
    (fun _ _ h => ⟨h.2, h.1, fun _ _ _ => h.1.kept.lookup⟩) fun _ _ h => h

/-- What a function computes is got of it: like every call, it changes no scope. -/
theorem Computes.gets {f : Value} {operation : BitVec 64 → BitVec 64 → BitVec 64} {need : ℕ∞}
    (h : Computes table m f operation need) (hquiet : m.Quiet m') (d : Nat) (a b : BitVec 64) :
    m'.Gets (applyValue table d f [.ofWord a, .ofWord b]) (· = .ofWord (operation a b))
      ((d : ℕ∞) ≤ need) := by
  -- that no scope changes is not asked of `f`: no call changes one
  have hkept := (invariant_kept m').keeps_call table d f [.ofWord a, .ofWord b] m'
    ⟨Nat.le_refl _, fun _ _ => rfl⟩
  exact (hkept.and (h m' d a b hquiet)).mono
    (fun _ _ ⟨⟨_, hscopes⟩, hvalue, houtput⟩ => ⟨⟨hscopes, houtput⟩, hvalue⟩) fun _ _ h => h.2

/-- In a top-level scope that binds the functions, and nothing to the names of built-in functions,
the functions are right. -/
theorem right_of_bound {bindings : Dict String Value}
    (hbase : m.scopes[base]? = some ⟨bindings, none⟩)
    (hbound : ∀ d ∈ functions, ∃ id, bindings.find? d.name = some (d.value id base))
    (hunbound : ∀ b : Builtin, bindings.find? b.name = none) : Right m base := by
  have hsees : m.Sees base [bindings] := Machine.sees_of_top hbase
  have hseen : ∀ d ∈ functions, ∃ id, seen? [bindings] d.name = some (d.value id base) := by
    intro d hd
    obtain ⟨id, hid⟩ := hbound d hd
    exact ⟨id, by rw [seen?, hid]; rfl⟩
  have hbuiltin : ∀ b : Builtin, seen? [bindings] b.name = none := fun b =>
    seen?_cons_eq_none (hunbound b) rfl
  obtain ⟨mapId, hmap⟩ := hseen _ (.head _)
  obtain ⟨reduceId, hreduce⟩ := hseen _ (.tail _ (.head _))
  obtain ⟨doubleId, hdoubles⟩ := hseen _ (.tail _ (.tail _ (.head _)))
  obtain ⟨sumId, hsum⟩ := hseen _ (.tail _ (.tail _ (.tail _ (.head _))))
  constructor
  · refine ⟨_, (hsees.lookup _).trans hdoubles, rfl, fun table depth id xs m' => ?_⟩
    refine answers_of_gets hsees hmap rfl fun hsees' _ => ?_
    have hdoubled : ∀ m'', m'.Quiet m'' → ∀ d x, m''.Gets
        (applyValue table d (closure 22 ["x"] doubleBody doubleId base) [.ofWord x])
        (· = .integer (Word.wrap (2 * x.toInt))) ((d : ℕ∞) ≤ 0) := fun m'' hquiet d x =>
      gets_double (hsees'.kept hquiet.kept)
    exact (gets_map hsees' hbuiltin rfl (fun _ => rfl) hdoubled).mono (fun _ h => h) le_of_cast_le
  · intro table depth id xs m'
    exact answers_of_gets hsees hsum rfl fun hsees' _ => gets_sum hsees' hbuiltin hreduce
  · intro table depth id xs initial f operation need m' hcomputes
    refine answers_of_gets hsees hreduce rfl fun hsees' hproper => ?_
    have hf : f.isError = false := hproper f (.tail _ (.tail _ (.head _)))
    exact gets_reduce hsees' hbuiltin hf fun m'' hquiet => hcomputes.gets hquiet

/-- A function that returns the value of an operator between its two parameters computes it. -/
theorem computes_operation (op : Operation) {operation : BitVec 64 → BitVec 64 → BitVec 64}
    (hop : ∀ x y, op.words x y = some (operation x y)) {a b : String} (hab : a ≠ b)
    (hbase : base < m.scopes.size) {line : Nat} {token : Token} {id : ObjectId} :
    Computes table m (closure line [a, b]
      [returning line (.binary token (named line a) op.symbol (named line b))] id base)
      operation 0 := by
  intro m' depth x y hquiet
  have hsees : m'.Sees base _ := Machine.Sees.kept ⟨hbase, rfl⟩ hquiet.kept
  exact Ensures.mono (gets_operation op hop hab x y hsees) (fun _ _ h => ⟨h.2, h.1.output⟩)
    fun _ _ h => h

/-- Names that are bound in order are found, if no two are the same. -/
theorem Bind.find? {scope : ScopeId} {bindings : Dict String Value} {ds : List Declared}
    (h : Bind scope bindings ds) (hnames : (ds.map Declared.name).Nodup) :
    ∀ d ∈ ds, ∃ id, bindings.find? d.name = some (d.value id scope) := by
  induction h with
  | nil => exact nofun
  | @cons binding d bindings ds hbinding _ ih =>
    obtain ⟨id, rfl⟩ := hbinding
    rw [List.map_cons, List.nodup_cons] at hnames
    refine List.forall_mem_cons.2 ⟨⟨id, if_pos rfl⟩, fun d' hd' => ?_⟩
    have hne : d.name ≠ d'.name := fun he => hnames.1 (he ▸ List.mem_map_of_mem hd')
    obtain ⟨id', hid'⟩ := ih hnames.2 d' hd'
    exact ⟨id', (if_neg hne).trans hid'⟩

theorem Bind.find?_eq_none {scope : ScopeId} {bindings : Dict String Value} {ds : List Declared}
    (h : Bind scope bindings ds) {name : String} (hname : name ∉ ds.map Declared.name) :
    bindings.find? name = none := by
  induction h with
  | nil => rfl
  | @cons binding d bindings ds hbinding _ ih =>
    obtain ⟨id, rfl⟩ := hbinding
    rw [List.map_cons, List.mem_cons, not_or] at hname
    exact (if_neg (Ne.symm hname.1)).trans (ih hname.2)

/-- On any machine and with any limit, the text runs to its end in a new top-level scope; it changes
no other scope and prints nothing. From then on its functions on arrays are right, whatever else is
evaluated, as long as nothing in that scope gets the name of a built-in function. -/
theorem functions_on_arrays_are_right (m : Machine) (limit : Nat) : ∃ result m₁,
    (runAlone limit text).run m = .ok result m₁ ∧ result.isOk ∧ m.Quiet m₁ ∧
      Right m₁ m.scopes.size ∧
      ∀ m', m₁.Extends m' → (∀ b : Builtin, m'.lookupLocal m.scopes.size b.name = none) →
        Right m' m.scopes.size := by
  obtain ⟨result, m₁, bindings, hrun, hok, houtput, hscopes, hbind⟩ := run_text m limit
  have hbase : m₁.scopes[m.scopes.size]? = some ⟨bindings, none⟩ := by
    rw [hscopes, Array.getElem?_push_size]
  -- later declarations come behind those of the text, and hide none of them
  have hlater : ∀ m', m₁.Extends m' → (∀ b : Builtin, m'.lookupLocal m.scopes.size b.name = none) →
      Right m' m.scopes.size := by
    intro m' hextends hunbound
    obtain ⟨added, hbase'⟩ := hextends _ _ hbase
    refine right_of_bound hbase' (fun d hd => ?_) fun b => ?_
    · obtain ⟨id, hid⟩ := hbind.find? (by decide) d hd
      exact ⟨id, Dict.find?_append_of_eq_some hid added⟩
    · have hb := hunbound b
      rwa [Machine.lookupLocal, hbase'] at hb
  refine ⟨result, m₁, hrun, hok, Machine.quiet_of_push hscopes houtput, ?_, hlater⟩
  refine hlater m₁ (.refl m₁) fun b => ?_
  rw [Machine.lookupLocal, hbase]
  exact hbind.find?_eq_none (by cases b <;> decide)

/-- The function that subtracts, `fun(a, b) { return a - b; }`. -/
def subtractBody : List Stmt :=
  [returning 1 (.binary ⟨.minus, "-", 1⟩ (named 1 "a") "-" (named 1 "b"))]

/-- The arguments in `reduce([10, 3], 20, fun(a, b) { return a - b; })`. -/
def subtracting : List Expr :=
  [.array ⟨.leftBracket, "[", 1⟩
    [.integer ⟨.integer, "10", 1⟩ 10, .integer ⟨.integer, "3", 1⟩ 3],
   .integer ⟨.integer, "20", 1⟩ 20, function 1 ["a", "b"] subtractBody]

theorem valued_subtracting (table : ObjectId) (depth : Nat) (base : ScopeId) (m : Machine) :
    ∃ m', m'.scopes = m.scopes ∧ m'.output = m.output ∧
      Expr.Valued (.ofTable table depth) base subtracting m
        [.array m.supply ([10, 3].map .ofWord), .ofWord 20,
          closure 1 ["a", "b"] subtractBody (m.supply + 1) base] m' := by
  have hinteger : ∀ (token : Token) (n : Int) (m' : Machine),
      ((Expr.integer token n).eval (.ofTable table depth) base).run m' = .ok (.integer n) m' := by
    intro token n m'
    rw [Expr.eval]
    rfl
  have hwords : Expr.Valued (.ofTable table depth) base
      [.integer ⟨.integer, "10", 1⟩ 10, .integer ⟨.integer, "3", 1⟩ 3] m
      ([10, 3].map .ofWord) m := .cons (hinteger _ _ m) rfl (.cons (hinteger _ _ m) rfl .nil)
  refine ⟨⟨m.scopes, m.supply + 1 + 1, m.output⟩, rfl, rfl,
    .cons ?_ rfl (.cons (hinteger _ _ ⟨m.scopes, m.supply + 1, m.output⟩) rfl (.cons ?_ rfl .nil))⟩
  · rw [Expr.eval, run_bind_of_ok hwords.run]
    rfl
  · rw [function, Expr.eval]
    rfl

theorem functions_on_arrays_are_right_of_difference : ∃ result m₁ m₂,
    (runAlone callLimit text).run .initial = .ok result m₁ ∧
      ((calling 1 "reduce" subtracting).eval (.ofTable 0 callLimit) 0).run m₁ =
        .ok (.integer 7) m₂ ∧ m₂.output = "" := by
  obtain ⟨result, m₁, hrun, -, hquiet, hright, -⟩ :=
    functions_on_arrays_are_right .initial callLimit
  obtain ⟨m', hscopes, houtput, hvalued⟩ := valued_subtracting 0 callLimit 0 m₁
  have hcomputes : Computes 0 m' (closure 1 ["a", "b"] subtractBody (m₁.supply + 1) 0)
      (· - ·) 0 := by
    obtain ⟨double, hdouble, -⟩ := hright.mapped
    refine computes_operation .difference (fun _ _ => rfl) (by decide) ?_
    rw [hscopes]
    exact Machine.lt_of_lookup hdouble
  have hreduced := hright.reduced 0 callLimit _ [10, 3] 20 _ _ _ m' hcomputes
    ⟨.leftParen, "(", 1⟩ (ident 1 "reduce") subtracting rfl hvalued
  cases hcall : ((calling 1 "reduce" subtracting).eval (.ofTable 0 callLimit) 0).run m₁ with
  | ok value m₂ =>
    obtain ⟨rfl, hquiet', -⟩ := hreduced.of_ok hcall
    refine ⟨result, m₁, m₂, hrun, hcall, ?_⟩
    rw [hquiet'.output, houtput, hquiet.output]
    rfl
  | error overflow m₂ =>
    exact absurd (hreduced.of_error hcall) (by decide)

end Right

end HigherOrder

end MonkeyLang
