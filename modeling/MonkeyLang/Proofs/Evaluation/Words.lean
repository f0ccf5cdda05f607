import MonkeyLang.Proofs.Evaluation.Pipeline
import MonkeyLang.Proofs.Evaluation.Standard

/-!
# Integers are 64-bit words

Integers come from literals, which the parser keeps below `2^63`; from operators, which wrap their
results; and from `len`, which does not. So every integer that comes up in a run is a signed 64-bit
word, as long as no text and no array is longer than that. In this range the hash key of an integer
tells it apart from every other one.

What comes up in a run is what one of its jobs shows (`Event.Shows`): the values bound on the machine
before and behind the job, those that the job was given, its result, and all their parts.
-/

namespace MonkeyLang

namespace Word

/-- The range of signed 64-bit integers. -/
def InRange (n : Int) : Prop := -0x8000000000000000 ≤ n ∧ n ≤ 0x7fffffffffffffff

theorem inRange_wrap (n : Int) : InRange (wrap n) := by
  unfold InRange wrap
  dsimp only
  omega

/-- In the range, a word stands for one integer only. -/
theorem ofInt_inj {a b : Int} (ha : InRange a) (hb : InRange b) : ofInt a = ofInt b ↔ a = b := by
  constructor
  · intro h
    have hwords := congrArg UInt64.toNat h
    simp [ofInt, UInt64.ofInt] at hwords
    unfold InRange at ha hb
    omega
  · rintro rfl
    rfl

end Word

/-- Two integers in the range have the same hash key exactly when they are equal. -/
theorem Value.hashKey_eq_iff {a b : Int} (ha : Word.InRange a) (hb : Word.InRange b) :
    (integer a).hashKey? = (integer b).hashKey? ↔
      binary "==" (integer a) (integer b) = .ok (boolean true) := by
  have hequal : binary "==" (integer a) (integer b) = .ok (boolean (a = b)) := by
    simp [binary, integerBinary, Value.type]
  rw [hequal]
  simp [hashKey?, Word.ofInt_inj ha hb]

/-! ### The standard -/

/-- The value is no integer out of range, and if it is a function, no literal in its body is. -/
structure Value.Small (value : Value) : Prop where
  integer : ∀ n, value = .integer n → Word.InRange n
  body : ∀ id parameters body scope, value = .function id parameters body scope →
    ∀ st ∈ body.statements, (Node.statement st).Built

namespace Value

theorem small_integer {n : Int} (h : Word.InRange n) : Small (integer n) where
  integer := by
    rintro _ ⟨⟩
    exact h
  body := by
    intro _ _ _ _ hfunction
    cases hfunction

theorem small_literal {token : Token} {n : Int}
    (h : (Node.expression (.integer token n)).Built) : Small (integer n) := by
  have hrange := Node.isBuilt_integer.1 h.isBuilt
  refine small_integer ⟨?_, ?_⟩
  · omega
  · simp only [Parsing.maxInteger] at hrange
    omega

theorem small_function {token : Token} {parameters : List Ident} {body : Block}
    (h : (Node.expression (.function token parameters body)).Built) (id : ObjectId)
    (scope : ScopeId) : Small (function id parameters body scope) where
  integer := by
    intro _ hinteger
    cases hinteger
  body := by
    rintro _ _ _ _ ⟨⟩ st hst
    exact h.child (Node.mem_within hst)

theorem small_other {value : Value} (hinteger : value.type ≠ .integer)
    (hfunction : value.type ≠ .function) : Small value where
  integer := by
    rintro n rfl
    exact absurd rfl hinteger
  body := by
    rintro id parameters body scope rfl
    exact absurd rfl hfunction

end Value

/-- Literals as the parser builds them, and integers in the range. -/
def Standard.words : Standard where
  Fits := Node.Built
  Fine := Value.Small
  fits_child := Node.Built.child
  fine_literal := Value.small_literal
  fine_wrap := fun n => Value.small_integer (Word.inRange_wrap n)
  fine_function := Value.small_function
  fits_body := fun h => h.body _ _ _ _ rfl
  fine_other := Value.small_other

namespace Event

variable {table : ObjectId} {event event' : Event}

/-- The numbers that calls of `len` give while the job is done are below `2^63`. -/
def Short (table : ObjectId) (event : Event) : Prop :=
  ∀ e, event.Reaches table e → ∀ t arguments n m, e.job = .call (.builtin t .len) arguments →
    e.result table = .ok (.integer n) m → n < 0x8000000000000000

/-- The number that `len` gives is a natural one. -/
theorem nonneg_of_len {t : ObjectId} {arguments : List Value} {n : Int} {m : Machine}
    (hjob : event.job = .call (.builtin t .len) arguments)
    (hresult : event.result table = .ok (.integer n) m) : 0 ≤ n := by
  unfold Event.result at hresult
  rw [hjob, Job.run, applyValue_builtin] at hresult
  cases arguments with
  | nil => cases hresult
  | cons value others =>
    cases others with
    | cons => cases hresult
    | nil =>
      cases value with
      | text | array =>
        cases hresult
        exact Int.natCast_nonneg _
      | _ => cases hresult

theorem Short.measured (h : event.Short table) :
    ∀ e, event.Reaches table e → Standard.words.Measured table e := by
  intro e he t arguments n m hjob hresult
  have hlt := h e he t arguments n m hjob hresult
  have hle := nonneg_of_len hjob hresult
  exact Value.small_integer ⟨by omega, by omega⟩

/-- A value that is there when the job is given out, or when it is done. -/
inductive Handles (table : ObjectId) (event : Event) : Value → Prop
  /-- it is bound at the start -/
  | bound {id : ScopeId} {scope : Scope} {name : String} {value : Value} :
      event.machine.scopes[id]? = some scope → (name, value) ∈ scope.bindings →
        Handles table event value
  /-- it is bound at the end, also if too many calls are nested -/
  | left {m : Machine} {id : ScopeId} {scope : Scope} {name : String} {value : Value} :
      Leaves (event.job.run table event.depth) event.machine m → m.scopes[id]? = some scope →
        (name, value) ∈ scope.bindings → Handles table event value
  | result {value : Value} {m : Machine} :
      event.result table = .ok value m → Handles table event value
  /-- it is called -/
  | function {value : Value} {arguments : List Value} : event.job = .call value arguments →
      Handles table event value
  /-- it is an argument of a call -/
  | argument {function value : Value} {arguments : List Value} :
      event.job = .call function arguments → value ∈ arguments → Handles table event value

/-- A value that is there, or stored in one that is there. -/
def Shows (table : ObjectId) (event : Event) (value : Value) : Prop :=
  ∃ holder, event.Handles table holder ∧ value ∈ holder.parts

/-- What a job handles that keeps to a standard is sound. -/
theorem Handles.sound {S : Standard} {value : Value} (h : event.Handles table value)
    (hready : S.Ready event.job event.machine) (hdoes : S.Does table event) : S.Sound value := by
  cases h with
  | bound hscope hentry => exact hready.1 _ _ hscope _ hentry
  | left hleaves hscope hentry =>
    have hend := Ensures.mono hdoes (fun _ _ h => h.1) fun _ _ h => h
    exact hend.of_leaves hleaves _ _ hscope _ hentry
  | result hresult => exact (Ensures.of_ok hdoes hresult).2
  | function hjob =>
    rw [hjob] at hready
    exact hready.2.1
  | argument hjob hvalue =>
    rw [hjob] at hready
    exact hready.2.2 _ hvalue

/-- Where all lengths are below `2^63`, all integers are in the range. -/
theorem Short.inRange (h : event.Short table)
    (hready : Standard.words.Ready event.job event.machine) (he : event.Reaches table event')
    {n : Int} (hn : event'.Shows table (.integer n)) : Word.InRange n := by
  obtain ⟨holder, hholder, hpart⟩ := hn
  have hsound := hholder.sound (he.ready hready h.measured) (he.does hready h.measured)
  exact (hsound _ hpart).integer n rfl

/-- The evaluation of a program by a run: it has a new table of built-in functions. -/
def ofRun (m : Machine) (limit : Nat) (scope : ScopeId) (program : Program) : Event :=
  ⟨limit, .program scope program, { m with supply := m.supply + 1 }⟩

end Event

/-! ### Runs of source texts -/

/-- The machines on which source texts have been run, from a fresh one on, with all lengths below
`2^63`. -/
inductive ShortSourced : Machine → Prop
  | initial : ShortSourced .initial
  | scope {m : Machine} (outer : Option ScopeId) : ShortSourced m →
      ShortSourced { m with scopes := m.scopes.push ⟨[], outer⟩ }
  | output {m : Machine} (text : String) : ShortSourced m →
      ShortSourced { m with output := text }
  | run {m m' : Machine} (limit : Nat) {scope : ScopeId} (source : String) : ShortSourced m →
      scope < m.scopes.size →
      (∀ program, parse source = .ok ⟨program, []⟩ →
        (Event.ofRun m limit scope program).Short m.supply) →
      Leaves (run limit scope source) m m' → ShortSourced m'

section Runs

variable {m : Machine} {limit : Nat} {scope : ScopeId} {source : String} {program : Program}

theorem ready_ofRun (hm : Standard.words.Holds m) (hscope : scope < m.scopes.size)
    (hparse : parse source = .ok ⟨program, []⟩) :
    Standard.words.Ready (.program scope program) { m with supply := m.supply + 1 } :=
  ⟨hm, built_of_parse hparse, hscope⟩

theorem ShortSourced.holds (h : ShortSourced m) : Standard.words.Holds m := by
  induction h with
  | initial => exact Machine.Holds.initial
  | scope outer _ ih => exact Machine.Holds.push ih outer
  | output _ _ ih => exact ih
  | @run m m' limit scope source _ hscope hshort hrun ih =>
    by_cases hparse : ∃ program, parse source = .ok ⟨program, []⟩
    · obtain ⟨program, hparse⟩ := hparse
      have hdoes : Standard.words.Does m.supply (.ofRun m limit scope program) :=
        Standard.does (ready_ofRun ih hscope hparse) (hshort program hparse).measured
      have hholds : Ensures (MonkeyLang.run limit scope source) m
          (fun _ m' => Standard.words.Holds m') fun _ m' => Standard.words.Holds m' :=
        ensures_run hparse (Ensures.mono hdoes (fun _ _ h => h.1) fun _ _ h => h)
      exact hholds.of_leaves hrun
    · have hbroken : ∀ program, parse source ≠ .ok ⟨program, []⟩ := fun program h =>
        hparse ⟨program, h⟩
      have hsame : m' = m := (ensures_run_of_broken hbroken).of_leaves hrun
      rwa [hsame]

/-- All integers that come up in the run of a program are 64-bit words. -/
structure WordRun (m : Machine) (limit : Nat) (scope : ScopeId) (source : String)
    (program : Program) : Prop where
  /-- the run is the job that the events come from -/
  run_eq : (run limit scope source).run m =
    runOutcome program ((Event.ofRun m limit scope program).result m.supply)
  inRange : ∀ e, (Event.ofRun m limit scope program).Reaches m.supply e → ∀ n,
    e.Shows m.supply (.integer n) → Word.InRange n
  /-- so two of them have the same hash key exactly when they are equal -/
  hashKey : ∀ e e', (Event.ofRun m limit scope program).Reaches m.supply e →
    (Event.ofRun m limit scope program).Reaches m.supply e' → ∀ a b,
      e.Shows m.supply (.integer a) → e'.Shows m.supply (.integer b) →
        ((Value.integer a).hashKey? = (Value.integer b).hashKey? ↔
          Value.binary "==" (.integer a) (.integer b) = .ok (.boolean true))

/-- A source text that parses without an error runs on 64-bit words, if it takes no length of `2^63`
or more, on a machine on which only such texts have been run. -/
theorem integers_in_range (hm : ShortSourced m) (hscope : scope < m.scopes.size)
    (hparse : parse source = .ok ⟨program, []⟩)
    (hshort : (Event.ofRun m limit scope program).Short m.supply) :
    WordRun m limit scope source program := by
  have hready := ready_ofRun hm.holds hscope hparse
  refine ⟨run_of_parse hparse, ?_, ?_⟩
  · intro e he n hn
    exact hshort.inRange hready he hn
  · intro e e' he he' a b ha hb
    exact Value.hashKey_eq_iff (hshort.inRange hready he ha) (hshort.inRange hready he' hb)

end Runs

/-! ### Checking a run -/

namespace Event

/-- Whether the job is no call of `len`, or one that gives a number below `2^63`. -/
def isShort (table : ObjectId) (event : Event) : Bool :=
  match event.job with
  | .call (.builtin _ .len) _ =>
    match event.result table with
    | .ok (.integer n) _ => n < 0x8000000000000000
    | _ => true
  | _ => true

/-- Whether this holds of all jobs that come up, if they are nested in each other fewer than `fuel`
times. -/
def allShort (table : ObjectId) : (fuel : Nat) → Event → Bool
  | 0, _ => false
  | fuel + 1, event =>
    event.isShort table && (event.begun table).all (allShort table fuel)

theorem isShort_of_reaches {table : ObjectId} {fuel : Nat} {event event' : Event}
    (h : event.allShort table fuel) (hreaches : event.Reaches table event') :
    event'.isShort table := by
  induction hreaches generalizing fuel with
  | refl =>
    cases fuel with
    | zero => cases h
    | succ fuel =>
      simp only [allShort, Bool.and_eq_true] at h
      exact h.1
  | step hbegun _ ih =>
    cases fuel with
    | zero => cases h
    | succ fuel =>
      simp only [allShort, Bool.and_eq_true, List.all_eq_true] at h
      exact ih (h.2 _ hbegun)

/-- Whether a run is short can be computed. -/
theorem short_of_allShort {table : ObjectId} {fuel : Nat} {event : Event}
    (h : event.allShort table fuel) : event.Short table := by
  intro e he t arguments n m hjob hresult
  have hshort := isShort_of_reaches h he
  unfold isShort at hshort
  rw [hjob] at hshort
  simpa only [hresult, decide_eq_true_eq] using hshort

end Event

/-- Whether a source text is accepted, with a tree that passes a check, can be computed. -/
theorem exists_of_checked (source : String) (check : Program → Bool)
    (h : (parse source).toOption.any fun parsed => parsed.errors.isEmpty && check parsed.program) :
    ∃ program, parse source = .ok ⟨program, []⟩ ∧ check program := by
  cases hparse : parse source with
  | error halt =>
    rw [hparse] at h
    cases h
  | ok parsed =>
    obtain ⟨program, errors⟩ := parsed
    simp only [hparse, Except.toOption, Option.any_some, Bool.and_eq_true,
      List.isEmpty_iff] at h
    obtain ⟨rfl, hcheck⟩ := h
    exact ⟨program, rfl, hcheck⟩

/-- A length that is multiplied with the largest number, in a function. -/
theorem integers_in_range_of_len : ∃ program,
    parse "var f = fun(a) \x7b return -len(a) * 9223372036854775807; \x7d; f([1, 2]) - len(\"a\");" =
      .ok ⟨program, []⟩ ∧
    WordRun ⟨#[⟨[], none⟩], 0, ""⟩ 10 0
      "var f = fun(a) \x7b return -len(a) * 9223372036854775807; \x7d; f([1, 2]) - len(\"a\");"
      program := by
  obtain ⟨program, hparse, hshort⟩ := exists_of_checked
    "var f = fun(a) \x7b return -len(a) * 9223372036854775807; \x7d; f([1, 2]) - len(\"a\");"
    (fun program => (Event.ofRun ⟨#[⟨[], none⟩], 0, ""⟩ 10 0 program).allShort 0 20)
    (by decide +kernel)
  exact ⟨program, hparse, integers_in_range (.scope none .initial) (by decide) hparse
    (Event.short_of_allShort hshort)⟩

end MonkeyLang
