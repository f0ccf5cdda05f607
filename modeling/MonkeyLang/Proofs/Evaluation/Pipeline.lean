import MonkeyLang.Proofs.Evaluation.History
import MonkeyLang.Proofs.Evaluation.Policy
import MonkeyLang.Proofs.Parsing.Whole
import MonkeyLang.Run

/-!
# From source text to value

A source text that parses without an error is a tree without holes, and a tree without holes is
evaluated without a fault of its form: the policy `Policy.whole` puts the two together. It is kept by
every run of a source text, so it holds on every machine that is `Sourced`.

What evaluation handles on the way is genuine on every machine whose bindings are
(`Machine.Genuine.clean`). A run only ever adds bindings, so the bindings at each of its moments are
among those at its end. No value stands for a missing one, so a run without syntax errors always has
a value, or stops.
-/

namespace MonkeyLang

/-! ### Messages -/

/-- Whether the fault can come up in a program without holes. -/
def Fault.arises : Fault → Bool
  | .incompleteProgram | .unknownNode _ | .custom _ => false
  | _ => true

/-- The message is about a node that has no meaning. -/
def BlamesNode (message : String) : Prop :=
  message = "cannot evaluate an incomplete program" ∨ "unknown node: ".toList <+: message.toList

section Messages

variable {l : List Char} {s t : String}

theorem prefix_ofList : l <+: (String.ofList l).toList := by
  simp only [String.toList_ofList, List.prefix_rfl]

theorem prefix_append (h : l <+: s.toList) : l <+: (s ++ t).toList := by
  rw [String.toList_append]
  exact h.trans (List.prefix_append _ _)

/-- A message that begins otherwise. -/
theorem not_blamesNode (h : l <+: s.toList)
    (hmissing : ¬ l <+: "cannot evaluate an incomplete program".toList)
    (hunknown : ¬ l <+: "unknown node: ".toList ∧ ¬ "unknown node: ".toList <+: l) :
    ¬ BlamesNode s := by
  rintro (rfl | hprefix)
  · exact hmissing h
  · rcases List.prefix_or_prefix_of_prefix h hprefix with h | h
    · exact hunknown.1 h
    · exact hunknown.2 h

/-- Only a hole in the program is reported as one. -/
theorem Fault.message_of_arises {fault : Fault} (h : fault.arises) : ¬ BlamesNode fault.message := by
  -- every message begins with a text of its own, whatever it quotes behind that
  cases fault with
  | incompleteProgram | unknownNode | custom => cases h
  | returnOutsideFunction | divisionByZero | missingReturn | indexOutOfBounds =>
    exact not_blamesNode prefix_ofList (by decide) (by decide)
  | conditionNotBoolean | negationNotBoolean | unknownIdentifier | notAFunction
  | lengthUnsupported =>
    exact not_blamesNode (prefix_append prefix_ofList) (by decide) (by decide)
  | unknownUnary =>
    exact not_blamesNode (prefix_append (prefix_append prefix_ofList)) (by decide) (by decide)
  | argumentCount | builtinArgumentCount | arrayExpected =>
    exact not_blamesNode (prefix_append (prefix_append (prefix_append prefix_ofList)))
      (by decide) (by decide)
  | redeclared | indexUnsupported | missingKey =>
    exact not_blamesNode
      (prefix_append (prefix_append (prefix_append (prefix_append prefix_ofList))))
      (by decide) (by decide)
  | typeMismatch | unknownBinary =>
    exact not_blamesNode
      (prefix_append (prefix_append (prefix_append (prefix_append (prefix_append prefix_ofList)))))
      (by decide) (by decide)
  | unhashableKey found =>
    cases found <;> exact not_blamesNode (prefix_append prefix_ofList) (by decide) (by decide)

end Messages

/-! ### The policy of whole programs -/

/-- The value is no exit, and if it is a function, its body has no holes. -/
def Value.Whole (value : Value) : Prop :=
  value.isExit = false ∧ ∀ id parameters body scope, value = .function id parameters body scope →
    ∀ st ∈ body.statements, (Node.statement st).Whole

/-- Nodes without holes are evaluated, and no fault is about a hole. -/
def Policy.whole : Policy where
  Fits := Node.Whole
  Fine := Value.Whole
  Allowed := fun fault => fault.arises
  fits_child := Node.Whole.child
  fine_genuine := fun h => h.1
  fine_plain := by constructor <;> intros <;> exact ⟨rfl, nofun⟩
  fine_function := fun h id scope => ⟨rfl, fun _ _ _ _ hfunction st hst => by
    cases hfunction
    exact h.child (List.mem_map.2 ⟨st, hst, rfl⟩)⟩
  fits_body := fun h => h.2 _ _ _ _ rfl
  data := fun fault h => by cases fault <;> first | rfl | cases h
  missing := fun h => absurd rfl h.ne_missing
  unknownExpr := fun h => nomatch h.isConstruct
  unknownStmt := fun h => nomatch h.isConstruct
  finishes := fun _ _ => rfl

/-! ### Runs of source texts -/

/-- How a run ends, from how the evaluation in it ends. -/
def runOutcome (program : Program) :
    EStateM.Result Overflow Machine Value → EStateM.Result Interruption Machine RunResult
  | .ok value m => .ok ⟨program, [], some value⟩ m
  | .error overflow m => .error (.overflowed overflow) m

section Runs

variable {m : Machine} {limit : Nat} {scope : ScopeId} {source : String} {program : Program}

/-- A source text without syntax errors is evaluated with a new table of built-in functions. -/
theorem run_of_parse (h : parse source = .ok ⟨program, []⟩) :
    (run limit scope source).run m = runOutcome program
      ((program.eval (.ofTable m.supply limit) scope).run { m with supply := m.supply + 1 }) := by
  have hnew : (Context.new limit).run m =
      .ok (.ofTable m.supply limit) { m with supply := m.supply + 1 } := rfl
  have heval : (Context.new limit >>= fun ctx => program.eval ctx scope).run m = _ :=
    run_bind_of_ok hnew
  -- the first step takes the identity of the table
  unfold run
  rw [h]
  show EStateM.bind (EStateM.adaptExcept Interruption.overflowed
    (Context.new limit >>= fun ctx => program.eval ctx scope)) _ m = _
  unfold EStateM.bind EStateM.adaptExcept
  unfold EStateM.run at heval ⊢
  rw [heval]
  cases program.eval (.ofTable m.supply limit) scope { m with supply := m.supply + 1 } <;> rfl

theorem ensures_run {good : RunResult → Machine → Prop} {bad : Interruption → Machine → Prop}
    (h : parse source = .ok ⟨program, []⟩)
    (heval : Ensures (program.eval (.ofTable m.supply limit) scope)
      { m with supply := m.supply + 1 } (fun value m' => good ⟨program, [], some value⟩ m')
      fun overflow m' => bad (.overflowed overflow) m') :
    Ensures (run limit scope source) m good bad := by
  unfold Ensures at heval ⊢
  rw [run_of_parse h]
  cases hrun : (program.eval (.ofTable m.supply limit) scope).run { m with supply := m.supply + 1 }
    with
  | ok value m' =>
    rw [hrun] at heval
    exact heval
  | error overflow m' =>
    rw [hrun] at heval
    exact heval

/-- A source text with a syntax error or an illegal character is not evaluated. -/
theorem ensures_run_of_broken (h : ∀ program, parse source ≠ .ok ⟨program, []⟩) :
    Ensures (run limit scope source) m (fun _ m' => m' = m) fun _ m' => m' = m := by
  unfold run
  cases hparse : parse source with
  | error halt => rfl
  | ok parsed =>
    obtain ⟨program, errors⟩ := parsed
    cases errors with
    | nil => exact absurd hparse (h program)
    | cons => rfl

end Runs

/-- The machines on which source texts have been run, from a fresh one on. -/
inductive Sourced : Machine → Prop
  | initial : Sourced .initial
  | scope {m : Machine} (outer : Option ScopeId) : Sourced m →
      Sourced { m with scopes := m.scopes.push ⟨[], outer⟩ }
  | output {m : Machine} (text : String) : Sourced m → Sourced { m with output := text }
  | run {m m' : Machine} (limit : Nat) {scope : ScopeId} (source : String) : Sourced m →
      scope < m.scopes.size → Leaves (run limit scope source) m m' → Sourced m'

/-- A source text without syntax errors is evaluated by the policy of whole programs. -/
theorem ensures_whole {m : Machine} {source : String} {program : Program}
    (hm : Policy.whole.Holds m) (h : parse source = .ok ⟨program, []⟩) (table : ObjectId)
    (limit : Nat) (scope : ScopeId) :
    Ensures (program.eval (.ofTable table limit) scope) m
      (fun value m' => Policy.whole.Holds m' ∧
        (Policy.whole.Sound value ∨ ∃ id fault, value = .error id fault ∧ fault.arises))
      fun _ m' => Policy.whole.Holds m' :=
  Policy.ensures_program hm (whole_of_parse h) fun _ _ _ _ => rfl

theorem Sourced.holds {m : Machine} (h : Sourced m) : Policy.whole.Holds m := by
  induction h with
  | initial => exact Machine.Holds.initial
  | scope outer _ ih => exact Machine.Holds.push ih outer
  | output _ _ ih => exact ih
  | @run m m' limit scope source _ _ hrun ih =>
    by_cases h : ∃ program, parse source = .ok ⟨program, []⟩
    · obtain ⟨program, h⟩ := h
      have hstart : Policy.whole.Holds { m with supply := m.supply + 1 } := ih
      have heval := (ensures_whole hstart h m.supply limit scope).mono
        (fun _ _ h => h.1) fun _ _ h => h
      exact (ensures_run h heval).of_leaves hrun
    · have hbroken : ∀ program, parse source ≠ .ok ⟨program, []⟩ := fun program hparse =>
        h ⟨program, hparse⟩
      have hsame : m' = m := (ensures_run_of_broken hbroken).of_leaves hrun
      rwa [hsame]

/-! ### What evaluation handles -/

/-- The contexts do the same with genuine functions and arguments. -/
structure Context.Alike (ctx ctx' : Context) : Prop where
  table : ctx'.table = ctx.table
  call : ∀ function arguments m, m.Genuine → function.Genuine → (∀ v ∈ arguments, v.Genuine) →
    (ctx'.call function arguments).run m = (ctx.call function arguments).run m

/-- The computation has good results, and keeps the machine genuine whether it ends or stops. -/
def Machine.Yields {α : Type} (m : Machine) (x : Eval α) (good : α → Prop) : Prop :=
  Ensures x m (fun a m' => m'.Genuine ∧ good a) fun _ m' => m'.Genuine

/-- Errors and returns are nowhere but where they are made: not in the bindings of the machine, and
not among what evaluation on it handles, in whichever scope it is and however deeply calls nest. -/
structure Machine.Clean (m : Machine) : Prop where
  bindings : m.Genuine
  /-- no expression yields a return -/
  expression : ∀ table limit scope (e : Expr), m.Yields (e.eval (.ofTable table limit) scope)
    fun value => value.Genuine ∨ value.isError
  /-- the elements of arrays, and the arguments of calls -/
  row : ∀ table limit scope es, m.Yields (Expr.evalList (.ofTable table limit) scope es) fun
    | .ok values => ∀ v ∈ values, v.Genuine
    | .error error => error.isError
  /-- the keys and values of hashes -/
  pairs : ∀ table limit scope ps, m.Yields (Expr.evalPairs (.ofTable table limit) scope [] ps) fun
    | .ok entries => ∀ entry ∈ entries, entry.2.1.Genuine ∧ entry.2.2.Genuine
    | .error error => error.isError
  /-- the values of returns -/
  statement : ∀ table limit scope (st : Stmt), m.Yields (st.eval (.ofTable table limit) scope)
    fun value => value.Genuine ∨ value.isError ∨
      ∃ id payload, value = .ret id payload ∧ payload.Genuine
  /-- what calls do to other functions and arguments does not matter, as there are no such calls -/
  calls : ∀ table limit scope (st : Stmt) ctx, (Context.ofTable table limit).Alike ctx →
    (st.eval ctx scope).run m = (st.eval (.ofTable table limit) scope).run m

namespace Throwing

/-- What agrees with a computation with exceptions yields what that ends with. -/
theorem Agrees.yields {ε α β : Type} {out : Except ε β → α} {good : β → Prop} {bad : ε → Prop}
    {x : Eval α} {y : ExceptT ε Eval β} {m : Machine} {P : α → Prop}
    (h : Agrees out good bad x y m) (hok : ∀ b, good b → P (out (.ok b)))
    (herror : ∀ e, bad e → P (out (.error e))) : m.Yields x P := by
  refine h.ensures.mono (fun a m' ⟨hm', r, ha, hr⟩ => ⟨hm', ?_⟩) fun _ _ h => h
  subst ha
  cases r with
  | ok b => exact hok b hr
  | error e => exact herror e hr

/-- Contexts that do the same with genuine functions and arguments agree with the same context. -/
theorem ContextsAgree.alike {ctx ctx' : MonkeyLang.Context} {thrower : Context}
    (h : ContextsAgree ctx thrower) (halike : ctx.Alike ctx') : ContextsAgree ctx' thrower := by
  refine ⟨halike.table.trans h.table, fun f vs m hm hf hvs => ?_⟩
  have hcall := h.call f vs m hm hf hvs
  unfold AgreesValue Agrees at hcall ⊢
  rwa [halike.call f vs m hm hf hvs]

end Throwing

open Throwing

/-- Evaluation on a machine with genuine bindings handles genuine values. -/
theorem Machine.Genuine.clean {m : Machine} (hm : m.Genuine) : m.Clean where
  bindings := hm
  expression := fun table limit scope e =>
    (agrees_expression (contextsAgree_ofTable table limit) scope e hm).yields
      (fun _ => .inl) fun _ _ => .inr rfl
  row := fun table limit scope es =>
    (agrees_list (contextsAgree_ofTable table limit) scope es hm).yields
      (fun _ h => h) fun _ _ => rfl
  pairs := fun table limit scope ps =>
    (agrees_pairs (contextsAgree_ofTable table limit) scope ps hm (List.forall_mem_nil _)).yields
      (fun _ h => h) fun _ _ => rfl
  statement := fun table limit scope st => by
    refine (agrees_statement (contextsAgree_ofTable table limit) scope st hm).yields
      (fun _ => .inl) fun exit hexit => ?_
    cases exit with
    | thrown error => exact .inr (.inl rfl)
    | returned id payload => exact .inr (.inr ⟨id, payload, rfl, hexit⟩)
  calls := fun table limit scope st ctx halike => by
    have hagree := contextsAgree_ofTable table limit
    have hstatement := agrees_statement hagree scope st hm
    exact hstatement.run_eq (agrees_statement (hagree.alike halike) scope st hm)

/-! ### Moments -/

/-- Bindings that are only added to were there all along. -/
theorem Machine.Holds.of_extends {P : Value → Prop} {m m' : Machine} (h : m'.Holds P)
    (hext : m.Extends m') : m.Holds P := by
  intro id scope hscope entry hentry
  obtain ⟨added, hadded⟩ := hext id scope hscope
  exact h id _ hadded entry (List.mem_append_left added hentry)

/-- Every moment of a record is clean if the last one is genuine. -/
theorem Traced.Monotone.clean {first : Machine} {t : Traced} (h : t.Monotone first)
    (hlast : t.machine.Genuine) : ∀ m ∈ t.moments first, m.Clean := by
  intro m hm
  rcases List.mem_cons.1 hm with rfl | hearlier
  · exact hlast.clean
  · have hext : m.Extends t.machine := (List.pairwise_cons.1 h).1 m hearlier
    exact Machine.Genuine.clean (Machine.Holds.of_extends hlast hext)

/-! ### Sound runs -/

/-- The run of a source text that parses as the program is sound. -/
structure SoundRun (limit : Nat) (m : Machine) (scope : ScopeId) (source : String)
    (program : Program) : Prop where
  /-- it ends in a genuine value or an error that blames no node, or too many calls are nested -/
  result : Ensures (run limit scope source) m
    (fun result m' => m'.Clean ∧ ∃ value, result.value = some value ∧
      (value.Genuine ∨ ∃ id fault, value = .error id fault ∧ ¬ BlamesNode fault.message))
    fun interruption m' => m'.Clean ∧ ∃ overflow, interruption = .overflowed overflow
  /-- a record of it can be kept -/
  recorded : ∀ t : Traced, t.machine = { m with supply := m.supply + 1 } →
    (run limit scope source).run m = runOutcome program
      (Trace.withoutRecord ((Trace.program (.ofTable m.supply limit) scope program).run t))
  /-- at every moment of the record, errors and returns are nowhere but where they are made -/
  moments : ∀ t : Traced, t.machine = { m with supply := m.supply + 1 } → t.visits = [] →
    Ensures (Trace.program (.ofTable m.supply limit) scope program) t
      (fun _ t' => ∀ m' ∈ t'.moments t.machine, m'.Clean)
      fun _ t' => ∀ m' ∈ t'.moments t.machine, m'.Clean

/-- A source text that parses without an error runs soundly, on a machine on which nothing but
source texts has been run. -/
theorem pipeline_sound {m : Machine} (hm : Sourced m) {scope : ScopeId}
    (hscope : scope < m.scopes.size) {source : String} {program : Program}
    (hparse : parse source = .ok ⟨program, []⟩) (limit : Nat) :
    SoundRun limit m scope source program := by
  have hstart : Policy.whole.Holds { m with supply := m.supply + 1 } := hm.holds
  have heval := ensures_whole hstart hparse m.supply limit scope
  have herases := Trace.erases_program m.supply limit scope program
  refine ⟨?_, fun t ht => ?_, fun t ht hvisits => ?_⟩
  · refine ensures_run hparse (heval.mono (fun value m' ⟨hm', hvalue⟩ => ?_)
      fun overflow m' hm' => ⟨hm'.genuine.clean, overflow, rfl⟩)
    refine ⟨hm'.genuine.clean, value, rfl, ?_⟩
    rcases hvalue with hsound | ⟨id, fault, rfl, harises⟩
    · exact .inl hsound.genuine
    · exact .inr ⟨id, fault, rfl, Fault.message_of_arises harises⟩
  · rw [run_of_parse hparse, ← ht, herases t]
  · have hsize : scope < t.machine.scopes.size := by rwa [ht]
    have hmonotone := Trace.program_monotone m.supply limit program hvisits hsize
    -- the record ends as evaluation does, and earlier moments have no other bindings
    have hgenuine : Ensures (program.eval (.ofTable m.supply limit) scope) t.machine
        (fun _ m' => m'.Genuine) fun _ m' => m'.Genuine := by
      rw [ht]
      exact heval.mono (fun _ _ h => h.1.genuine) fun _ _ h => h.genuine
    exact (hmonotone.and (herases.ensures hgenuine)).mono
      (fun _ _ ⟨h, hlast⟩ => h.clean hlast) fun _ _ ⟨h, hlast⟩ => h.clean hlast

/-- Whether a source text is accepted can be computed. -/
theorem exists_of_accepted (source : String)
    (h : (parse source).toOption.any fun parsed => parsed.errors.isEmpty) :
    ∃ program, parse source = .ok ⟨program, []⟩ := by
  cases hparse : parse source with
  | error halt =>
    rw [hparse] at h
    cases h
  | ok parsed =>
    rw [hparse] at h
    obtain ⟨program, errors⟩ := parsed
    cases errors with
    | nil => exact ⟨program, rfl⟩
    | cons => cases h

/-- A function that is handed to another one, in the first scope of a session. -/
theorem pipeline_sound_of_twice : ∃ program,
    parse "var f = fun(g, x) \x7b return g(g(x)); \x7d; f(fun(n) \x7b return [n][0]; \x7d, 3);" =
      .ok ⟨program, []⟩ ∧
    SoundRun 10 ⟨#[⟨[], none⟩], 0, ""⟩ 0
      "var f = fun(g, x) \x7b return g(g(x)); \x7d; f(fun(n) \x7b return [n][0]; \x7d, 3);"
      program := by
  obtain ⟨program, hparse⟩ := exists_of_accepted
    "var f = fun(g, x) \x7b return g(g(x)); \x7d; f(fun(n) \x7b return [n][0]; \x7d, 3);"
    (by decide +kernel)
  exact ⟨program, hparse, pipeline_sound (.scope none .initial) (by decide) hparse 10⟩

end MonkeyLang
