import MonkeyLang.Proofs.Evaluation.Correspondence

/-!
# Programs do not see what was done before

A program that runs in a new top-level scope sees nothing of what else is on the machine: neither the
scopes and values that are there, nor which identities have been given out, nor which table of
built-in functions is in use. All that one sees of it, an `Observation`, is that of the same program on
a machine on which nothing has run (`Program.observe_eq`). This holds although programs compare
values by their identities: what matters is only which of them are the same, not which they are.
-/

namespace MonkeyLang

/-! ### What is seen of an evaluation -/

/-- A value as it is shown: its type and its text. -/
def Value.shown (value : Value) : ValueType × String := (value.type, value.inspect)

/-- The names bound in a scope, in the order of their declarations, with their values as they are
shown. -/
def Machine.shown (machine : Machine) (scope : ScopeId) : List (String × ValueType × String) :=
  Dict.mapValues Value.shown (((machine.scopes[scope]?).map Scope.bindings).getD [])

/-- What is seen of an evaluation in a scope of its own. -/
structure Observation where
  /-- its value as it is shown, unless too many calls were nested -/
  answer : Option (ValueType × String)
  /-- what it printed -/
  printed : List Char
  /-- what it bound in its scope -/
  bindings : List (String × ValueType × String)
deriving DecidableEq

/-- What is seen of an evaluation that was started on one machine and led to another one. -/
def Observation.between (start last : Machine) (value : Option Value) : Observation where
  answer := value.map Value.shown
  printed := last.output.toList.drop start.output.toList.length
  bindings := last.shown start.scopes.size

namespace Program

/-- Runs a program in a new top-level scope. -/
def evalAlone (ctx : Context) (program : Program) : Eval Value := do
  program.eval ctx (← Eval.newScope none)

/-- What is seen of a program that runs in a new top-level scope of the machine. -/
def observe (program : Program) (table : ObjectId) (limit : Nat) (m : Machine) : Observation :=
  match (program.evalAlone (.ofTable table limit)).run m with
  | .ok value last => .between m last (some value)
  | .error _ last => .between m last none

/-- What is seen of a program that runs many times, in a new top-level scope each time. -/
def observeTimes (program : Program) (table : ObjectId) (limit : Nat) :
    (times : Nat) → Machine → List Observation
  | 0, _ => []
  | times + 1, m =>
    program.observe table limit m ::
      match (program.evalAlone (.ofTable table limit)).run m with
      | .ok _ last | .error _ last => program.observeTimes table limit times last

end Program

/-! ### The same elsewhere -/

section Elsewhere

variable {ρ : Relocation} {m : Machine} {program : Program}

theorem Value.shown_relocate {value : Value} (h : ρ.standard.Sound value) :
    (value.relocate ρ).shown = value.shown := by
  rw [shown, shown, type_relocate, inspect_relocate h]

theorem Machine.shown_relocate (h : ρ.standard.Holds m) (s : ScopeId) :
    (m.relocate ρ).shown (ρ.scope s) = m.shown s := by
  unfold shown
  rw [getElem?_relocate]
  cases hscope : m.scopes[s]? with
  | none => rfl
  | some scope =>
    show Dict.mapValues _ (Dict.mapValues _ scope.bindings) = Dict.mapValues _ scope.bindings
    unfold Dict.mapValues
    rw [List.map_map]
    refine List.map_congr_left fun entry hentry => ?_
    exact congrArg (Prod.mk entry.1) (Value.shown_relocate (h s scope hscope entry hentry))

/-- A machine with nothing but an empty top-level scope. -/
def Machine.single : Machine := ⟨#[⟨[], none⟩], 0, ""⟩

theorem Machine.single_relocate :
    single.relocate ρ = { ρ.before with scopes := ρ.before.scopes.push ⟨[], none⟩ } := by
  simp [single, relocate, Scope.relocate, Dict.mapValues, Relocation.object]

/-- What is seen of an evaluation is the same elsewhere. -/
theorem Observation.between_relocate (value : Option Value) (hm : ρ.standard.Holds m)
    (hvalue : ∀ v ∈ value, ρ.standard.Sound v) :
    between ρ.before (m.relocate ρ) (value.map (Value.relocate ρ)) = between .initial m value := by
  have hanswer : (value.map (Value.relocate ρ)).map Value.shown = value.map Value.shown := by
    cases value with
    | none => rfl
    | some v => exact congrArg some (Value.shown_relocate (hvalue v rfl))
  have hprinted : (ρ.before.output ++ m.output).toList.drop ρ.before.output.toList.length =
      m.output.toList := by
    rw [String.toList_append, List.drop_left]
  have hbindings := Machine.shown_relocate hm 0
  unfold between
  rw [hanswer]
  exact congr (congrArg (Observation.mk _) hprinted) hbindings

/-- A program shows elsewhere what it shows on a machine on which nothing has run. -/
theorem Program.observe_relocate (table : ObjectId) (limit : Nat)
    (h : ∀ st ∈ program.statements, ρ.standard.Fits (.statement st)) :
    (program.mapLines ρ.lines).observe (ρ.table table) limit ρ.before =
      program.observe table limit .initial := by
  have hready : ρ.standard.Ready (.program 0 program) Machine.single :=
    ⟨Machine.Holds.push Machine.Holds.initial none, h, Nat.one_pos⟩
  have hrun : ((program.mapLines ρ.lines).evalAlone (.ofTable (ρ.table table) limit)).run ρ.before =
      ρ.outcome (Value.relocate ρ) ((program.evalAlone (.ofTable table limit)).run .initial) := by
    have hrelocates := Job.relocates table limit (.program 0 program) hready
    unfold Relocates at hrelocates
    rw [Machine.single_relocate] at hrelocates
    exact hrelocates
  have hdoes : ρ.standard.Does table ⟨limit, .program 0 program, Machine.single⟩ :=
    Standard.does hready fun e _ => ρ.measured e
  have hend : Ensures (program.evalAlone (.ofTable table limit)) .initial ρ.standard.Yields
      fun _ m' => ρ.standard.Holds m' := hdoes
  unfold observe
  rw [hrun]
  cases hlast : (program.evalAlone (.ofTable table limit)).run .initial with
  | ok value last =>
    obtain ⟨hm, hvalue⟩ := hend.of_ok hlast
    exact Observation.between_relocate (some value) hm fun v hv => by
      cases hv
      exact hvalue
  | error overflow last =>
    exact Observation.between_relocate none (hend.of_error hlast) nofun

end Elsewhere

/-- What is seen of a program is what is seen of it on a machine on which nothing has run. -/
theorem Program.observe_eq (program : Program) (table : ObjectId) (limit : Nat) (m : Machine) :
    program.observe table limit m = program.observe 0 limit .initial := by
  let ρ : Relocation := ⟨m, (table + ·), id, fun _ _ h => Nat.add_left_cancel h⟩
  have hfits : ∀ st ∈ program.statements, ρ.standard.Fits (.statement st) := fun _ _ => .inl rfl
  have hobserve := observe_relocate 0 limit hfits
  rwa [Program.mapLines_id] at hobserve

/-- Programs that run in new top-level scopes do not see each other. One and the same program shows
the same on any two machines, and with any two tables of built-in functions; and however often it
runs, it shows every time what it shows on a machine on which nothing has run. -/
theorem runs_independent (program : Program) (limit : Nat) :
    (∀ table table' m m', program.observe table limit m = program.observe table' limit m') ∧
      ∀ table times m, program.observeTimes table limit times m =
        List.replicate times (program.observe 0 limit .initial) := by
  refine ⟨fun table table' m m' => ?_, fun table times m => ?_⟩
  · rw [program.observe_eq table limit m, program.observe_eq table' limit m']
  · induction times generalizing m with
    | zero => rfl
    | succ times ih =>
      rw [Program.observeTimes, program.observe_eq table limit m, List.replicate_succ]
      cases (program.evalAlone (.ofTable table limit)).run m with
      | ok _ last | error _ last => exact congrArg (List.cons _) (ih last)

end MonkeyLang
