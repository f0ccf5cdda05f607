import MonkeyLang.Proofs.Evaluation.Discipline
import MonkeyLang.Proofs.Evaluation.Lexical

/-!
# Scoping is lexical

A program is run in a new scope. Whenever a node is evaluated, the chain of scopes outwards from the
one it is evaluated in has a scope for each block that encloses the node in the source, and one for
the top level, and these bind names of their blocks only. A function takes such a chain along when it
is made, and it is in this chain that its body is run, wherever it is called from.

So a name is unknown if no enclosing block declares it, whatever scopes there are besides.
-/

namespace MonkeyLang

/-- The invariant is kept by every step. -/
def Lexical.discipline (program : Program) (base : ScopeId) : Discipline where
  Holds := Lexical program base
  Grows := Grows
  At := At base
  Fits := Occurs program
  Fine := Homed program base
  refl := Grows.refl
  trans := Grows.trans
  at_mono := At.mono
  at_lt := At.lt
  fits_child := Occurs.child
  fine_mono := Homed.mono
  fine_plain := plain_homed program base
  fine_error := fun _ _ _ _ _ _ _ h => nomatch h
  fine_ret := fun _ _ _ _ _ _ _ h => nomatch h
  lookup := fun h hat => h.lookup hat.le
  visit := fun h hat hocc => h.visit hat hocc
  act := fun h hscopes => h.act hscopes
  enter := fun frame h hat => h.enter hat frame
  newFunction := fun h hat hvisit => h.newFunction hat hvisit
  declare := fun h hat hname _ => h.declare hat hname
  call := fun h hfunction => h.call hfunction

/-- The record of a run in a new scope, before it starts. -/
def Traced.start (program : Program) (machine : Machine) : Traced :=
  ⟨{ machine with scopes := machine.scopes.push ⟨[], none⟩ }, fun _ => [program.frame], fun _ => [],
    []⟩

section Start

variable (program : Program) (m : Machine)

theorem at_start : At m.scopes.size (.start program m) m.scopes.size [program.frame] := by
  refine ⟨Nat.le_refl _, ?_, rfl⟩
  have hsize : (Traced.start program m).machine.scopes.size = m.scopes.size + 1 := Array.size_push _
  rw [hsize]
  exact Nat.lt_succ_self _

theorem lexical_start : Lexical program m.scopes.size (.start program m) := by
  refine ⟨fun id s hid hs => ?_, nofun, nofun, .nil⟩
  unfold Traced.start at hs
  rw [Array.getElem?_push] at hs
  by_cases hlast : id = m.scopes.size
  · rw [if_pos hlast] at hs
    cases hs
    exact ⟨.inl ⟨hlast, rfl, rfl⟩, nofun, nofun⟩
  · rw [if_neg hlast] at hs
    have hlt : id < m.scopes.size := (Array.getElem?_eq_some_iff.1 hs).1
    exact absurd hid (Nat.not_le_of_lt hlt)

end Start

/-- A name of none of the frames is bound nowhere on the chain. -/
theorem Machine.Matches.lookup_eq_none {m : Machine} {scope : ScopeId} {frames : List Frame}
    (h : m.Matches scope frames) {name : String} (hname : ∀ frame ∈ frames, name ∉ frame.names) :
    m.lookup scope name = none := by
  unfold Machine.Matches at h
  unfold Machine.lookup
  generalize m.chain scope = chain at h
  induction h with
  | nil => rfl
  | @cons s frame chain frames hkeys _ ih =>
    obtain ⟨hframe, hframes⟩ := List.forall_mem_cons.1 hname
    have hfind : Dict.find? s.bindings name = none := by
      cases hfind : Dict.find? s.bindings name with
      | none => rfl
      | some value =>
        exact absurd (hkeys name (List.mem_map.2 ⟨_, Dict.mem_of_find? hfind, rfl⟩)) hframe
    rw [List.findSome?_cons, hfind]
    exact ih hframes

/-- An unbound name that is no built-in function is unknown. -/
theorem run_evalName_unknown {m : Machine} {scope : ScopeId} {name : String}
    (hlookup : m.lookup scope name = none) (hbuiltin : Builtin.ofName? name = none)
    (ctx : Context) : (evalName ctx scope name).run m =
      .ok (.error m.supply (.unknownIdentifier name)) { m with supply := m.supply + 1 } := by
  have hget : (get : Eval Machine).run m = .ok m m := rfl
  unfold evalName
  rw [run_bind_of_ok hget, hlookup, hbuiltin]
  rfl

/-- What lexical scoping means for the record of a run whose top-level scope is `base`. -/
structure Traced.Scoped (program : Program) (base : ScopeId) (t : Traced) : Prop where
  /-- every node is evaluated in a chain that matches its place, and so is every literal that a
  function in a scope comes from -/
  visits : ∀ v ∈ t.visits, v.Lexical program base t.visits
  machine : WellScoped program base t.visits t.machine
  /-- a chain that has been captured goes on to match -/
  chains : t.visits.Pairwise fun later earlier => later.machine.Matches earlier.scope earlier.frames
  captured : ∀ v ∈ t.visits, t.machine.Matches v.scope v.frames
  /-- an identifier that no enclosing block declares is unknown -/
  unknown : ∀ v ∈ t.visits, ∀ ident, v.node = .expression (.identifier ident) →
    Builtin.ofName? ident.name = none → (∀ frame ∈ v.frames, ident.name ∉ frame.names) →
    ∀ ctx, ((Expr.identifier ident).eval ctx v.scope).run v.machine =
      .ok (.error v.machine.supply (.unknownIdentifier ident.name))
        { v.machine with supply := v.machine.supply + 1 }

theorem Lexical.scoped {program : Program} {base : ScopeId} {t : Traced}
    (h : Lexical program base t) : t.Scoped program base := by
  refine ⟨h.visits, h.wellScoped, h.chains, fun v hv => h.matches (h.stays v hv), ?_⟩
  intro v hv ident _ hbuiltin hname ctx
  rw [Expr.eval]
  exact run_evalName_unknown ((h.visits v hv).chain.lookup_eq_none hname) hbuiltin ctx

/-- Scoping is lexical in every run of a program in a new scope, and its value has captured matching
chains as well. The record is one of what the evaluator does. -/
theorem scoping_lexical (program : Program) (table : ObjectId) (limit : Nat) (m : Machine) :
    Trace.Erases (Trace.program (.ofTable table limit) m.scopes.size program)
      (program.eval (.ofTable table limit) m.scopes.size) ∧
    Ensures (Trace.program (.ofTable table limit) m.scopes.size program) (.start program m)
      (fun value t => t.Scoped program m.scopes.size ∧
        value.All (Captures program t.visits t.machine))
      fun _ t => t.Scoped program m.scopes.size := by
  refine ⟨Trace.erases_program table limit m.scopes.size program, ?_⟩
  have hkeeps := Discipline.keeps_program (D := Lexical.discipline program m.scopes.size) table limit
    program (lexical_start program m) (at_start program m) fun _ hst => .top hst
  refine Ensures.mono hkeeps (fun value t ⟨_, h, hvalue⟩ => ?_) fun _ t ⟨_, h⟩ => h.scoped
  exact ⟨h.scoped, Value.All.mono hvalue fun _ => h.captures⟩

end MonkeyLang
