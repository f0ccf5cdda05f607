import MonkeyLang.Proofs.Evaluation.Parts

/-!
# States a session can reach

A session starts with an empty machine. It opens scopes, takes identities for tables of built-in
functions, sets the output, and runs programs in the scopes it has; a run may also stop early,
because calls nest too deeply. `Session m m'` says that it can lead from `m` to `m'`.
-/

namespace MonkeyLang

/-- A session can lead from one machine to another. -/
inductive Session : Machine → Machine → Prop
  | refl {m : Machine} : Session m m
  | scope {m m' : Machine} (outer : Option ScopeId) : Session m m' →
      Session m { m' with scopes := m'.scopes.push ⟨[], outer⟩ }
  | table {m m' : Machine} : Session m m' → Session m { m' with supply := m'.supply + 1 }
  | output {m m' : Machine} (text : String) : Session m m' → Session m { m' with output := text }
  | run {m m' m'' : Machine} (program : Program) (table : ObjectId) (limit : Nat)
      {scope : ScopeId} : Session m m' → scope < m'.scopes.size →
      Leaves (program.eval (.ofTable table limit) scope) m' m'' → Session m m''

/-- The machines that a session can reach. -/
def Reachable (m : Machine) : Prop := Session .initial m

end MonkeyLang
