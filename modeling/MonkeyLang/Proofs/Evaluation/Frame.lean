import MonkeyLang.Proofs.Evaluation.Invariant
import MonkeyLang.Proofs.Evaluation.Session

/-!
# What evaluation leaves alone

Evaluation touches the scopes it finds as little as can be. Expressions leave all of them as they
are: what a call or a block declares, it declares in scopes of its own. A statement may add one name
to the scope it runs in, if it is a declaration and succeeds. So bindings are only ever added, at the
end of their scope, and never changed or removed (`Machine.Extends`).
-/

namespace MonkeyLang

namespace Machine

/-- Every scope of `m` is unchanged in `m'`. -/
def Kept (m m' : Machine) : Prop := ∀ id < m.scopes.size, m'.scopes[id]? = m.scopes[id]?

/-- Of the scopes of `m` only `scope` has changed in `m'`: a name that was not bound in it is now
bound to `value`. -/
structure Gains (m m' : Machine) (scope : ScopeId) (name : String) (value : Value) : Prop where
  others : ∀ id < m.scopes.size, id ≠ scope → m'.scopes[id]? = m.scopes[id]?
  unbound : m.lookupLocal scope name = none
  bound : ∃ before, m.scopes[scope]? = some before ∧
    m'.scopes[scope]? = some { before with bindings := before.bindings ++ [(name, value)] }

/-- Every scope of `m` has kept its outer scope and its bindings in `m'`, and may have got more. -/
def Extends (m m' : Machine) : Prop :=
  ∀ (id : ScopeId) (scope : Scope), m.scopes[id]? = some scope → ∃ added,
    m'.scopes[id]? = some { scope with bindings := scope.bindings ++ added }

variable {m m' m'' : Machine} {scope : ScopeId} {name : String} {value : Value}

theorem Kept.extends (h : Kept m m') : Extends m m' := by
  intro id scope hscope
  have hlt : id < m.scopes.size := (Array.getElem?_eq_some_iff.1 hscope).1
  exact ⟨[], by rw [h id hlt, hscope, List.append_nil]⟩

theorem Kept.lookupLocal (h : Kept m m') (hscope : scope < m.scopes.size) :
    m'.lookupLocal scope name = m.lookupLocal scope name := by
  unfold Machine.lookupLocal
  rw [h scope hscope]

theorem Kept.of_scopes_eq (h : m'.scopes = m.scopes) : Kept m m' := fun id _ => by rw [h]

theorem Gains.extends (h : Gains m m' scope name value) : Extends m m' := by
  intro id s hs
  have hlt : id < m.scopes.size := (Array.getElem?_eq_some_iff.1 hs).1
  by_cases hid : id = scope
  · subst hid
    obtain ⟨before, hbefore, hafter⟩ := h.bound
    rw [hs] at hbefore
    cases hbefore
    exact ⟨_, hafter⟩
  · exact ⟨[], by rw [h.others id hlt hid, hs, List.append_nil]⟩

/-- A new scope adds no bindings to the others. -/
theorem extends_push (m : Machine) (outer : Option ScopeId) :
    m.Extends { m with scopes := m.scopes.push ⟨[], outer⟩ } := by
  refine Kept.extends fun id hid => ?_
  rw [Array.getElem?_push_lt hid, ← Array.getElem?_eq_getElem]

theorem Extends.refl (m : Machine) : Extends m m :=
  fun _ _ hscope => ⟨[], by rw [hscope, List.append_nil]⟩

theorem Extends.trans (h : Extends m m') (h' : Extends m' m'') : Extends m m'' := by
  intro id scope hscope
  obtain ⟨added, hadded⟩ := h id scope hscope
  obtain ⟨added', hadded'⟩ := h' id _ hadded
  exact ⟨added ++ added', by rw [hadded', List.append_assoc]⟩

theorem Extends.size_le (h : Extends m m') : m.scopes.size ≤ m'.scopes.size := by
  refine Nat.le_of_not_lt fun hlt => ?_
  obtain ⟨added, hadded⟩ := h _ _ (Array.getElem?_eq_getElem hlt)
  exact absurd (Array.getElem?_eq_some_iff.1 hadded).1 (Nat.lt_irrefl _)

/-- A binding keeps its value. -/
theorem Extends.lookupLocal (h : Extends m m') (hvalue : m.lookupLocal scope name = some value) :
    m'.lookupLocal scope name = some value := by
  obtain ⟨before, hbefore, hfind⟩ := Option.bind_eq_some_iff.1 hvalue
  obtain ⟨added, hadded⟩ := h scope before hbefore
  exact Option.bind_eq_some_iff.2 ⟨_, hadded, Dict.find?_append_of_eq_some hfind added⟩

end Machine

/-- What a statement does to the scopes it finds: if it is a declaration and its value no error, its
scope gains the binding, and otherwise they are kept. -/
def Stmt.Effect (st : Stmt) (scope : ScopeId) (m : Machine) (value : Value) (m' : Machine) : Prop :=
  match st.declared? with
  | some name => if value.isError then m.Kept m' else m.Gains m' scope name value
  | none => m.Kept m'

/-! ### Evaluation -/

section Evaluation

variable {m m' : Machine} {table : ObjectId} {limit : Nat} {scope : ScopeId}

/-- The scopes of `m₀` are kept by all steps that declare names in other scopes. -/
theorem invariant_kept (m₀ : Machine) :
    Invariant (fun m => m₀.scopes.size ≤ m.scopes.size ∧ m₀.Kept m) (m₀.scopes.size ≤ ·) := by
  refine ⟨fun _ h => h, fun _ _ h => h, fun m outer ⟨hsize, hkept⟩ => ⟨⟨?_, fun id hid => ?_⟩, hsize⟩,
    fun m id name value hid ⟨hsize, hkept⟩ => ⟨?_, fun id' hid' => ?_⟩⟩
  · rw [Array.size_push]; omega
  · rw [Array.getElem?_push_lt (by omega), ← Array.getElem?_eq_getElem, hkept id hid]
  · rw [Machine.size_declare]; exact hsize
  · unfold Machine.declare
    rw [Array.getElem?_modify, if_neg (by omega), hkept id' hid']

/-- An expression keeps every scope. -/
theorem Expr.eval_kept (e : Expr) : Ensures (e.eval (.ofTable table limit) scope) m
    (fun _ m' => m.Kept m') fun _ m' => m.Kept m' :=
  (e.keeps (invariant_kept m) ((invariant_kept m).keeps_call table limit) scope m
    ⟨Nat.le_refl _, fun _ _ => rfl⟩).mono (fun _ _ h => h.2) fun _ _ h => h.2

/-- A statement that is no declaration keeps every scope. -/
theorem Stmt.eval_kept (st : Stmt) (h : st.declared? = none) :
    Ensures (st.eval (.ofTable table limit) scope) m (fun _ m' => m.Kept m') fun _ m' => m.Kept m' :=
  (st.keeps (invariant_kept m) ((invariant_kept m).keeps_call table limit) scope
    (fun name hname => by rw [h] at hname; cases hname) m
    ⟨Nat.le_refl _, fun _ _ => rfl⟩).mono (fun _ _ h => h.2) fun _ _ h => h.2

/-- The scope of a new declaration gains it. -/
theorem Machine.Gains.of_declare {name : String} {value : Value} (hscope : scope < m.scopes.size)
    (hunbound : m.lookupLocal scope name = none) (hkept : m.Kept m') :
    m.Gains (m'.declare scope name value) scope name value := by
  have hbefore : m.scopes[scope]? = some m.scopes[scope] := Array.getElem?_eq_getElem hscope
  refine ⟨fun id hid hne => ?_, hunbound, m.scopes[scope], hbefore, ?_⟩
  · unfold Machine.declare
    rw [Array.getElem?_modify, if_neg (Ne.symm hne), hkept id hid]
  · unfold Machine.lookupLocal at hunbound
    rw [hbefore] at hunbound
    unfold Machine.declare
    rw [Array.getElem?_modify, if_pos rfl, hkept scope hscope, hbefore]
    exact congrArg (fun bindings => some { m.scopes[scope] with bindings })
      (Dict.insert_of_find?_eq_none hunbound)

/-- A statement in a scope of the machine has its effect, and keeps every scope if it stops. -/
theorem Stmt.eval_effect (st : Stmt) (hscope : scope < m.scopes.size) :
    Ensures (st.eval (.ofTable table limit) scope) m (st.Effect scope m) fun _ m' => m.Kept m' := by
  cases st with
  | declaration keyword ident e =>
    rw [Stmt.eval]
    refine ensures_get_bind ?_
    cases hunbound : m.lookupLocal scope ident.name with
    | some value => exact fun _ _ => rfl
    | none =>
      refine (e.eval_kept).bind fun v m' hkept => ?_
      by_cases herror : v.isError
      · rw [if_pos herror]
        show if v.isError then _ else _
        rwa [if_pos herror]
      · rw [if_neg herror]
        show if v.isError then _ else _
        rw [if_neg herror]
        exact .of_declare hscope hunbound hkept
  | unknown | ret | expression | block | ifThen | ifElse =>
    exact Stmt.eval_kept _ rfl

/-- A statement whose value is an error changes nothing. -/
theorem Stmt.Effect.kept {st : Stmt} {value : Value} (h : st.Effect scope m value m')
    (herror : value.isError) : m.Kept m' := by
  unfold Stmt.Effect at h
  split at h
  · rwa [if_pos herror] at h
  · exact h

theorem Stmt.Effect.extends {st : Stmt} {value : Value} (h : st.Effect scope m value m') :
    m.Extends m' := by
  unfold Stmt.Effect at h
  split at h
  · split at h
    · exact h.extends
    · exact h.extends
  · exact h.extends

/-- Statements in a row only add bindings. -/
theorem Stmt.evalSequence_extends (ss : List Stmt) {last : Value} (hscope : scope < m.scopes.size) :
    Ensures (Stmt.evalSequence (.ofTable table limit) scope last ss) m (fun _ m' => m.Extends m')
      fun _ m' => m.Extends m' := by
  induction ss generalizing m last with
  | nil => rw [Stmt.evalSequence]; exact Machine.Extends.refl m
  | cons st ss ih =>
    rw [Stmt.evalSequence]
    refine Ensures.bind ((st.eval_effect hscope).mono (fun v m' h => h.extends)
      fun _ m' h => h.extends) fun v m' h => ?_
    by_cases hexit : v.isExit
    · rw [if_pos hexit]; exact h
    · rw [if_neg hexit]
      have hscope' := Nat.lt_of_lt_of_le hscope h.size_le
      exact (ih hscope').mono (fun _ _ h' => h.trans h') fun _ _ h' => h.trans h'

/-- Programs only add bindings. -/
theorem Program.eval_extends (program : Program) (hscope : scope < m.scopes.size) :
    Ensures (program.eval (.ofTable table limit) scope) m (fun _ m' => m.Extends m')
      fun _ m' => m.Extends m' := by
  unfold Program.eval
  refine Ensures.bind (Stmt.evalSequence_extends program.statements hscope) fun r m' h => ?_
  split
  · exact h
  · exact h

end Evaluation

/-- Sessions only add bindings. -/
theorem Session.extends {m m' : Machine} (h : Session m m') : m.Extends m' := by
  induction h with
  | refl => exact Machine.Extends.refl _
  | scope outer _ ih => exact ih.trans (Machine.extends_push _ outer)
  | table _ ih => exact ih
  | output _ _ ih => exact ih
  | run program _ _ _ hscope hrun ih =>
    exact ih.trans ((program.eval_extends hscope).of_leaves hrun)

end MonkeyLang
