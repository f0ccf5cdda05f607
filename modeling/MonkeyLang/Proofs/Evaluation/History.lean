import MonkeyLang.Proofs.Evaluation.Discipline

/-!
# The history of a run

The moments of a run are the machines at the evaluation of its nodes. From one moment to every later
one, bindings are only ever added: none is changed or removed, whether the run ends or stops because
calls nest too deeply.
-/

namespace MonkeyLang

/-- The machines that a run has gone through since `first`, the latest one in front. -/
def Traced.moments (first : Machine) (t : Traced) : List Machine :=
  t.machine :: (t.visits.map Visit.machine ++ [first])

/-- Later moments extend earlier ones. -/
def Traced.Monotone (first : Machine) (t : Traced) : Prop :=
  (t.moments first).Pairwise fun later earlier => earlier.Extends later

/-- The scopes are kept by a call that only binds its parameters. -/
theorem Traced.kept_call (t : Traced) (id : ObjectId) (parameters : List Ident) (body : Block)
    (outer : ScopeId) (arguments : List Value) :
    t.machine.Kept (t.call id parameters body outer arguments).machine := by
  have hinv := invariant_kept t.machine
  obtain ⟨hpush, hown⟩ := hinv.push t.machine (some outer) ⟨Nat.le_refl _, fun _ _ => rfl⟩
  exact (Machine.bindParameters_induction
    (fun m parameter _ argument _ hm => hinv.declare m _ parameter.name argument hown hm) hpush).2

section Monotone

variable {first : Machine} {t t' : Traced}

/-- A step of the machine. -/
theorem Traced.Monotone.step (h : t.Monotone first) (hvisits : t'.visits = t.visits)
    (hext : t.machine.Extends t'.machine) : t.machine.Extends t'.machine ∧ t'.Monotone first := by
  unfold Traced.Monotone Traced.moments at h ⊢
  rw [hvisits]
  obtain ⟨hearlier, h⟩ := List.pairwise_cons.1 h
  exact ⟨hext, List.pairwise_cons.2 ⟨fun m hm => (hearlier m hm).trans hext, h⟩⟩

theorem Traced.Monotone.visit (h : t.Monotone first) (frames : List Frame) (node : Node)
    (scope : ScopeId) : (t.visit frames node scope).Monotone first := by
  refine List.pairwise_cons.2 ⟨fun m hm => ?_, h⟩
  rcases List.mem_cons.1 hm with rfl | hm
  · exact Machine.Extends.refl _
  · exact (List.pairwise_cons.1 h).1 m hm

theorem Traced.Monotone.enter (h : t.Monotone first) (frames : List Frame) (outer : ScopeId) :
    t.machine.Extends (t.enter frames outer).machine ∧ (t.enter frames outer).Monotone first :=
  h.step rfl (t.machine.extends_push (some outer))

theorem Traced.Monotone.newFunction (h : t.Monotone first) (frames : List Frame) :
    t.machine.Extends (t.newFunction frames).machine ∧ (t.newFunction frames).Monotone first :=
  h.step rfl (Machine.Kept.of_scopes_eq rfl).extends

theorem Traced.Monotone.call (h : t.Monotone first) (id : ObjectId) (parameters : List Ident)
    (body : Block) (outer : ScopeId) (arguments : List Value) :
    t.machine.Extends (t.call id parameters body outer arguments).machine ∧
      (t.call id parameters body outer arguments).Monotone first :=
  h.step rfl (t.kept_call id parameters body outer arguments).extends

end Monotone

/-- Every step adds bindings at most. -/
def Traced.Monotone.discipline (first : Machine) : Discipline where
  Holds := Traced.Monotone first
  Grows := fun t t' => t.machine.Extends t'.machine
  At := fun t scope _ => scope < t.machine.scopes.size
  Fits := fun _ _ => True
  Fine := fun _ _ => True
  refl := fun t => Machine.Extends.refl t.machine
  trans := Machine.Extends.trans
  at_mono := fun hat hg => Nat.lt_of_lt_of_le hat hg.size_le
  at_lt := fun hat => hat
  fits_child := fun _ _ => trivial
  fine_mono := fun _ _ => trivial
  fine_plain := fun _ => by constructor <;> intros <;> trivial
  fine_error := fun _ _ _ => trivial
  fine_ret := fun _ _ _ => trivial
  lookup := fun _ _ _ _ _ => trivial
  visit := fun h _ _ => ⟨Machine.Extends.refl _, h.visit _ _ _⟩
  act := fun h hscopes _ => h.step rfl (Machine.Kept.of_scopes_eq hscopes).extends
  enter := fun _ h _ =>
    let ⟨hext, h'⟩ := h.enter _ _
    ⟨hext, h', Traced.size_enter _ _ _⟩
  newFunction := fun h _ _ =>
    let ⟨hext, h'⟩ := h.newFunction _
    ⟨hext, h', trivial⟩
  declare := fun h hat _ hfree _ =>
    h.step rfl (Machine.Gains.of_declare hat hfree fun _ _ => rfl).extends
  call := fun h _ _ =>
    let ⟨hext, h'⟩ := h.call _ _ _ _ _
    ⟨hext, h', Traced.size_call _ _ _ _ _ _, fun _ _ => trivial⟩

/-- A run of a program is monotone. -/
theorem Trace.program_monotone (table : ObjectId) (limit : Nat) (program : Program)
    {scope : ScopeId} {t : Traced} (hvisits : t.visits = []) (hscope : scope < t.machine.scopes.size) :
    Ensures (Trace.program (.ofTable table limit) scope program) t
      (fun _ t' => t'.Monotone t.machine) fun _ t' => t'.Monotone t.machine := by
  have hstart : t.Monotone t.machine := by
    unfold Traced.Monotone Traced.moments
    rw [hvisits]
    exact List.pairwise_pair.2 (Machine.Extends.refl _)
  have hkeeps := Discipline.keeps_program (D := Traced.Monotone.discipline t.machine) table limit
    program hstart hscope fun _ _ => trivial
  exact Ensures.mono hkeeps (fun _ _ ⟨_, h, _⟩ => h) fun _ _ ⟨_, h⟩ => h

/-- Bindings are immutable, and evaluation is framed.

Expressions leave all scopes as they are. A statement in a scope leaves the others as they are, and
this one too unless it is a declaration that succeeds, which adds its name. So no binding is ever
changed or removed: not in a session, and not from one moment of a run to a later one. -/
theorem evaluation_framed (table : ObjectId) (limit : Nat) :
    (∀ (e : Expr) (scope : ScopeId) (m : Machine),
      Ensures (e.eval (.ofTable table limit) scope) m (fun _ m' => m.Kept m') fun _ m' => m.Kept m') ∧
    (∀ (st : Stmt) (scope : ScopeId) (m : Machine), scope < m.scopes.size →
      Ensures (st.eval (.ofTable table limit) scope) m
        (fun value m' => st.Effect scope m value m' ∧ (value.isError → m.Kept m'))
        fun _ m' => m.Kept m') ∧
    (∀ m m' : Machine, Session m m' → m.Extends m') ∧
    ∀ (program : Program) (scope : ScopeId) (t : Traced), t.visits = [] →
      scope < t.machine.scopes.size →
      Trace.Erases (Trace.program (.ofTable table limit) scope program)
        (program.eval (.ofTable table limit) scope) ∧
      Ensures (Trace.program (.ofTable table limit) scope program) t
        (fun _ t' => t'.Monotone t.machine) fun _ t' => t'.Monotone t.machine := by
  refine ⟨fun e scope m => e.eval_kept, fun st scope m hscope => ?_, fun m m' h => h.extends,
    fun program scope t hvisits hscope => ⟨Trace.erases_program table limit scope program,
      Trace.program_monotone table limit program hvisits hscope⟩⟩
  refine (st.eval_effect hscope).mono (fun value m' h => ⟨h, fun herror => ?_⟩) fun _ _ h => h
  exact h.kept herror

/-- A declaration in an empty scope. -/
theorem evaluation_framed_of_declaration :
    0 < (⟨#[⟨[], none⟩], 0, ""⟩ : Machine).scopes.size ∧
    Ensures ((Stmt.declaration ⟨.var, "var", 1⟩ ⟨⟨.identifier, "x", 1⟩, "x"⟩
        (.integer ⟨.integer, "1", 1⟩ 1)).eval (.ofTable 0 10) 0) ⟨#[⟨[], none⟩], 0, ""⟩
      (fun value m' => value = .integer 1 ∧ Machine.Gains ⟨#[⟨[], none⟩], 0, ""⟩ m' 0 "x" value)
      fun _ _ => False := by
  have hscope : 0 < (⟨#[⟨[], none⟩], 0, ""⟩ : Machine).scopes.size := by decide
  have heffect := (evaluation_framed 0 10).2.1
    (.declaration ⟨.var, "var", 1⟩ ⟨⟨.identifier, "x", 1⟩, "x"⟩ (.integer ⟨.integer, "1", 1⟩ 1)) 0 _
    hscope
  exact ⟨hscope, rfl, heffect.1⟩

end MonkeyLang
