import MonkeyLang.Proofs.Evaluation.Agreement
import MonkeyLang.Proofs.Evaluation.Standard

/-!
# The limit on nested calls

A plan does not depend on how many calls may be nested: the limit only comes in where a job is nested
one call deeper, and there it can do nothing but stop the evaluation. So a run that ends, ends in the
same way under every higher limit. A run that stops has done a first part of what every run under a
higher limit does: its machine `Precedes` theirs, as nothing that is bound or printed is ever taken
back.
-/

namespace MonkeyLang

/-! ### What is never taken back -/

/-- What is bound and printed on `m` is so on `m'`; more may have been added at the ends. -/
structure Machine.Precedes (m m' : Machine) : Prop where
  bindings : m.Extends m'
  output : m.output.toList <+: m'.output.toList

/-- The computation only adds to what is bound and printed, whether it ends or stops. -/
def Continues {α : Type} (x : Eval α) (m : Machine) : Prop :=
  Ensures x m (fun _ m' => m.Precedes m') fun _ m' => m.Precedes m'

namespace Machine

variable {m m' m'' : Machine}

theorem Precedes.refl (m : Machine) : m.Precedes m := ⟨.refl m, List.prefix_rfl⟩

theorem Precedes.trans (h : m.Precedes m') (h' : m'.Precedes m'') : m.Precedes m'' :=
  ⟨h.bindings.trans h'.bindings, h.output.trans h'.output⟩

theorem precedes_print (m : Machine) (text : String) :
    m.Precedes { m with output := m.output ++ text } := by
  refine ⟨Extends.refl m, ?_⟩
  simp only [String.toList_append]
  exact List.prefix_append _ _

/-- A new name is added at the end of its scope. -/
theorem precedes_declare {scope : ScopeId} {name : String} {value : Value}
    (hunbound : m.lookupLocal scope name = none) : m.Precedes (m.declare scope name value) := by
  refine ⟨?_, List.prefix_rfl⟩
  by_cases hscope : scope < m.scopes.size
  · exact (Gains.of_declare hscope hunbound fun _ _ => rfl).extends
  · intro id s hs
    have hid : id < m.scopes.size := (Array.getElem?_eq_some_iff.1 hs).1
    refine ⟨[], ?_⟩
    unfold declare
    rw [Array.getElem?_modify, if_neg, hs, List.append_nil]
    rintro rfl
    exact hscope hid

/-- The parameters of a call are bound in a scope of their own. -/
theorem precedes_enter (m : Machine) (outer : ScopeId) (parameters : List Ident)
    (arguments : List Value) :
    m.Precedes (Machine.bindParameters { m with scopes := m.scopes.push ⟨[], some outer⟩ }
      m.scopes.size parameters arguments) := by
  have hpush := (invariant_kept m).push m (some outer) ⟨Nat.le_refl _, fun _ _ => rfl⟩
  constructor
  · refine Kept.extends (And.right (Machine.bindParameters_induction
      (P := fun m' => m.scopes.size ≤ m'.scopes.size ∧ m.Kept m') ?_ hpush.1))
    intro m' parameter _ argument _ hm'
    exact (invariant_kept m).declare m' _ parameter.name argument hpush.2 hm'
  · refine Machine.bindParameters_induction (P := fun m' => m.output.toList <+: m'.output.toList) ?_
      List.prefix_rfl
    intro m' _ _ _ _ hm'
    exact hm'

end Machine

/-- No step takes back what has been printed. -/
theorem invariant_output (text : List Char) :
    Invariant (fun m => text <+: m.output.toList) fun _ => True := by
  refine ⟨fun _ h => h, ?_, fun _ _ h => ⟨h, trivial⟩, fun _ _ _ _ _ h => h⟩
  intro m added h
  exact h.trans (m.precedes_print added).output

/-- Jobs keep an invariant, if the scope is their own in which they declare names. -/
theorem Job.keeps {I : Machine → Prop} {own : ScopeId → Prop} (h : Invariant I own)
    (table : ObjectId) (depth : Nat) (job : Job)
    (hown : ∀ scope, ((∃ st, job = .statement scope st) ∨ ∃ p, job = .program scope p) → own scope) :
    Keeps I (job.run table depth) := by
  have hcalls := h.keeps_call table depth
  cases job with
  | expression scope e => exact e.keeps h hcalls scope
  | statement scope st => exact st.keeps h hcalls scope fun _ _ => hown scope (.inl ⟨st, rfl⟩)
  | call function arguments => exact hcalls function arguments
  | body outer parameters b arguments =>
    refine h.keeps_newScope fun scope hscope => ?_
    refine (h.keeps_bindParameters hscope parameters arguments).bind fun _ => ?_
    exact (Stmt.keepsSequence h hcalls hscope b.statements .null).bind h.keeps_result
  | program scope p =>
    refine (Stmt.keepsSequence h hcalls (hown scope (.inr ⟨p, rfl⟩)) p.statements .null).bind ?_
    intro r
    split
    · exact h.keeps_raise _
    · exact keeps_pure _

variable {table : ObjectId} {depth depth' size : Nat} {m : Machine}

/-- A job only adds to what is bound and printed. -/
theorem Job.continues {job : Job} (h : Standard.any.Ready job m) :
    Continues (job.run table depth) m := by
  have houtput := job.keeps (invariant_output m.output.toList) table depth (fun _ _ => trivial) m
    List.prefix_rfl
  have hbindings : Ensures (job.run table depth) m (fun _ m' => m.Extends m') fun _ m' =>
      m.Extends m' := by
    cases job with
    | statement scope st =>
      exact (st.eval_effect h.2.2).mono (fun _ _ h => h.extends) fun _ _ h => h.extends
    | program scope p => exact p.eval_extends h.2.2
    | expression | call | body =>
      refine (Job.keeps (invariant_kept m) table depth _ ?_ m ⟨Nat.le_refl _, fun _ _ => rfl⟩).mono
        (fun _ _ h => h.2.extends) fun _ _ h => h.2.extends
      rintro scope (⟨_, h⟩ | ⟨_, h⟩) <;> cases h
  exact (hbindings.and houtput).mono (fun _ _ h => ⟨h.1, h.2⟩) fun _ _ h => ⟨h.1, h.2⟩

/-- Everything is up to the standard `any`. -/
theorem Standard.yields_any (value : Value) (m : Machine) : Standard.any.Yields value m :=
  ⟨fun _ _ _ _ _ _ _ => trivial, fun _ _ => trivial⟩

theorem Continues.bind {α β : Type} {x : Eval α} {f : α → Eval β} (hx : Continues x m)
    (hf : ∀ a m', x.run m = .ok a m' → Continues (f a) m') : Continues (x >>= f) m := by
  refine Ensures.bind (Ensures.and_run hx |>.mono (fun _ _ h => h) fun _ _ h => h.1) ?_
  rintro a m' ⟨hprecedes, hrun⟩
  exact (hf a m' hrun).mono (fun _ _ h => hprecedes.trans h) fun _ _ h => hprecedes.trans h

/-- What is done after a first step that adds something. -/
theorem Continues.after {α : Type} {x : Eval α} {m' : Machine} (h : Continues x m')
    (hprecedes : m.Precedes m') :
    Ensures x m' (fun _ m'' => m.Precedes m'') fun _ m'' => m.Precedes m'' :=
  Ensures.mono h (fun _ _ h => hprecedes.trans h) fun _ _ h => hprecedes.trans h

/-- So does every plan that declares unbound names only. -/
theorem Plan.Meets.continues {α : Type} {good : α → Machine → Prop} {p : Plan α}
    (hp : p.Meets .any table depth size good m) : Continues (p.run table depth) m := by
  induction p generalizing m with
  | done result => exact Machine.Precedes.refl m
  | perform job next ih =>
    obtain ⟨-, hready, hnext⟩ := hp
    refine (Job.continues hready).bind ?_
    intro value m' hrun
    exact ih value (hnext value m' hrun (Standard.yields_any value m'))
  | nest job next ih =>
    obtain ⟨hready, hnext⟩ := hp
    cases depth with
    | zero => exact Machine.Precedes.refl m
    | succ inner =>
      refine (Job.continues hready).bind ?_
      intro value m' hrun
      exact ih value (hnext inner value m' rfl hrun (Standard.yields_any value m'))
  | fresh next ih => exact (ih _ hp).after ⟨.refl m, List.prefix_rfl⟩
  | print text next ih => exact (ih hp).after (m.precedes_print text)
  | enter outer parameters arguments next ih =>
    have hrest := (ih m.scopes.size hp).after (m.precedes_enter outer parameters arguments)
    exact (ensures_congr (run_enter ..)).2 hrest
  | declare scope name value next ih => exact (ih hp.2).after (Machine.precedes_declare hp.1)
  | look next ih => exact ih m hp

/-! ### A higher limit -/

/-- The second computation does what the first one does; if the first one stops, the second one goes
on from there or stops later. -/
def Outlasts {α : Type} (x x' : Eval α) (m : Machine) : Prop :=
  Ensures x m (fun a m' => x'.run m = .ok a m') fun _ m' =>
    Ensures x' m (fun _ m'' => m'.Precedes m'') fun _ m'' => m'.Precedes m''

/-- Only the runs matter. -/
theorem outlasts_congr {α : Type} {x x' y y' : Eval α} {m' : Machine} (h : x.run m = y.run m')
    (h' : x'.run m = y'.run m') (houtlasts : Outlasts y y' m') : Outlasts x x' m := by
  unfold Outlasts Ensures at houtlasts ⊢
  rwa [h, h']

theorem Outlasts.bind {α β : Type} {x x' : Eval α} {f f' : α → Eval β} (hx : Outlasts x x' m)
    (hf : ∀ a m', x'.run m = .ok a m' → Outlasts (f a) (f' a) m')
    (hcontinues : ∀ a m', x'.run m = .ok a m' → Continues (f' a) m') :
    Outlasts (x >>= f) (x' >>= f') m := by
  cases hrun : x.run m with
  | ok a m' =>
    unfold Outlasts at hx
    have hrun' : x'.run m = .ok a m' := hx.of_ok hrun
    exact outlasts_congr (run_bind_of_ok hrun) (run_bind_of_ok hrun') (hf a m' hrun')
  | error overflow m' =>
    unfold Outlasts at hx ⊢
    have hstopped := hx.of_error hrun
    refine ensures_iff.2 ⟨?_, ?_⟩
    · intro b m'' hb
      rw [run_bind_of_error hrun] at hb
      cases hb
    · intro overflow' m'' hb
      rw [run_bind_of_error hrun] at hb
      cases hb
      refine Ensures.bind (hstopped.and_run.mono (fun _ _ h => h) fun _ _ h => h.1) ?_
      rintro a m'' ⟨hprecedes, hrun'⟩
      exact (hcontinues a m'' hrun').after hprecedes

/-- A plan is carried out alike under both limits, as long as the jobs it gives out are. -/
theorem Plan.Meets.outlasts {α : Type} {good : α → Machine → Prop} {p : Plan α}
    (hp : p.Meets .any table depth' size good m) (hle : depth ≤ depth')
    (hperformed : ∀ (job : Job) m, job.size < size → Standard.any.Ready job m →
      Outlasts (job.run table depth) (job.run table depth') m)
    (hnested : ∀ inner inner', depth = inner + 1 → depth' = inner' + 1 → ∀ (job : Job) m,
      Standard.any.Ready job m → Outlasts (job.run table inner) (job.run table inner') m) :
    Outlasts (p.run table depth) (p.run table depth') m := by
  induction p generalizing m with
  | done result => exact rfl
  | perform job next ih =>
    obtain ⟨hsize, hready, hnext⟩ := hp
    refine (hperformed job m hsize hready).bind ?_ ?_
    · intro value m' hrun
      exact ih value (hnext value m' hrun (Standard.yields_any value m'))
    · intro value m' hrun
      exact (hnext value m' hrun (Standard.yields_any value m')).continues
  | nest job next ih =>
    cases depth with
    | zero =>
      -- the lower limit is reached here, and the higher one can only add to what has been done
      exact hp.continues
    | succ inner =>
      obtain ⟨inner', rfl⟩ : ∃ inner', depth' = inner' + 1 := ⟨depth' - 1, by omega⟩
      obtain ⟨hready, hnext⟩ := hp
      refine (hnested inner inner' rfl rfl job m hready).bind ?_ ?_
      · intro value m' hrun
        exact ih value (hnext inner' value m' rfl hrun (Standard.yields_any value m'))
      · intro value m' hrun
        exact (hnext inner' value m' rfl hrun (Standard.yields_any value m')).continues
  | fresh next ih => exact ih _ hp
  | print text next ih => exact ih hp
  | enter outer parameters arguments next ih =>
    exact outlasts_congr (run_enter ..) (run_enter ..) (ih m.scopes.size hp)
  | declare scope name value next ih => exact ih hp.2
  | look next ih => exact ih m hp

/-- A job is done alike under both limits, as long as the lower one is not reached. -/
theorem Job.outlasts (table : ObjectId) (depth : Nat) (job : Job) (hle : depth ≤ depth')
    (h : Standard.any.Ready job m) : Outlasts (job.run table depth) (job.run table depth') m := by
  induction depth, job using Job.induction generalizing depth' m with
  | h depth job ih ihnested =>
    have hmeets : (job.plan table).Meets .any table depth' job.size Standard.any.Yields m :=
      Job.meets h fun _ _ _ _ _ _ => trivial
    rw [Job.run_eq, Job.run_eq]
    refine hmeets.outlasts hle ?_ ?_
    · intro job' m' hsize hready
      exact ih job' hsize hle hready
    · rintro inner inner' hdepth rfl job' m' hready
      exact ihnested inner hdepth job' (by omega) hready

/-- The limit on nested calls decides only whether a run overflows. A program ends in a value or an
error, the same under every higher limit and with the same machine; or the limit is exceeded, and
what was bound and printed by then is a first part of what is under every higher limit. -/
theorem limit_only_overflows (hm : Reachable m) {scope : ScopeId} (hscope : scope < m.scopes.size)
    (program : Program) (table : ObjectId) (limit : Nat) :
    match (program.eval (.ofTable table limit) scope).run m with
    | .ok value m' => (value.Genuine ∨ value.isError) ∧ ∀ limit' ≥ limit,
      (program.eval (.ofTable table limit') scope).run m = .ok value m'
    | .error _ m' => ∀ limit' ≥ limit, Ensures (program.eval (.ofTable table limit') scope) m
      (fun _ m'' => m'.Precedes m'') fun _ m'' => m'.Precedes m'' := by
  have hready : Standard.any.Ready (.program scope program) m :=
    ⟨(Standard.yields_any .null m).1, fun _ _ => trivial, hscope⟩
  have houtlasts : ∀ limit' ≥ limit, Outlasts (program.eval (.ofTable table limit) scope)
      (program.eval (.ofTable table limit') scope) m :=
    fun limit' hle => Job.outlasts table limit (.program scope program) hle hready
  cases hrun : (program.eval (.ofTable table limit) scope).run m with
  | ok value m' =>
    refine ⟨?_, ?_⟩
    · have hagrees := @Throwing.agrees_program table limit scope program m hm.genuine
      have hclean := hagrees.ensures.of_ok hrun
      obtain ⟨-, r, rfl, hr⟩ := hclean
      cases r with
      | ok value => exact .inl hr
      | error error => exact .inr rfl
    · intro limit' hle
      have h := houtlasts limit' hle
      unfold Outlasts at h
      exact h.of_ok hrun
  | error overflow m' =>
    intro limit' hle
    have h := houtlasts limit' hle
    unfold Outlasts at h
    exact h.of_error hrun

/-- The program `var x = 1; fun() { return 2; }();`. -/
def declareThenCall : Program :=
  ⟨[.declaration ⟨.var, "var", 1⟩ ⟨⟨.identifier, "x", 1⟩, "x"⟩ (.integer ⟨.integer, "1", 1⟩ 1),
    .expression ⟨.function, "fun", 1⟩ (.call ⟨.leftParen, "(", 1⟩
      (.function ⟨.function, "fun", 1⟩ [] ⟨⟨.leftBrace, "\x7b", 1⟩,
        [.ret ⟨.ret, "return", 1⟩ (.integer ⟨.integer, "2", 1⟩ 2)]⟩) [])]⟩

/-- Without nested calls it stops with `x` bound, so `x` is bound under every limit; one call is
enough for it to end, so it ends so under every higher limit. -/
theorem limit_only_overflows_of_call :
    Reachable ⟨#[⟨[], none⟩], 0, ""⟩ ∧
    (∀ limit ≥ 0, Ensures (declareThenCall.eval (.ofTable 0 limit) 0) ⟨#[⟨[], none⟩], 0, ""⟩
      (fun _ m => Machine.Precedes ⟨#[⟨[("x", .integer 1)], none⟩], 1, ""⟩ m)
      fun _ m => Machine.Precedes ⟨#[⟨[("x", .integer 1)], none⟩], 1, ""⟩ m) ∧
    ∀ limit ≥ 1, (declareThenCall.eval (.ofTable 0 limit) 0).run ⟨#[⟨[], none⟩], 0, ""⟩ =
      .ok (.integer 2) ⟨#[⟨[("x", .integer 1)], none⟩, ⟨[], some 0⟩], 2, ""⟩ := by
  have hm : Reachable ⟨#[⟨[], none⟩], 0, ""⟩ := .scope none .refl
  have hscope : 0 < (Machine.mk #[⟨[], none⟩] 0 "").scopes.size := by decide
  have hstopped := limit_only_overflows hm hscope declareThenCall 0 0
  have hended := limit_only_overflows hm hscope declareThenCall 0 1
  have hrun : (declareThenCall.eval (.ofTable 0 1) 0).run ⟨#[⟨[], none⟩], 0, ""⟩ =
    .ok (.integer 2) ⟨#[⟨[("x", .integer 1)], none⟩, ⟨[], some 0⟩], 2, ""⟩ := rfl
  rw [hrun] at hended
  exact ⟨hm, hstopped, hended.2⟩

end MonkeyLang
