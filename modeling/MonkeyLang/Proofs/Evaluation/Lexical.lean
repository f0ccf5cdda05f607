import Mathlib.Data.List.Forall2
import MonkeyLang.Proofs.Evaluation.Trace

/-!
# The scopes of a traced run

What is known, while a program runs in a new scope, of the scopes that are made and of the functions
that capture them.

* `Machine.Matches`: a chain of scopes has one scope for each of the frames, which are the enclosing
  blocks, and binds names of these blocks only.
* `Placed` and `Homed`: a scope was made for a frame inside the scope of the frames around it, and a
  function comes from a literal in the program and has captured the scope of that literal.
* `Lexical` is the invariant: every scope of the run is placed, every function in it is homed, and
  every node is evaluated in a chain that matches the blocks around it.

Each step of evaluation has a lemma that says that it keeps `Lexical`: a visit, a new scope, a new
function, a declaration, and a call, whose body is run in a scope inside the captured one.
-/

namespace MonkeyLang

/-- The chain of scopes has one scope for each of the frames, and each scope binds names of its frame
only. -/
def Machine.Matches (machine : Machine) (scope : ScopeId) (frames : List Frame) : Prop :=
  List.Forall₂ (fun (s : Scope) (frame : Frame) => ∀ name ∈ Dict.keys s.bindings, name ∈ frame.names)
    (machine.chain scope) frames

section Lexical

variable (program : Program) (base : ScopeId)

/-- A function comes from a literal whose evaluation is on record, and has captured the scope of the
frames around the literal. -/
def Homed (t : Traced) (value : Value) : Prop :=
  ∀ id parameters body outer, value = .function id parameters body outer →
    (base ≤ outer ∧ outer < t.machine.scopes.size) ∧ id < t.machine.supply ∧
    t.origins id = t.homes outer ∧
    ∃ literal ∈ t.visits, ∃ token,
      literal.node = .expression (.function token parameters body) ∧
      literal.machine.supply = id ∧ literal.scope = outer ∧ literal.frames = t.homes outer ∧
      Occurs program literal.frames literal.node

/-- A scope was made for the innermost of its frames, inside the scope of the others. It binds names
of its frame, to values whose functions are homed. -/
structure Placed (t : Traced) (id : ScopeId) (scope : Scope) : Prop where
  link : (id = base ∧ scope.outer = none ∧ t.homes id = [program.frame]) ∨
    ∃ outer frame, scope.outer = some outer ∧ base ≤ outer ∧ outer < id ∧
      t.homes id = frame :: t.homes outer
  names : ∀ entry ∈ scope.bindings, ∃ frame rest, t.homes id = frame :: rest ∧ entry.1 ∈ frame.names
  values : ∀ entry ∈ scope.bindings, entry.2.All (Homed program base t)

/-- What holds of a function in a machine, given the record: it has captured a chain that matches the
place of its literal. -/
def Captures (visits : List Visit) (machine : Machine) (value : Value) : Prop :=
  ∀ id parameters body outer, value = .function id parameters body outer →
    ∃ literal ∈ visits, ∃ token,
      literal.node = .expression (.function token parameters body) ∧
      literal.machine.supply = id ∧ literal.scope = outer ∧
      Occurs program literal.frames literal.node ∧ machine.Matches outer literal.frames

/-- The scopes of a run are linked to earlier ones, and every function in them has captured a chain
that matches the place of its literal. -/
def WellScoped (visits : List Visit) (machine : Machine) : Prop :=
  ∀ (id : ScopeId) (scope : Scope), base ≤ id → machine.scopes[id]? = some scope →
    (∀ outer, scope.outer = some outer → base ≤ outer ∧ outer < id) ∧
    ∀ entry ∈ scope.bindings, entry.2.All (Captures program visits machine)

/-- What holds of the evaluation of a node. -/
structure Visit.Lexical (visits : List Visit) (v : Visit) : Prop where
  occurs : Occurs program v.frames v.node
  chain : v.machine.Matches v.scope v.frames
  wellScoped : WellScoped program base visits v.machine

/-- A scope of the run, made for these frames. -/
structure At (t : Traced) (scope : ScopeId) (frames : List Frame) : Prop where
  le : base ≤ scope
  lt : scope < t.machine.scopes.size
  homes : t.homes scope = frames

/-- The invariant of a run. -/
structure Lexical (t : Traced) : Prop where
  placed : ∀ (id : ScopeId) (scope : Scope), base ≤ id → t.machine.scopes[id]? = some scope →
    Placed program base t id scope
  visits : ∀ v ∈ t.visits, v.Lexical program base t.visits
  stays : ∀ v ∈ t.visits, At base t v.scope v.frames
  chains : t.visits.Pairwise fun later earlier => later.machine.Matches earlier.scope earlier.frames

end Lexical

/-- What has been recorded stays. -/
structure Grows (t t' : Traced) : Prop where
  size : t.machine.scopes.size ≤ t'.machine.scopes.size
  supply : t.machine.supply ≤ t'.machine.supply
  homes : ∀ id < t.machine.scopes.size, t'.homes id = t.homes id
  origins : ∀ id < t.machine.supply, t'.origins id = t.origins id
  visits : t.visits ⊆ t'.visits

theorem Grows.refl (t : Traced) : Grows t t :=
  ⟨Nat.le_refl _, Nat.le_refl _, fun _ _ => rfl, fun _ _ => rfl, fun _ h => h⟩

theorem Grows.trans {t t' t'' : Traced} (h : Grows t t') (h' : Grows t' t'') : Grows t t'' :=
  ⟨Nat.le_trans h.size h'.size, Nat.le_trans h.supply h'.supply,
    fun id hid => (h'.homes id (Nat.lt_of_lt_of_le hid h.size)).trans (h.homes id hid),
    fun id hid => (h'.origins id (Nat.lt_of_lt_of_le hid h.supply)).trans (h.origins id hid),
    fun _ hv => h'.visits (h.visits hv)⟩

section Mono

variable {program : Program} {base : ScopeId} {t t' : Traced} {value : Value}

theorem Homed.mono (h : Homed program base t value) (hg : Grows t t') :
    Homed program base t' value := by
  intro id parameters body outer hvalue
  obtain ⟨⟨hle, hlt⟩, hid, horigin, literal, hliteral, token, hnode, hsupply, hscope, hframes, hocc⟩ :=
    h id parameters body outer hvalue
  have hhome := hg.homes outer hlt
  exact ⟨⟨hle, Nat.lt_of_lt_of_le hlt hg.size⟩, Nat.lt_of_lt_of_le hid hg.supply,
    by rw [hg.origins id hid, horigin, hhome], literal, hg.visits hliteral, token, hnode, hsupply,
    hscope, by rw [hframes, hhome], hocc⟩

theorem Homed.all_mono (h : value.All (Homed program base t)) (hg : Grows t t') :
    value.All (Homed program base t') :=
  h.mono fun _ h => h.mono hg

theorem plain_homed (program : Program) (base : ScopeId) (t : Traced) :
    Value.Plain (Homed program base t) := by
  constructor <;> intros <;> intro _ _ _ _ h <;> cases h

theorem At.mono {scope : ScopeId} {frames : List Frame} (h : At base t scope frames)
    (hg : Grows t t') : At base t' scope frames :=
  ⟨h.le, Nat.lt_of_lt_of_le h.lt hg.size, by rw [hg.homes scope h.lt, h.homes]⟩

theorem Captures.mono {visits visits' : List Visit} {m : Machine} (hsub : visits ⊆ visits')
    (h : Captures program visits m value) : Captures program visits' m value := by
  intro id parameters body outer hvalue
  obtain ⟨literal, hliteral, h⟩ := h id parameters body outer hvalue
  exact ⟨literal, hsub hliteral, h⟩

theorem Visit.Lexical.mono {visits visits' : List Visit} {v : Visit} (hsub : visits ⊆ visits')
    (h : v.Lexical program base visits) : v.Lexical program base visits' :=
  ⟨h.occurs, h.chain, fun id scope hid hscope =>
    let ⟨hlink, hvalues⟩ := h.wellScoped id scope hid hscope
    ⟨hlink, fun entry hentry => (hvalues entry hentry).mono fun _ h => h.mono hsub⟩⟩

/-- A scope stays placed as long as it does not change. -/
theorem Placed.mono {id : ScopeId} {scope : Scope} (h : Placed program base t id scope)
    (hg : Grows t t') (hid : id < t.machine.scopes.size) : Placed program base t' id scope := by
  refine ⟨?_, ?_, fun entry hentry => Homed.all_mono (h.values entry hentry) hg⟩
  · rcases h.link with ⟨hbase, houter, hhome⟩ | ⟨outer, frame, houter, hle, hlt, hhome⟩
    · exact .inl ⟨hbase, houter, by rw [hg.homes id hid, hhome]⟩
    · exact .inr ⟨outer, frame, houter, hle, hlt,
        by rw [hg.homes id hid, hhome, hg.homes outer (Nat.lt_trans hlt hid)]⟩
  · intro entry hentry
    rw [hg.homes id hid]
    exact h.names entry hentry

end Mono

/-! ### Consequences of the invariant -/

section Invariant

variable {program : Program} {base : ScopeId} {t : Traced} {scope : ScopeId} {frames : List Frame}

/-- The chain of a scope matches the frames it was made for. -/
theorem Lexical.matches (h : Lexical program base t) (hat : At base t scope frames) :
    t.machine.Matches scope frames := by
  obtain ⟨hle, hlt, rfl⟩ := hat
  -- outer scopes are earlier ones, hence the induction
  induction scope using Nat.strongRecOn with
  | ind scope ih =>
    have hscope : t.machine.scopes[scope]? = some t.machine.scopes[scope] :=
      Array.getElem?_eq_getElem hlt
    obtain ⟨hlink, hnames, _⟩ := h.placed scope _ hle hscope
    have hkeys : ∀ {frame rest}, t.homes scope = frame :: rest →
        ∀ name ∈ Dict.keys t.machine.scopes[scope].bindings, name ∈ frame.names := by
      intro frame rest hhome name hname
      obtain ⟨entry, hentry, rfl⟩ := List.mem_map.1 hname
      obtain ⟨frame', rest', hhome', hmem⟩ := hnames entry hentry
      rw [hhome] at hhome'
      cases hhome'
      exact hmem
    unfold Machine.Matches
    rw [Machine.chain, hscope]
    dsimp only
    rcases hlink with ⟨_, houter, hhome⟩ | ⟨outer, frame, houter, hle', hlt', hhome⟩
    · rw [houter, hhome]
      exact .cons (hkeys hhome) .nil
    · rw [houter, hhome]
      dsimp only
      rw [if_pos hlt']
      exact .cons (hkeys hhome) (ih outer hlt' hle' (Nat.lt_trans hlt' hlt))

theorem Lexical.captures (h : Lexical program base t) {value : Value}
    (hvalue : Homed program base t value) : Captures program t.visits t.machine value := by
  intro id parameters body outer heq
  obtain ⟨⟨hle, hlt⟩, _, _, literal, hliteral, token, hnode, hsupply, hscope, hframes, hocc⟩ :=
    hvalue id parameters body outer heq
  exact ⟨literal, hliteral, token, hnode, hsupply, hscope, hocc,
    h.matches ⟨hle, hlt, hframes.symm⟩⟩

theorem Lexical.wellScoped (h : Lexical program base t) :
    WellScoped program base t.visits t.machine := by
  intro id scope hid hscope
  have hplaced := h.placed id scope hid hscope
  refine ⟨fun outer houter => ?_, fun entry hentry =>
    (hplaced.values entry hentry).mono fun _ => h.captures⟩
  rcases hplaced.link with ⟨_, hnone, _⟩ | ⟨outer', _, hsome, hle, hlt, _⟩
  · rw [houter] at hnone; cases hnone
  · rw [houter] at hsome
    cases hsome
    exact ⟨hle, hlt⟩

/-- The values of names are homed. -/
theorem Lexical.lookup (h : Lexical program base t) (hle : base ≤ scope) {name : String}
    {value : Value} (hvalue : t.machine.lookup scope name = some value) :
    value.All (Homed program base t) := by
  obtain ⟨id, s, hid, hs, hentry⟩ := Machine.exists_of_lookup (P := (base ≤ ·))
    (fun id s outer hid hs houter => ((h.wellScoped id s hid hs).1 outer houter).1) hle hvalue
  exact (h.placed id s hid hs).values _ hentry

end Invariant

/-! ### Steps -/

section Steps

variable {program : Program} {base : ScopeId} {t : Traced} {scope : ScopeId} {frames : List Frame}

/-- A step keeps the invariant if the scopes that it changes are placed. -/
theorem Lexical.step {t' : Traced} (h : Lexical program base t) (hg : Grows t t')
    (hvisits : t'.visits = t.visits)
    (hplaced : ∀ (id : ScopeId) (s : Scope), base ≤ id → t'.machine.scopes[id]? = some s →
      t.machine.scopes[id]? = some s ∨ Placed program base t' id s) :
    Grows t t' ∧ Lexical program base t' := by
  refine ⟨hg, fun id s hid hs => ?_, by rw [hvisits]; exact h.visits, fun v hv => ?_,
    by rw [hvisits]; exact h.chains⟩
  · rcases hplaced id s hid hs with hs | hplaced
    · exact (h.placed id s hid hs).mono hg (Array.getElem?_eq_some_iff.1 hs).1
    · exact hplaced
  · rw [hvisits] at hv
    exact (h.stays v hv).mono hg

/-- The evaluation of a node is put on record. -/
theorem Lexical.visit (h : Lexical program base t) (hat : At base t scope frames) {node : Node}
    (hocc : Occurs program frames node) :
    Grows t (t.visit frames node scope) ∧ Lexical program base (t.visit frames node scope) := by
  have hsub : t.visits ⊆ (t.visit frames node scope).visits := List.subset_cons_self _ _
  have hg : Grows t (t.visit frames node scope) :=
    ⟨Nat.le_refl _, Nat.le_refl _, fun _ _ => rfl, fun _ _ => rfl, hsub⟩
  refine ⟨hg, fun id s hid hs => ?_, fun v hv => ?_, fun v hv => ?_, ?_⟩
  · exact (h.placed id s hid hs).mono hg (Array.getElem?_eq_some_iff.1 hs).1
  · rcases List.mem_cons.1 hv with rfl | hv
    · exact (⟨hocc, h.matches hat, h.wellScoped⟩ : Visit.Lexical program base t.visits _).mono hsub
    · exact (h.visits v hv).mono hsub
  · rcases List.mem_cons.1 hv with rfl | hv
    · exact hat.mono hg
    · exact (h.stays v hv).mono hg
  · exact List.pairwise_cons.2 ⟨fun v hv => h.matches (h.stays v hv), h.chains⟩

/-- Steps that leave the scopes alone. -/
theorem Lexical.act (h : Lexical program base t) {m : Machine}
    (hscopes : m.scopes = t.machine.scopes) (hsupply : t.machine.supply ≤ m.supply) :
    Grows t { t with machine := m } ∧ Lexical program base { t with machine := m } := by
  refine h.step ⟨Nat.le_of_eq (by rw [hscopes]), hsupply, fun _ _ => rfl, fun _ _ => rfl,
    fun _ hv => hv⟩ rfl fun id s _ hs => .inl ?_
  rwa [← hscopes]

/-- A new scope inside the scope of the frames around its own. -/
theorem Lexical.enter (h : Lexical program base t) (hat : At base t scope frames) (frame : Frame) :
    Grows t (t.enter (frame :: frames) scope) ∧ Lexical program base (t.enter (frame :: frames) scope) ∧
      At base (t.enter (frame :: frames) scope) t.machine.scopes.size (frame :: frames) := by
  have hhomes : ∀ id < t.machine.scopes.size,
      (t.enter (frame :: frames) scope).homes id = t.homes id :=
    fun id hid => Function.update_of_ne (Nat.ne_of_lt hid) _ _
  have hhome : (t.enter (frame :: frames) scope).homes t.machine.scopes.size = frame :: frames :=
    Function.update_self _ _ _
  have hg : Grows t (t.enter (frame :: frames) scope) :=
    ⟨Nat.le_of_lt (t.size_enter _ scope), Nat.le_refl _, hhomes, fun _ _ => rfl, fun _ hv => hv⟩
  have hat' : At base (t.enter (frame :: frames) scope) t.machine.scopes.size (frame :: frames) :=
    ⟨Nat.le_trans hat.le (Nat.le_of_lt hat.lt), t.size_enter _ scope, hhome⟩
  rw [← and_assoc]
  refine ⟨h.step hg rfl fun id s _ hs => ?_, hat'⟩
  unfold Traced.enter at hs
  rw [Array.getElem?_push] at hs
  by_cases hlast : id = t.machine.scopes.size
  · rw [if_pos hlast] at hs
    cases hs
    subst hlast
    exact .inr ⟨.inr ⟨scope, frame, rfl, hat.le, hat.lt, by rw [hhome, hhomes scope hat.lt, hat.homes]⟩,
      nofun, nofun⟩
  · rw [if_neg hlast] at hs
    exact .inl hs

/-- A function is made from a literal whose evaluation is on record. -/
theorem Lexical.newFunction (h : Lexical program base t) (hat : At base t scope frames)
    {token : Token} {parameters : List Ident} {body : Block}
    (hvisit : ⟨frames, .expression (.function token parameters body), scope, t.machine⟩ ∈ t.visits) :
    Grows t (t.newFunction frames) ∧ Lexical program base (t.newFunction frames) ∧
      Homed program base (t.newFunction frames)
        (.function t.machine.supply parameters body scope) := by
  have hg : Grows t (t.newFunction frames) :=
    ⟨Nat.le_refl _, Nat.le_succ _, fun _ _ => rfl,
      fun id hid => Function.update_of_ne (Nat.ne_of_lt hid) _ _, fun _ hv => hv⟩
  rw [← and_assoc]
  refine ⟨h.step hg rfl fun _ _ _ hs => .inl hs, ?_⟩
  rintro id parameters' body' outer hvalue
  cases hvalue
  refine ⟨⟨hat.le, hat.lt⟩, Nat.lt_succ_self _, ?_, _, hvisit, token, rfl, rfl, rfl,
    hat.homes.symm, (h.visits _ hvisit).occurs⟩
  exact (Function.update_self _ _ _).trans hat.homes.symm

/-- A name of the frame is bound in its scope. -/
theorem Lexical.declare (h : Lexical program base t) {frame : Frame}
    (hat : At base t scope (frame :: frames)) {name : String} (hname : name ∈ frame.names)
    {value : Value} (hvalue : value.All (Homed program base t)) :
    Grows t { t with machine := t.machine.declare scope name value } ∧
      Lexical program base { t with machine := t.machine.declare scope name value } := by
  have hg : Grows t { t with machine := t.machine.declare scope name value } :=
    ⟨Nat.le_of_eq (t.machine.size_declare scope name value).symm, Nat.le_refl _, fun _ _ => rfl,
      fun _ _ => rfl, fun _ hv => hv⟩
  refine h.step hg rfl fun id s hid hs => ?_
  unfold Machine.declare at hs
  rw [Array.getElem?_modify] at hs
  by_cases hscope : scope = id
  · rw [if_pos hscope] at hs
    obtain ⟨before, hbefore, rfl⟩ := Option.map_eq_some_iff.1 hs
    have hplaced := (h.placed id before hid hbefore).mono hg (Array.getElem?_eq_some_iff.1 hbefore).1
    refine .inr ⟨hplaced.link, fun entry hentry => ?_, fun entry hentry => ?_⟩
    · rcases Dict.mem_insert hentry with rfl | hentry
      · exact ⟨frame, frames, hscope ▸ hat.homes, hname⟩
      · exact hplaced.names entry hentry
    · rcases Dict.mem_insert hentry with rfl | hentry
      · exact Homed.all_mono hvalue hg
      · exact hplaced.values entry hentry
  · rw [if_neg hscope] at hs
    exact .inl hs

/-- The parameters of a frame are bound in its scope. -/
theorem Lexical.bindParameters (h : Lexical program base t) {frame : Frame}
    (hat : At base t scope (frame :: frames)) {arguments : List Value}
    (harguments : ∀ v ∈ arguments, v.All (Homed program base t)) :
    Grows t { t with machine := t.machine.bindParameters scope frame.parameters arguments } ∧
      Lexical program base
        { t with machine := t.machine.bindParameters scope frame.parameters arguments } := by
  refine Machine.bindParameters_induction
    (P := fun m => Grows t { t with machine := m } ∧ Lexical program base { t with machine := m })
    (fun m parameter hparameter argument hargument ⟨hg, h⟩ => ?_) ⟨Grows.refl t, h⟩
  have hname : parameter.name ∈ frame.names :=
    List.mem_append_left _ (List.mem_map_of_mem hparameter)
  -- the arguments are homed from the start, and stay so while earlier parameters are bound
  have hvalue := Homed.all_mono (harguments argument hargument) hg
  obtain ⟨hg', h'⟩ := h.declare (hat.mono hg) hname hvalue
  exact ⟨hg.trans hg', h'⟩

/-- The body of a function is run in a scope inside the one it has captured, which is that of the
frames around its literal: who calls the function does not matter. -/
theorem Lexical.call (h : Lexical program base t) {id : ObjectId} {parameters : List Ident}
    {body : Block} {outer : ScopeId} {arguments : List Value}
    (hfunction : Homed program base t (.function id parameters body outer))
    (harguments : ∀ v ∈ arguments, v.All (Homed program base t)) :
    Grows t (t.call id parameters body outer arguments) ∧
      Lexical program base (t.call id parameters body outer arguments) ∧
      At base (t.call id parameters body outer arguments) t.machine.scopes.size
        (⟨parameters, body.statements⟩ :: t.origins id) ∧
      ∀ st ∈ body.statements,
        Occurs program (⟨parameters, body.statements⟩ :: t.origins id) (.statement st) := by
  obtain ⟨⟨hle, hlt⟩, _, horigin, literal, _, token, hnode, _, _, hframes, hocc⟩ :=
    hfunction id parameters body outer rfl
  have hat : At base t outer (t.origins id) := ⟨hle, hlt, horigin.symm⟩
  rw [hframes, ← horigin, hnode] at hocc
  obtain ⟨hg, h', hat'⟩ := h.enter hat ⟨parameters, body.statements⟩
  obtain ⟨hg', h''⟩ :=
    h'.bindParameters hat' fun v hv => Homed.all_mono (harguments v hv) hg
  exact ⟨hg.trans hg', h'', hat'.mono hg', fun st hst => hocc.inFrame rfl hst⟩

end Steps

end MonkeyLang
