import MonkeyLang.Proofs.Evaluation.Frame
import MonkeyLang.Proofs.Evaluation.Trace

/-!
# Disciplines

A `Discipline` is a property of records of evaluation that survives every step of the evaluator: a
node is put on record, an identity is taken or a text printed, a scope is added for a block or a
call, a function is made, a name is declared. Beside the property it has what is known of the scope
a node is evaluated in, of the node, and of the values that are passed around.

`Discipline.keeps_program` says that what the steps keep, the evaluation of a program keeps, also
when it stops because calls nest too deeply.
-/

namespace MonkeyLang

/-- A property of records that the steps of evaluation keep. -/
structure Discipline where
  /-- what is kept -/
  Holds : Traced → Prop
  /-- how a record goes on -/
  Grows : Traced → Traced → Prop
  /-- what is known of a scope and the frames it is for -/
  At : Traced → ScopeId → List Frame → Prop
  /-- what is known of a node with frames around it -/
  Fits : List Frame → Node → Prop
  /-- what is known of the parts of values -/
  Fine : Traced → Value → Prop
  refl : ∀ t, Grows t t
  trans : ∀ {t t' t''}, Grows t t' → Grows t' t'' → Grows t t''
  at_mono : ∀ {t t' scope frames}, At t scope frames → Grows t t' → At t' scope frames
  at_lt : ∀ {t scope frames}, At t scope frames → scope < t.machine.scopes.size
  fits_child : ∀ {frames inner node node'}, Fits frames node → (inner, node') ∈ node.children →
    Fits (inner ++ frames) node'
  fine_mono : ∀ {t t' value}, Fine t value → Grows t t' → Fine t' value
  fine_plain : ∀ t, Value.Plain (Fine t)
  fine_error : ∀ t id fault, Fine t (.error id fault)
  fine_ret : ∀ t id value, Fine t (.ret id value)
  lookup : ∀ {t scope frames name value}, Holds t → At t scope frames →
    t.machine.lookup scope name = some value → value.All (Fine t)
  visit : ∀ {t scope frames node}, Holds t → At t scope frames → Fits frames node →
    Grows t (t.visit frames node scope) ∧ Holds (t.visit frames node scope)
  act : ∀ {t m}, Holds t → m.scopes = t.machine.scopes → t.machine.supply ≤ m.supply →
    Grows t { t with machine := m } ∧ Holds { t with machine := m }
  enter : ∀ {t scope frames} frame, Holds t → At t scope frames →
    Grows t (t.enter (frame :: frames) scope) ∧ Holds (t.enter (frame :: frames) scope) ∧
      At (t.enter (frame :: frames) scope) t.machine.scopes.size (frame :: frames)
  newFunction : ∀ {t scope frames token parameters body}, Holds t → At t scope frames →
    ⟨frames, .expression (.function token parameters body), scope, t.machine⟩ ∈ t.visits →
    Grows t (t.newFunction frames) ∧ Holds (t.newFunction frames) ∧
      Fine (t.newFunction frames) (.function t.machine.supply parameters body scope)
  declare : ∀ {t scope frame frames name value}, Holds t → At t scope (frame :: frames) →
    name ∈ frame.names → t.machine.lookupLocal scope name = none → value.All (Fine t) →
    Grows t { t with machine := t.machine.declare scope name value } ∧
      Holds { t with machine := t.machine.declare scope name value }
  call : ∀ {t id parameters body outer arguments}, Holds t →
    Fine t (.function id parameters body outer) → (∀ v ∈ arguments, v.All (Fine t)) →
    Grows t (t.call id parameters body outer arguments) ∧
      Holds (t.call id parameters body outer arguments) ∧
      At (t.call id parameters body outer arguments) t.machine.scopes.size
        (⟨parameters, body.statements⟩ :: t.origins id) ∧
      ∀ st ∈ body.statements,
        Fits (⟨parameters, body.statements⟩ :: t.origins id) (.statement st)

namespace Discipline

variable (D : Discipline)

/-- Every part of the value is fine. -/
def Good (t : Traced) (value : Value) : Prop := value.All (D.Fine t)

/-- The values, or the error, are good. -/
def GoodList (t : Traced) : Except Value (List Value) → Prop
  | .ok values => ∀ value ∈ values, D.Good t value
  | .error error => D.Good t error

/-- The entries, or the error, are good. -/
def GoodEntries (t : Traced) : Except Value (List (HashKey × Value × Value)) → Prop
  | .ok entries => Value.AllEntries (D.Fine t) entries
  | .error error => D.Good t error

/-- From `t` on the computation keeps the discipline, and its result is `good`. -/
def Keeps {α : Type} (x : Tracing α) (t : Traced) (good : Traced → α → Prop) : Prop :=
  Ensures x t (fun a t' => D.Grows t t' ∧ D.Holds t' ∧ good t' a)
    fun _ t' => D.Grows t t' ∧ D.Holds t'

/-- Calls in the context keep the discipline. -/
def KeepsCalls (ctx : Trace.Context) : Prop :=
  ∀ function arguments t, D.Holds t → D.Good t function → (∀ v ∈ arguments, D.Good t v) →
    D.Keeps (ctx.call function arguments) t D.Good

variable {D}

section Steps

variable {α β : Type} {x y : Tracing α} {t t' : Traced} {good : Traced → α → Prop}
  {good' : Traced → β → Prop} {scope : ScopeId} {frame : Frame} {frames : List Frame}
  {value : Value} {arguments : List Value}

theorem Good.mono (h : D.Good t value) (hg : D.Grows t t') : D.Good t' value :=
  Value.All.mono h fun _ h => D.fine_mono h hg

theorem good_null : D.Good t .null := Value.all_null.2 (D.fine_plain t).null

/-- A node without a new frame around it. -/
theorem fits_part {node node' : Node} {nodes : List Node} (h : D.Fits frames node)
    (hchildren : node.children = Node.here nodes) (hnode : node' ∈ nodes) : D.Fits frames node' := by
  have hchild : ([], node') ∈ node.children := by
    rw [hchildren]
    exact Node.mem_here hnode
  exact D.fits_child h hchild

/-- A statement of a frame. -/
theorem fits_within {node : Node} {st : Stmt} (h : D.Fits frames node)
    (hchildren : node.children = Node.within frame) (hst : st ∈ frame.statements) :
    D.Fits (frame :: frames) (.statement st) := by
  have hchild : ([frame], .statement st) ∈ node.children := by
    rw [hchildren]
    exact Node.mem_within hst
  exact D.fits_child h hchild

theorem keeps_pure {a : α} (h : D.Holds t) (ha : good t a) : D.Keeps (pure a) t good :=
  ⟨D.refl t, h, ha⟩

/-- What grows from a later record grows from an earlier one. -/
theorem Keeps.after (hg : D.Grows t t') (h : D.Keeps x t' good) :
    Ensures x t' (fun a t'' => D.Grows t t'' ∧ D.Holds t'' ∧ good t'' a)
      fun _ t'' => D.Grows t t'' ∧ D.Holds t'' :=
  Ensures.mono h (fun _ _ ⟨hg', h⟩ => ⟨D.trans hg hg', h⟩) fun _ _ ⟨hg', h⟩ => ⟨D.trans hg hg', h⟩

theorem Keeps.bind {f : α → Tracing β} (hx : D.Keeps x t good)
    (hf : ∀ a t', D.Grows t t' → D.Holds t' → good t' a → D.Keeps (f a) t' good') :
    D.Keeps (x >>= f) t good' :=
  Ensures.bind hx fun a t' ⟨hg, h, ha⟩ => (hf a t' hg h ha).after hg

/-- What a computation ensures besides. -/
theorem Keeps.and {P : Traced → Prop} (hx : D.Keeps x t good)
    (hP : Ensures x t (fun _ t' => P t') fun _ t' => P t') :
    D.Keeps x t fun t' a => good t' a ∧ P t' :=
  Ensures.mono (Ensures.and hx hP) (fun _ _ ⟨⟨hg, h, ha⟩, hP⟩ => ⟨hg, h, ha, hP⟩) fun _ _ h => h.1

theorem keeps_ite {c : Prop} [Decidable c] (hx : D.Keeps x t good) (hy : D.Keeps y t good) :
    D.Keeps (if c then x else y) t good := by
  by_cases h : c
  · rwa [if_pos h]
  · rwa [if_neg h]

/-- The record may be looked at. -/
theorem keeps_get {f : Traced → Tracing β} (h : D.Keeps (f t) t good') :
    D.Keeps (get >>= f) t good' := h

theorem keeps_act {x : Eval Value} (h : D.Holds t) (hx : Harmless (D.Fine t) x t.machine) :
    D.Keeps (Trace.act x) t D.Good := by
  have hrun : (Trace.act x).run t = Trace.act x t := rfl
  unfold Keeps Ensures
  rw [hrun, Trace.act]
  cases hx' : x.run t.machine with
  | ok v m =>
    obtain ⟨hscopes, hsupply, hv⟩ := Ensures.of_ok hx hx'
    obtain ⟨hg, h'⟩ := D.act h hscopes hsupply
    exact ⟨hg, h', Good.mono hv hg⟩
  | error o m => exact (Ensures.of_error hx hx').elim

theorem keeps_raise (h : D.Holds t) (fault : Fault) :
    D.Keeps (Trace.act (Eval.raise fault)) t D.Good :=
  keeps_act h (harmless_raise (D.fine_error t) fault)

theorem keeps_ofResult (h : D.Holds t) {r : Except Fault Value} (hr : ∀ v, r = .ok v → D.Good t v) :
    D.Keeps (Trace.act (Eval.ofResult r)) t D.Good :=
  keeps_act h (harmless_ofResult (D.fine_error t) hr)

theorem keeps_newReturn (h : D.Holds t) (hvalue : D.Good t value) :
    D.Keeps (Trace.act (Eval.newReturn value)) t D.Good :=
  keeps_act h ⟨rfl, Nat.le_succ _, Value.all_ret.2 ⟨D.fine_ret t _ value, hvalue⟩⟩

/-- The evaluation of a node is put on record before its parts are evaluated. -/
theorem keeps_visit (h : D.Holds t) (hat : D.At t scope frames) {node : Node}
    (hfits : D.Fits frames node)
    (hx : ∀ t', D.Grows t t' → D.Holds t' → D.At t' scope frames → D.Keeps x t' good) :
    D.Keeps (Trace.visit frames node scope >>= fun _ => x) t good := by
  obtain ⟨hg, h'⟩ := D.visit h hat hfits
  have hkeeps := (hx _ hg h' (D.at_mono hat hg)).after hg
  exact hkeeps

/-- A scope for a new frame. -/
theorem keeps_enter (h : D.Holds t) (hat : D.At t scope frames) (frame : Frame)
    {f : ScopeId → Tracing α}
    (hf : ∀ id t', D.Grows t t' → D.Holds t' → D.At t' id (frame :: frames) →
      D.Keeps (f id) t' good) :
    D.Keeps (Trace.enter (frame :: frames) scope >>= f) t good := by
  obtain ⟨hg, h', hat'⟩ := D.enter frame h hat
  have hkeeps := (hf _ _ hg h' hat').after hg
  exact hkeeps

/-- A new function comes from the literal whose evaluation has just been put on record. -/
theorem keeps_function (h : D.Holds t) (hat : D.At t scope frames) {token : Token}
    {parameters : List Ident} {body : Block}
    (hfits : D.Fits frames (.expression (.function token parameters body))) :
    D.Keeps (do
      Trace.visit frames (.expression (.function token parameters body)) scope
      Trace.newFunction frames parameters body scope) t D.Good := by
  obtain ⟨hg, h'⟩ := D.visit h hat hfits
  obtain ⟨hg', h'', hfine⟩ := D.newFunction h' (D.at_mono hat hg) List.mem_cons_self
  exact ⟨D.trans hg hg', h'', Value.all_function.2 hfine⟩

/-- A name of the frame is bound in its scope, where it was free. -/
theorem keeps_declare (h : D.Holds t) (hat : D.At t scope (frame :: frames)) {name : String}
    (hname : name ∈ frame.names) (hfree : t.machine.lookupLocal scope name = none)
    (hvalue : D.Good t value) :
    D.Keeps (do Trace.act (Eval.declare scope name value); return value) t D.Good := by
  obtain ⟨hg, h'⟩ := D.declare h hat hname hfree hvalue
  exact ⟨hg, h', Good.mono hvalue hg⟩

/-- The scope of a call, with its parameters bound. -/
theorem keeps_call {id : ObjectId} {parameters : List Ident} {body : Block} {outer : ScopeId}
    (h : D.Holds t) (hfunction : D.Good t (.function id parameters body outer))
    (harguments : ∀ v ∈ arguments, D.Good t v) {f : ScopeId → Tracing α}
    (hf : ∀ scope t', D.Grows t t' → D.Holds t' →
      D.At t' scope (⟨parameters, body.statements⟩ :: t.origins id) →
      (∀ st ∈ body.statements,
        D.Fits (⟨parameters, body.statements⟩ :: t.origins id) (.statement st)) →
      D.Keeps (f scope) t' good) :
    D.Keeps (do
      let scope ← Trace.enter (⟨parameters, body.statements⟩ :: t.origins id) outer
      Trace.act (bindParameters scope parameters arguments)
      f scope) t good := by
  obtain ⟨hg, h', hat, hfits⟩ := D.call h (Value.all_function.1 hfunction) harguments
  have hkeeps := (hf _ _ hg h' hat hfits).after hg
  have hbind : (Trace.act (bindParameters t.machine.scopes.size parameters arguments)).run
      (t.enter (⟨parameters, body.statements⟩ :: t.origins id) outer) =
      .ok () (t.call id parameters body outer arguments) := by
    show Trace.act (bindParameters t.machine.scopes.size parameters arguments) _ = _
    rw [Trace.act, run_bindParameters]
    rfl
  unfold Keeps
  rw [ensures_bind]
  show Ensures (Trace.act (bindParameters t.machine.scopes.size parameters arguments) >>= fun _ =>
    f t.machine.scopes.size) (t.enter (⟨parameters, body.statements⟩ :: t.origins id) outer) _ _
  exact (ensures_congr (run_bind_of_ok hbind)).2 hkeeps

/-- A condition and the two ways to go on. -/
theorem keeps_condition {x k k' : Tracing Value} (hx : D.Keeps x t D.Good)
    (hk : ∀ t', D.Grows t t' → D.Holds t' → D.Keeps k t' D.Good)
    (hk' : ∀ t', D.Grows t t' → D.Holds t' → D.Keeps k' t' D.Good) :
    D.Keeps (do
      match ← x with
      | .boolean true => k
      | .boolean false => k'
      | value =>
        if value.isError then return value
        else Trace.act (Eval.raise (.conditionNotBoolean value.type))) t D.Good := by
  refine hx.bind fun v t' hg h hv => ?_
  split
  · exact hk t' hg h
  · exact hk' t' hg h
  · exact keeps_ite (keeps_pure h hv) (keeps_raise h _)

end Steps

section Tree

variable {table : ObjectId} {depth : Nat}

/-- The value of a name is the innermost binding, or else of no concern. -/
theorem harmless_name {t : Traced} {scope : ScopeId} {frames : List Frame} (h : D.Holds t)
    (hat : D.At t scope frames) (ctx : Context) (name : String) :
    Harmless (D.Fine t) (evalName ctx scope name) t.machine := by
  unfold evalName
  refine ensures_get_bind ?_
  cases hlookup : t.machine.lookup scope name with
  | some value => exact harmless_pure (D.lookup h hat hlookup)
  | none =>
    cases Builtin.ofName? name with
    | some builtin => exact harmless_pure (Value.all_builtin.2 ((D.fine_plain t).builtin _ _))
    | none => exact harmless_raise (D.fine_error t) _

/-- An expression without parts. -/
theorem keeps_leaf {ctx : Trace.Context} {frames : List Frame} {scope : ScopeId} {e : Expr}
    {t : Traced} (h : D.Holds t) (hat : D.At t scope frames) (hfits : D.Fits frames (.expression e))
    (he : ∀ t', D.Holds t' → D.At t' scope frames →
      Harmless (D.Fine t') (e.eval ctx.plain scope) t'.machine) :
    D.Keeps (Trace.leaf ctx frames scope e) t D.Good :=
  keeps_visit h hat hfits fun t' _ h' hat' => keeps_act h' (he t' h' hat')

mutual

theorem keeps_expression (hctx : D.KeepsCalls (.ofTable table depth)) (frames : List Frame)
    (scope : ScopeId) : ∀ (e : Expr) {t : Traced}, D.Holds t → D.At t scope frames →
      D.Fits frames (.expression e) →
      D.Keeps (Trace.expression (.ofTable table depth) frames scope e) t D.Good
  | .missing, t, h, hat, hfits => by
    rw [Trace.expression]
    exact keeps_leaf h hat hfits fun t' _ _ => by
      rw [Expr.eval]; exact harmless_raise (D.fine_error t') _
  | .unknown .., t, h, hat, hfits => by
    rw [Trace.expression]
    exact keeps_leaf h hat hfits fun t' _ _ => by
      rw [Expr.eval]; exact harmless_raise (D.fine_error t') _
  | .identifier ident, t, h, hat, hfits => by
    rw [Trace.expression]
    exact keeps_leaf h hat hfits fun t' h' hat' => by
      rw [Expr.eval]; exact harmless_name h' hat' _ ident.name
  | .integer .., t, h, hat, hfits => by
    rw [Trace.expression]
    exact keeps_leaf h hat hfits fun t' _ _ => by
      rw [Expr.eval]
      exact harmless_pure (Value.all_integer.2 ((D.fine_plain t').integer _))
  | .boolean .., t, h, hat, hfits => by
    rw [Trace.expression]
    exact keeps_leaf h hat hfits fun t' _ _ => by
      rw [Expr.eval]
      exact harmless_pure (Value.all_boolean.2 ((D.fine_plain t').boolean _))
  | .text .., t, h, hat, hfits => by
    rw [Trace.expression]
    exact keeps_leaf h hat hfits fun t' _ _ => by
      rw [Expr.eval]
      exact harmless_pure (Value.all_text.2 ((D.fine_plain t').text _))
  | .unary _ _ operand, t, h, hat, hfits => by
    rw [Trace.expression]
    refine keeps_visit h hat hfits fun t' _ h' hat' => ?_
    have hoperand := fits_part hfits rfl List.mem_cons_self
    refine (keeps_expression hctx frames scope operand h' hat' hoperand).bind
      fun v t' _ h' hv => keeps_ite (keeps_pure h' hv) ?_
    exact keeps_ofResult h' fun _ => Value.all_unary (D.fine_plain t').computed
  | .binary _ left _ right, t, h, hat, hfits => by
    rw [Trace.expression]
    refine keeps_visit h hat hfits fun t' _ h' hat' => ?_
    have hleft := fits_part hfits rfl List.mem_cons_self
    have hright := fits_part hfits rfl (List.mem_cons_of_mem _ List.mem_cons_self)
    refine (keeps_expression hctx frames scope left h' hat' hleft).bind
      fun a t' hg h' ha => keeps_ite (keeps_pure h' ha) ?_
    refine (keeps_expression hctx frames scope right h' (D.at_mono hat' hg) hright).bind
      fun b t' _ h' hb => keeps_ite (keeps_pure h' hb) ?_
    exact keeps_ofResult h' fun _ => Value.all_binary (D.fine_plain t').computed
  | .function _ parameters body, t, h, hat, hfits => by
    rw [Trace.expression]
    exact keeps_function h hat hfits
  | .call _ callee arguments, t, h, hat, hfits => by
    rw [Trace.expression]
    refine keeps_visit h hat hfits fun t' _ h' hat' => ?_
    have hcallee := fits_part hfits rfl List.mem_cons_self
    refine (keeps_expression hctx frames scope callee h' hat' hcallee).bind
      fun f t₁ hg h₁ hf => keeps_ite (keeps_pure h₁ hf) ?_
    have harguments : ∀ e ∈ arguments, D.Fits frames (.expression e) := fun e he =>
      fits_part hfits rfl (List.mem_cons_of_mem _ (List.mem_map_of_mem he))
    refine (keeps_list hctx frames scope arguments h₁ (D.at_mono hat' hg) harguments).bind
      fun r t₂ hg₂ h₂ hr => ?_
    cases r with
    | error error => exact keeps_pure h₂ hr
    | ok values => exact hctx f values t₂ h₂ (Good.mono hf hg₂) hr
  | .array _ elements, t, h, hat, hfits => by
    rw [Trace.expression]
    refine keeps_visit h hat hfits fun t' _ h' hat' => ?_
    have helements : ∀ e ∈ elements, D.Fits frames (.expression e) := fun e he =>
      fits_part hfits rfl (List.mem_map_of_mem he)
    refine (keeps_list hctx frames scope elements h' hat' helements).bind fun r t' _ h' hr => ?_
    cases r with
    | error error => exact keeps_pure h' hr
    | ok values => exact keeps_act h' (harmless_newArray (D.fine_plain t') hr)
  | .index _ collection position, t, h, hat, hfits => by
    rw [Trace.expression]
    refine keeps_visit h hat hfits fun t' _ h' hat' => ?_
    have hcollection := fits_part hfits rfl List.mem_cons_self
    have hposition := fits_part hfits rfl (List.mem_cons_of_mem _ List.mem_cons_self)
    refine (keeps_expression hctx frames scope collection h' hat' hcollection).bind
      fun c t₁ hg h₁ hc => keeps_ite (keeps_pure h₁ hc) ?_
    refine (keeps_expression hctx frames scope position h₁ (D.at_mono hat' hg) hposition).bind
      fun p t₂ hg₂ h₂ hp => keeps_ite (keeps_pure h₂ hp) ?_
    exact keeps_ofResult h₂ fun _ => Value.all_index (Good.mono hc hg₂)
  | .hash _ ps, t, h, hat, hfits => by
    rw [Trace.expression]
    refine keeps_visit h hat hfits fun t' _ h' hat' => ?_
    have hpairs : ∀ pair ∈ ps, D.Fits frames (.expression pair.1) ∧
        D.Fits frames (.expression pair.2) := fun pair hpair =>
      ⟨fits_part hfits rfl (List.mem_flatMap.2 ⟨pair, hpair, List.mem_cons_self⟩),
        fits_part hfits rfl (List.mem_flatMap.2 ⟨pair, hpair, List.mem_cons_of_mem _ List.mem_cons_self⟩)⟩
    refine (keeps_pairs hctx frames scope ps h' hat' hpairs
      fun _ hentry => absurd hentry List.not_mem_nil).bind fun r t' _ h' hr => ?_
    cases r with
    | error error => exact keeps_pure h' hr
    | ok entries => exact keeps_act h' (harmless_newHash (D.fine_plain t') hr)

theorem keeps_list (hctx : D.KeepsCalls (.ofTable table depth)) (frames : List Frame) (scope : ScopeId) :
    ∀ (es : List Expr) {t : Traced}, D.Holds t → D.At t scope frames →
      (∀ e ∈ es, D.Fits frames (.expression e)) →
      D.Keeps (Trace.list (.ofTable table depth) frames scope es) t D.GoodList
  | [], t, h, _, _ => by
    rw [Trace.list]
    exact keeps_pure h nofun
  | e :: es, t, h, hat, hfits => by
    rw [Trace.list]
    refine (keeps_expression hctx frames scope e h hat (hfits e List.mem_cons_self)).bind
      fun v t₁ hg h₁ hv => keeps_ite (keeps_pure h₁ hv) ?_
    refine (keeps_list hctx frames scope es h₁ (D.at_mono hat hg)
      fun e he => hfits e (List.mem_cons_of_mem _ he)).bind fun r t₂ hg₂ h₂ hr => ?_
    cases r with
    | error error => exact keeps_pure h₂ hr
    | ok values =>
      exact keeps_pure h₂ (List.forall_mem_cons.2 ⟨Good.mono hv hg₂, hr⟩)

theorem keeps_pairs (hctx : D.KeepsCalls (.ofTable table depth)) (frames : List Frame) (scope : ScopeId) :
    ∀ (ps : List (Expr × Expr)) {entries : List (HashKey × Value × Value)} {t : Traced},
      D.Holds t → D.At t scope frames →
      (∀ pair ∈ ps, D.Fits frames (.expression pair.1) ∧
        D.Fits frames (.expression pair.2)) →
      Value.AllEntries (D.Fine t) entries →
      D.Keeps (Trace.pairs (.ofTable table depth) frames scope entries ps) t D.GoodEntries
  | [], _, t, h, _, _, hentries => by
    rw [Trace.pairs]
    exact keeps_pure h hentries
  | (keyExpr, valueExpr) :: ps, entries, t, h, hat, hfits, hentries => by
    rw [Trace.pairs]
    have hpair := hfits _ List.mem_cons_self
    refine (keeps_expression hctx frames scope keyExpr h hat hpair.1).bind
      fun key t₁ hg₁ h₁ hkey => keeps_ite (keeps_pure h₁ hkey) ?_
    cases key.hashKey? with
    | none => exact (keeps_raise h₁ _).bind fun v t₂ _ h₂ hv => keeps_pure h₂ hv
    | some word =>
      refine (keeps_expression hctx frames scope valueExpr h₁ (D.at_mono hat hg₁) hpair.2).bind
        fun v t₂ hg₂ h₂ hv => keeps_ite (keeps_pure h₂ hv) ?_
      refine keeps_pairs hctx frames scope ps h₂ (D.at_mono hat (D.trans hg₁ hg₂))
        (fun pair hpair => hfits pair (List.mem_cons_of_mem _ hpair)) ?_
      have hentries' : Value.AllEntries (D.Fine t₂) entries := fun entry hentry =>
        ⟨Good.mono (hentries entry hentry).1 (D.trans hg₁ hg₂),
          Good.mono (hentries entry hentry).2 (D.trans hg₁ hg₂)⟩
      exact hentries'.insert (Good.mono hkey hg₂) hv

theorem keeps_statement (hctx : D.KeepsCalls (.ofTable table depth)) (frame : Frame) (frames : List Frame)
    (scope : ScopeId) : ∀ (st : Stmt) {t : Traced}, D.Holds t →
      D.At t scope (frame :: frames) → st ∈ frame.statements →
      D.Fits (frame :: frames) (.statement st) →
      D.Keeps (Trace.statement (.ofTable table depth) (frame :: frames) scope st) t D.Good
  | .unknown .., t, h, hat, _, hfits => by
    rw [Trace.statement]
    exact keeps_visit h hat hfits fun t' _ h' _ => keeps_raise h' _
  | .declaration _ ident valueExpr, t, h, hat, hmem, hfits => by
    rw [Trace.statement]
    refine keeps_visit h hat hfits fun t' _ h' hat' => ?_
    have hname : ident.name ∈ frame.names :=
      List.mem_append_right _ (List.mem_filterMap.2 ⟨_, hmem, rfl⟩)
    have hvalue := fits_part hfits rfl List.mem_cons_self
    refine keeps_get ?_
    cases hfree : t'.machine.lookupLocal scope ident.name with
    | some _ => exact keeps_raise h' _
    | none =>
      have hkept := (Trace.erases_expression (Trace.erases_call table depth) (frame :: frames) scope
        valueExpr).ensures (t := t') (valueExpr.eval_kept)
      refine ((keeps_expression hctx (frame :: frames) scope valueExpr h' hat' hvalue).and hkept).bind
        fun v t'' hg h'' ⟨hv, hkept⟩ => keeps_ite (keeps_pure h'' hv) ?_
      have hfree' : t''.machine.lookupLocal scope ident.name = none := by
        rw [← hfree]
        exact hkept.lookupLocal (D.at_lt hat')
      exact keeps_declare h'' (D.at_mono hat' hg) hname hfree' hv
  | .ret _ valueExpr, t, h, hat, _, hfits => by
    rw [Trace.statement]
    refine keeps_visit h hat hfits fun t' _ h' hat' => keeps_ite ?_ ?_
    · exact keeps_newReturn h' (Value.all_void.2 (D.fine_plain t').void)
    · have hvalue := fits_part hfits rfl List.mem_cons_self
      refine (keeps_expression hctx (frame :: frames) scope valueExpr h' hat' hvalue).bind
        fun v t'' _ h'' hv => keeps_ite (keeps_pure h'' hv) (keeps_newReturn h'' hv)
  | .expression _ value, t, h, hat, _, hfits => by
    rw [Trace.statement]
    refine keeps_visit h hat hfits fun t' _ h' hat' => ?_
    have hvalue := fits_part hfits rfl List.mem_cons_self
    exact keeps_expression hctx (frame :: frames) scope value h' hat' hvalue
  | .block body, t, h, hat, _, hfits => by
    rw [Trace.statement]
    refine keeps_visit h hat hfits fun t' _ h' hat' => ?_
    have hbody := fits_part hfits rfl List.mem_cons_self
    exact keeps_block hctx (frame :: frames) scope body h' hat' hbody
  | .ifThen _ condition consequence, t, h, hat, _, hfits => by
    rw [Trace.statement]
    refine keeps_visit h hat hfits fun t' _ h' hat' => ?_
    have hcondition := fits_part hfits rfl List.mem_cons_self
    have hconsequence := fits_part hfits rfl (List.mem_cons_of_mem _ List.mem_cons_self)
    refine keeps_condition
      (keeps_expression hctx (frame :: frames) scope condition h' hat' hcondition)
      (fun t'' hg h'' => ?_) fun t'' _ h'' => keeps_pure h'' ?_
    · exact keeps_block hctx (frame :: frames) scope consequence h'' (D.at_mono hat' hg) hconsequence
    · exact good_null
  | .ifElse _ condition consequence alternative, t, h, hat, _, hfits => by
    rw [Trace.statement]
    refine keeps_visit h hat hfits fun t' _ h' hat' => ?_
    have hcondition := fits_part hfits rfl List.mem_cons_self
    have hconsequence := fits_part hfits rfl (List.mem_cons_of_mem _ List.mem_cons_self)
    have halternative := fits_part hfits rfl
      (List.mem_cons_of_mem _ (List.mem_cons_of_mem _ List.mem_cons_self))
    refine keeps_condition
      (keeps_expression hctx (frame :: frames) scope condition h' hat' hcondition)
      (fun t'' hg h'' => ?_) fun t'' hg h'' => ?_
    · exact keeps_block hctx (frame :: frames) scope consequence h'' (D.at_mono hat' hg) hconsequence
    · exact keeps_block hctx (frame :: frames) scope alternative h'' (D.at_mono hat' hg) halternative

theorem keeps_sequence (hctx : D.KeepsCalls (.ofTable table depth)) (frame : Frame) (frames : List Frame)
    (scope : ScopeId) : ∀ (ss : List Stmt) {last : Value} {t : Traced}, D.Holds t →
      D.At t scope (frame :: frames) →
      (∀ st ∈ ss, st ∈ frame.statements ∧ D.Fits (frame :: frames) (.statement st)) →
      D.Good t last →
      D.Keeps (Trace.sequence (.ofTable table depth) (frame :: frames) scope last ss) t
        fun t' sequel => D.Good t' sequel.value
  | [], _, t, h, _, _, hlast => by
    rw [Trace.sequence]
    exact keeps_pure h hlast
  | st :: ss, _, t, h, hat, hss, _ => by
    rw [Trace.sequence]
    obtain ⟨hmem, hfits⟩ := hss st List.mem_cons_self
    refine (keeps_statement hctx frame frames scope st h hat hmem hfits).bind
      fun v t' hg h' hv => keeps_ite (keeps_pure h' hv) ?_
    exact keeps_sequence hctx frame frames scope ss h' (D.at_mono hat hg)
      (fun st hst => hss st (List.mem_cons_of_mem _ hst)) hv

/-- A block has a scope of its own, made for the frame of its statements. -/
theorem keeps_block (hctx : D.KeepsCalls (.ofTable table depth)) (frames : List Frame) (outer : ScopeId) :
    ∀ (b : Block) {t : Traced}, D.Holds t → D.At t outer frames →
      D.Fits frames (.block b) →
      D.Keeps (Trace.block (.ofTable table depth) frames outer b) t D.Good
  | ⟨_, ss⟩, t, h, hat, hfits => by
    rw [Trace.block]
    refine keeps_visit h hat hfits fun t₁ _ h₁ hat₁ =>
      keeps_enter h₁ hat₁ ⟨[], ss⟩ fun scope t₂ _ h₂ hat₂ => ?_
    refine (keeps_sequence hctx ⟨[], ss⟩ frames scope ss h₂ hat₂
      (fun st hst => ⟨hst, fits_within hfits rfl hst⟩) ?_).bind fun r t₃ _ h₃ hr => keeps_pure h₃ hr
    exact good_null

end

end Tree

section Calls

/-- The value of a call is among the parts of what its body ended with. -/
theorem keeps_result {t : Traced} (h : D.Holds t) {sequel : Sequel}
    (hsequel : D.Good t sequel.value) : D.Keeps (Trace.act sequel.result) t D.Good := by
  refine keeps_act h ?_
  unfold Sequel.result
  split
  · exact harmless_pure (Value.all_ret.1 hsequel).2
  · exact harmless_pure hsequel
  · exact harmless_raise (D.fine_error t) _

/-- A call keeps the discipline if the calls nested in it do. -/
theorem keeps_apply {table : ObjectId} {depth : Nat}
    (hnested : ∀ d, depth = d + 1 → D.KeepsCalls (.ofTable table d)) {function : Value}
    {arguments : List Value} {t : Traced} (h : D.Holds t) (hfunction : D.Good t function)
    (harguments : ∀ v ∈ arguments, D.Good t v) :
    D.Keeps (Trace.apply table depth function arguments) t D.Good := by
  cases function with
  | function id parameters body outer =>
    by_cases hlength : arguments.length = parameters.length
    · cases depth with
      | zero =>
        rw [Trace.apply, if_neg (not_not_intro hlength)]
        exact ⟨D.refl t, h⟩
      | succ d =>
        rw [Trace.apply, if_neg (not_not_intro hlength)]
        refine keeps_get (keeps_call h hfunction harguments fun scope t' _ h' hat' hfits => ?_)
        refine (keeps_sequence (hnested d rfl) _ _ scope body.statements h' hat'
          (fun st hst => ⟨hst, hfits st hst⟩) good_null).bind
            fun r t'' _ h'' hr => keeps_result h'' hr
    · cases depth <;> rw [Trace.apply, if_pos hlength] <;> exact keeps_raise h _
  | builtin table' b =>
    have hharmless := harmless_builtin (m := t.machine) (D.fine_plain t) (D.fine_error t) b harguments
    cases depth <;> exact keeps_act h hharmless
  | integer | boolean | text | null | void | ret | error | array | hash =>
    cases depth <;> exact keeps_raise h _

variable (D) in
/-- Calls keep the discipline, however deeply they nest. -/
theorem keepsCalls (table : ObjectId) (limit : Nat) : D.KeepsCalls (.ofTable table limit) := by
  induction limit with
  | zero => exact fun f vs t h => keeps_apply (fun _ hd => absurd hd (by omega)) h
  | succ limit ih =>
    refine fun f vs t h => keeps_apply (fun d hd => ?_) h
    cases hd
    exact ih

/-- Programs keep the discipline. -/
theorem keeps_program (table : ObjectId) (limit : Nat) (program : Program) {t : Traced}
    {scope : ScopeId} (h : D.Holds t) (hat : D.At t scope [program.frame])
    (hfits : ∀ st ∈ program.statements, D.Fits [program.frame] (.statement st)) :
    D.Keeps (Trace.program (.ofTable table limit) scope program) t D.Good := by
  unfold Trace.program
  refine (keeps_sequence (D.keepsCalls table limit) program.frame [] scope program.statements h hat
    (fun st hst => ⟨hst, hfits st hst⟩) good_null).bind fun r t' _ h' hr => ?_
  split
  · exact keeps_raise h' _
  · exact keeps_pure h' hr

end Calls

end Discipline

end MonkeyLang
