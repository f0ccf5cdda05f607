import MonkeyLang.Proofs.Evaluation.Frame
import MonkeyLang.Proofs.Evaluation.Plan

/-!
# Plans that keep to a standard

A `Standard` says which nodes may be evaluated and what the parts of values may be. It asks for what is
special to integers and functions only, and does not assume that every integer is fine.

`Plan.Meets` goes through a plan step by step. It asks that every job given out is `Ready` by the
standard and smaller than the job the plan is for, and that a name is declared only where it is
unbound; the steps behind a job are looked at for the values and machines it can really end with.
`Job.meets` says that the plan of every job that is ready meets the standard, whatever the jobs it
gives out are answered with. Its proof is the one place where the rules of evaluation are gone
through.

One assumption is left over: `Standard.Measured` says that the number a call of `len` gives is fine.
-/

namespace MonkeyLang

/-- What may be evaluated and stored. -/
structure Standard where
  /-- the nodes that may be evaluated -/
  Fits : Node → Prop
  /-- the parts that values may have -/
  Fine : Value → Prop
  fits_child : ∀ {node inner node'}, Fits node → (inner, node') ∈ node.evaluated → Fits node'
  fine_literal : ∀ {token n}, Fits (.expression (.integer token n)) → Fine (.integer n)
  fine_wrap : ∀ n, Fine (.integer (Word.wrap n))
  fine_function : ∀ {token parameters body}, Fits (.expression (.function token parameters body)) →
    ∀ id scope, Fine (.function id parameters body scope)
  fits_body : ∀ {id parameters body scope}, Fine (.function id parameters body scope) →
    ∀ st ∈ body.statements, Fits (.statement st)
  fine_other : ∀ {value}, value.type ≠ .integer → value.type ≠ .function → Fine value

/-- The standard that everything is up to. -/
def Standard.any : Standard where
  Fits := fun _ => True
  Fine := fun _ => True
  fits_child := fun _ _ => trivial
  fine_literal := fun _ => trivial
  fine_wrap := fun _ => trivial
  fine_function := fun _ _ _ => trivial
  fits_body := fun _ _ _ => trivial
  fine_other := fun _ _ => trivial

/-- The value is of a type that standards ask nothing of. -/
def Value.isExempt (value : Value) : Bool := value.type != .integer && value.type != .function

/-- The size of the tree below a node. -/
noncomputable def Node.size : Node → Nat
  | expression e => sizeOf e
  | statement st => sizeOf st
  | block b => sizeOf b

/-- The size of what a job is about. A call is about a value that it was given. -/
noncomputable def Job.size : Job → Nat
  | expression _ e => sizeOf e + 1
  | statement _ st => sizeOf st + 1
  | call .. => 0
  | body _ _ b _ => sizeOf b + 1
  | program _ p => sizeOf p.statements + 1

theorem Block.sizeOf_lt (b : Block) {st : Stmt} (hst : st ∈ b.statements) :
    sizeOf st + 1 < sizeOf b := by
  have hlt := List.sizeOf_lt_of_mem hst
  obtain ⟨token, sts⟩ := b
  simp only [Block.mk.sizeOf_spec] at hlt ⊢
  omega

/-- The nodes right below a node are smaller. -/
theorem Node.size_child (node : Node) : ∀ part ∈ node.children, part.2.size < node.size := by
  cases node with
  | block b =>
    simp only [children, within, List.forall_mem_map]
    exact fun st hst => Nat.lt_of_succ_lt (b.sizeOf_lt hst)
  | statement st =>
    cases st <;>
      simp only [children, here, List.forall_mem_map, List.forall_mem_cons, List.not_mem_nil,
        false_implies, implies_true, and_true, size, Stmt.declaration.sizeOf_spec,
        Stmt.ret.sizeOf_spec, Stmt.expression.sizeOf_spec, Stmt.block.sizeOf_spec,
        Stmt.ifThen.sizeOf_spec, Stmt.ifElse.sizeOf_spec] <;>
      omega
  | expression e =>
    cases e with
    | function token parameters body =>
      simp only [children, within, List.forall_mem_map]
      intro st hst
      have hlt := body.sizeOf_lt hst
      simp only [size, Expr.function.sizeOf_spec] at hlt ⊢
      omega
    | call token callee arguments =>
      simp only [children, here, List.forall_mem_map, List.forall_mem_cons]
      refine ⟨?_, fun e he => ?_⟩
      · simp only [size, Expr.call.sizeOf_spec]
        omega
      · have hlt := List.sizeOf_lt_of_mem he
        simp only [size, Expr.call.sizeOf_spec]
        omega
    | array token elements =>
      simp only [children, here, List.forall_mem_map]
      intro e he
      have hlt := List.sizeOf_lt_of_mem he
      simp only [size, Expr.array.sizeOf_spec]
      omega
    | hash token ps =>
      simp only [children, here, List.forall_mem_map, List.forall_mem_flatMap, List.forall_mem_cons,
        List.not_mem_nil, false_implies, implies_true, and_true]
      rintro ⟨key, value⟩ hp
      have hlt := List.sizeOf_lt_of_mem hp
      simp only [size, Prod.mk.sizeOf_spec, Expr.hash.sizeOf_spec] at hlt ⊢
      omega
    | _ =>
      simp only [children, here, List.forall_mem_map, List.forall_mem_cons, List.not_mem_nil,
        false_implies, implies_true, and_true, size, Expr.unary.sizeOf_spec,
        Expr.binary.sizeOf_spec, Expr.index.sizeOf_spec] <;>
      omega

theorem Node.mem_children {node : Node} {part : List Frame × Node} (h : part ∈ node.evaluated) :
    part ∈ node.children := by
  fun_cases evaluated node with
  | case1 => exact absurd h List.not_mem_nil
  | case2 => simpa only [evaluated] using h

/-- What holds of the smaller jobs at the same depth, and of all jobs one call deeper, holds of every
job. -/
theorem Job.induction {P : Nat → Job → Prop}
    (h : ∀ depth job, (∀ job' : Job, job'.size < job.size → P depth job') →
      (∀ inner, depth = inner + 1 → ∀ job', P inner job') → P depth job)
    (depth : Nat) (job : Job) : P depth job := by
  induction depth generalizing job with
  | zero =>
    induction hsize : job.size using Nat.strongRecOn generalizing job with
    | ind n ih =>
      subst hsize
      exact h 0 job (fun job' hlt => ih _ hlt job' rfl) (fun inner hinner => nomatch hinner)
  | succ inner ihdepth =>
    induction hsize : job.size using Nat.strongRecOn generalizing job with
    | ind n ih =>
      subst hsize
      refine h (inner + 1) job (fun job' hlt => ih _ hlt job' rfl) ?_
      rintro inner' hinner job'
      cases hinner
      exact ihdepth job'

namespace Standard

variable (S : Standard)

/-- The parts of the value are fine. -/
def Sound (value : Value) : Prop := value.All S.Fine

/-- Every value bound in a scope is sound. -/
def Holds (m : Machine) : Prop := m.Holds S.Sound

/-- The job may be done on the machine. -/
def Ready (job : Job) (m : Machine) : Prop :=
  S.Holds m ∧ match job with
    | .expression _ e => S.Fits (.expression e)
    | .statement scope st => S.Fits (.statement st) ∧ scope < m.scopes.size
    | .call function arguments => S.Sound function ∧ ∀ v ∈ arguments, S.Sound v
    | .body _ _ b arguments =>
      (∀ st ∈ b.statements, S.Fits (.statement st)) ∧ ∀ v ∈ arguments, S.Sound v
    | .program scope p =>
      (∀ st ∈ p.statements, S.Fits (.statement st)) ∧ scope < m.scopes.size

/-- A result that a job may have. -/
def Yields (value : Value) (m : Machine) : Prop := S.Holds m ∧ S.Sound value

/-- If the job is a call of `len`, the number it gives is fine. -/
def Measured (table : ObjectId) (event : Event) : Prop :=
  ∀ t arguments n m, event.job = .call (.builtin t .len) arguments →
    event.result table = .ok (.integer n) m → S.Fine (.integer n)

/-- A job that may be done has a sound result, or stops, and the machine holds sound values only. -/
def Does (table : ObjectId) (event : Event) : Prop :=
  Ensures (event.job.run table event.depth) event.machine S.Yields fun _ m => S.Holds m

end Standard

/-- Carried out on the machine, the plan gives out jobs that are ready and smaller than `size`,
declares unbound names only, and ends well. -/
def Plan.Meets {α : Type} (S : Standard) (table : ObjectId) (depth size : Nat)
    (good : α → Machine → Prop) : Plan α → Machine → Prop
  | done result, m => good result m
  | perform job next, m =>
    job.size < size ∧ S.Ready job m ∧ ∀ value m', (job.run table depth).run m = .ok value m' →
      S.Yields value m' → (next value).Meets S table depth size good m'
  | nest job next, m =>
    S.Ready job m ∧ ∀ inner value m', depth = inner + 1 →
      (job.run table inner).run m = .ok value m' → S.Yields value m' →
        (next value).Meets S table depth size good m'
  | fresh next, m =>
    (next m.supply).Meets S table depth size good { m with supply := m.supply + 1 }
  | print text next, m =>
    next.Meets S table depth size good { m with output := m.output ++ text }
  | enter outer parameters arguments next, m =>
    (next m.scopes.size).Meets S table depth size good
      (Machine.bindParameters { m with scopes := m.scopes.push ⟨[], some outer⟩ } m.scopes.size
        parameters arguments)
  | declare scope name value next, m =>
    m.lookupLocal scope name = none ∧
      next.Meets S table depth size good (m.declare scope name value)
  | look next, m => (next m).Meets S table depth size good m

namespace Plan

variable {α β : Type} {S : Standard} {table : ObjectId} {depth size : Nat}
  {good good' : α → Machine → Prop} {m : Machine}

/-- What the first plan ends with is where the second one starts. -/
@[simp] theorem meets_bind {p : Plan α} {f : α → Plan β} {good : β → Machine → Prop} :
    (p >>= f).Meets S table depth size good m ↔
      p.Meets S table depth size (fun a m' => (f a).Meets S table depth size good m') m := by
  show (p.bind f).Meets S table depth size good m ↔ _
  induction p generalizing m with
  | done => exact Iff.rfl
  | perform _ _ ih | nest _ _ ih | fresh _ ih | look _ ih => simp only [bind, Meets, ih]
  | print _ _ ih | declare _ _ _ _ ih | enter _ _ _ _ ih => simp only [bind, Meets, ih]

@[simp] theorem meets_job {j : Job} {good : Value → Machine → Prop} :
    (job j).Meets S table depth size good m ↔ j.size < size ∧ S.Ready j m ∧
      ∀ value m', (j.run table depth).run m = .ok value m' → S.Yields value m' → good value m' :=
  Iff.rfl

@[simp] theorem meets_newScope {outer : ScopeId} {good : ScopeId → Machine → Prop} :
    (newScope outer).Meets S table depth size good m ↔
      good m.scopes.size { m with scopes := m.scopes.push ⟨[], some outer⟩ } := Iff.rfl

@[simp] theorem meets_machine {good : Machine → Machine → Prop} :
    machine.Meets S table depth size good m ↔ good m m := Iff.rfl

theorem meets_ite {c : Prop} [Decidable c] {p q : Plan α}
    (hp : c → p.Meets S table depth size good m)
    (hq : ¬ c → q.Meets S table depth size good m) :
    (if c then p else q).Meets S table depth size good m := by
  by_cases h : c
  · simpa only [if_pos h] using hp h
  · simpa only [if_neg h] using hq h

/-! ### The rules of evaluation -/

section Rules

section Parts

variable {node node' : Node} {nodes : List Node}

theorem evaluated_part (hparts : node.evaluated = Node.here nodes) (hnode : node' ∈ nodes) :
    ([], node') ∈ node.evaluated := by
  rw [hparts]
  exact Node.mem_here hnode

/-- A part of a node that has no new frame around it. -/
theorem fits_part (h : S.Fits node) (hparts : node.evaluated = Node.here nodes)
    (hnode : node' ∈ nodes) : S.Fits node' :=
  S.fits_child h (evaluated_part hparts hnode)

theorem size_part (hparts : node.evaluated = Node.here nodes) (hnode : node' ∈ nodes) :
    node'.size + 1 < node.size + 1 :=
  Nat.succ_lt_succ (node.size_child _ (Node.mem_children (evaluated_part hparts hnode)))

end Parts

/-- A statement of a block. -/
theorem fits_within {node : Node} {frame : Frame} {st : Stmt} (h : S.Fits node)
    (hevaluated : node.evaluated = Node.within frame) (hst : st ∈ frame.statements) :
    S.Fits (.statement st) := by
  have hchild : ([frame], .statement st) ∈ node.evaluated := by
    rw [hevaluated]
    exact Node.mem_within hst
  exact S.fits_child h hchild

theorem fine_exempt {value : Value} (h : value.isExempt) : S.Fine value := by
  simp only [Value.isExempt, Bool.and_eq_true, bne_iff_ne] at h
  exact S.fine_other h.1 h.2

theorem sound_exempt {value : Value} (hparts : value.parts = [value]) (h : value.isExempt) :
    S.Sound value := by
  intro part hpart
  rw [hparts] at hpart
  cases List.mem_singleton.1 hpart
  exact fine_exempt h

theorem computed : Value.Computed S.Fine :=
  ⟨S.fine_wrap, fun _ => fine_exempt rfl, fun _ => fine_exempt rfl⟩

theorem meets_raise {fault : Fault} (hm : S.Holds m) :
    (raise fault).Meets S table depth size S.Yields m :=
  ⟨hm, sound_exempt rfl rfl⟩

theorem meets_ofResult {r : Except Fault Value} (hm : S.Holds m)
    (h : ∀ value, r = .ok value → S.Sound value) :
    (ofResult r).Meets S table depth size S.Yields m := by
  cases r with
  | ok value => exact ⟨hm, h value rfl⟩
  | error fault => exact meets_raise hm

section Operands

variable {node : Node} {nodes : List Node} {scope : ScopeId}

/-- The evaluation of a part is ready, and a smaller job than the evaluation of the node. -/
theorem ready_part {e : Expr} (hm : S.Holds m) (h : S.Fits node)
    (hparts : node.evaluated = Node.here nodes) (he : .expression e ∈ nodes) :
    (Job.expression scope e).size < node.size + 1 ∧ S.Ready (.expression scope e) m :=
  ⟨size_part hparts he, hm, fits_part h hparts he⟩

/-- The value of an expression as a part of something larger: if it is an error, it is the result. -/
theorem meets_operand {e : Expr} {f : Value → Plan Value} (hm : S.Holds m) (h : S.Fits node)
    (hparts : node.evaluated = Node.here nodes) (he : .expression e ∈ nodes)
    (hf : ∀ value m', (e.eval (.ofTable table depth) scope).run m = .ok value m' → S.Holds m' →
      S.Sound value → (f value).Meets S table depth (node.size + 1) S.Yields m') :
    (do let value ← job (.expression scope e)
        if value.isError then return value else f value).Meets S table depth (node.size + 1)
      S.Yields m := by
  obtain ⟨hsize, hready⟩ := ready_part hm h hparts he
  simp only [meets_bind, meets_job]
  refine ⟨hsize, hready, ?_⟩
  rintro value m' hrun ⟨hm', hvalue⟩
  refine meets_ite (fun _ => ⟨hm', hvalue⟩) fun _ => hf value m' hrun hm' hvalue

/-- The values of a row of expressions are sound. -/
theorem meets_row {es : List Expr} {good : Except Value (List Value) → Machine → Prop}
    (hm : S.Holds m) (h : S.Fits node) (hparts : node.evaluated = Node.here nodes)
    (hes : ∀ e ∈ es, .expression e ∈ nodes)
    (hok : ∀ values m', S.Holds m' → (∀ v ∈ values, S.Sound v) → good (.ok values) m')
    (herror : ∀ error m', S.Holds m' → S.Sound error → good (.error error) m') :
    (row scope es).Meets S table depth (node.size + 1) good m := by
  induction es generalizing m good with
  | nil => exact hok [] m hm (List.forall_mem_nil _)
  | cons e es ih =>
    rw [List.forall_mem_cons] at hes
    obtain ⟨hsize, hready⟩ := ready_part hm h hparts hes.1
    simp only [row, meets_bind, meets_job]
    refine ⟨hsize, hready, ?_⟩
    rintro value m' - ⟨hm', hvalue⟩
    refine meets_ite (fun _ => herror value m' hm' hvalue) fun _ => ?_
    simp only [meets_bind]
    refine ih hm' hes.2 ?_ ?_
    · intro values m'' hm'' hvalues
      exact hok _ m'' hm'' (List.forall_mem_cons.2 ⟨hvalue, hvalues⟩)
    · intro error m'' hm'' herr
      exact herror error m'' hm'' herr

theorem meets_pairs {ps : List (Expr × Expr)} {entries : List (HashKey × Value × Value)}
    {good : Except Value (List (HashKey × Value × Value)) → Machine → Prop}
    (hm : S.Holds m) (h : S.Fits node) (hparts : node.evaluated = Node.here nodes)
    (hps : ∀ p ∈ ps, .expression p.1 ∈ nodes ∧ .expression p.2 ∈ nodes)
    (hentries : Value.AllEntries S.Fine entries)
    (hok : ∀ entries m', S.Holds m' → Value.AllEntries S.Fine entries → good (.ok entries) m')
    (herror : ∀ error m', S.Holds m' → S.Sound error → good (.error error) m') :
    (pairs scope entries ps).Meets S table depth (node.size + 1) good m := by
  induction ps generalizing m entries with
  | nil => exact hok entries m hm hentries
  | cons p ps ih =>
    obtain ⟨keyExpr, valueExpr⟩ := p
    rw [List.forall_mem_cons] at hps
    obtain ⟨hsize, hready⟩ := ready_part hm h hparts hps.1.1
    simp only [pairs, meets_bind, meets_job]
    refine ⟨hsize, hready, ?_⟩
    rintro key m₁ - ⟨hm₁, hkey⟩
    refine meets_ite (fun _ => herror key m₁ hm₁ hkey) fun _ => ?_
    cases key.hashKey? with
    | none => exact herror _ _ hm₁ (sound_exempt rfl rfl)
    | some hashKey =>
      obtain ⟨hsize, hready⟩ := ready_part hm₁ h hparts hps.1.2
      simp only [meets_bind, meets_job]
      refine ⟨hsize, hready, ?_⟩
      rintro value m₂ - ⟨hm₂, hvalue⟩
      refine meets_ite (fun _ => herror value m₂ hm₂ hvalue) fun _ => ?_
      exact ih hm₂ hps.2 (hentries.insert hkey hvalue)

end Operands

/-- Statements run in a scope of the machine. -/
theorem meets_sequence {scope : ScopeId} {sts : List Stmt} {last : Value}
    {good : Sequel → Machine → Prop} (hm : S.Holds m) (hscope : scope < m.scopes.size)
    (hsize : ∀ st ∈ sts, sizeOf st + 1 < size) (hsts : ∀ st ∈ sts, S.Fits (.statement st))
    (hlast : S.Sound last)
    (hgood : ∀ r m', S.Holds m' → S.Sound r.value → good r m') :
    (sequence scope last sts).Meets S table depth size good m := by
  induction sts generalizing m last with
  | nil => exact hgood _ m hm hlast
  | cons st sts ih =>
    rw [List.forall_mem_cons] at hsize hsts
    simp only [sequence, meets_bind, meets_job]
    refine ⟨hsize.1, ⟨hm, hsts.1, hscope⟩, ?_⟩
    rintro value m' hrun ⟨hm', hvalue⟩
    refine meets_ite (fun _ => hgood _ m' hm' hvalue) fun _ => ?_
    -- no statement takes the scope away
    have hgrown : m.Extends m' := ((st.eval_effect hscope).of_ok hrun).extends
    exact ih hm' (Nat.lt_of_lt_of_le hscope hgrown.size_le) hsize.2 hsts.2 hvalue

theorem meets_block {node : Node} {nodes : List Node} {outer : ScopeId} {b : Block}
    (hm : S.Holds m) (h : S.Fits node) (hparts : node.evaluated = Node.here nodes)
    (hb : .block b ∈ nodes) : (block outer b).Meets S table depth (node.size + 1) S.Yields m := by
  have hfits : S.Fits (.block b) := fits_part h hparts hb
  simp only [block, meets_bind, meets_newScope]
  refine meets_sequence (Machine.Holds.push hm _) (by simp) ?_ ?_ (sound_exempt rfl rfl) ?_
  · intro st hst
    have hsmaller := size_part hparts hb
    exact Nat.lt_trans (b.sizeOf_lt hst) (Nat.lt_of_succ_lt hsmaller)
  · exact fun st hst => fits_within hfits rfl hst
  · intro r m' hm' hr
    exact ⟨hm', hr⟩

theorem meets_choose {condition : Value} {yes no : Plan Value} (hm : S.Holds m)
    (hcondition : S.Sound condition) (hyes : yes.Meets S table depth size S.Yields m)
    (hno : no.Meets S table depth size S.Yields m) :
    (choose condition yes no).Meets S table depth size S.Yields m := by
  unfold choose
  split
  · exact hyes
  · exact hno
  · exact meets_ite (fun _ => ⟨hm, hcondition⟩) fun _ => meets_raise hm

theorem meets_name {scope : ScopeId} {n : String} (hm : S.Holds m) :
    (name table scope n).Meets S table depth size S.Yields m := by
  simp only [name, meets_bind, meets_machine]
  cases hlookup : m.lookup scope n with
  | some value => exact ⟨hm, Machine.Holds.lookup hm hlookup⟩
  | none =>
    cases Builtin.ofName? n with
    | some b => exact ⟨hm, sound_exempt rfl rfl⟩
    | none => exact meets_raise hm

/-- The plan of an expression that fits meets the standard. -/
theorem meets_expression {scope : ScopeId} {e : Expr} (hm : S.Holds m)
    (h : S.Fits (.expression e)) :
    (expression table scope e).Meets S table depth ((Node.expression e).size + 1) S.Yields m := by
  cases e with
  | missing | unknown => exact meets_raise hm
  | identifier ident => exact meets_name hm
  | integer token n => exact ⟨hm, Value.all_integer.2 (S.fine_literal h)⟩
  | boolean | text => exact ⟨hm, sound_exempt rfl rfl⟩
  | unary token operator operand =>
    refine meets_operand hm h rfl (by simp) ?_
    intro value m' _ hm' _
    exact meets_ofResult hm' fun _ hr => Value.all_unary computed hr
  | binary token left operator right =>
    refine meets_operand hm h rfl (by simp) ?_
    intro a m₁ _ hm₁ _
    refine meets_operand hm₁ h rfl (by simp) ?_
    intro b m₂ _ hm₂ _
    exact meets_ofResult hm₂ fun _ hr => Value.all_binary computed hr
  | function token parameters body =>
    exact ⟨hm, Value.all_function.2 (S.fine_function h _ _)⟩
  | call token callee arguments =>
    refine meets_operand hm h rfl (by simp) ?_
    intro function m₁ _ hm₁ hfunction
    simp only [meets_bind]
    refine meets_row hm₁ h rfl (fun e he => by simp [he]) ?_ ?_
    · intro values m₂ hm₂ hvalues
      refine ⟨Nat.succ_pos _, ⟨hm₂, hfunction, hvalues⟩, ?_⟩
      intro value m' _ hyields
      exact hyields
    · intro error m₂ hm₂ herror
      exact ⟨hm₂, herror⟩
  | array token elements =>
    simp only [expression, meets_bind]
    refine meets_row hm h rfl (fun e he => by simp [he]) ?_ ?_
    · intro values m' hm' hvalues
      exact ⟨hm', Value.all_array.2 ⟨fine_exempt rfl, hvalues⟩⟩
    · intro error m' hm' herror
      exact ⟨hm', herror⟩
  | index token collection position =>
    refine meets_operand hm h rfl (by simp) ?_
    intro c m₁ _ hm₁ hc
    refine meets_operand hm₁ h rfl (by simp) ?_
    intro p m₂ _ hm₂ _
    exact meets_ofResult hm₂ fun _ hr => Value.all_index hc hr
  | hash token ps =>
    simp only [expression, meets_bind]
    refine meets_pairs hm h rfl ?_ (List.forall_mem_nil _) ?_ ?_
    · intro p hp
      exact ⟨List.mem_flatMap.2 ⟨p, hp, by simp⟩, List.mem_flatMap.2 ⟨p, hp, by simp⟩⟩
    · intro entries m' hm' hentries
      exact ⟨hm', Value.all_hash.2 ⟨fine_exempt rfl, hentries⟩⟩
    · intro error m' hm' herror
      exact ⟨hm', herror⟩

theorem meets_statement {scope : ScopeId} {st : Stmt} (hm : S.Holds m)
    (h : S.Fits (.statement st)) (hscope : scope < m.scopes.size) :
    (statement scope st).Meets S table depth ((Node.statement st).size + 1)
      S.Yields m := by
  cases st with
  | unknown => exact meets_raise hm
  | declaration keyword ident valueExpr =>
    simp only [statement, meets_bind, meets_machine]
    cases hunbound : m.lookupLocal scope ident.name with
    | some value => exact meets_raise hm
    | none =>
      refine meets_operand hm h rfl (by simp) ?_
      intro value m' hrun hm' hvalue
      -- the value binds nothing in the scope, so the name still is unbound
      have hkept : m.Kept m' := (valueExpr.eval_kept).of_ok hrun
      refine ⟨(hkept.lookupLocal hscope).trans hunbound, ?_, hvalue⟩
      exact Machine.Holds.declare hm' scope ident.name hvalue
  | ret token valueExpr =>
    by_cases hmissing : valueExpr = .missing
    · subst hmissing
      exact ⟨hm, Value.all_ret.2 ⟨fine_exempt rfl, sound_exempt rfl rfl⟩⟩
    · rw [statement]
      · refine meets_operand hm h (Node.evaluated_ret hmissing) (by simp) ?_
        intro value m' _ hm' hvalue
        exact ⟨hm', Value.all_ret.2 ⟨fine_exempt rfl, hvalue⟩⟩
      · exact hmissing
  | expression token value =>
    obtain ⟨hsize, hready⟩ := ready_part hm h rfl List.mem_cons_self
    simp only [statement, meets_job]
    refine ⟨hsize, hready, ?_⟩
    intro value m' _ hyields
    exact hyields
  | block b =>
    exact meets_block hm h rfl (by simp)
  | ifThen token condition consequence =>
    obtain ⟨hsize, hready⟩ := ready_part hm h rfl List.mem_cons_self
    simp only [statement, meets_bind, meets_job]
    refine ⟨hsize, hready, ?_⟩
    rintro value m' - ⟨hm', hvalue⟩
    refine meets_choose hm' hvalue ?_ ⟨hm', sound_exempt rfl rfl⟩
    exact meets_block hm' h rfl (by simp)
  | ifElse token condition consequence alternative =>
    obtain ⟨hsize, hready⟩ := ready_part hm h rfl List.mem_cons_self
    simp only [statement, meets_bind, meets_job]
    refine ⟨hsize, hready, ?_⟩
    rintro value m' - ⟨hm', hvalue⟩
    refine meets_choose hm' hvalue ?_ ?_
    · exact meets_block hm' h rfl (by simp)
    · exact meets_block hm' h rfl (by simp)

section Calls

variable {arguments : List Value}

theorem meets_withOne {f : Value → Plan Value} (hm : S.Holds m)
    (hf : ∀ v, arguments = [v] → (f v).Meets S table depth size S.Yields m) :
    (withOne arguments f).Meets S table depth size S.Yields m := by
  unfold withOne
  split
  · exact hf _ rfl
  · exact meets_raise hm

theorem meets_withArray {b : Builtin} {argument : Value} {f : List Value → Plan Value}
    (hm : S.Holds m) (hargument : S.Sound argument)
    (hf : ∀ vs, (∀ v ∈ vs, S.Sound v) → (f vs).Meets S table depth size S.Yields m) :
    (withArray b argument f).Meets S table depth size S.Yields m := by
  unfold withArray
  split
  · exact hf _ (Value.all_array.1 hargument).2
  · exact meets_raise hm

/-- The built-in functions only put together what they are given, but for the number of `len`. -/
theorem meets_builtin (b : Builtin) (hm : S.Holds m) (harguments : ∀ v ∈ arguments, S.Sound v)
    (hlen : b = .len → ∀ n, (Builtin.len.apply arguments).run m = .ok (.integer n) m →
      S.Fine (.integer n)) :
    (builtin arguments b).Meets S table depth size S.Yields m := by
  have hnull : S.Sound .null := sound_exempt rfl rfl
  cases b with
  | len =>
    refine meets_withOne hm ?_
    rintro v rfl
    split
    · exact ⟨hm, Value.all_integer.2 (hlen rfl _ rfl)⟩
    · exact ⟨hm, Value.all_integer.2 (hlen rfl _ rfl)⟩
    · exact meets_raise hm
  | first =>
    refine meets_withOne hm ?_
    rintro v rfl
    refine meets_withArray hm (harguments v List.mem_cons_self) ?_
    intro vs hvs
    cases vs with
    | nil => exact ⟨hm, hnull⟩
    | cons v vs => exact ⟨hm, hvs v List.mem_cons_self⟩
  | last =>
    refine meets_withOne hm ?_
    rintro v rfl
    refine meets_withArray hm (harguments v List.mem_cons_self) ?_
    intro vs hvs
    refine ⟨hm, ?_⟩
    cases hlast : vs.getLast? with
    | none => exact hnull
    | some v => exact hvs v (List.mem_of_getLast? hlast)
  | rest =>
    refine meets_withOne hm ?_
    rintro v rfl
    refine meets_withArray hm (harguments v List.mem_cons_self) ?_
    intro vs hvs
    cases vs with
    | nil => exact ⟨hm, hnull⟩
    | cons v vs =>
      rw [List.forall_mem_cons] at hvs
      exact ⟨hm, Value.all_array.2 ⟨fine_exempt rfl, hvs.2⟩⟩
  | push =>
    match arguments, harguments with
    | [v, u], harguments =>
      rw [List.forall_mem_cons, List.forall_mem_singleton] at harguments
      refine meets_withArray hm harguments.1 ?_
      intro vs hvs
      refine ⟨hm, Value.all_array.2 ⟨fine_exempt rfl, ?_⟩⟩
      rw [List.forall_mem_append, List.forall_mem_singleton]
      exact ⟨hvs, harguments.2⟩
    | [], _ | [_], _ | _ :: _ :: _ :: _, _ => exact meets_raise hm
  | print => exact ⟨hm, sound_exempt rfl rfl⟩

end Calls

end Rules

end Plan

/-- The plan of a job that is ready meets the standard. -/
theorem Job.meets {S : Standard} {table : ObjectId} {depth : Nat} {job : Job} {m : Machine}
    (h : S.Ready job m) (hmeasured : S.Measured table ⟨depth, job, m⟩) :
    (job.plan table).Meets S table depth job.size S.Yields m := by
  cases job with
  | expression scope e => exact Plan.meets_expression h.1 h.2
  | statement scope st => exact Plan.meets_statement h.1 h.2.1 h.2.2
  | call function arguments =>
    obtain ⟨hm, hfunction, harguments⟩ := h
    cases function with
    | function id parameters b outer =>
      refine Plan.meets_ite (fun _ => Plan.meets_raise hm) fun _ => ⟨⟨hm, ?_, harguments⟩, ?_⟩
      · exact S.fits_body (Value.all_function.1 hfunction)
      · intro inner value m' _ _ hyields
        exact hyields
    | builtin t b =>
      refine Plan.meets_builtin b hm harguments ?_
      rintro rfl n hrun
      rw [← applyValue_builtin table depth arguments (t := t)] at hrun
      exact hmeasured t arguments n m rfl hrun
    | _ => exact Plan.meets_raise hm
  | body outer parameters b arguments =>
    obtain ⟨hm, hb, harguments⟩ := h
    have hbound := (Machine.Holds.push hm (some outer)).bindParameters m.scopes.size parameters
      harguments
    simp only [Job.plan, Plan.Meets, Plan.meets_bind]
    refine Plan.meets_sequence hbound (by simp) ?_ hb (Plan.sound_exempt rfl rfl) ?_
    · intro st hst
      exact Nat.lt_succ_of_lt (b.sizeOf_lt hst)
    · intro r m' hm' hr
      unfold Plan.result
      split
      · exact ⟨hm', (Value.all_ret.1 hr).2⟩
      · exact ⟨hm', hr⟩
      · exact Plan.meets_raise hm'
  | program scope p =>
    obtain ⟨hm, hp, hscope⟩ := h
    simp only [Job.plan, Plan.meets_bind]
    refine Plan.meets_sequence hm hscope ?_ hp (Plan.sound_exempt rfl rfl) ?_
    · intro st hst
      exact Nat.succ_lt_succ (List.sizeOf_lt_of_mem hst)
    · intro r m' hm' hr
      unfold Plan.outcome
      split
      · exact Plan.meets_raise hm'
      · exact ⟨hm', hr⟩

/-! ### What comes up -/

namespace Plan

variable {α : Type} {S : Standard} {table : ObjectId} {depth size : Nat}
  {good : α → Machine → Prop} {m m' : Machine}

theorem mem_begun_perform {job : Job} {next : Value → Plan α} :
    ⟨depth, job, m⟩ ∈ (perform job next).begun table depth m := by
  rw [begun]
  exact List.mem_cons_self

theorem mem_begun_nest {job : Job} {next : Value → Plan α} :
    ⟨depth, job, m⟩ ∈ (nest job next).begun table (depth + 1) m := by
  rw [begun]
  exact List.mem_cons_self

theorem begun_perform_of_ok {job : Job} {next : Value → Plan α} {value : Value}
    (h : (job.run table depth).run m = .ok value m') :
    (perform job next).begun table depth m =
      ⟨depth, job, m⟩ :: (next value).begun table depth m' := by
  rw [begun, h]

theorem begun_perform_of_error {job : Job} {next : Value → Plan α} {overflow : Overflow}
    (h : (job.run table depth).run m = .error overflow m') :
    (perform job next).begun table depth m = [⟨depth, job, m⟩] := by
  rw [begun, h]

theorem begun_nest_of_ok {job : Job} {next : Value → Plan α} {value : Value}
    (h : (job.run table depth).run m = .ok value m') :
    (nest job next).begun table (depth + 1) m =
      ⟨depth, job, m⟩ :: (next value).begun table (depth + 1) m' := by
  rw [begun, h]

theorem begun_nest_of_error {job : Job} {next : Value → Plan α} {overflow : Overflow}
    (h : (job.run table depth).run m = .error overflow m') :
    (nest job next).begun table (depth + 1) m = [⟨depth, job, m⟩] := by
  rw [begun, h]

/-- A plan that meets the standard ends well, and gives out ready jobs only, if the jobs it gives out
keep to the standard themselves. -/
theorem Meets.sound {p : Plan α} (hp : p.Meets S table depth size good m)
    (hperformed : ∀ e ∈ p.begun table depth m, e.depth = depth → e.job.size < size →
      S.Ready e.job e.machine → S.Does table e)
    (hnested : ∀ e ∈ p.begun table depth m, e.depth + 1 = depth → S.Ready e.job e.machine →
      S.Does table e) :
    Ensures (p.run table depth) m good (fun _ m' => S.Holds m') ∧
      ∀ e ∈ p.begun table depth m, S.Ready e.job e.machine := by
  induction p generalizing m with
  | done result => exact ⟨hp, List.forall_mem_nil _⟩
  | perform job next ih =>
    obtain ⟨hsize, hready, hnext⟩ := hp
    have hdoes : S.Does table ⟨depth, job, m⟩ :=
      hperformed _ mem_begun_perform rfl hsize hready
    cases hrun : (job.run table depth).run m with
    | ok value m' =>
      rw [begun_perform_of_ok hrun, List.forall_mem_cons] at hperformed hnested ⊢
      have hrest := ih value (hnext value m' hrun (hdoes.of_ok hrun)) hperformed.2 hnested.2
      exact ⟨(ensures_congr (run_bind_of_ok hrun)).2 hrest.1, hready, hrest.2⟩
    | error overflow m' =>
      rw [begun_perform_of_error hrun, List.forall_mem_singleton]
      refine ⟨?_, hready⟩
      unfold Ensures
      rw [run, run_bind_of_error hrun]
      exact hdoes.of_error hrun
  | nest job next ih =>
    obtain ⟨hready, hnext⟩ := hp
    cases depth with
    | zero => exact ⟨hready.1, List.forall_mem_nil _⟩
    | succ inner =>
      have hdoes : S.Does table ⟨inner, job, m⟩ := hnested _ mem_begun_nest rfl hready
      cases hrun : (job.run table inner).run m with
      | ok value m' =>
        rw [begun_nest_of_ok hrun, List.forall_mem_cons] at hperformed hnested ⊢
        have hrest := ih value (hnext inner value m' rfl hrun (hdoes.of_ok hrun)) hperformed.2
          hnested.2
        exact ⟨(ensures_congr (run_bind_of_ok hrun)).2 hrest.1, hready, hrest.2⟩
      | error overflow m' =>
        rw [begun_nest_of_error hrun, List.forall_mem_singleton]
        refine ⟨?_, hready⟩
        unfold Ensures
        rw [run, run_bind_of_error hrun]
        exact hdoes.of_error hrun
  | fresh next ih => exact ih _ hp hperformed hnested
  | print text next ih => exact ih hp hperformed hnested
  | enter outer parameters arguments next ih =>
    have hrest := ih m.scopes.size hp hperformed hnested
    exact ⟨(ensures_congr (run_enter ..)).2 hrest.1, hrest.2⟩
  | declare scope name value next ih => exact ih hp.2 hperformed hnested
  | look next ih => exact ih m hp hperformed hnested

end Plan

section Jobs

variable {S : Standard} {table : ObjectId}

theorem Event.Reaches.trans {event event' event'' : Event} (h : Event.Reaches table event event')
    (h' : Event.Reaches table event' event'') : Event.Reaches table event event'' := by
  induction h with
  | refl => exact h'
  | step hbegun _ ih => exact .step hbegun (ih h')

/-- A job that is ready keeps to the standard, if the calls of `len` that come up do. -/
theorem Standard.does {event : Event} (hready : S.Ready event.job event.machine)
    (hmeasured : ∀ e, Event.Reaches table event e → S.Measured table e) : S.Does table event := by
  obtain ⟨depth, job, m⟩ := event
  induction depth, job using Job.induction generalizing m with
  | h depth job ih ihnested =>
    have hmeets := Job.meets hready (hmeasured _ .refl)
    unfold Standard.Does
    rw [Job.run_eq]
    refine (hmeets.sound ?_ ?_).1
    · rintro ⟨depth', job', m'⟩ hbegun rfl hsize hready'
      exact ih job' hsize m' hready' fun e he => hmeasured e (.step hbegun he)
    · rintro ⟨inner, job', m'⟩ hbegun hdepth hready'
      exact ihnested inner hdepth.symm job' m' hready' fun e he => hmeasured e (.step hbegun he)

/-- All jobs that come up are ready. -/
theorem Event.Reaches.ready {event event' : Event} (h : Event.Reaches table event event')
    (hready : S.Ready event.job event.machine)
    (hmeasured : ∀ e, Event.Reaches table event e → S.Measured table e) :
    S.Ready event'.job event'.machine := by
  induction h with
  | refl => exact hready
  | @step event event' event'' hbegun _ ih =>
    have hmeets := Job.meets hready (hmeasured _ .refl)
    have hdoes : ∀ e ∈ event.begun table, S.Ready e.job e.machine → S.Does table e := by
      intro e he hready'
      exact S.does hready' fun e' he' => hmeasured e' (.step he he')
    have hall := (hmeets.sound (fun e he _ _ => hdoes e he) fun e he _ => hdoes e he).2
    exact ih (hall event' hbegun) fun e he => hmeasured e (.step hbegun he)

/-- So do all jobs that come up. -/
theorem Event.Reaches.does {event event' : Event} (h : Event.Reaches table event event')
    (hready : S.Ready event.job event.machine)
    (hmeasured : ∀ e, Event.Reaches table event e → S.Measured table e) : S.Does table event' :=
  S.does (h.ready hready hmeasured) fun e he => hmeasured e (h.trans he)

end Jobs

end MonkeyLang
