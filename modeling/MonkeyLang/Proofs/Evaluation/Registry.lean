import Mathlib.Logic.Function.Basic
import MonkeyLang.Proofs.Evaluation.Limit

/-!
# What identities stand for

An identity is given out once, to a value that is then made; from there on the value is only copied,
as a whole. So an identity always stands for one and the same value, wherever it comes up. A
`Registry` says which, for all identities that have been given out.

`Plan.Puts` goes through a plan and asks that it uses no other values than those that the registry
knows, and new ones under new identities; `Job.puts` says that the plan of every job does. In what
follows from this the registry of the end knows every value that came up on the way: it
`Tracks` every job that was given out (`Job.follows`).
-/

namespace MonkeyLang

/-- The identity of a value that has one of its own. -/
def Value.identity? : Value → Option ObjectId
  | .ret id _ | .error id _ | .function id .. | .array id _ | .hash id _ => some id
  | .integer _ | .boolean _ | .text _ | .null | .void | .builtin .. => none

/-- Which value each identity stands for, of those that are below the supply. -/
structure Registry where
  object : ObjectId → Value
  supply : ObjectId

namespace Registry

/-- If the value has an identity, this identity stands for it. -/
def Registers (R : Registry) (value : Value) : Prop :=
  ∀ id ∈ value.identity?, id < R.supply ∧ R.object id = value

/-- The identities in the value stand for the parts that have them. -/
def Knows (R : Registry) (value : Value) : Prop := value.All R.Registers

/-- Further identities have been given out. -/
structure Grows (R R' : Registry) : Prop where
  supply_le : R.supply ≤ R'.supply
  object_eq : ∀ id < R.supply, R'.object id = R.object id

/-- The next identity has been given out, to the value. -/
def add (R : Registry) (made : Value) : Registry :=
  ⟨Function.update R.object R.supply made, R.supply + 1⟩

/-- What the registry was at a supply. -/
def upTo (R : Registry) (supply : ObjectId) : Registry := ⟨R.object, supply⟩

/-- The registry is about the identities that the machine has given out, and knows every value bound
in it. -/
structure Covers (R : Registry) (m : Machine) : Prop where
  supply_eq : R.supply = m.supply
  bindings : m.Holds R.Knows

section Growth

variable {R R' R'' : Registry} {value made : Value} {m : Machine}

theorem Grows.refl (R : Registry) : R.Grows R := ⟨Nat.le_refl _, fun _ _ => rfl⟩

theorem Grows.trans (h : R.Grows R') (h' : R'.Grows R'') : R.Grows R'' :=
  ⟨Nat.le_trans h.supply_le h'.supply_le, fun id hid =>
    (h'.object_eq id (Nat.lt_of_lt_of_le hid h.supply_le)).trans (h.object_eq id hid)⟩

theorem grows_add (R : Registry) (made : Value) : R.Grows (R.add made) :=
  ⟨Nat.le_succ _, fun _ hid => Function.update_of_ne (Nat.ne_of_lt hid) _ _⟩

theorem grows_upTo (h : R.Grows R') : R.Grows (R'.upTo R.supply) := ⟨Nat.le_refl _, h.object_eq⟩

theorem upTo_grows {supply : ObjectId} (h : supply ≤ R.supply) : (R.upTo supply).Grows R :=
  ⟨h, fun _ _ => rfl⟩

theorem Knows.mono (h : R.Knows value) (hg : R.Grows R') : R'.Knows value := by
  refine Value.All.mono h fun part hpart id hid => ?_
  obtain ⟨hlt, hobject⟩ := hpart id hid
  exact ⟨Nat.lt_of_lt_of_le hlt hg.supply_le, (hg.object_eq id hlt).trans hobject⟩

theorem holds_mono (h : m.Holds R.Knows) (hg : R.Grows R') : m.Holds R'.Knows :=
  fun id scope hscope entry hentry => (h id scope hscope entry hentry).mono hg

/-- The value that the next identity is given to is registered. -/
theorem registers_add (h : made.identity? = some R.supply) : (R.add made).Registers made := by
  intro id hid
  rw [h, Option.mem_some_iff] at hid
  subst hid
  exact ⟨Nat.lt_succ_self _, Function.update_self _ _ _⟩

theorem registers_of_none (h : value.identity? = none) : R.Registers value := by
  intro id hid
  rw [h] at hid
  cases hid

/-- A value without identity that nothing is stored in. -/
theorem knows_of_none (hparts : value.parts = [value]) (h : value.identity? = none) :
    R.Knows value := by
  intro part hpart
  rw [hparts] at hpart
  cases List.mem_singleton.1 hpart
  exact registers_of_none h

/-- What operators compute has no identity. -/
theorem computed : Value.Computed R.Registers :=
  ⟨fun _ => registers_of_none rfl, fun _ => registers_of_none rfl, fun _ => registers_of_none rfl⟩

theorem Covers.fresh (h : R.Covers m) (made : Value) :
    (R.add made).Covers { m with supply := m.supply + 1 } :=
  ⟨congrArg Nat.succ h.supply_eq, holds_mono h.bindings (grows_add R made)⟩

end Growth

end Registry

/-- The values that a job is given. -/
def Job.given : Job → List Value
  | expression .. | statement .. | program .. => []
  | call function arguments => function :: arguments
  | body _ _ _ arguments => arguments

/-- The plan puts together what the registry knows and new values under new identities, if the jobs
it gives out do. It ends with a registry and a result that are `good`. -/
def Plan.Puts {α : Type} (good : Registry → α → Prop) : Plan α → Registry → Prop
  | done result, R => good R result
  | perform job next, R | nest job next, R =>
    (∀ v ∈ job.given, R.Knows v) ∧
      ∀ R' value, R.Grows R' → R'.Knows value → (next value).Puts good R'
  | fresh next, R => ∃ made, (next R.supply).Puts good (R.add made)
  | print _ next, R => next.Puts good R
  | enter _ _ arguments next, R =>
    (∀ v ∈ arguments, R.Knows v) ∧ ∀ scope, (next scope).Puts good R
  | declare _ _ value next, R => R.Knows value ∧ next.Puts good R
  | look next, R => ∀ m, R.Covers m → (next m).Puts good R

namespace Plan

open Registry

variable {α β : Type} {R : Registry}

/-- What the first plan ends with is where the second one starts. -/
theorem puts_bind {p : Plan α} {f : α → Plan β} {good : Registry → β → Prop} :
    (p >>= f).Puts good R ↔ p.Puts (fun R' a => (f a).Puts good R') R := by
  show (p.bind f).Puts good R ↔ _
  induction p generalizing R with
  | done => exact Iff.rfl
  | perform _ _ ih | nest _ _ ih | fresh _ ih | look _ ih => simp only [bind, Puts, ih]
  | print _ _ ih | declare _ _ _ _ ih | enter _ _ _ _ ih => simp only [bind, Puts, ih]

theorem puts_ite {c : Prop} [Decidable c] {p q : Plan α} {good : Registry → α → Prop}
    (hp : p.Puts good R) (hq : q.Puts good R) : (if c then p else q).Puts good R := by
  by_cases h : c
  · rwa [if_pos h]
  · rwa [if_neg h]

/-! ### The rules of evaluation -/

section Rules

theorem puts_raise (fault : Fault) : (raise fault).Puts Knows R :=
  ⟨.error R.supply fault, Value.all_error.2 (registers_add rfl)⟩

theorem puts_ofResult {r : Except Fault Value} (h : ∀ value, r = .ok value → R.Knows value) :
    (ofResult r).Puts Knows R := by
  cases r with
  | ok value => exact h value rfl
  | error fault => exact puts_raise fault

theorem puts_newArray {vs : List Value} (h : ∀ v ∈ vs, R.Knows v) :
    (do return .array (← newId) vs : Plan Value).Puts Knows R := by
  refine ⟨.array R.supply vs, Value.all_array.2 ⟨registers_add rfl, fun v hv => ?_⟩⟩
  exact (h v hv).mono (grows_add R _)

/-- The value of an expression as a part of something larger: if it is an error, it is the result. -/
theorem puts_operand {scope : ScopeId} {e : Expr} {f : Value → Plan Value}
    (hf : ∀ R' v, R.Grows R' → R'.Knows v → (f v).Puts Knows R') :
    (do let value ← job (.expression scope e)
        if value.isError then return value else f value).Puts Knows R := by
  refine ⟨List.forall_mem_nil _, fun R' value hg hvalue => ?_⟩
  exact puts_ite hvalue (hf R' value hg hvalue)

theorem puts_row {scope : ScopeId} {es : List Expr}
    {good : Registry → Except Value (List Value) → Prop}
    (hok : ∀ R' values, R.Grows R' → (∀ v ∈ values, R'.Knows v) → good R' (.ok values))
    (herror : ∀ R' error, R'.Knows error → good R' (.error error)) :
    (row scope es).Puts good R := by
  induction es generalizing R good with
  | nil => exact hok R [] (.refl R) (List.forall_mem_nil _)
  | cons e es ih =>
    refine ⟨List.forall_mem_nil _, fun R₁ value hg hvalue => ?_⟩
    refine puts_ite (herror R₁ value hvalue) (puts_bind.2 (ih ?_ ?_))
    · intro R₂ values hg' hvalues
      exact hok R₂ _ (hg.trans hg') (List.forall_mem_cons.2 ⟨hvalue.mono hg', hvalues⟩)
    · intro R₂ error herr
      exact herror R₂ error herr

theorem puts_pairs {scope : ScopeId} {ps : List (Expr × Expr)}
    {entries : List (HashKey × Value × Value)}
    {good : Registry → Except Value (List (HashKey × Value × Value)) → Prop}
    (hentries : Value.AllEntries R.Registers entries)
    (hok : ∀ R' entries, Value.AllEntries R'.Registers entries → good R' (.ok entries))
    (herror : ∀ R' error, R'.Knows error → good R' (.error error)) :
    (pairs scope entries ps).Puts good R := by
  have hmono : ∀ {R R' : Registry} {entries}, Value.AllEntries R.Registers entries → R.Grows R' →
      Value.AllEntries R'.Registers entries := fun h hg entry hentry =>
    ⟨Knows.mono (h entry hentry).1 hg, Knows.mono (h entry hentry).2 hg⟩
  induction ps generalizing R entries with
  | nil => exact hok R entries hentries
  | cons p ps ih =>
    obtain ⟨keyExpr, valueExpr⟩ := p
    refine ⟨List.forall_mem_nil _, fun R₁ key hg₁ hkey => ?_⟩
    refine puts_ite (herror R₁ key hkey) ?_
    cases key.hashKey? with
    | none => exact ⟨.error R₁.supply _, herror _ _ (Value.all_error.2 (registers_add rfl))⟩
    | some hashKey =>
      refine ⟨List.forall_mem_nil _, fun R₂ value hg₂ hvalue => ?_⟩
      refine puts_ite (herror R₂ value hvalue) (ih ?_)
      exact (hmono hentries (hg₁.trans hg₂)).insert (hkey.mono hg₂) hvalue

theorem puts_sequence {scope : ScopeId} {sts : List Stmt} {last : Value}
    {good : Registry → Sequel → Prop} (hlast : R.Knows last)
    (hgood : ∀ R' r, R'.Knows r.value → good R' r) : (sequence scope last sts).Puts good R := by
  induction sts generalizing R last with
  | nil => exact hgood R _ hlast
  | cons st sts ih =>
    refine ⟨List.forall_mem_nil _, fun R' value _ hvalue => ?_⟩
    exact puts_ite (hgood R' _ hvalue) (ih hvalue)

theorem knows_null : R.Knows .null := knows_of_none rfl rfl

theorem puts_block {outer : ScopeId} {b : Block} : (block outer b).Puts Knows R := by
  refine ⟨List.forall_mem_nil _, fun scope => ?_⟩
  have hsequence : (sequence scope .null b.statements >>= fun r => pure r.value).Puts Knows R :=
    puts_bind.2 (puts_sequence knows_null fun R' r hr => hr)
  exact hsequence

theorem puts_choose {condition : Value} {yes no : Plan Value} (hcondition : R.Knows condition)
    (hyes : yes.Puts Knows R) (hno : no.Puts Knows R) : (choose condition yes no).Puts Knows R := by
  unfold choose
  split
  · exact hyes
  · exact hno
  · exact puts_ite hcondition (puts_raise _)

theorem puts_name {table : ObjectId} {scope : ScopeId} {n : String} :
    (name table scope n).Puts Knows R := by
  intro m hm
  simp only [Plan.bind]
  cases hlookup : m.lookup scope n with
  | some value => exact Machine.Holds.lookup hm.bindings hlookup
  | none =>
    cases Builtin.ofName? n with
    | some b => exact knows_of_none rfl rfl
    | none => exact puts_raise _

theorem puts_expression {table : ObjectId} {scope : ScopeId} {e : Expr} :
    (expression table scope e).Puts Knows R := by
  cases e with
  | missing | unknown => exact puts_raise _
  | identifier ident => exact puts_name
  | integer | boolean | text => exact knows_of_none rfl rfl
  | unary token operator operand =>
    refine puts_operand fun R' value _ _ => ?_
    exact puts_ofResult fun _ hr => Value.all_unary Registry.computed hr
  | binary token left operator right =>
    refine puts_operand fun R₁ a _ _ => puts_operand fun R₂ b _ _ => ?_
    exact puts_ofResult fun _ hr => Value.all_binary Registry.computed hr
  | function token parameters body =>
    exact ⟨.function R.supply parameters body scope, Value.all_function.2 (registers_add rfl)⟩
  | call token callee arguments =>
    refine puts_operand fun R₁ function _ hfunction => puts_bind.2 (puts_row ?_ ?_)
    · intro R₂ values hg hvalues
      refine ⟨List.forall_mem_cons.2 ⟨hfunction.mono hg, hvalues⟩, fun R' value _ hvalue => ?_⟩
      exact hvalue
    · intro R₂ error herror
      exact herror
  | array token elements =>
    refine puts_bind.2 (puts_row ?_ ?_)
    · intro R' values _ hvalues
      exact puts_newArray hvalues
    · intro R' error herror
      exact herror
  | index token collection position =>
    refine puts_operand fun R₁ c _ hc => puts_operand fun R₂ p hg _ => ?_
    exact puts_ofResult fun _ hr => Value.all_index (hc.mono hg) hr
  | hash token ps =>
    refine puts_bind.2 (puts_pairs (List.forall_mem_nil _) ?_ ?_)
    · intro R' entries hentries
      refine ⟨.hash R'.supply entries, Value.all_hash.2 ⟨registers_add rfl, ?_⟩⟩
      intro entry hentry
      exact ⟨Knows.mono (hentries entry hentry).1 (grows_add _ _),
        Knows.mono (hentries entry hentry).2 (grows_add _ _)⟩
    · intro R' error herror
      exact herror

theorem puts_statement {scope : ScopeId} {st : Stmt} : (statement scope st).Puts Knows R := by
  cases st with
  | unknown => exact puts_raise _
  | declaration keyword ident valueExpr =>
    intro m _
    simp only [Plan.bind]
    cases m.lookupLocal scope ident.name with
    | some value => exact puts_raise _
    | none => exact puts_operand fun R' value _ hvalue => ⟨hvalue, hvalue⟩
  | ret token valueExpr =>
    by_cases hmissing : valueExpr = .missing
    · subst hmissing
      exact ⟨.ret R.supply .void, Value.all_ret.2 ⟨registers_add rfl, knows_of_none rfl rfl⟩⟩
    · rw [statement]
      · refine puts_operand fun R' value _ hvalue => ⟨.ret R'.supply value, ?_⟩
        exact Value.all_ret.2 ⟨registers_add rfl, hvalue.mono (grows_add _ _)⟩
      · exact hmissing
  | expression token value =>
    exact ⟨List.forall_mem_nil _, fun R' value _ hvalue => hvalue⟩
  | block b => exact puts_block
  | ifThen token condition consequence =>
    refine ⟨List.forall_mem_nil _, fun R' value _ hvalue => ?_⟩
    exact puts_choose hvalue puts_block knows_null
  | ifElse token condition consequence alternative =>
    refine ⟨List.forall_mem_nil _, fun R' value _ hvalue => ?_⟩
    exact puts_choose hvalue puts_block puts_block

section Calls

variable {arguments : List Value}

theorem puts_withOne {f : Value → Plan Value} (hf : ∀ v, arguments = [v] → (f v).Puts Knows R) :
    (withOne arguments f).Puts Knows R := by
  unfold withOne
  split
  · exact hf _ rfl
  · exact puts_raise _

theorem puts_withArray {b : Builtin} {argument : Value} {f : List Value → Plan Value}
    (hargument : R.Knows argument) (hf : ∀ vs, (∀ v ∈ vs, R.Knows v) → (f vs).Puts Knows R) :
    (withArray b argument f).Puts Knows R := by
  unfold withArray
  split
  · exact hf _ (Value.all_array.1 hargument).2
  · exact puts_raise _

theorem puts_builtin (b : Builtin) (h : ∀ v ∈ arguments, R.Knows v) :
    (builtin arguments b).Puts Knows R := by
  cases b with
  | len =>
    refine puts_withOne ?_
    rintro v rfl
    split
    · exact knows_of_none rfl rfl
    · exact knows_of_none rfl rfl
    · exact puts_raise _
  | first =>
    refine puts_withOne ?_
    rintro v rfl
    refine puts_withArray (h v List.mem_cons_self) fun vs hvs => ?_
    cases vs with
    | nil => exact knows_null
    | cons v vs => exact hvs v List.mem_cons_self
  | last =>
    refine puts_withOne ?_
    rintro v rfl
    refine puts_withArray (h v List.mem_cons_self) fun vs hvs => ?_
    show R.Knows (vs.getLast?.getD .null)
    cases hlast : vs.getLast? with
    | none => exact knows_null
    | some v => exact hvs v (List.mem_of_getLast? hlast)
  | rest =>
    refine puts_withOne ?_
    rintro v rfl
    refine puts_withArray (h v List.mem_cons_self) fun vs hvs => ?_
    cases vs with
    | nil => exact knows_null
    | cons v vs => exact puts_newArray fun u hu => hvs u (List.mem_cons_of_mem v hu)
  | push =>
    match arguments, h with
    | [v, u], h =>
      rw [List.forall_mem_cons, List.forall_mem_singleton] at h
      refine puts_withArray h.1 fun vs hvs => puts_newArray ?_
      rw [List.forall_mem_append, List.forall_mem_singleton]
      exact ⟨hvs, h.2⟩
    | [], _ | [_], _ | _ :: _ :: _ :: _, _ => exact puts_raise _
  | print => exact knows_of_none rfl rfl

end Calls

end Rules

end Plan

/-- The plan of a job uses the values that the job is given and those bound, and new ones. -/
theorem Job.puts {R : Registry} {table : ObjectId} {job : Job} (h : ∀ v ∈ job.given, R.Knows v) :
    (job.plan table).Puts Registry.Knows R := by
  cases job with
  | expression scope e => exact Plan.puts_expression
  | statement scope st => exact Plan.puts_statement
  | call function arguments =>
    obtain ⟨-, harguments⟩ := List.forall_mem_cons.1 h
    cases function with
    | function id parameters b outer =>
      refine Plan.puts_ite (Plan.puts_raise _) ⟨harguments, fun R' value _ hvalue => ?_⟩
      exact hvalue
    | builtin t b => exact Plan.puts_builtin b harguments
    | _ => exact Plan.puts_raise _
  | body outer parameters b arguments =>
    refine ⟨h, fun scope => Plan.puts_bind.2 ?_⟩
    refine Plan.puts_sequence Plan.knows_null fun R' r hr => ?_
    unfold Plan.result
    split
    · exact (Value.all_ret.1 hr).2
    · exact hr
    · exact Plan.puts_raise _
  | program scope p =>
    refine Plan.puts_bind.2 (Plan.puts_sequence Plan.knows_null fun R' r hr => ?_)
    unfold Plan.outcome
    split
    · exact Plan.puts_raise _
    · exact hr

/-! ### What comes up -/

namespace Registry

/-- The registry knows what is bound in the machine by the identities that have been given out on it,
and more may have been given out since. -/
structure Remembers (R : Registry) (m : Machine) : Prop where
  supply_le : m.supply ≤ R.supply
  bindings : m.Holds (R.upTo m.supply).Knows

/-- The registry knows the values that are there when the job is given out, and when it is done. -/
structure Tracks (R : Registry) (table : ObjectId) (event : Event) : Prop where
  start : R.Remembers event.machine
  given : ∀ v ∈ event.job.given, (R.upTo event.machine.supply).Knows v
  finish : Ensures (event.job.run table event.depth) event.machine
    (fun value m' => R.Remembers m' ∧ (R.upTo m'.supply).Knows value) fun _ m' => R.Remembers m'

/-- The computation ends with a registry and a result that are good. The registry has grown, and
tracks all that the computation does, which are these jobs and those that come up in them. -/
def Follows {α : Type} (R : Registry) (table : ObjectId) (events : List Event) (x : Eval α)
    (m : Machine) (good : Registry → α → Prop) : Prop :=
  ∃ R', R.Grows R' ∧ (∀ e ∈ events, ∀ e', e.Reaches table e' → R'.Tracks table e') ∧
    Ensures x m (fun a m' => R'.Covers m' ∧ good R' a) fun _ m' => R'.Covers m'

section Tracking

variable {R R' : Registry} {m m' : Machine} {value : Value} {table : ObjectId} {event : Event}

theorem upTo_mono {supply : ObjectId} (h : R.Grows R') (hle : supply ≤ R.supply) :
    (R.upTo supply).Grows (R'.upTo supply) :=
  ⟨Nat.le_refl _, fun id hid => h.object_eq id (Nat.lt_of_lt_of_le hid hle)⟩

theorem Covers.knows_upTo (h : R.Covers m) (hg : R.Grows R') (hvalue : R.Knows value) :
    (R'.upTo m.supply).Knows value := by
  rw [← h.supply_eq]
  exact hvalue.mono (grows_upTo hg)

theorem Covers.remembers (h : R.Covers m) (hg : R.Grows R') : R'.Remembers m where
  supply_le := h.supply_eq ▸ hg.supply_le
  bindings := fun id scope hscope entry hentry =>
    h.knows_upTo hg (h.bindings id scope hscope entry hentry)

theorem Remembers.mono (h : R.Remembers m) (hg : R.Grows R') : R'.Remembers m :=
  ⟨Nat.le_trans h.supply_le hg.supply_le, holds_mono h.bindings (upTo_mono hg h.supply_le)⟩

theorem Tracks.mono (h : R.Tracks table event) (hg : R.Grows R') : R'.Tracks table event where
  start := h.start.mono hg
  given := fun v hv => (h.given v hv).mono (upTo_mono hg h.start.supply_le)
  finish := h.finish.mono
    (fun _ _ ⟨hm, hvalue⟩ => ⟨hm.mono hg, hvalue.mono (upTo_mono hg hm.supply_le)⟩)
    fun _ _ hm => hm.mono hg

end Tracking

end Registry

section Following

open Registry

variable {α : Type} {R : Registry} {table : ObjectId} {depth size : Nat} {m : Machine}

/-- A registry that has grown follows what is left to do. -/
theorem Registry.Follows.after {good : Registry → α → Prop} {R₁ : Registry} {x y : Eval α}
    {m₁ : Machine} {events first : List Event} (h : R₁.Follows table events y m₁ good)
    (hg : R.Grows R₁) (hfirst : ∀ e ∈ first, ∀ e', e.Reaches table e' → R₁.Tracks table e')
    (hrun : x.run m = y.run m₁) : R.Follows table (first ++ events) x m good := by
  obtain ⟨R', hg', htracks, hend⟩ := h
  refine ⟨R', hg.trans hg', ?_, (ensures_congr hrun).2 hend⟩
  intro e he e' he'
  rcases List.mem_append.1 he with he | he
  · exact (hfirst e he e' he').mono hg'
  · exact htracks e he e' he'

/-- What is done with the value of a job follows what is done for this value. -/
theorem Registry.Follows.bind {good : Registry → α → Prop} {x : Eval Value} {f : Value → Eval α}
    {first : List Event} {g : Value → Machine → List Event}
    (hx : R.Follows table first x m Knows)
    (hf : ∀ (R' : Registry) value m', R.Grows R' → x.run m = .ok value m' → R'.Covers m' →
      R'.Knows value → R'.Follows table (g value m') (f value) m' good) :
    R.Follows table (first ++ match x.run m with
      | .ok value m' => g value m'
      | .error .. => []) (x >>= f) m good := by
  obtain ⟨R', hg, htracks, hend⟩ := hx
  cases hrun : x.run m with
  | ok value m' =>
    obtain ⟨hm', hvalue⟩ := hend.of_ok hrun
    exact (hf R' value m' hg hrun hm' hvalue).after hg htracks (run_bind_of_ok hrun)
  | error overflow m' =>
    rw [List.append_nil]
    refine ⟨R', hg, htracks, ?_⟩
    unfold Ensures
    rw [run_bind_of_error hrun]
    exact hend.of_error hrun

theorem Machine.supply_bindParameters (m : Machine) (id : ScopeId) (parameters : List Ident)
    (arguments : List Value) : (m.bindParameters id parameters arguments).supply = m.supply :=
  Machine.bindParameters_induction (P := fun m' => m'.supply = m.supply)
    (fun _ _ _ _ _ hm => hm) rfl

/-- A plan can be followed if the jobs that it gives out can be. -/
theorem Plan.Puts.follows {p : Plan α} {good : Registry → α → Prop} {ends : α → Machine → Prop}
    (h : p.Puts good R) (hmeets : p.Meets .any table depth size ends m) (hm : R.Covers m)
    (hperformed : ∀ (job : Job) m (R : Registry), job.size < size → Standard.any.Ready job m →
      R.Covers m → (∀ v ∈ job.given, R.Knows v) →
      R.Follows table [⟨depth, job, m⟩] (job.run table depth) m Knows)
    (hnested : ∀ inner, depth = inner + 1 → ∀ (job : Job) m (R : Registry),
      Standard.any.Ready job m → R.Covers m → (∀ v ∈ job.given, R.Knows v) →
      R.Follows table [⟨inner, job, m⟩] (job.run table inner) m Knows) :
    R.Follows table (p.begun table depth m) (p.run table depth) m good := by
  induction p generalizing m R with
  | done result => exact ⟨R, .refl R, List.forall_mem_nil _, hm, h⟩
  | perform job next ih =>
    obtain ⟨hgiven, hnext⟩ := h
    obtain ⟨hsize, hready, hmeets⟩ := hmeets
    rw [begun, run]
    refine (hperformed job m R hsize hready hm hgiven).bind
      (g := fun value => (next value).begun table depth) ?_
    intro R' value m' hg hrun hm' hvalue
    exact ih value (hnext R' value hg hvalue)
      (hmeets value m' hrun (Standard.yields_any value m')) hm'
  | nest job next ih =>
    obtain ⟨hgiven, hnext⟩ := h
    obtain ⟨hready, hmeets⟩ := hmeets
    cases depth with
    | zero => exact ⟨R, .refl R, List.forall_mem_nil _, hm⟩
    | succ inner =>
      rw [begun, run]
      refine (hnested inner rfl job m R hready hm hgiven).bind
        (g := fun value => (next value).begun table (inner + 1)) ?_
      intro R' value m' hg hrun hm' hvalue
      exact ih value (hnext R' value hg hvalue)
        (hmeets inner value m' rfl hrun (Standard.yields_any value m')) hm'
  | fresh next ih =>
    obtain ⟨made, hnext⟩ := h
    rw [hm.supply_eq] at hnext
    have hrest := ih _ hnext hmeets (hm.fresh made)
    exact hrest.after (grows_add R made) (List.forall_mem_nil _) rfl
  | print text next ih => exact ih h hmeets ⟨hm.supply_eq, hm.bindings⟩
  | enter outer parameters arguments next ih =>
    obtain ⟨harguments, hnext⟩ := h
    have hbound : R.Covers (Machine.bindParameters
        { m with scopes := m.scopes.push ⟨[], some outer⟩ } m.scopes.size parameters arguments) := by
      refine ⟨?_, (Machine.Holds.push hm.bindings _).bindParameters _ _ harguments⟩
      rw [Machine.supply_bindParameters]
      exact hm.supply_eq
    exact (ih _ (hnext _) hmeets hbound).after (.refl R) (List.forall_mem_nil _) (run_enter ..)
  | declare scope name value next ih =>
    exact ih h.2 hmeets.2 ⟨hm.supply_eq, Machine.Holds.declare hm.bindings scope name h.1⟩
  | look next ih => exact ih m (h m hm) hmeets hm

/-- A job can be followed on every machine that a registry covers. -/
theorem Job.follows (table : ObjectId) (depth : Nat) (job : Job)
    (hready : Standard.any.Ready job m) (hm : R.Covers m)
    (hgiven : ∀ v ∈ job.given, R.Knows v) :
    R.Follows table [⟨depth, job, m⟩] (job.run table depth) m Knows := by
  induction depth, job using Job.induction generalizing m R with
  | h depth job ih ihnested =>
    have hmeets : (job.plan table).Meets .any table depth job.size Standard.any.Yields m :=
      Job.meets hready fun _ _ _ _ _ _ => trivial
    obtain ⟨R', hg, htracks, hend⟩ := (Job.puts hgiven).follows hmeets hm
      (fun job' _ _ hsize hready => ih job' hsize hready)
      fun inner hdepth job' _ _ hready => ihnested inner hdepth job' hready
    rw [← Job.run_eq] at hend
    refine ⟨R', hg, List.forall_mem_singleton.2 fun e he => ?_, hend⟩
    cases he with
    | refl =>
      refine ⟨hm.remembers hg, fun v hv => hm.knows_upTo hg (hgiven v hv), ?_⟩
      refine hend.mono (fun value m' ⟨hm', hvalue⟩ => ?_) fun _ m' hm' => hm'.remembers (.refl R')
      exact ⟨hm'.remembers (.refl R'), hm'.knows_upTo (.refl R') hvalue⟩
    | step hbegun hreaches => exact htracks _ hbegun _ hreaches

end Following

/-- Every program can be run in a scope of the machine. -/
theorem Standard.ready_any {m : Machine} {scope : ScopeId} (hscope : scope < m.scopes.size)
    (program : Program) : any.Ready (.program scope program) m :=
  ⟨(yields_any .null m).1, fun _ _ => trivial, hscope⟩

/-- The evaluation of a program can be followed on every machine that a registry covers. -/
theorem Registry.Covers.follows {R : Registry} {m : Machine} {scope : ScopeId} (hm : R.Covers m)
    (hscope : scope < m.scopes.size) (program : Program) (table : ObjectId) (limit : Nat) :
    R.Follows table [⟨limit, .program scope program, m⟩]
      (program.eval (.ofTable table limit) scope) m Registry.Knows :=
  Job.follows table limit _ (Standard.ready_any hscope program) hm (List.forall_mem_nil _)

/-- In a session the registry grows. -/
theorem Session.grows {R : Registry} {m m' : Machine} (h : Session m m') (hm : R.Covers m) :
    ∃ R' : Registry, R.Grows R' ∧ R'.Covers m' := by
  induction h with
  | refl => exact ⟨R, .refl R, hm⟩
  | scope outer _ ih =>
    obtain ⟨R', hg, hm'⟩ := ih
    exact ⟨R', hg, hm'.supply_eq, Machine.Holds.push hm'.bindings outer⟩
  | table _ ih =>
    obtain ⟨R', hg, hm'⟩ := ih
    exact ⟨R'.add .null, hg.trans (R'.grows_add .null), hm'.fresh .null⟩
  | output text _ ih =>
    obtain ⟨R', hg, hm'⟩ := ih
    exact ⟨R', hg, hm'.supply_eq, hm'.bindings⟩
  | run program table limit _ hscope hrun ih =>
    obtain ⟨R', hg, hm'⟩ := ih
    obtain ⟨R'', hg', -, hend⟩ := hm'.follows hscope program table limit
    have hcovers := (hend.mono (fun _ _ h => h.1) fun _ _ h => h).of_leaves hrun
    exact ⟨R'', hg.trans hg', hcovers⟩

/-- Every machine that a session can reach has a registry. -/
theorem Reachable.exists_covers {m : Machine} (h : Reachable m) : ∃ R : Registry, R.Covers m := by
  have hinitial : (Registry.mk (fun _ => .null) 0).Covers .initial := ⟨rfl, Machine.Holds.initial⟩
  obtain ⟨R, -, hm⟩ := Session.grows h hinitial
  exact ⟨R, hm⟩

end MonkeyLang
