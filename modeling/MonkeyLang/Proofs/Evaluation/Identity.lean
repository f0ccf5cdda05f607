import MonkeyLang.Proofs.Evaluation.Registry
import MonkeyLang.Proofs.Evaluation.Storing
import MonkeyLang.Proofs.Evaluation.Words

/-!
# Equality and identity

Numbers, texts and booleans are compared by what they are, arrays, hashes and functions by their
identities. In a run on a machine that a session has led to, this makes no difference: an identity
stands for one value, so values of one type that come up in the run are equal by `==` exactly when
they are the same value (`Registry.Registers.same_iff`). From this follows all that is expected of an
equality. And an object that is made gets an identity that nothing has that existed before
(`Job.Makes.fresh`), so it is equal to nothing of it.
-/

namespace MonkeyLang

/-! ### Equality -/

theorem Value.eq_or_identity_of_same {x y : Value} (h : x.same y = true) :
    x = y ∨ ∃ id, x.identity? = some id ∧ y.identity? = some id := by
  cases x <;> cases y <;> simp_all [same, identity?]

/-- Values that an identity stands for are the same only if they are equal. -/
theorem Registry.Registers.same_iff {R : Registry} {x y : Value} (hx : R.Registers x)
    (hy : R.Registers y) : x.same y = true ↔ x = y := by
  constructor
  · intro h
    rcases Value.eq_or_identity_of_same h with h | ⟨id, hidx, hidy⟩
    · exact h
    · exact (hx id hidx).2.symm.trans (hy id hidy).2
  · rintro rfl
    exact x.same_refl

/-- What is expected of equality, of two values of one type and a third value. -/
structure Value.EqualityCoherent (x y z : Value) : Prop where
  decided : ∃ b, binary "==" x y = .ok (boolean b) ∧ binary "!=" x y = .ok (boolean !b)
  refl : x.Equals x
  symm : x.Equals y ↔ y.Equals x
  trans : x.Equals y → y.Equals z → x.Equals z
  inspect : x.Equals y → x.inspect = y.inspect

theorem Registry.Registers.equalityCoherent {R : Registry} {x y : Value} (hx : R.Registers x)
    (hy : R.Registers y) (htype : x.type = y.type) (z : Value) : x.EqualityCoherent y z := by
  have heq : x.Equals y → x = y := fun h => (hx.same_iff hy).1 (Value.equals_iff.1 h).2
  refine ⟨⟨x.same y, Value.binary_equal htype, Value.binary_notEqual htype⟩, .refl x, ⟨?_, ?_⟩,
    ?_, ?_⟩
  · intro h
    exact heq h ▸ .refl x
  · intro h
    exact (hy.same_iff hx).1 (Value.equals_iff.1 h).2 ▸ .refl y
  · intro h h'
    exact heq h ▸ h'
  · intro h
    rw [heq h]

/-- The identities in a value that comes up stand for its parts. -/
theorem Registry.Tracks.registers {R : Registry} {table : ObjectId} {event : Event} {value : Value}
    (h : R.Tracks table event) (hvalue : event.Shows table value) : R.Registers value := by
  obtain ⟨holder, hholder, hpart⟩ := hvalue
  have hknows : R.Knows holder := by
    cases hholder with
    | bound hscope hentry =>
      exact (h.start.bindings _ _ hscope _ hentry).mono (upTo_grows h.start.supply_le)
    | left hleaves hscope hentry =>
      have hend : R.Remembers _ :=
        (h.finish.mono (fun _ _ h => h.1) fun _ _ h => h).of_leaves hleaves
      exact (hend.bindings _ _ hscope _ hentry).mono (upTo_grows hend.supply_le)
    | result hresult =>
      obtain ⟨hend, hvalue⟩ := h.finish.of_ok hresult
      exact hvalue.mono (upTo_grows hend.supply_le)
    | function hjob =>
      refine (h.given _ ?_).mono (upTo_grows h.start.supply_le)
      rw [hjob]
      exact List.mem_cons_self
    | argument hjob hvalue =>
      refine (h.given _ ?_).mono (upTo_grows h.start.supply_le)
      rw [hjob]
      exact List.mem_cons_of_mem _ hvalue
  exact hknows value hpart

/-! ### New objects -/

/-- The jobs that make an object: the evaluation of the literal of an array, a hash or a function, a
call of `push`, and a call of `rest` with an array that is not empty. -/
inductive Job.Makes : Job → Prop
  | array (scope : ScopeId) (token : Token) (elements : List Expr) :
      Makes (.expression scope (.array token elements))
  | hash (scope : ScopeId) (token : Token) (pairs : List (Expr × Expr)) :
      Makes (.expression scope (.hash token pairs))
  | function (scope : ScopeId) (token : Token) (parameters : List Ident) (body : Block) :
      Makes (.expression scope (.function token parameters body))
  | push (table : ObjectId) (arguments : List Value) : Makes (.call (.builtin table .push) arguments)
  | rest (table id : ObjectId) (value : Value) (values : List Value) :
      Makes (.call (.builtin table .rest) [.array id (value :: values)])

section Rows

variable {ctx : Context} {scope : ScopeId} {m : Machine}

theorem ensures_any {α : Type} (x : Eval α) : Ensures x m (fun _ _ => True) fun _ _ => True :=
  ensures_iff.2 ⟨fun _ _ _ => trivial, fun _ _ _ => trivial⟩

/-- What is given back in place of a row of values is an error. -/
theorem Expr.evalList_error (es : List Expr) : Ensures (Expr.evalList ctx scope es) m
    (fun r _ => ∀ error, r = .error error → error.isError) fun _ _ => True := by
  induction es generalizing m with
  | nil =>
    rw [Expr.evalList]
    exact nofun
  | cons e es ih =>
    rw [Expr.evalList]
    refine Ensures.bind (ensures_any _) fun v m₁ _ => ?_
    by_cases hv : v.isError
    · rw [if_pos hv]
      rintro error ⟨⟩
      exact hv
    · rw [if_neg hv]
      refine ih.bind fun r m₂ hr => ?_
      cases r with
      | error error => exact hr
      | ok values => exact nofun

theorem Expr.evalPairs_error (ps : List (Expr × Expr)) (entries : List (HashKey × Value × Value)) :
    Ensures (Expr.evalPairs ctx scope entries ps) m
      (fun r _ => ∀ error, r = .error error → error.isError) fun _ _ => True := by
  induction ps generalizing m entries with
  | nil =>
    rw [Expr.evalPairs]
    exact nofun
  | cons p ps ih =>
    rw [Expr.evalPairs]
    refine Ensures.bind (ensures_any _) fun key m₁ _ => ?_
    by_cases hkey : key.isError
    · rw [if_pos hkey]
      rintro error ⟨⟩
      exact hkey
    · rw [if_neg hkey]
      cases key.hashKey? with
      | none =>
        rintro error ⟨⟩
        rfl
      | some hashKey =>
        refine Ensures.bind (ensures_any _) fun value m₂ _ => ?_
        by_cases hvalue : value.isError
        · rw [if_pos hvalue]
          rintro error ⟨⟩
          exact hvalue
        · rw [if_neg hvalue]
          exact ih _

end Rows

/-- Identities are never given out again. -/
theorem invariant_supply (supply : ObjectId) :
    Invariant (fun m => supply ≤ m.supply) fun _ => True := by
  refine ⟨fun _ h => Nat.le_succ_of_le h, fun _ _ h => h, fun _ _ h => ⟨h, trivial⟩, ?_⟩
  exact fun _ _ _ _ _ h => h

/-- The value is an error, or has an identity that had not been given out on the machine. -/
def Value.IsNew (value : Value) (m : Machine) : Prop :=
  value.isError ∨ ∃ id, value.identity? = some id ∧ m.supply ≤ id

section Making

variable {m : Machine}

theorem isNew_raise (fault : Fault) :
    Ensures (Eval.raise fault) m (fun v _ => v.IsNew m) fun _ _ => True := .inl rfl

theorem isNew_newArray (elements : List Value) :
    Ensures (Eval.newArray elements) m (fun v _ => v.IsNew m) fun _ _ => True :=
  .inr ⟨m.supply, rfl, Nat.le_refl _⟩

theorem isNew_newHash (entries : List (HashKey × Value × Value)) :
    Ensures (Eval.newHash entries) m (fun v _ => v.IsNew m) fun _ _ => True :=
  .inr ⟨m.supply, rfl, Nat.le_refl _⟩

/-- What a literal makes of the values in it, or of an error in place of them. -/
theorem isNew_literal {α : Type} {x : Eval (Except Value α)} {make : Except Value α → Eval Value}
    (hx : Keeps (fun m' => m.supply ≤ m'.supply) x)
    (herror : Ensures x m (fun r _ => ∀ error, r = .error error → error.isError) fun _ _ => True)
    (hmake_error : ∀ error, make (.error error) = pure error)
    (hmake_ok : ∀ a m', Ensures (make (.ok a)) m' (fun v _ => v.IsNew m') fun _ _ => True) :
    Ensures (x >>= make) m (fun v _ => v.IsNew m) fun _ _ => True := by
  refine Ensures.bind (((hx m (Nat.le_refl _)).and herror).mono (fun _ _ h => h) fun _ _ _ =>
    trivial) ?_
  rintro r m₁ ⟨hle, herror⟩
  cases r with
  | error error =>
    rw [hmake_error]
    exact .inl (herror error rfl)
  | ok a =>
    refine (hmake_ok a m₁).mono (fun v _ hv => hv.imp_right ?_) fun _ _ h => h
    rintro ⟨id, hid, hle'⟩
    exact ⟨id, hid, Nat.le_trans hle hle'⟩

/-- Identities are never given out again, so an object that is made has a new one. -/
theorem Job.Makes.isNew {job : Job} (h : job.Makes) (table : ObjectId) (depth : Nat) :
    Ensures (job.run table depth) m (fun v _ => v.IsNew m) fun _ _ => True := by
  have hsupply := invariant_supply m.supply
  have hcalls := hsupply.keeps_call table depth
  cases h with
  | array scope token elements =>
    rw [Job.run, Expr.eval]
    exact isNew_literal (Expr.keepsList hsupply hcalls scope elements)
      (Expr.evalList_error elements) (fun _ => rfl) fun values _ => isNew_newArray values
  | hash scope token ps =>
    rw [Job.run, Expr.eval]
    exact isNew_literal (Expr.keepsPairs hsupply hcalls scope ps []) (Expr.evalPairs_error ps [])
      (fun _ => rfl) fun entries _ => isNew_newHash entries
  | function scope token parameters body =>
    rw [Job.run, Expr.eval]
    exact .inr ⟨m.supply, rfl, Nat.le_refl _⟩
  | push t arguments =>
    rw [Job.run, applyValue_builtin]
    rcases arguments with _ | ⟨v, _ | ⟨u, _ | ⟨_, _⟩⟩⟩
    case cons.cons.nil =>
      cases v with
      | array id elements => exact isNew_newArray _
      | _ => exact isNew_raise _
    all_goals exact isNew_raise _
  | rest t id v vs =>
    rw [Job.run, applyValue_builtin]
    exact isNew_newArray vs

end Making

/-! ### What came before -/

/-- The jobs that come up in a run from its first event on, and in the runs before it in a session,
each with the table of built-in functions that it has. -/
inductive Event.Past (table : ObjectId) (first : Event) : ObjectId → Event → Prop
  | own {event : Event} : first.Reaches table event → Past table first table event
  | before {m m' : Machine} {scope : ScopeId} {program : Program} {t : ObjectId} {limit : Nat}
      {event : Event} : Reachable m → scope < m.scopes.size →
      Leaves (program.eval (.ofTable t limit) scope) m m' → Session m' first.machine →
      (Event.mk limit (.program scope program) m).Reaches t event → Past table first t event

/-- The values that existed when the job of an event was given out: those bound, those that the job
was given, and what jobs had ended with before, when no more identities had been given out. -/
inductive Event.Existed (table : ObjectId) (first event : Event) : Value → Prop
  | bound {id : ScopeId} {scope : Scope} {name : String} {holder value : Value} :
      event.machine.scopes[id]? = some scope → (name, holder) ∈ scope.bindings →
      value ∈ holder.parts → Existed table first event value
  | given {holder value : Value} : holder ∈ event.job.given → value ∈ holder.parts →
      Existed table first event value
  | ended {t : ObjectId} {earlier : Event} {m : Machine} {holder value : Value} :
      Event.Past table first t earlier → earlier.result t = .ok holder m →
      m.supply ≤ event.machine.supply → value ∈ holder.parts → Existed table first event value

/-- One registry tracks all that comes up in a run and what came up before. -/
theorem Event.Past.tracks {table limit : Nat} {m : Machine} {scope : ScopeId} {program : Program}
    {t : ObjectId} {event : Event} (hm : Reachable m) (hscope : scope < m.scopes.size)
    (h : Event.Past table ⟨limit, .program scope program, m⟩ t event) :
    ∃ R : Registry, R.Tracks t event ∧
      ∀ e, (Event.mk limit (.program scope program) m).Reaches table e → R.Tracks table e := by
  cases h with
  | own hreaches =>
    obtain ⟨R, hR⟩ := hm.exists_covers
    obtain ⟨R', -, htracks, -⟩ := hR.follows hscope program table limit
    rw [List.forall_mem_singleton] at htracks
    exact ⟨R', htracks event hreaches, htracks⟩
  | before hm₀ hscope₀ hleaves hsession hreaches =>
    obtain ⟨R₀, hR₀⟩ := hm₀.exists_covers
    obtain ⟨R₁, -, htracks₁, hend₁⟩ := hR₀.follows hscope₀ _ t _
    have hR₁ := (hend₁.mono (fun _ _ h => h.1) fun _ _ h => h).of_leaves hleaves
    obtain ⟨R₂, hg₂, hR₂⟩ := hsession.grows hR₁
    obtain ⟨R₃, hg₃, htracks₃, -⟩ := hR₂.follows hscope program table limit
    rw [List.forall_mem_singleton] at htracks₁ htracks₃
    exact ⟨R₃, (htracks₁ event hreaches).mono (hg₂.trans hg₃), htracks₃⟩

/-- The identity of a value that existed had been given out. -/
theorem Event.Existed.lt_supply {table : ObjectId} {limit : Nat} {m : Machine} {scope : ScopeId}
    {program : Program} {event : Event} {value : Value} (hm : Reachable m)
    (hscope : scope < m.scopes.size)
    (h : Event.Existed table ⟨limit, .program scope program, m⟩ event value)
    (hevent : (Event.mk limit (.program scope program) m).Reaches table event) :
    ∀ id ∈ value.identity?, id < event.machine.supply := by
  intro id hid
  obtain ⟨R, htracked, -⟩ := (Event.Past.own hevent).tracks hm hscope
  cases h with
  | bound hentry_scope hentry hpart =>
    exact (htracked.start.bindings _ _ hentry_scope _ hentry _ hpart id hid).1
  | given hholder hpart => exact (htracked.given _ hholder _ hpart id hid).1
  | ended hpast hresult hle hpart =>
    obtain ⟨R', htracked', -⟩ := hpast.tracks hm hscope
    have hholder := (htracked'.finish.of_ok hresult).2
    exact Nat.lt_of_lt_of_le (hholder _ hpart id hid).1 hle

/-- What is new is equal to nothing that existed. -/
theorem Value.IsNew.not_equals {m : Machine} {value old : Value} (h : value.IsNew m)
    (hvalue : value.isError = false) (hold : ∀ id ∈ old.identity?, id < m.supply) :
    ¬ value.Equals old := by
  intro hequals
  obtain ⟨id, hid, hle⟩ := h.resolve_left (by rw [hvalue]; exact nofun)
  have hsame : old.identity? = some id := by
    rcases eq_or_identity_of_same (equals_iff.1 hequals).2 with rfl | ⟨id', hid', hold'⟩
    · exact hid
    · rw [hold', ← hid', hid]
  exact absurd (hold id hsame) (Nat.not_lt.2 hle)

/-! ### Runs -/

/-- Equality and identity fit together in the evaluation of a program. -/
structure IdentityRun (table : ObjectId) (limit : Nat) (m : Machine) (scope : ScopeId)
    (program : Program) : Prop where
  /-- of a value that comes up and one of its type that does or has done so in an earlier run, and
  any third value -/
  coherent : ∀ e t e', (Event.mk limit (.program scope program) m).Reaches table e →
    Event.Past table ⟨limit, .program scope program, m⟩ t e' → ∀ x y z, e.Shows table x →
      e'.Shows t y → x.type = y.type → x.EqualityCoherent y z ∧ y.EqualityCoherent x z
  /-- a value that is bound, passed, returned or stored is equal to the one that is read back -/
  stored : ∀ depth, ReadsBack table depth
  /-- an object that is made is equal to none that existed before -/
  fresh : ∀ e, (Event.mk limit (.program scope program) m).Reaches table e → e.job.Makes →
    ∀ value m', e.result table = .ok value m' → value.isError = false →
      ∀ old, Event.Existed table ⟨limit, .program scope program, m⟩ e old → ¬ value.Equals old

/-- Equality and identity fit together in every run, on every machine that a session can reach. -/
theorem identities_coherent {m : Machine} (hm : Reachable m) {scope : ScopeId}
    (hscope : scope < m.scopes.size) (program : Program) (table : ObjectId) (limit : Nat) :
    IdentityRun table limit m scope program := by
  refine ⟨?_, readsBack table, ?_⟩
  · intro e t e' he hpast x y z hx hy htype
    obtain ⟨R, htracked', htracks⟩ := hpast.tracks hm hscope
    have hx' := (htracks e he).registers hx
    have hy' := htracked'.registers hy
    exact ⟨hx'.equalityCoherent hy' htype z, hy'.equalityCoherent hx' htype.symm z⟩
  · intro e he hmakes value m' hresult hvalue old hold
    have hnew : value.IsNew e.machine := (hmakes.isNew table e.depth).of_ok hresult
    exact hnew.not_equals hvalue (hold.lt_supply hm hscope he)

/-- An array that is pushed to, and a function that is called with the result. -/
theorem identities_coherent_of_push : ∃ program,
    parse "var a = [1]; fun(b) \x7b return a == b; \x7d(push(a, a));" = .ok ⟨program, []⟩ ∧
    Reachable ⟨#[⟨[], none⟩], 0, ""⟩ ∧ IdentityRun 0 10 ⟨#[⟨[], none⟩], 0, ""⟩ 0 program := by
  obtain ⟨program, hparse⟩ := exists_of_accepted
    "var a = [1]; fun(b) \x7b return a == b; \x7d(push(a, a));" (by decide +kernel)
  have hm : Reachable ⟨#[⟨[], none⟩], 0, ""⟩ := .scope none .refl
  exact ⟨program, hparse, hm, identities_coherent hm (by decide) program 0 10⟩

end MonkeyLang
