/-!
# Outcomes of computations

The parser and the evaluator are computations on a state that may stop early, and what they did up
to then stays done. `Ensures x s good bad` says where `x` goes from the state `s`: it ends in a
value and a state that satisfy `good`, or it stops in a state that satisfies `bad`. A sequence of
computations is followed step by step with `Ensures.bind`.
-/

namespace MonkeyLang

variable {ε σ α β : Type} {good good' : α → σ → Prop} {bad bad' : ε → σ → Prop}

/-- From the state `s`, the computation ends with `good` or stops with `bad`. -/
def Ensures (x : EStateM ε σ α) (s : σ) (good : α → σ → Prop) (bad : ε → σ → Prop) : Prop :=
  match x.run s with
  | .ok a s' => good a s'
  | .error e s' => bad e s'

theorem Ensures.of_ok {x : EStateM ε σ α} {s s' : σ} {a : α} (h : Ensures x s good bad)
    (hx : x.run s = .ok a s') : good a s' := by
  unfold Ensures at h; rw [hx] at h; exact h

theorem Ensures.of_error {x : EStateM ε σ α} {s s' : σ} {e : ε} (h : Ensures x s good bad)
    (hx : x.run s = .error e s') : bad e s' := by
  unfold Ensures at h; rw [hx] at h; exact h

/-- Every computation ensures what can be read off its run. -/
theorem ensures_iff {x : EStateM ε σ α} {s : σ} : Ensures x s good bad ↔
    (∀ a s', x.run s = .ok a s' → good a s') ∧ (∀ e s', x.run s = .error e s' → bad e s') := by
  unfold Ensures
  cases x.run s <;> simp

theorem Ensures.mono {x : EStateM ε σ α} {s : σ} (h : Ensures x s good bad)
    (hgood : ∀ a s', good a s' → good' a s') (hbad : ∀ e s', bad e s' → bad' e s') :
    Ensures x s good' bad' := by
  rw [ensures_iff] at h ⊢
  exact ⟨fun a s' hx => hgood a s' (h.1 a s' hx), fun e s' hx => hbad e s' (h.2 e s' hx)⟩

/-- Two things that a computation ensures. -/
theorem Ensures.and {x : EStateM ε σ α} {s : σ} (h : Ensures x s good bad)
    (h' : Ensures x s good' bad') :
    Ensures x s (fun a s' => good a s' ∧ good' a s') fun e s' => bad e s' ∧ bad' e s' := by
  rw [ensures_iff] at h h' ⊢
  exact ⟨fun a s' hx => ⟨h.1 a s' hx, h'.1 a s' hx⟩, fun e s' hx => ⟨h.2 e s' hx, h'.2 e s' hx⟩⟩

/-- What a computation ensures holds of the run it really has. -/
theorem Ensures.and_run {x : EStateM ε σ α} {s : σ} (h : Ensures x s good bad) :
    Ensures x s (fun a s' => good a s' ∧ x.run s = .ok a s')
      fun e s' => bad e s' ∧ x.run s = .error e s' := by
  rw [ensures_iff] at h ⊢
  exact ⟨fun a s' hx => ⟨h.1 a s' hx, hx⟩, fun e s' hx => ⟨h.2 e s' hx, hx⟩⟩

/-- Computations that run alike ensure the same. -/
theorem ensures_congr {x x' : EStateM ε σ α} {s s' : σ} (h : x.run s = x'.run s') :
    Ensures x s good bad ↔ Ensures x' s' good bad := by
  unfold Ensures
  rw [h]

/-- What the first computation ensures is where the second one starts. -/
theorem ensures_bind {x : EStateM ε σ α} {f : α → EStateM ε σ β} {s : σ}
    {good : β → σ → Prop} : Ensures (x >>= f) s good bad ↔
      Ensures x s (fun a s' => Ensures (f a) s' good bad) bad := by
  unfold Ensures
  show (match EStateM.bind x f s with | .ok a s' => _ | .error e s' => _) ↔ _
  unfold EStateM.bind EStateM.run
  cases x s <;> rfl

theorem Ensures.bind {x : EStateM ε σ α} {f : α → EStateM ε σ β} {s : σ} {mid : α → σ → Prop}
    {good : β → σ → Prop} (hx : Ensures x s mid bad)
    (hf : ∀ a s', mid a s' → Ensures (f a) s' good bad) : Ensures (x >>= f) s good bad :=
  ensures_bind.2 (hx.mono hf fun _ _ h => h)

/-- What follows a computation with exceptions is run after a result only. -/
theorem ensures_except_bind {δ : Type} {x : ExceptT δ (EStateM ε σ) α}
    {f : α → ExceptT δ (EStateM ε σ) β} {s : σ} {good : Except δ β → σ → Prop} :
    Ensures (x >>= f).run s good bad ↔ Ensures x.run s
      (fun r s' => match r with
        | .ok a => Ensures (f a).run s' good bad
        | .error e => good (.error e) s') bad := by
  rw [ExceptT.run_bind, ensures_bind]
  constructor
  · refine fun h => h.mono (fun r s' hr => ?_) fun _ _ h => h
    cases r <;> exact hr
  · refine fun h => h.mono (fun r s' hr => ?_) fun _ _ h => h
    cases r <;> exact hr

/-- The state may be looked at. -/
theorem ensures_get_bind {f : σ → EStateM ε σ α} {s : σ} (h : Ensures (f s) s good bad) :
    Ensures (get >>= f) s good bad := h

/-- The computation leaves the state `s'` behind, whether it ends or stops. -/
def Leaves (x : EStateM ε σ α) (s s' : σ) : Prop :=
  (∃ a, x.run s = .ok a s') ∨ ∃ e, x.run s = .error e s'

theorem Ensures.of_leaves {x : EStateM ε σ α} {s s' : σ} {P : σ → Prop}
    (h : Ensures x s (fun _ s' => P s') fun _ s' => P s') (hx : Leaves x s s') : P s' := by
  rcases hx with ⟨_, hx⟩ | ⟨_, hx⟩
  · exact h.of_ok hx
  · exact h.of_error hx

/-- A computation that ends, followed by another. -/
theorem run_bind_of_ok {x : EStateM ε σ α} {f : α → EStateM ε σ β} {s s' : σ} {a : α}
    (h : x.run s = .ok a s') : (x >>= f).run s = (f a).run s' := by
  show EStateM.bind x f s = f a s'
  unfold EStateM.bind
  rw [show x s = .ok a s' from h]

/-- A computation without exceptions, followed by one with them. -/
theorem run_lift_bind_of_ok {δ : Type} {x : EStateM ε σ α} {f : α → ExceptT δ (EStateM ε σ) β}
    {s s' : σ} {a : α} (h : x.run s = .ok a s') :
    ((x : EStateM ε σ α) >>= f : ExceptT δ (EStateM ε σ) β).run.run s = (f a).run.run s' := by
  show EStateM.bind (EStateM.map Except.ok x) _ s = _
  unfold EStateM.bind EStateM.map
  rw [show x s = .ok a s' from h]
  rfl

/-- A computation that stops leaves out what follows. -/
theorem run_bind_of_error {x : EStateM ε σ α} {f : α → EStateM ε σ β} {s s' : σ} {e : ε}
    (h : x.run s = .error e s') : (x >>= f).run s = .error e s' := by
  show EStateM.bind x f s = _
  unfold EStateM.bind
  rw [show x s = .error e s' from h]

end MonkeyLang
