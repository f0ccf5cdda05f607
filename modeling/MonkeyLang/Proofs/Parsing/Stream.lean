import MonkeyLang.Parsing.Program
import MonkeyLang.Proofs.Outcome

/-!
# The window on a stream of tokens

What the steps of the parser do to the tokens that are still to come. `Window.upcoming` are those
behind the current one, `Window.pending` those from the current one on. A stream is `Terminated`
when the end token stands at its end and nowhere else, which `tokenize` sees to and every step of
the window keeps.
-/

namespace MonkeyLang

/-- The end token stands at the end and nowhere else. -/
def Terminated : List Token → Prop
  | [] => False
  | [t] => t.kind = .endOfInput
  | t :: ts => t.kind ≠ .endOfInput ∧ Terminated ts

namespace Terminated

theorem tail {t : Token} {ts : List Token} (h : Terminated (t :: ts)) (ht : t.kind ≠ .endOfInput) :
    Terminated ts := by
  cases ts with
  | nil => exact absurd h ht
  | cons => exact h.2

theorem eq_nil {t : Token} {ts : List Token} (h : Terminated (t :: ts))
    (ht : t.kind = .endOfInput) : ts = [] := by
  cases ts with
  | nil => rfl
  | cons => exact absurd ht h.1

/-- A terminated stream is split by its end token. -/
theorem eq_append : ∀ {ts : List Token}, Terminated ts →
    ∃ body last, ts = body ++ [last] ∧ last.kind = .endOfInput ∧
      ∀ t ∈ body, t.kind ≠ .endOfInput
  | [t], h => ⟨[], t, rfl, h, by simp⟩
  | t :: u :: ts, h => by
    obtain ⟨body, last, hts, hlast, hbody⟩ := eq_append h.2
    refine ⟨t :: body, last, by rw [hts]; rfl, hlast, fun t' ht' => ?_⟩
    rcases List.mem_cons.1 ht' with rfl | ht'
    · exact h.1
    · exact hbody t' ht'

end Terminated

theorem Cursor.terminated_tokens (cursor : Cursor) : Terminated cursor.tokens := by
  fun_induction Cursor.tokens cursor with
  | case1 cursor step h => exact h
  | case2 cursor step h ih =>
    cases htokens : step.2.tokens with
    | nil => rw [htokens] at ih; exact ih.elim
    | cons t ts => rw [htokens] at ih; exact ⟨h, ih⟩

/-- The tokens of a source text end with its only end token. -/
theorem terminated_tokenize (source : String) : Terminated (tokenize source) :=
  Cursor.terminated_tokens _

namespace Parsing

namespace Window

/-- The tokens behind the current one. -/
def upcoming (w : Window) : List Token := w.ahead :: w.rest

/-- The tokens from the current one on. -/
def pending (w : Window) : List Token :=
  if w.current.kind = .endOfInput then [w.current] else w.current :: w.upcoming

variable {w : Window}

theorem pending_eq (h : w.current.kind ≠ .endOfInput) : w.pending = w.current :: w.upcoming :=
  if_neg h

theorem pending_of_end (h : w.current.kind = .endOfInput) : w.pending = [w.current] := if_pos h

theorem eq_current_of_pending {t : Token} {ts us : List Token} (h : w.pending = t :: ts ++ us) :
    t = w.current := by
  unfold pending at h
  split at h <;> exact (List.cons.inj h).1.symm

@[simp] theorem shift_current : w.shift.current = w.ahead := by
  unfold shift; split <;> rfl

@[simp] theorem shift_errors : w.shift.errors = w.errors := by
  unfold shift; split <;> rfl

theorem shift_upcoming_of_end (h : Terminated w.upcoming) (hk : w.ahead.kind = .endOfInput) :
    w.shift.upcoming = w.upcoming := by
  have hrest : w.rest = [] := h.eq_nil hk
  unfold shift upcoming
  rw [hrest]

theorem upcoming_eq_cons (h : Terminated w.upcoming) (hk : w.ahead.kind ≠ .endOfInput) :
    w.upcoming = w.ahead :: w.shift.upcoming := by
  have hrest : Terminated w.rest := h.tail hk
  unfold shift upcoming
  cases hr : w.rest with
  | nil => rw [hr] at hrest; exact hrest.elim
  | cons => rfl

theorem shift_terminated (h : Terminated w.upcoming) : Terminated w.shift.upcoming := by
  by_cases hk : w.ahead.kind = .endOfInput
  · rwa [shift_upcoming_of_end h hk]
  · have h' := h
    rw [upcoming_eq_cons h hk] at h'
    exact h'.tail hk

/-- What was behind the current token is pending one step later. -/
theorem shift_pending (h : Terminated w.upcoming) : w.shift.pending = w.upcoming := by
  by_cases hk : w.ahead.kind = .endOfInput
  · rw [pending_of_end (by rwa [shift_current]), shift_current]
    unfold upcoming
    rw [show w.rest = [] from h.eq_nil hk]
  · rw [pending_eq (by rwa [shift_current]), shift_current, ← upcoming_eq_cons h hk]

end Window

/-- Moving on shifts the window, and halts at an illegal token. -/
theorem run_advance (w : Window) : advance.run w =
    if w.shift.ahead.kind = .illegal then
      .error (.illegalCharacter w.shift.ahead.literal w.shift.ahead.line) w.shift
    else .ok () w.shift := by
  have hshift : (modify Window.shift : Parser Unit).run w = .ok () w.shift := rfl
  have hget : (get : Parser Window).run w.shift = .ok w.shift w.shift := rfl
  unfold advance
  rw [run_bind_of_ok hshift, run_bind_of_ok hget]
  dsimp only
  by_cases hillegal : w.shift.ahead.kind = .illegal
  · rw [if_pos hillegal, if_pos hillegal]
    rfl
  · rw [if_neg hillegal, if_neg hillegal]
    rfl

end Parsing

open Parsing

/-- Parsing brings two tokens into sight and then reads statements. -/
theorem parse_eq (source : String) : parse source =
    match fill.run (Window.before (tokenize source)) with
    | .error halt _ => .error halt
    | .ok _ w =>
      let trace := readStatements (stepsFor (tokenize source)) (stepsFor (tokenize source)) w
      match trace.halt with
      | some halt => .error halt
      | none => .ok ⟨trace.program, trace.window.errors⟩ := by
  unfold parse Parsing.trace
  dsimp only
  cases fill.run (Window.before (tokenize source)) with
  | error => rfl
  | ok _ w =>
    show Except.bind (Except.ok _) _ = _
    unfold Except.bind
    dsimp only
    cases (readStatements _ _ w).halt <;> rfl

end MonkeyLang
