import MonkeyLang.Proofs.Parsing.Stream

/-!
# The parser drains its input

Whatever syntax errors it finds, the parser takes the tokens one by one up to the end token, and
only an illegal token halts it.

* `Window.Moves w w'`: from `w` to `w'` the window only went on past legal tokens and took down
  errors. `Halts w halt w'` is a way to an illegal token.
* `Walks x w`: from `w`, the parser `x` moves or halts at an illegal token; so it does not run out
  of steps.
* `Drains n`: with `n` steps every parser of the grammar walks. The number of steps is bound by the
  tokens that are left: taking a token frees five steps, and no parser calls more than four others
  one inside the other before it takes one.
-/

namespace MonkeyLang

namespace Parsing

namespace Window

/-- The window is on a terminated stream, and has not gone past its end. -/
structure Healthy (w : Window) : Prop where
  terminated : Terminated w.upcoming
  ended : w.current.kind = .endOfInput → w.ahead.kind = .endOfInput

/-- How many tokens there are from the current one on. -/
def size (w : Window) : Nat := w.pending.length

/-- The window goes on, past legal tokens only, and takes down errors. -/
inductive Moves : Window → Window → Prop
  | refl {w} : Moves w w
  | report {w w' errors} : Moves { w with errors } w' → Moves w w'
  | shift {w w'} : w.shift.ahead.kind ≠ .illegal → Moves w.shift w' → Moves w w'

variable {w w' w'' : Window}

theorem Moves.trans (h : w.Moves w') (h' : w'.Moves w'') : w.Moves w'' := by
  induction h with
  | refl => exact h'
  | report _ ih => exact .report (ih h')
  | shift hlegal _ ih => exact .shift hlegal (ih h')

/-! ### The number of tokens left -/

theorem one_le_size : 1 ≤ w.size := by
  unfold size pending
  split <;> simp

theorem size_of_end (h : w.current.kind = .endOfInput) : w.size = 1 := by
  unfold size
  rw [pending_of_end h]
  rfl

theorem size_eq (h : w.current.kind ≠ .endOfInput) : w.size = w.upcoming.length + 1 := by
  unfold size
  rw [pending_eq h]
  rfl

theorem two_le_size (h : w.current.kind ≠ .endOfInput) : 2 ≤ w.size := by
  rw [size_eq h]
  simp [upcoming]

theorem healthy_shift (h : Terminated w.upcoming) : w.shift.Healthy where
  terminated := shift_terminated h
  ended := by
    rw [shift_current]
    intro hend
    have hup := shift_upcoming_of_end h hend
    unfold upcoming at hup
    rwa [(List.cons.inj hup).1]

namespace Healthy

/-- Going on takes a token, unless the end is reached. -/
theorem size_shift (h : w.Healthy) : w.shift.size = max 1 (w.size - 1) := by
  have hpending := congrArg List.length (shift_pending h.terminated)
  by_cases hend : w.current.kind = .endOfInput
  · rw [size_of_end hend, size_of_end (by rw [shift_current]; exact h.ended hend)]
    rfl
  · have htwo := two_le_size hend
    have hsize := size_eq hend
    unfold size at *
    omega

/-- Behind the current token, no token but the end token is the last one. -/
theorem three_le_size (h : w.Healthy) (hk : w.ahead.kind ≠ .endOfInput) : 3 ≤ w.size := by
  have hend : w.current.kind ≠ .endOfInput := fun hend => hk (h.ended hend)
  rw [size_eq hend, upcoming_eq_cons h.terminated hk]
  simp [upcoming]

/-- At the end token nothing is left. -/
theorem rest_of_end (h : w.Healthy) (hend : w.current.kind = .endOfInput) : w.rest = [] :=
  h.terminated.eq_nil (h.ended hend)

/-- A moving window stays healthy, and no token comes back. -/
theorem moves (h : w.Healthy) (hm : w.Moves w') : w'.Healthy ∧ w'.size ≤ w.size := by
  induction hm with
  | refl => exact ⟨h, Nat.le_refl _⟩
  | report _ ih => exact ih ⟨h.terminated, h.ended⟩
  | @shift w w' _ _ ih =>
    obtain ⟨hhealthy, hsize⟩ := ih (healthy_shift h.terminated)
    have hshift := h.size_shift
    have hone : 1 ≤ w.size := one_le_size
    exact ⟨hhealthy, by omega⟩

end Healthy

end Window

open Window

/-- The way to an illegal token: it came into sight, and nothing else was wrong before. -/
def Halts (w : Window) (halt : Halt) (w' : Window) : Prop :=
  ∃ before : Window, w.Moves before ∧ w' = before.shift ∧ w'.ahead.kind = .illegal ∧
    halt = .illegalCharacter w'.ahead.literal w'.ahead.line

theorem Halts.of_moves {w w' w'' : Window} {halt : Halt} (hm : w.Moves w')
    (h : Halts w' halt w'') : Halts w halt w'' := by
  obtain ⟨before, hbefore, h⟩ := h
  exact ⟨before, hm.trans hbefore, h⟩

/-- The parser moves the window, or halts at an illegal token. -/
def Walks {α : Type} (x : Parser α) (w : Window) : Prop :=
  Ensures x w (fun _ w' => w.Moves w') (Halts w)

/-! ### Single steps -/

section Steps

variable {α β : Type} {w : Window} {k : Kind} {x y : Parser α}

theorem walks_pure {a : α} : Walks (pure a) w := Moves.refl

theorem walks_current {f : Token → Parser α} (h : Walks (f w.current) w) :
    Walks (current >>= f) w := h

theorem walks_currentIdent {f : Ident → Parser α}
    (h : Walks (f ⟨w.current, w.current.literal⟩) w) : Walks (currentIdent >>= f) w := h

/-- What goes on after a walk walks on. -/
theorem walks_bind {f : α → Parser β} (hw : w.Healthy) (hx : Walks x w)
    (hf : ∀ a w', w'.Healthy → w'.size ≤ w.size → Walks (f a) w') : Walks (x >>= f) w := by
  refine Ensures.bind hx fun a w' hm => ?_
  obtain ⟨hw', hsize⟩ := hw.moves hm
  exact (hf a w' hw' hsize).mono (fun _ _ h => hm.trans h) fun _ _ h => h.of_moves hm

theorem walks_report {c : SyntaxError.Cause} {line : Nat} : Walks (report c line) w :=
  Moves.report .refl

theorem walks_report_bind {c : SyntaxError.Cause} {line : Nat} {f : Unit → Parser α}
    (hf : ∀ errors, Walks (f ()) { w with errors }) : Walks (report c line >>= f) w := by
  refine ensures_bind.2 ?_
  show Ensures (f ()) { w with errors := w.errors ++ [⟨c, line⟩] } _ _
  exact (hf _).mono (fun _ _ h => .report h) fun _ _ h => h.of_moves (.report .refl)

/-- Going on ends with the next token, unless the one behind it is illegal. -/
theorem ensures_advance {good : Unit → Window → Prop}
    (hgood : w.shift.ahead.kind ≠ .illegal → good () w.shift) : Ensures advance w good (Halts w) := by
  unfold Ensures
  rw [run_advance]
  by_cases hk : w.shift.ahead.kind = .illegal
  · rw [if_pos hk]
    exact ⟨w, .refl, rfl, hk, rfl⟩
  · rw [if_neg hk]
    exact hgood hk

theorem walks_advance : Walks advance w := ensures_advance fun hlegal => .shift hlegal .refl

theorem walks_advance_bind {f : Unit → Parser α} (hw : w.Healthy)
    (hf : ∀ w', w'.Healthy → w'.size = max 1 (w.size - 1) → w'.current = w.ahead →
      Walks (f ()) w') : Walks (advance >>= f) w := by
  refine ensures_bind.2 (ensures_advance fun hlegal => ?_)
  have hnext := hf w.shift (healthy_shift hw.terminated) hw.size_shift shift_current
  exact hnext.mono (fun _ _ h => .shift hlegal h) fun _ _ h => h.of_moves (.shift hlegal .refl)

theorem walks_aheadIs (hw : w.Healthy) (hk : k ≠ .endOfInput) (hx : 3 ≤ w.size → Walks x w)
    (hy : Walks y w) : Walks (do if ← aheadIs k then x else y) w := by
  refine ensures_bind.2 (show Ensures (if decide (w.ahead.kind = k) = true then x else y) w _ _ from ?_)
  by_cases h : w.ahead.kind = k
  · rw [if_pos (decide_eq_true h)]
    exact hx (hw.three_le_size (by rwa [h]))
  · rw [if_neg (by simpa using h)]
    exact hy

/-- An expected token is taken, and it is not the last one. -/
theorem walks_expect (hw : w.Healthy) (hk : k ≠ .endOfInput)
    (hx : ∀ w', w'.Healthy → w'.size + 1 = w.size → 2 ≤ w'.size → Walks x w')
    (hy : ∀ w', w'.Healthy → w'.size = w.size → Walks y w') :
    Walks (do if ← expect k then x else y) w := by
  refine ensures_bind.2 ?_
  unfold expect
  -- `expect` branches on the token ahead itself, so each of its branches goes on with its answer
  refine ensures_bind.2 ?_
  show Ensures (if decide (w.ahead.kind = k) = true then _ else _) w _ _
  by_cases h : w.ahead.kind = k
  · rw [if_pos (decide_eq_true h)]
    have hthree := hw.three_le_size (by rwa [h])
    have hnext : Walks (advance >>= fun _ => x) w :=
      walks_advance_bind hw fun w' hw' hsize _ => hx w' hw' (by omega) (by omega)
    refine ensures_bind.2 ?_
    exact (ensures_bind (f := fun _ => x)).1 hnext
  · rw [if_neg (by simpa using h)]
    have hnext : Walks (report (.unexpectedKind w.ahead.kind k) w.ahead.line >>= fun _ => y) w :=
      walks_report_bind fun _ => hy _ ⟨hw.terminated, hw.ended⟩ rfl
    refine ensures_get_bind (ensures_bind.2 ?_)
    exact (ensures_bind (f := fun _ => y)).1 hnext

theorem walks_semicolon (hw : w.Healthy) : Walks expectSemicolon w :=
  walks_aheadIs hw (by decide) (fun _ => walks_advance) (walks_current walks_report)

theorem walks_semicolon_bind {f : Unit → Parser α} (hw : w.Healthy)
    (hf : ∀ w', w'.Healthy → w'.size ≤ w.size → Walks (f ()) w') :
    Walks (expectSemicolon >>= f) w :=
  walks_bind hw (walks_semicolon hw) fun _ => hf

end Steps

/-! ### Parts without nested expressions -/

theorem walks_integerLiteral {w : Window} : Walks integerLiteral w := by
  unfold integerLiteral
  refine walks_current ?_
  split
  · exact walks_pure
  · exact walks_report_bind fun _ => walks_pure

theorem walks_moreParameters (n : Nat) :
    ∀ w : Window, w.Healthy → w.size ≤ n → Walks (moreParameters n) w := by
  induction n with
  | zero =>
    intro w _ hn
    have hone : 1 ≤ w.size := one_le_size
    omega
  | succ n ih =>
    intro w hw hn
    rw [moreParameters]
    refine walks_aheadIs hw (by decide) (fun hthree => ?_) ?_
    · refine walks_advance_bind hw fun w₁ hw₁ hsize₁ _ => ?_
      refine walks_expect hw₁ (by decide) (fun w₂ hw₂ hsize₂ _ => ?_) (fun _ _ _ => walks_pure)
      exact walks_currentIdent (walks_bind hw₂ (ih w₂ hw₂ (by omega)) fun _ _ _ _ => walks_pure)
    · exact walks_expect hw (by decide) (fun _ _ _ _ => walks_pure) (fun _ _ _ => walks_pure)

theorem walks_parameters {n : Nat} {w : Window} (hw : w.Healthy) (hn : w.size ≤ n) :
    Walks (parameters n) w := by
  unfold parameters
  refine walks_aheadIs hw (by decide) (fun _ => ?_) ?_
  · exact walks_advance_bind hw fun _ _ _ _ => walks_pure
  · refine walks_expect hw (by decide) (fun w₁ hw₁ hsize₁ _ => ?_) (fun _ _ _ => walks_pure)
    exact walks_currentIdent
      (walks_bind hw₁ (walks_moreParameters n w₁ hw₁ (by omega)) fun _ _ _ _ => walks_pure)

/-! ### The recursive parsers -/

/-- The parsers with `n` steps walk when there are enough steps for the tokens that are left. Those
that begin by going on to the next token need one that is not the last. -/
structure Drains (n : Nat) : Prop where
  statement : ∀ w, w.Healthy → 5 * w.size + 3 ≤ n → Walks (statement n) w
  conditional : ∀ w, w.Healthy → 5 * w.size ≤ n → Walks (conditional n) w
  block : ∀ w, w.Healthy → 2 ≤ w.size → 5 * w.size ≤ n → Walks (block n) w
  statements : ∀ w, w.Healthy → 5 * w.size + 4 ≤ n → Walks (statements n) w
  expression : ∀ p w, w.Healthy → 5 * w.size + 2 ≤ n → Walks (expression n p) w
  operand : ∀ w, w.Healthy → 5 * w.size + 1 ≤ n → Walks (operand n) w
  function : ∀ w, w.Healthy → 5 * w.size ≤ n → Walks (function n) w
  operators : ∀ p left w, w.Healthy → 5 * w.size ≤ n → Walks (operators n p left) w
  expressions : ∀ close w, close ≠ .endOfInput → w.Healthy → 2 ≤ w.size → 5 * w.size ≤ n →
    Walks (expressions n close) w
  moreExpressions : ∀ w, w.Healthy → 5 * w.size ≤ n → Walks (moreExpressions n) w
  pairs : ∀ w, w.Healthy → 2 ≤ w.size → 5 * w.size ≤ n → Walks (pairs n) w

/-! ### Statements -/

section Value

variable {value : Parser Expr} {w : Window}

theorem walks_declaration (hw : w.Healthy)
    (h : ∀ w', w'.Healthy → w'.size ≤ w.size → Walks value w') : Walks (declaration value) w := by
  unfold declaration
  refine walks_current ?_
  refine walks_expect hw (by decide) (fun w₁ hw₁ hsize₁ _ => ?_) (fun _ _ _ => walks_pure)
  refine walks_currentIdent ?_
  refine walks_expect hw₁ (by decide) (fun w₂ hw₂ hsize₂ _ => ?_) (fun _ _ _ => walks_pure)
  refine walks_advance_bind hw₂ fun w₃ hw₃ hsize₃ _ => ?_
  refine walks_bind hw₃ (h w₃ hw₃ (by omega)) fun _ w₄ hw₄ _ => ?_
  exact walks_semicolon_bind hw₄ fun _ _ _ => walks_pure

theorem walks_returnStatement (hw : w.Healthy)
    (h : ∀ w', w'.Healthy → w'.size ≤ w.size → Walks value w') :
    Walks (returnStatement value) w := by
  have hone : 1 ≤ w.size := one_le_size
  unfold returnStatement
  refine walks_current (walks_aheadIs hw (by decide) (fun _ => ?_) ?_)
  · exact walks_advance_bind hw fun _ _ _ _ => walks_pure
  · refine walks_advance_bind hw fun w₁ hw₁ hsize₁ _ => ?_
    refine walks_bind hw₁ (h w₁ hw₁ (by omega)) fun _ w₂ hw₂ _ => ?_
    exact walks_semicolon_bind hw₂ fun _ _ _ => walks_pure

theorem walks_expressionStatement (hw : w.Healthy) (h : Walks value w) :
    Walks (expressionStatement value) w := by
  unfold expressionStatement
  refine walks_current (walks_bind hw h fun _ w₁ hw₁ _ => ?_)
  exact walks_semicolon_bind hw₁ fun _ _ _ => walks_pure

end Value

section Step

variable {n : Nat} {w : Window}

theorem Drains.statement_succ (ih : Drains n) (hw : w.Healthy) (hn : 5 * w.size + 3 ≤ n + 1) :
    Walks (Parsing.statement (n + 1)) w := by
  have hvalue : ∀ w', w'.Healthy → w'.size ≤ w.size →
      Walks (Parsing.expression n Precedence.lowest) w' :=
    fun w' hw' hsize => ih.expression _ w' hw' (by omega)
  rw [Parsing.statement]
  refine walks_current ?_
  split
  · exact walks_declaration hw hvalue
  · exact walks_declaration hw hvalue
  · exact ih.conditional w hw (by omega)
  · exact walks_returnStatement hw hvalue
  · exact walks_expressionStatement hw (hvalue w hw (Nat.le_refl _))

theorem Drains.conditional_succ (ih : Drains n) (hw : w.Healthy) (hn : 5 * w.size ≤ n + 1) :
    Walks (Parsing.conditional (n + 1)) w := by
  rw [Parsing.conditional]
  refine walks_current ?_
  refine walks_expect hw (by decide) (fun w₁ hw₁ hsize₁ htwo₁ => ?_) (fun _ _ _ => walks_pure)
  refine walks_advance_bind hw₁ fun w₂ hw₂ hsize₂ _ => ?_
  refine walks_bind hw₂ (ih.expression _ w₂ hw₂ (by omega)) fun _ w₃ hw₃ hsize₃ => ?_
  refine walks_expect hw₃ (by decide) (fun w₄ hw₄ hsize₄ _ => ?_) (fun _ _ _ => walks_pure)
  refine walks_expect hw₄ (by decide) (fun w₅ hw₅ hsize₅ htwo₅ => ?_) (fun _ _ _ => walks_pure)
  refine walks_bind hw₅ (ih.block w₅ hw₅ htwo₅ (by omega)) fun _ w₆ hw₆ hsize₆ => ?_
  refine walks_aheadIs hw₆ (by decide) (fun hthree₆ => ?_) walks_pure
  refine walks_advance_bind hw₆ fun w₇ hw₇ hsize₇ _ => ?_
  refine walks_aheadIs hw₇ (by decide) (fun hthree₇ => ?_) ?_
  · refine walks_advance_bind hw₇ fun w₈ hw₈ hsize₈ _ => ?_
    refine walks_current (walks_bind hw₈ (ih.conditional w₈ hw₈ (by omega)) fun o _ _ _ => ?_)
    cases o <;> exact walks_pure
  · refine walks_expect hw₇ (by decide) (fun w₈ hw₈ hsize₈ htwo₈ => ?_) (fun _ _ _ => walks_pure)
    exact walks_bind hw₈ (ih.block w₈ hw₈ htwo₈ (by omega)) fun _ _ _ _ => walks_pure

theorem Drains.block_succ (ih : Drains n) (hw : w.Healthy) (htwo : 2 ≤ w.size)
    (hn : 5 * w.size ≤ n + 1) : Walks (Parsing.block (n + 1)) w := by
  rw [Parsing.block]
  refine walks_current (walks_advance_bind hw fun w₁ hw₁ hsize₁ _ => ?_)
  exact walks_bind hw₁ (ih.statements w₁ hw₁ (by omega)) fun _ _ _ _ => walks_pure

/-- A statement may take no token at all, but the loop goes on by one itself. -/
theorem Drains.statements_succ (ih : Drains n) (hw : w.Healthy) (hn : 5 * w.size + 4 ≤ n + 1) :
    Walks (Parsing.statements (n + 1)) w := by
  rw [Parsing.statements]
  refine walks_current ?_
  by_cases hclosing : w.current.kind = .rightBrace
  · rw [if_pos hclosing]
    exact walks_pure
  rw [if_neg hclosing]
  by_cases hend : w.current.kind = .endOfInput
  · rw [if_pos hend]
    exact walks_report_bind fun _ => walks_pure
  rw [if_neg hend]
  have htwo := two_le_size hend
  refine walks_bind hw (ih.statement w hw (by omega)) fun _ w₁ hw₁ hsize₁ => ?_
  refine walks_advance_bind hw₁ fun w₂ hw₂ hsize₂ _ => ?_
  exact walks_bind hw₂ (ih.statements w₂ hw₂ (by omega)) fun _ _ _ _ => walks_pure

/-! ### Expressions -/

theorem Drains.expression_succ (ih : Drains n) (p : Nat) (hw : w.Healthy)
    (hn : 5 * w.size + 2 ≤ n + 1) : Walks (Parsing.expression (n + 1) p) w := by
  rw [Parsing.expression]
  refine walks_bind hw (ih.operand w hw (by omega)) fun o w₁ hw₁ hsize₁ => ?_
  cases o with
  | none => exact walks_current (walks_report_bind fun _ => walks_pure)
  | some left => exact ih.operators p left w₁ hw₁ (by omega)

theorem Drains.unary_operand (ih : Drains n) {token : Token} (hw : w.Healthy) (htwo : 2 ≤ w.size)
    (hn : 5 * w.size + 1 ≤ n + 1) :
    Walks (do
      advance
      let inner ← Parsing.expression n Precedence.unary
      return some (Expr.unary token token.literal inner)) w := by
  refine walks_advance_bind hw fun w₁ hw₁ hsize₁ _ => ?_
  exact walks_bind hw₁ (ih.expression _ w₁ hw₁ (by omega)) fun _ _ _ _ => walks_pure

theorem Drains.operand_succ (ih : Drains n) (hw : w.Healthy) (hn : 5 * w.size + 1 ≤ n + 1) :
    Walks (Parsing.operand (n + 1)) w := by
  have htwo {k : Kind} (hk : w.current.kind = k) (hne : k ≠ .endOfInput) : 2 ≤ w.size :=
    two_le_size (by rwa [hk])
  rw [Parsing.operand]
  refine walks_current ?_
  split
  · exact walks_pure
  · exact walks_bind hw walks_integerLiteral fun _ _ _ _ => walks_pure
  · exact walks_pure
  · exact walks_pure
  · next hk => exact ih.unary_operand hw (htwo hk (by decide)) hn
  · next hk => exact ih.unary_operand hw (htwo hk (by decide)) hn
  · next hk =>
    have htwo := htwo hk (by decide)
    refine walks_advance_bind hw fun w₁ hw₁ hsize₁ _ => ?_
    refine walks_bind hw₁ (ih.expression _ w₁ hw₁ (by omega)) fun _ w₂ hw₂ _ => ?_
    exact walks_expect hw₂ (by decide) (fun _ _ _ _ => walks_pure) (fun _ _ _ => walks_pure)
  · next hk =>
    refine walks_bind hw (ih.expressions _ w (by decide) hw (htwo hk (by decide)) (by omega))
      fun o _ _ _ => ?_
    cases o <;> exact walks_pure
  · next hk =>
    refine walks_bind hw (ih.pairs w hw (htwo hk (by decide)) (by omega)) fun o _ _ _ => ?_
    cases o <;> exact walks_pure
  · exact walks_bind hw (ih.function w hw (by omega)) fun _ _ _ _ => walks_pure
  · exact walks_pure

theorem Drains.function_succ (ih : Drains n) (hw : w.Healthy) (hn : 5 * w.size ≤ n + 1) :
    Walks (Parsing.function (n + 1)) w := by
  rw [Parsing.function]
  refine walks_current ?_
  refine walks_expect hw (by decide) (fun w₁ hw₁ hsize₁ _ => ?_) (fun _ _ _ => walks_pure)
  refine walks_bind hw₁ (walks_parameters hw₁ (by omega)) fun o w₂ hw₂ hsize₂ => ?_
  cases o with
  | none => exact walks_pure
  | some =>
    refine walks_expect hw₂ (by decide) (fun w₃ hw₃ hsize₃ htwo₃ => ?_) (fun _ _ _ => walks_pure)
    exact walks_bind hw₃ (ih.block w₃ hw₃ htwo₃ (by omega)) fun _ _ _ _ => walks_pure

theorem Drains.operators_succ (ih : Drains n) (p : Nat) (left : Expr) (hw : w.Healthy)
    (hn : 5 * w.size ≤ n + 1) : Walks (Parsing.operators (n + 1) p left) w := by
  rw [Parsing.operators]
  refine ensures_get_bind ?_
  show Walks (if p < w.ahead.kind.precedence then _ else _) w
  by_cases hprec : p < w.ahead.kind.precedence
  · rw [if_pos hprec]
    -- an operator is no end token, so taking it leaves fewer tokens for the operators behind it
    split
    · next hk =>
      have hthree := hw.three_le_size (by rw [hk]; decide)
      refine walks_advance_bind hw fun w₁ hw₁ hsize₁ _ => ?_
      refine walks_current ?_
      refine walks_bind hw₁ (ih.expressions _ w₁ (by decide) hw₁ (by omega) (by omega))
        fun o w₂ hw₂ hsize₂ => ?_
      cases o <;> exact ih.operators p _ w₂ hw₂ (by omega)
    · next hk =>
      have hthree := hw.three_le_size (by rw [hk]; decide)
      refine walks_advance_bind hw fun w₁ hw₁ hsize₁ _ => ?_
      refine walks_current (walks_advance_bind hw₁ fun w₂ hw₂ hsize₂ _ => ?_)
      refine walks_bind hw₂ (ih.expression _ w₂ hw₂ (by omega)) fun _ w₃ hw₃ hsize₃ => ?_
      exact walks_expect hw₃ (by decide)
        (fun w₄ hw₄ hsize₄ _ => ih.operators p _ w₄ hw₄ (by omega))
        (fun w₄ hw₄ hsize₄ => ih.operators p _ w₄ hw₄ (by omega))
    · by_cases hbinary : w.ahead.kind.isBinary
      · rw [if_pos hbinary]
        have hthree := hw.three_le_size (fun h => by rw [h] at hbinary; cases hbinary)
        refine walks_advance_bind hw fun w₁ hw₁ hsize₁ _ => ?_
        refine walks_current (walks_advance_bind hw₁ fun w₂ hw₂ hsize₂ _ => ?_)
        refine walks_bind hw₂ (ih.expression _ w₂ hw₂ (by omega)) fun _ w₃ hw₃ hsize₃ => ?_
        exact ih.operators p _ w₃ hw₃ (by omega)
      · rw [if_neg hbinary]
        exact walks_pure
  · rw [if_neg hprec]
    exact walks_pure

theorem Drains.expressions_succ (ih : Drains n) {close : Kind} (hclose : close ≠ .endOfInput)
    (hw : w.Healthy) (htwo : 2 ≤ w.size) (hn : 5 * w.size ≤ n + 1) :
    Walks (Parsing.expressions (n + 1) close) w := by
  rw [Parsing.expressions]
  refine walks_aheadIs hw hclose (fun _ => ?_) ?_
  · exact walks_advance_bind hw fun _ _ _ _ => walks_pure
  · refine walks_advance_bind hw fun w₁ hw₁ hsize₁ _ => ?_
    refine walks_bind hw₁ (ih.expression _ w₁ hw₁ (by omega)) fun _ w₂ hw₂ hsize₂ => ?_
    refine walks_bind hw₂ (ih.moreExpressions w₂ hw₂ (by omega)) fun _ w₃ hw₃ _ => ?_
    exact walks_expect hw₃ hclose (fun _ _ _ _ => walks_pure) (fun _ _ _ => walks_pure)

theorem Drains.moreExpressions_succ (ih : Drains n) (hw : w.Healthy) (hn : 5 * w.size ≤ n + 1) :
    Walks (Parsing.moreExpressions (n + 1)) w := by
  rw [Parsing.moreExpressions]
  refine walks_aheadIs hw (by decide) (fun hthree => ?_) walks_pure
  refine walks_advance_bind hw fun w₁ hw₁ hsize₁ _ => ?_
  refine walks_advance_bind hw₁ fun w₂ hw₂ hsize₂ _ => ?_
  refine walks_bind hw₂ (ih.expression _ w₂ hw₂ (by omega)) fun _ w₃ hw₃ hsize₃ => ?_
  exact walks_bind hw₃ (ih.moreExpressions w₃ hw₃ (by omega)) fun _ _ _ _ => walks_pure

theorem Drains.pairs_succ (ih : Drains n) (hw : w.Healthy) (htwo : 2 ≤ w.size)
    (hn : 5 * w.size ≤ n + 1) : Walks (Parsing.pairs (n + 1)) w := by
  rw [Parsing.pairs]
  refine walks_aheadIs hw (by decide) (fun _ => ?_) ?_
  · exact walks_advance_bind hw fun _ _ _ _ => walks_pure
  refine walks_advance_bind hw fun w₁ hw₁ hsize₁ _ => ?_
  refine walks_bind hw₁ (ih.expression _ w₁ hw₁ (by omega)) fun _ w₂ hw₂ hsize₂ => ?_
  refine walks_expect hw₂ (by decide) (fun w₃ hw₃ hsize₃ htwo₃ => ?_) (fun _ _ _ => walks_pure)
  refine walks_advance_bind hw₃ fun w₄ hw₄ hsize₄ _ => ?_
  refine walks_bind hw₄ (ih.expression _ w₄ hw₄ (by omega)) fun _ w₅ hw₅ hsize₅ => ?_
  refine walks_aheadIs hw₅ (by decide) (fun _ => ?_) ?_
  · exact walks_advance_bind hw₅ fun _ _ _ _ => walks_pure
  · refine walks_expect hw₅ (by decide) (fun w₆ hw₆ hsize₆ htwo₆ => ?_) (fun _ _ _ => walks_pure)
    exact walks_bind hw₆ (ih.pairs w₆ hw₆ htwo₆ (by omega)) fun _ _ _ _ => walks_pure

end Step

/-- However many steps they are given, the parsers walk if these are enough. -/
theorem drains (n : Nat) : Drains n := by
  induction n with
  | zero =>
    -- the end token is always left, and no bound allows it without a step
    have hone (w : Window) : 1 ≤ w.size := one_le_size
    constructor <;> intros <;> have := hone ‹Window› <;> omega
  | succ n ih =>
    exact {
      statement := fun _ => ih.statement_succ
      conditional := fun _ => ih.conditional_succ
      block := fun _ => ih.block_succ
      statements := fun _ => ih.statements_succ
      expression := fun p _ => ih.expression_succ p
      operand := fun _ => ih.operand_succ
      function := fun _ => ih.function_succ
      operators := fun p left _ => ih.operators_succ p left
      expressions := fun _ _ => ih.expressions_succ
      moreExpressions := fun _ => ih.moreExpressions_succ
      pairs := fun _ => ih.pairs_succ }

/-! ### Programs -/

theorem shift_of_advance {w w' : Window} {u : Unit} (h : advance.run w = .ok u w') :
    w' = w.shift ∧ w.shift.ahead.kind ≠ .illegal := by
  rw [run_advance] at h
  split at h
  · cases h
  · next hlegal => exact ⟨by injection h with _ h; exact h.symm, hlegal⟩

/-- With enough steps, reading statements goes on to the end token or halts at an illegal one. -/
theorem readStatements_drains (steps count : Nat) (w : Window) (hw : w.Healthy)
    (hsteps : 5 * w.size + 3 ≤ steps) (hcount : w.size ≤ count) :
    match (readStatements steps count w).halt with
    | none => w.Moves (readStatements steps count w).window ∧
        (readStatements steps count w).window.current.kind = .endOfInput
    | some halt => Halts w halt (readStatements steps count w).window := by
  fun_induction readStatements steps count w with
  | case1 w =>
    have hone : 1 ≤ w.size := one_le_size
    omega
  | case2 count w hend => exact ⟨.refl, hend⟩
  | case3 count w hend halt w₁ hstatement =>
    exact ((drains steps).statement w hw hsteps).of_error hstatement
  | case4 count w hend o w₁ hstatement halt w₂ hadvance =>
    have hmoves := ((drains steps).statement w hw hsteps).of_ok hstatement
    exact (walks_advance.of_error hadvance).of_moves hmoves
  | case5 count w hend o w₁ hstatement _ w₂ hadvance trace ih =>
    have hmoves := ((drains steps).statement w hw hsteps).of_ok hstatement
    obtain ⟨hw₁, hsize₁⟩ := hw.moves hmoves
    have htwo := two_le_size hend
    obtain ⟨rfl, hlegal⟩ := shift_of_advance hadvance
    -- the statement may have taken nothing; the token taken behind it makes the stream shorter
    have hsize₂ := hw₁.size_shift
    have hmoves₂ : w.Moves w₁.shift := hmoves.trans (.shift hlegal .refl)
    replace ih := ih (healthy_shift hw₁.terminated) (by omega) (by omega)
    show match trace.halt with
      | none => w.Moves trace.window ∧ trace.window.current.kind = .endOfInput
      | some halt => Halts w halt trace.window
    change match trace.halt with
      | none => w₁.shift.Moves trace.window ∧ trace.window.current.kind = .endOfInput
      | some halt => Halts w₁.shift halt trace.window at ih
    cases hhalt : trace.halt with
    | none =>
      rw [hhalt] at ih
      exact ⟨hmoves₂.trans ih.1, ih.2⟩
    | some halt =>
      rw [hhalt] at ih
      exact Halts.of_moves hmoves₂ ih

/-- The first two tokens come into sight, unless they are illegal. -/
theorem fill_drains {tokens : List Token} (h : Terminated tokens) :
    Ensures fill (Window.before tokens)
      (fun _ w => (Window.before tokens).Moves w ∧ w.Healthy ∧ w.size = tokens.length)
      (Halts (Window.before tokens)) := by
  obtain ⟨t, ts, rfl⟩ : ∃ t ts, tokens = t :: ts := by
    cases tokens with
    | nil => exact h.elim
    | cons t ts => exact ⟨t, ts, rfl⟩
  -- the window that has only the first token in sight
  have hfirst : Terminated (Window.before (t :: ts)).shift.upcoming := h
  unfold fill
  refine ensures_bind.2 (ensures_advance fun hlegal => ?_)
  refine (ensures_advance fun hlegal' => ?_).mono (fun _ _ h => h)
    fun _ _ h => h.of_moves (.shift hlegal .refl)
  exact ⟨.shift hlegal (.shift hlegal' .refl), healthy_shift hfirst,
    congrArg List.length (shift_pending hfirst)⟩

/-- The stream without the tokens seen so far, which are legal. -/
def Seen (tokens : List Token) (w : Window) : Prop :=
  w.ahead.kind ≠ .illegal ∧
    ∃ seen, tokens = seen ++ w.rest ∧ ∀ t ∈ seen, t.kind ≠ .illegal

theorem seen_before (tokens : List Token) : Seen tokens (Window.before tokens) :=
  ⟨by simp [Window.before], [], rfl, by simp⟩

/-- Moving, the window sees the tokens of the stream one by one. -/
theorem Seen.moves {tokens : List Token} {w w' : Window} (h : Seen tokens w) (hm : w.Moves w') :
    Seen tokens w' := by
  induction hm with
  | refl => exact h
  | report _ ih => exact ih h
  | @shift w w' hlegal _ ih =>
    obtain ⟨_, seen, htokens, hseen⟩ := h
    refine ih ⟨hlegal, ?_⟩
    unfold Window.shift at hlegal ⊢
    cases hrest : w.rest with
    | nil => exact ⟨seen, by rw [htokens, hrest], hseen⟩
    | cons t ts =>
      rw [hrest] at hlegal htokens
      refine ⟨seen ++ [t], by rw [htokens]; simp, ?_⟩
      intro u hu
      rcases List.mem_append.1 hu with hu | hu
      · exact hseen u hu
      · rw [List.mem_singleton.1 hu]
        exact hlegal

/-- The token that halts the parser is the first illegal one of the stream. -/
theorem Seen.halts {tokens : List Token} {w w' : Window} {halt : Halt} (h : Seen tokens w)
    (hh : Halts w halt w') : ∃ t, tokens.find? (·.kind = .illegal) = some t ∧
      halt = .illegalCharacter t.literal t.line := by
  obtain ⟨before, hm, rfl, hillegal, rfl⟩ := hh
  obtain ⟨hahead, seen, rfl, hseen⟩ := h.moves hm
  refine ⟨before.shift.ahead, ?_, rfl⟩
  have hnone : seen.find? (·.kind = .illegal) = none := by simpa using hseen
  unfold Window.shift at hillegal ⊢
  cases hrest : before.rest with
  | nil =>
    rw [hrest] at hillegal
    exact absurd hillegal hahead
  | cons t ts =>
    rw [hrest] at hillegal
    rw [List.find?_append, hnone, Option.none_or]
    exact List.find?_cons_of_pos (by simpa using hillegal)

end Parsing

open Parsing

/-- Parsing halts at the first illegal token, or there is none and it takes the stream to its
end. -/
theorem parse_outcome (source : String) :
    (∃ t, (tokenize source).find? (·.kind = .illegal) = some t ∧
      parse source = .error (.illegalCharacter t.literal t.line)) ∨
    ((tokenize source).find? (·.kind = .illegal) = none ∧ ∃ trace,
      Parsing.trace source = .ok trace ∧ (Window.before (tokenize source)).Moves trace.window ∧
      trace.window.rest = [] ∧ trace.window.current.kind = .endOfInput ∧
      parse source = .ok ⟨trace.program, trace.window.errors⟩) := by
  have hseen := seen_before (tokenize source)
  have hfill := fill_drains (terminated_tokenize source)
  rw [parse_eq]
  unfold Parsing.trace
  dsimp only
  cases hrun : fill.run (Window.before (tokenize source)) with
  | error halt w =>
    obtain ⟨t, ht, rfl⟩ := hseen.halts (hfill.of_error hrun)
    exact .inl ⟨t, ht, rfl⟩
  | ok _ w =>
    obtain ⟨hfirst, hw, hsize⟩ := hfill.of_ok hrun
    have hdrains := readStatements_drains (stepsFor (tokenize source)) (stepsFor (tokenize source))
      w hw (by unfold stepsFor; omega) (by unfold stepsFor; omega)
    dsimp only
    generalize readStatements (stepsFor (tokenize source)) (stepsFor (tokenize source)) w = trace
      at hdrains
    cases hhalt : trace.halt with
    | some halt =>
      rw [hhalt] at hdrains
      obtain ⟨t, ht, rfl⟩ := hseen.halts (Halts.of_moves hfirst hdrains)
      exact .inl ⟨t, ht, rfl⟩
    | none =>
      rw [hhalt] at hdrains
      obtain ⟨hmoves, hend⟩ := hdrains
      have hrest := (hw.moves hmoves).1.rest_of_end hend
      obtain ⟨_, seen, htokens, hlegal⟩ := (hseen.moves hfirst).moves hmoves
      rw [hrest, List.append_nil] at htokens
      exact .inr ⟨by rw [htokens]; simpa using hlegal, trace, rfl, hfirst.trans hmoves, hrest,
        hend, rfl⟩

/-- Parsing halts at an illegal token exactly when there is one, and names the first. Without one it
takes the whole stream, token by token, whatever syntax errors it takes down on the way. -/
theorem parse_drains (source : String) :
    (∀ halt, parse source = .error halt ↔ ∃ t,
      (tokenize source).find? (·.kind = .illegal) = some t ∧
        halt = .illegalCharacter t.literal t.line) ∧
    ((∀ t ∈ tokenize source, t.kind ≠ .illegal) → ∃ trace,
      Parsing.trace source = .ok trace ∧ (Window.before (tokenize source)).Moves trace.window ∧
      trace.window.rest = [] ∧ trace.window.current.kind = .endOfInput ∧
      parse source = .ok ⟨trace.program, trace.window.errors⟩) := by
  rcases parse_outcome source with ⟨t, ht, hparse⟩ | ⟨hnone, trace, hdrained⟩
  · rw [hparse, ht]
    refine ⟨fun halt => ?_, fun hlegal => ?_⟩
    · simp [eq_comm]
    · have hmem := List.mem_of_find?_eq_some ht
      have hillegal := List.find?_some ht
      exact absurd (by simpa using hillegal) (hlegal t hmem)
  · refine ⟨fun halt => ?_, fun _ => ⟨trace, hdrained⟩⟩
    rw [hdrained.2.2.2.2, hnone]
    simp

/-- A source that is broken in many ways is read to its end nonetheless. -/
theorem parse_drains_of_broken_source :
    (∀ t ∈ tokenize "var = (1 +; \x7b\n[2 : else \x7d if", t.kind ≠ .illegal) ∧ ∃ trace,
      Parsing.trace "var = (1 +; \x7b\n[2 : else \x7d if" = .ok trace ∧
      (Window.before (tokenize "var = (1 +; \x7b\n[2 : else \x7d if")).Moves trace.window ∧
      trace.window.rest = [] ∧ trace.window.current.kind = .endOfInput ∧
      parse "var = (1 +; \x7b\n[2 : else \x7d if" = .ok ⟨trace.program, trace.window.errors⟩ := by
  have hlegal : ∀ t ∈ tokenize "var = (1 +; \x7b\n[2 : else \x7d if", t.kind ≠ .illegal := by
    decide +kernel
  exact ⟨hlegal, (parse_drains _).2 hlegal⟩

end MonkeyLang
