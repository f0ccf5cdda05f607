import MonkeyLang.Proofs.Parsing.Stream
import MonkeyLang.Proofs.Parsing.Lines

/-!
# Lines do not guide the parser

Whatever the parser decides, it decides by kinds and literals of tokens; lines are only copied into
trees and errors. So a window with its lines moved is read as before, and what comes out has its
lines moved.

* `Relabels f map x y`: unless `x` runs out of steps, `y` does with the lines moved by `f` what `x`
  does, and its value is that of `x` with `map` applied.
* `Relabeling f n n'`: every parser of the grammar with `n'` steps relabels itself with `n` steps.
  Giving it more steps than it needs changes nothing, so `n ≤ n'` is all that is asked.
-/

namespace MonkeyLang

namespace Parsing

/-- What `x` does from a window, `y` does from the one with its lines moved. -/
def Relabels {α β : Type} (f : Nat → Nat) (map : α → β) (x : Parser α) (y : Parser β) : Prop :=
  ∀ w : Window, Ensures x w (fun a w' => y.run (w.mapLines f) = .ok (map a) (w'.mapLines f))
    fun halt w' =>
      halt = .outOfSteps ∨ y.run (w.mapLines f) = .error (halt.mapLines f) (w'.mapLines f)

/-! ### Single steps -/

section Steps

variable {f : Nat → Nat} {α β γ δ : Type} {map : α → β} {map' : γ → δ}

theorem relabels_pure (a : α) : Relabels f map (pure a) (pure (map a)) := fun _ => rfl

/-- Running out of steps is left open. -/
theorem relabels_outOfSteps (y : Parser β) : Relabels f map (throw .outOfSteps) y :=
  fun _ => .inl rfl

theorem relabels_bind {x : Parser α} {y : Parser β} {g : α → Parser γ} {h : β → Parser δ}
    (hx : Relabels f map x y) (hg : ∀ a, Relabels f map' (g a) (h (map a))) :
    Relabels f map' (x >>= g) (y >>= h) := by
  intro w
  refine ensures_bind.2 ((hx w).mono (fun a w₁ hrun => ?_) fun halt w₁ hrun => ?_)
  · refine (hg a w₁).mono (fun c w₂ hrun₂ => ?_) fun halt w₂ hrun₂ => ?_
    · rw [run_bind_of_ok hrun, hrun₂]
    · exact hrun₂.imp_right fun hrun₂ => by rw [run_bind_of_ok hrun, hrun₂]
  · exact hrun.imp_right fun hrun => run_bind_of_error hrun

/-- A choice by what both sides agree in. -/
theorem relabels_ite {p q : Prop} [Decidable p] [Decidable q] {x x' : Parser α} {y y' : Parser β}
    (hpq : p ↔ q) (h : Relabels f map x y) (h' : Relabels f map x' y') :
    Relabels f map (if p then x else x') (if q then y else y') := by
  by_cases hp : p
  · rwa [if_pos hp, if_pos (hpq.1 hp)]
  · rwa [if_neg hp, if_neg (hp ∘ hpq.2)]

/-- A choice by an answer that both sides give. -/
theorem relabels_if {c c' : Parser Bool} {x x' : Parser α} {y y' : Parser β}
    (hc : Relabels f id c c') (h : Relabels f map x y) (h' : Relabels f map x' y') :
    Relabels f map (do if ← c then x else x') (do if ← c' then y else y') :=
  relabels_bind hc fun _ => relabels_ite Iff.rfl h h'

/-- What is put in front of a list that may be broken. -/
theorem relabels_cons {g : α → α} {x y : Parser (Option (List α))} (a : α)
    (h : Relabels f (Option.map (List.map g)) x y) :
    Relabels f (Option.map (List.map g)) (do return (← x).map (a :: ·))
      (do return (← y).map (g a :: ·)) := by
  refine relabels_bind h fun as => ?_
  cases as with
  | none => exact relabels_pure none
  | some as => exact relabels_pure (some (a :: as))

theorem relabels_current : Relabels f (Token.mapLines f) current current := fun _ => rfl

theorem relabels_currentIdent : Relabels f (Ident.mapLines f) currentIdent currentIdent :=
  fun _ => rfl

theorem relabels_get : Relabels f (Window.mapLines f) get get := fun _ => rfl

theorem relabels_aheadIs (k : Kind) : Relabels f id (aheadIs k) (aheadIs k) := fun _ => rfl

theorem relabels_report (c : SyntaxError.Cause) (line : Nat) :
    Relabels f id (report c line) (report c (f line)) := by
  intro w
  show EStateM.Result.ok () _ = EStateM.Result.ok () _
  simp [Window.mapLines, SyntaxError.mapLines]

theorem relabels_advance : Relabels f id advance advance := by
  intro w
  unfold Ensures
  rw [run_advance, run_advance, Window.shift_mapLines]
  by_cases hillegal : w.shift.ahead.kind = .illegal
  · rw [if_pos hillegal]
    exact .inr (if_pos hillegal)
  · rw [if_neg hillegal]
    exact if_neg hillegal

theorem relabels_expect (k : Kind) : Relabels f id (expect k) (expect k) := by
  refine relabels_if (relabels_aheadIs k) ?_ ?_
  · exact relabels_bind relabels_advance fun _ => relabels_pure true
  · refine relabels_bind relabels_get fun w => ?_
    exact relabels_bind (relabels_report _ _) fun _ => relabels_pure false

theorem relabels_semicolon : Relabels f id expectSemicolon expectSemicolon := by
  refine relabels_if (relabels_aheadIs _) relabels_advance ?_
  exact relabels_bind relabels_current fun t => relabels_report _ _

end Steps

/-! ### Parts without nested expressions -/

section Parts

variable {f : Nat → Nat}

theorem relabels_integerLiteral : Relabels f (Expr.mapLines f) integerLiteral integerLiteral := by
  refine relabels_bind relabels_current fun t => ?_
  simp only [Token.mapLines_literal]
  cases integerValue? t.literal with
  | some value => exact relabels_pure (Expr.integer t value)
  | none => exact relabels_bind (relabels_report _ _) fun _ => relabels_pure Expr.missing

/-- Names are read with more steps as with fewer, if these are enough. -/
theorem relabels_moreParameters (n : Nat) : ∀ n', n ≤ n' →
    Relabels f (Option.map (List.map (Ident.mapLines f))) (moreParameters n)
      (moreParameters n') := by
  induction n with
  | zero => exact fun n' _ => relabels_outOfSteps _
  | succ n ih =>
    rintro (- | n') hn
    · contradiction
    rw [moreParameters, moreParameters]
    refine relabels_if (relabels_aheadIs _) ?_ ?_
    · refine relabels_bind relabels_advance fun _ => ?_
      refine relabels_if (relabels_expect _) ?_ (relabels_pure none)
      refine relabels_bind relabels_currentIdent fun ident => ?_
      exact relabels_cons ident (ih n' (Nat.le_of_succ_le_succ hn))
    · exact relabels_if (relabels_expect _) (relabels_pure (some [])) (relabels_pure none)

theorem relabels_parameters {n n' : Nat} (hn : n ≤ n') :
    Relabels f (Option.map (List.map (Ident.mapLines f))) (parameters n) (parameters n') := by
  refine relabels_if (relabels_aheadIs _) ?_ ?_
  · exact relabels_bind relabels_advance fun _ => relabels_pure (some [])
  · refine relabels_if (relabels_expect _) ?_ (relabels_pure none)
    refine relabels_bind relabels_currentIdent fun ident => ?_
    exact relabels_cons ident (relabels_moreParameters n n' hn)

variable {value value' : Parser Expr}

theorem relabels_declaration (h : Relabels f (Expr.mapLines f) value value') :
    Relabels f (Option.map (Stmt.mapLines f)) (declaration value) (declaration value') := by
  refine relabels_bind relabels_current fun t => ?_
  refine relabels_if (relabels_expect _) ?_ (relabels_pure none)
  refine relabels_bind relabels_currentIdent fun ident => ?_
  refine relabels_if (relabels_expect _) ?_ (relabels_pure none)
  refine relabels_bind relabels_advance fun _ => ?_
  refine relabels_bind h fun e => ?_
  exact relabels_bind relabels_semicolon fun _ => relabels_pure (some (Stmt.declaration t ident e))

theorem relabels_returnStatement (h : Relabels f (Expr.mapLines f) value value') :
    Relabels f (Option.map (Stmt.mapLines f)) (returnStatement value) (returnStatement value') := by
  refine relabels_bind relabels_current fun t => ?_
  refine relabels_if (relabels_aheadIs _) ?_ ?_
  · exact relabels_bind relabels_advance fun _ => relabels_pure (some (Stmt.ret t .missing))
  · refine relabels_bind relabels_advance fun _ => ?_
    refine relabels_bind h fun e => ?_
    exact relabels_bind relabels_semicolon fun _ => relabels_pure (some (Stmt.ret t e))

theorem relabels_expressionStatement (h : Relabels f (Expr.mapLines f) value value') :
    Relabels f (Option.map (Stmt.mapLines f)) (expressionStatement value)
      (expressionStatement value') := by
  refine relabels_bind relabels_current fun t => ?_
  refine relabels_bind h fun e => ?_
  exact relabels_bind relabels_semicolon fun _ => relabels_pure (some (Stmt.expression t e))

end Parts

/-! ### The recursive parsers -/

/-- The parsers with `n'` steps do with the lines moved what they do with `n` steps. -/
structure Relabeling (f : Nat → Nat) (n n' : Nat) : Prop where
  statement : Relabels f (Option.map (Stmt.mapLines f)) (statement n) (statement n')
  conditional : Relabels f (Option.map (Stmt.mapLines f)) (conditional n) (conditional n')
  block : Relabels f (Block.mapLines f) (block n) (block n')
  statements : Relabels f (List.map (Stmt.mapLines f)) (statements n) (statements n')
  expression : ∀ p, Relabels f (Expr.mapLines f) (expression n p) (expression n' p)
  operand : Relabels f (Option.map (Expr.mapLines f)) (operand n) (operand n')
  function : Relabels f (Expr.mapLines f) (function n) (function n')
  operators : ∀ p left,
    Relabels f (Expr.mapLines f) (operators n p left) (operators n' p (left.mapLines f))
  expressions : ∀ close,
    Relabels f (Option.map (List.map (Expr.mapLines f))) (expressions n close)
      (expressions n' close)
  moreExpressions :
    Relabels f (List.map (Expr.mapLines f)) (moreExpressions n) (moreExpressions n')
  pairs : Relabels f (Option.map (List.map (Prod.map (Expr.mapLines f) (Expr.mapLines f))))
    (pairs n) (pairs n')

namespace Relabeling

variable {f : Nat → Nat} {n n' : Nat}

/-! ### Statements -/

theorem statement_succ (ih : Relabeling f n n') :
    Relabels f (Option.map (Stmt.mapLines f)) (Parsing.statement (n + 1))
      (Parsing.statement (n' + 1)) := by
  have hvalue := ih.expression Precedence.lowest
  rw [Parsing.statement, Parsing.statement]
  refine relabels_bind relabels_current fun t => ?_
  simp only [Token.mapLines_kind]
  split
  · exact relabels_declaration hvalue
  · exact relabels_declaration hvalue
  · exact ih.conditional
  · exact relabels_returnStatement hvalue
  · exact relabels_expressionStatement hvalue

theorem conditional_succ (ih : Relabeling f n n') :
    Relabels f (Option.map (Stmt.mapLines f)) (Parsing.conditional (n + 1))
      (Parsing.conditional (n' + 1)) := by
  rw [Parsing.conditional, Parsing.conditional]
  refine relabels_bind relabels_current fun t => ?_
  refine relabels_if (relabels_expect _) ?_ (relabels_pure none)
  refine relabels_bind relabels_advance fun _ => ?_
  refine relabels_bind (ih.expression _) fun condition => ?_
  refine relabels_if (relabels_expect _) ?_ (relabels_pure none)
  refine relabels_if (relabels_expect _) ?_ (relabels_pure none)
  refine relabels_bind ih.block fun consequence => ?_
  refine relabels_if (relabels_aheadIs _) ?_
    (relabels_pure (some (Stmt.ifThen t condition consequence)))
  refine relabels_bind relabels_advance fun _ => ?_
  refine relabels_if (relabels_aheadIs _) ?_ ?_
  · refine relabels_bind relabels_advance fun _ => ?_
    refine relabels_bind relabels_current fun nested => ?_
    refine relabels_bind ih.conditional fun st => ?_
    cases st with
    | none => exact relabels_pure none
    | some st => exact relabels_pure (some (Stmt.ifElse t condition consequence ⟨nested, [st]⟩))
  · refine relabels_if (relabels_expect _) ?_ (relabels_pure none)
    refine relabels_bind ih.block fun alternative => ?_
    exact relabels_pure (some (Stmt.ifElse t condition consequence alternative))

theorem block_succ (ih : Relabeling f n n') :
    Relabels f (Block.mapLines f) (Parsing.block (n + 1)) (Parsing.block (n' + 1)) := by
  rw [Parsing.block, Parsing.block]
  refine relabels_bind relabels_current fun t => ?_
  refine relabels_bind relabels_advance fun _ => ?_
  refine relabels_bind ih.statements fun ss => ?_
  rw [← Stmt.mapLinesList_eq]
  exact relabels_pure (Block.mk t ss)

theorem statements_succ (ih : Relabeling f n n') :
    Relabels f (List.map (Stmt.mapLines f)) (Parsing.statements (n + 1))
      (Parsing.statements (n' + 1)) := by
  rw [Parsing.statements, Parsing.statements]
  refine relabels_bind relabels_current fun t => ?_
  refine relabels_ite Iff.rfl (relabels_pure []) ?_
  refine relabels_ite Iff.rfl ?_ ?_
  · exact relabels_bind (relabels_report _ _) fun _ => relabels_pure []
  refine relabels_bind ih.statement fun first => ?_
  refine relabels_bind relabels_advance fun _ => ?_
  refine relabels_bind ih.statements fun rest => ?_
  have hmap : (first.map (Stmt.mapLines f)).toList ++ rest.map (Stmt.mapLines f) =
      (first.toList ++ rest).map (Stmt.mapLines f) := by
    cases first <;> rfl
  rw [hmap]
  exact relabels_pure (first.toList ++ rest)

/-! ### Expressions -/

theorem expression_succ (ih : Relabeling f n n') (p : Nat) :
    Relabels f (Expr.mapLines f) (Parsing.expression (n + 1) p)
      (Parsing.expression (n' + 1) p) := by
  rw [Parsing.expression, Parsing.expression]
  refine relabels_bind ih.operand fun left => ?_
  cases left with
  | none =>
    refine relabels_bind relabels_current fun t => ?_
    exact relabels_bind (relabels_report _ _) fun _ => relabels_pure Expr.missing
  | some left => exact ih.operators p left

theorem unary_operand (ih : Relabeling f n n') (t : Token) :
    Relabels f (Option.map (Expr.mapLines f))
      (do
        advance
        let inner ← Parsing.expression n Precedence.unary
        return some (Expr.unary t t.literal inner))
      (do
        advance
        let inner ← Parsing.expression n' Precedence.unary
        return some (Expr.unary (t.mapLines f) t.literal inner)) := by
  refine relabels_bind relabels_advance fun _ => ?_
  refine relabels_bind (ih.expression _) fun inner => ?_
  exact relabels_pure (some (Expr.unary t t.literal inner))

theorem operand_succ (ih : Relabeling f n n') :
    Relabels f (Option.map (Expr.mapLines f)) (Parsing.operand (n + 1))
      (Parsing.operand (n' + 1)) := by
  rw [Parsing.operand, Parsing.operand]
  refine relabels_bind relabels_current fun t => ?_
  simp only [Token.mapLines_kind, Token.mapLines_literal]
  split
  · exact relabels_pure (some (Expr.identifier ⟨t, t.literal⟩))
  · exact relabels_bind relabels_integerLiteral fun e => relabels_pure (some e)
  · exact relabels_pure (some (Expr.text t t.literal))
  · exact relabels_pure (some (Expr.boolean t (t.literal = "true")))
  · exact ih.unary_operand t
  · exact ih.unary_operand t
  · refine relabels_bind relabels_advance fun _ => ?_
    refine relabels_bind (ih.expression _) fun inner => ?_
    exact relabels_if (relabels_expect _) (relabels_pure (some inner))
      (relabels_pure (some Expr.missing))
  · refine relabels_bind (ih.expressions _) fun elements => ?_
    cases elements with
    | none => exact relabels_pure (some Expr.missing)
    | some elements =>
      show Relabels f _ _ (pure (some (Expr.array _ (elements.map _))))
      rw [← Expr.mapLinesList_eq]
      exact relabels_pure (some (Expr.array t elements))
  · refine relabels_bind ih.pairs fun pairs => ?_
    cases pairs with
    | none => exact relabels_pure (some Expr.missing)
    | some pairs =>
      show Relabels f _ _ (pure (some (Expr.hash _ (pairs.map _))))
      rw [← Expr.mapLinesPairs_eq]
      exact relabels_pure (some (Expr.hash t pairs))
  · exact relabels_bind ih.function fun e => relabels_pure (some e)
  · exact relabels_pure none

theorem function_succ (ih : Relabeling f n n') (hn : n ≤ n') :
    Relabels f (Expr.mapLines f) (Parsing.function (n + 1)) (Parsing.function (n' + 1)) := by
  rw [Parsing.function, Parsing.function]
  refine relabels_bind relabels_current fun t => ?_
  refine relabels_if (relabels_expect _) ?_ (relabels_pure Expr.missing)
  refine relabels_bind (relabels_parameters hn) fun idents => ?_
  cases idents with
  | none => exact relabels_pure Expr.missing
  | some idents =>
    refine relabels_if (relabels_expect _) ?_ (relabels_pure Expr.missing)
    exact relabels_bind ih.block fun body => relabels_pure (Expr.function t idents body)

theorem operators_succ (ih : Relabeling f n n') (p : Nat) (left : Expr) :
    Relabels f (Expr.mapLines f) (Parsing.operators (n + 1) p left)
      (Parsing.operators (n' + 1) p (left.mapLines f)) := by
  rw [Parsing.operators, Parsing.operators]
  refine relabels_bind relabels_get fun w => ?_
  simp only [Window.mapLines_ahead, Token.mapLines_kind]
  refine relabels_ite Iff.rfl ?_ (relabels_pure left)
  split
  · refine relabels_bind relabels_advance fun _ => ?_
    refine relabels_bind relabels_current fun t => ?_
    refine relabels_bind (ih.expressions _) fun arguments => ?_
    cases arguments with
    | none => exact ih.operators p Expr.missing
    | some arguments => simpa [Expr.mapLines] using ih.operators p (Expr.call t left arguments)
  · refine relabels_bind relabels_advance fun _ => ?_
    refine relabels_bind relabels_current fun t => ?_
    refine relabels_bind relabels_advance fun _ => ?_
    refine relabels_bind (ih.expression _) fun position => ?_
    exact relabels_if (relabels_expect _) (ih.operators p (Expr.index t left position))
      (ih.operators p Expr.missing)
  · refine relabels_ite Iff.rfl ?_ (relabels_pure left)
    refine relabels_bind relabels_advance fun _ => ?_
    refine relabels_bind relabels_current fun t => ?_
    refine relabels_bind relabels_advance fun _ => ?_
    refine relabels_bind (ih.expression _) fun right => ?_
    exact ih.operators p (Expr.binary t left t.literal right)

theorem expressions_succ (ih : Relabeling f n n') (close : Kind) :
    Relabels f (Option.map (List.map (Expr.mapLines f))) (Parsing.expressions (n + 1) close)
      (Parsing.expressions (n' + 1) close) := by
  rw [Parsing.expressions, Parsing.expressions]
  refine relabels_if (relabels_aheadIs _) ?_ ?_
  · exact relabels_bind relabels_advance fun _ => relabels_pure (some [])
  refine relabels_bind relabels_advance fun _ => ?_
  refine relabels_bind (ih.expression _) fun first => ?_
  refine relabels_bind ih.moreExpressions fun rest => ?_
  exact relabels_if (relabels_expect _) (relabels_pure (some (first :: rest))) (relabels_pure none)

theorem moreExpressions_succ (ih : Relabeling f n n') :
    Relabels f (List.map (Expr.mapLines f)) (Parsing.moreExpressions (n + 1))
      (Parsing.moreExpressions (n' + 1)) := by
  rw [Parsing.moreExpressions, Parsing.moreExpressions]
  refine relabels_if (relabels_aheadIs _) ?_ (relabels_pure [])
  refine relabels_bind relabels_advance fun _ => ?_
  refine relabels_bind relabels_advance fun _ => ?_
  refine relabels_bind (ih.expression _) fun next => ?_
  exact relabels_bind ih.moreExpressions fun rest => relabels_pure (next :: rest)

theorem pairs_succ (ih : Relabeling f n n') :
    Relabels f (Option.map (List.map (Prod.map (Expr.mapLines f) (Expr.mapLines f))))
      (Parsing.pairs (n + 1)) (Parsing.pairs (n' + 1)) := by
  rw [Parsing.pairs, Parsing.pairs]
  refine relabels_if (relabels_aheadIs _) ?_ ?_
  · exact relabels_bind relabels_advance fun _ => relabels_pure (some [])
  refine relabels_bind relabels_advance fun _ => ?_
  refine relabels_bind (ih.expression _) fun key => ?_
  refine relabels_if (relabels_expect _) ?_ (relabels_pure none)
  refine relabels_bind relabels_advance fun _ => ?_
  refine relabels_bind (ih.expression _) fun value => ?_
  refine relabels_if (relabels_aheadIs _) ?_ ?_
  · exact relabels_bind relabels_advance fun _ => relabels_pure (some [(key, value)])
  · exact relabels_if (relabels_expect _) (relabels_cons (key, value) ih.pairs) (relabels_pure none)

end Relabeling

/-- The parsers relabel themselves, also when they are given more steps. -/
theorem relabeling (f : Nat → Nat) (n : Nat) : ∀ n', n ≤ n' → Relabeling f n n' := by
  induction n with
  | zero => intro n' _; constructor <;> intros <;> exact relabels_outOfSteps _
  | succ n ih =>
    rintro (- | n') hn
    · contradiction
    have hn' : n ≤ n' := Nat.le_of_succ_le_succ hn
    have ih := ih n' hn'
    exact {
      statement := ih.statement_succ
      conditional := ih.conditional_succ
      block := ih.block_succ
      statements := ih.statements_succ
      expression := ih.expression_succ
      operand := ih.operand_succ
      function := ih.function_succ hn'
      operators := ih.operators_succ
      expressions := ih.expressions_succ
      moreExpressions := ih.moreExpressions_succ
      pairs := ih.pairs_succ }

/-! ### Programs -/

/-- A stream with its lines moved is read statement by statement as before, unless the steps given
are too few before. -/
theorem readStatements_mapLines (f : Nat → Nat) {steps steps' : Nat} (hsteps : steps ≤ steps')
    (count : Nat) (w : Window) : ∀ count', count ≤ count' →
      (readStatements steps count w).halt = some .outOfSteps ∨
        readStatements steps' count' (w.mapLines f) =
          (readStatements steps count w).mapLines f := by
  have hstatement := (relabeling f steps steps' hsteps).statement
  induction count generalizing w with
  | zero => exact fun _ _ => .inl rfl
  | succ count ih =>
    rintro (- | count') hcount
    · contradiction
    have ih := fun w => ih w count' (Nat.le_of_succ_le_succ hcount)
    unfold readStatements
    by_cases hend : w.current.kind = .endOfInput
    · rw [if_pos hend]
      exact .inr (if_pos hend)
    rw [if_neg hend, if_neg (show (w.mapLines f).current.kind ≠ .endOfInput from hend)]
    cases hrun : (statement steps).run w with
    | error halt w₁ =>
      obtain rfl | hrun' := (hstatement w).of_error hrun
      · exact .inl rfl
      · rw [hrun']
        exact .inr rfl
    | ok st w₁ =>
      rw [(hstatement w).of_ok hrun]
      dsimp only
      cases hadvance : advance.run w₁ with
      | error halt w₂ =>
        obtain rfl | hadvance' := (relabels_advance w₁).of_error hadvance
        · exact .inl rfl
        · rw [hadvance']
          exact .inr rfl
      | ok u w₂ =>
        rw [(relabels_advance w₁).of_ok hadvance]
        dsimp only
        refine (ih w₂).imp_right fun htrace => ?_
        rw [htrace]
        rfl

end Parsing

end MonkeyLang
