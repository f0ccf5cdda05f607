import MonkeyLang.Parsing.Program
import MonkeyLang.Tree.Render

/-!
# Moving lines

Every token knows its line, and trees, syntax errors and windows know it through their tokens.
`mapLines f` moves whatever is on line `n` to line `f n` and leaves everything else as it is: a
constant `f` tells trees apart up to their lines only, and adding a number moves a text down.
-/

namespace MonkeyLang

/-- The token on its new line. -/
def Token.mapLines (f : Nat → Nat) (t : Token) : Token := { t with line := f t.line }

/-- The name with its token on its new line. -/
def Ident.mapLines (f : Nat → Nat) (ident : Ident) : Ident :=
  { ident with token := ident.token.mapLines f }

mutual

/-- The expression with all its tokens on their new lines. -/
def Expr.mapLines (f : Nat → Nat) : Expr → Expr
  | .missing => .missing
  | .unknown label token => .unknown label (token.mapLines f)
  | .identifier ident => .identifier (ident.mapLines f)
  | .integer token value => .integer (token.mapLines f) value
  | .boolean token value => .boolean (token.mapLines f) value
  | .text token value => .text (token.mapLines f) value
  | .unary token operator operand => .unary (token.mapLines f) operator (operand.mapLines f)
  | .binary token left operator right =>
    .binary (token.mapLines f) (left.mapLines f) operator (right.mapLines f)
  | .function token parameters body =>
    .function (token.mapLines f) (parameters.map (Ident.mapLines f)) (body.mapLines f)
  | .call token callee arguments =>
    .call (token.mapLines f) (callee.mapLines f) (Expr.mapLinesList f arguments)
  | .array token elements => .array (token.mapLines f) (Expr.mapLinesList f elements)
  | .index token collection position =>
    .index (token.mapLines f) (collection.mapLines f) (position.mapLines f)
  | .hash token pairs => .hash (token.mapLines f) (Expr.mapLinesPairs f pairs)

/-- The expressions with all their tokens on their new lines. -/
def Expr.mapLinesList (f : Nat → Nat) : List Expr → List Expr
  | [] => []
  | e :: es => e.mapLines f :: Expr.mapLinesList f es

/-- The pairs with all their tokens on their new lines. -/
def Expr.mapLinesPairs (f : Nat → Nat) : List (Expr × Expr) → List (Expr × Expr)
  | [] => []
  | (key, value) :: pairs => (key.mapLines f, value.mapLines f) :: Expr.mapLinesPairs f pairs

/-- The statement with all its tokens on their new lines. -/
def Stmt.mapLines (f : Nat → Nat) : Stmt → Stmt
  | .unknown label token => .unknown label (token.mapLines f)
  | .declaration token ident value =>
    .declaration (token.mapLines f) (ident.mapLines f) (value.mapLines f)
  | .ret token value => .ret (token.mapLines f) (value.mapLines f)
  | .expression token value => .expression (token.mapLines f) (value.mapLines f)
  | .block body => .block (body.mapLines f)
  | .ifThen token condition consequence =>
    .ifThen (token.mapLines f) (condition.mapLines f) (consequence.mapLines f)
  | .ifElse token condition consequence alternative =>
    .ifElse (token.mapLines f) (condition.mapLines f) (consequence.mapLines f)
      (alternative.mapLines f)

/-- The statements with all their tokens on their new lines. -/
def Stmt.mapLinesList (f : Nat → Nat) : List Stmt → List Stmt
  | [] => []
  | s :: ss => s.mapLines f :: Stmt.mapLinesList f ss

/-- The block with all its tokens on their new lines. -/
def Block.mapLines (f : Nat → Nat) : Block → Block
  | ⟨token, statements⟩ => ⟨token.mapLines f, Stmt.mapLinesList f statements⟩

end

/-- The program with all its tokens on their new lines. -/
def Program.mapLines (f : Nat → Nat) (program : Program) : Program :=
  ⟨program.statements.map (Stmt.mapLines f)⟩

/-- The syntax error reported for its new line. -/
def SyntaxError.mapLines (f : Nat → Nat) (error : SyntaxError) : SyntaxError :=
  { error with line := f error.line }

/-- The halt at its new line. -/
def Halt.mapLines (f : Nat → Nat) : Halt → Halt
  | .illegalCharacter character line => .illegalCharacter character (f line)
  | .outOfSteps => .outOfSteps

/-- Where the tokens of a text without line ends are. -/
def firstLine (_ : Nat) : Nat := 1

variable {f : Nat → Nat}

@[simp] theorem Token.mapLines_kind (t : Token) : (t.mapLines f).kind = t.kind := rfl

@[simp] theorem Token.mapLines_literal (t : Token) : (t.mapLines f).literal = t.literal := rfl

@[simp] theorem Expr.mapLinesList_eq (es : List Expr) :
    Expr.mapLinesList f es = es.map (Expr.mapLines f) := by
  induction es with
  | nil => rfl
  | cons e es ih => rw [Expr.mapLinesList, ih, List.map_cons]

@[simp] theorem Expr.mapLinesPairs_eq (ps : List (Expr × Expr)) :
    Expr.mapLinesPairs f ps = ps.map (Prod.map (Expr.mapLines f) (Expr.mapLines f)) := by
  induction ps with
  | nil => rfl
  | cons p ps ih => rw [Expr.mapLinesPairs, ih, List.map_cons, Prod.map]

@[simp] theorem Stmt.mapLinesList_eq (ss : List Stmt) :
    Stmt.mapLinesList f ss = ss.map (Stmt.mapLines f) := by
  induction ss with
  | nil => rfl
  | cons s ss ih => rw [Stmt.mapLinesList, ih, List.map_cons]

/-! ### Texts of lists -/

theorem renderList_map {es : List Expr} (h : ∀ e ∈ es, (e.mapLines f).render = e.render) :
    Expr.renderList (es.map (Expr.mapLines f)) = Expr.renderList es := by
  induction es with
  | nil => rfl
  | cons e es ih =>
    obtain ⟨he, hes⟩ := List.forall_mem_cons.1 h
    rw [List.map_cons, Expr.renderList, Expr.renderList, he, ih hes]

theorem renderPairs_map {ps : List (Expr × Expr)}
    (hkeys : ∀ p ∈ ps, (p.1.mapLines f).render = p.1.render)
    (hvalues : ∀ p ∈ ps, (p.2.mapLines f).render = p.2.render) :
    Expr.renderPairs (ps.map (Prod.map (Expr.mapLines f) (Expr.mapLines f))) =
      Expr.renderPairs ps := by
  induction ps with
  | nil => rfl
  | cons p ps ih =>
    obtain ⟨hkey, hkeys⟩ := List.forall_mem_cons.1 hkeys
    obtain ⟨hvalue, hvalues⟩ := List.forall_mem_cons.1 hvalues
    rw [List.map_cons, Prod.map, Expr.renderPairs, Expr.renderPairs, hkey, hvalue, ih hkeys hvalues]

namespace Parsing

/-- The window with all its tokens and errors on their new lines. -/
def Window.mapLines (f : Nat → Nat) (w : Window) : Window :=
  ⟨w.current.mapLines f, w.ahead.mapLines f, w.rest.map (Token.mapLines f),
    w.errors.map (SyntaxError.mapLines f)⟩

/-- The step with its statement and its window on their new lines. -/
def Step.mapLines (f : Nat → Nat) (step : Step) : Step :=
  ⟨step.statement.map (Stmt.mapLines f), step.window.mapLines f⟩

/-- The trace with all its steps on their new lines. -/
def Trace.mapLines (f : Nat → Nat) (trace : Trace) : Trace :=
  ⟨trace.steps.map (Step.mapLines f), trace.halt.map (Halt.mapLines f), trace.window.mapLines f⟩

namespace Window

variable {w : Window}

@[simp] theorem mapLines_ahead : (w.mapLines f).ahead = w.ahead.mapLines f := rfl

@[simp] theorem shift_mapLines : (w.mapLines f).shift = w.shift.mapLines f := by
  obtain ⟨current, ahead, rest, errors⟩ := w
  cases rest <;> rfl

end Window

/-- Moving lines moves those of the program that was read. -/
theorem program_mapLines (trace : Trace) :
    (trace.mapLines f).program = trace.program.mapLines f := by
  simp [Trace.program, Trace.mapLines, Program.mapLines, List.filterMap_map, List.map_filterMap,
    Step.mapLines, Function.comp_def]

end Parsing

end MonkeyLang
