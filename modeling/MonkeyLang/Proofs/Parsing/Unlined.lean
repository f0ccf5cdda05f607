import MonkeyLang.Proofs.Parsing.Lines
import MonkeyLang.Proofs.Parsing.Whole

/-!
# Trees up to their lines

Lines matter neither to the shape of a tree nor to its text: moving nothing changes nothing
(`Program.mapLines_id`), and a whole tree has the same text wherever its tokens stand
(`Node.Whole.text_mapLines`). Only nodes that are no construct of the language show their lines.
-/

namespace MonkeyLang

/-! ### Moving nothing -/

mutual

theorem Expr.mapLines_id : ∀ e : Expr, e.mapLines id = e
  | .missing | .unknown .. | .identifier _ | .integer .. | .boolean .. | .text .. => rfl
  | .unary _ _ operand => by rw [Expr.mapLines, Expr.mapLines_id operand]; rfl
  | .binary _ left _ right => by
    rw [Expr.mapLines, Expr.mapLines_id left, Expr.mapLines_id right]; rfl
  | .function _ parameters body => by
    rw [Expr.mapLines, Block.mapLines_id body, show Ident.mapLines id = id from rfl, List.map_id]
    rfl
  | .call _ callee arguments => by
    rw [Expr.mapLines, Expr.mapLines_id callee, Expr.mapLinesList_id arguments]; rfl
  | .array _ elements => by rw [Expr.mapLines, Expr.mapLinesList_id elements]; rfl
  | .index _ collection position => by
    rw [Expr.mapLines, Expr.mapLines_id collection, Expr.mapLines_id position]; rfl
  | .hash _ pairs => by rw [Expr.mapLines, Expr.mapLinesPairs_id pairs]; rfl

theorem Expr.mapLinesList_id : ∀ es : List Expr, Expr.mapLinesList id es = es
  | [] => rfl
  | e :: es => by rw [Expr.mapLinesList, Expr.mapLines_id e, Expr.mapLinesList_id es]

theorem Expr.mapLinesPairs_id : ∀ ps : List (Expr × Expr), Expr.mapLinesPairs id ps = ps
  | [] => rfl
  | (key, value) :: ps => by
    rw [Expr.mapLinesPairs, Expr.mapLines_id key, Expr.mapLines_id value, Expr.mapLinesPairs_id ps]

theorem Stmt.mapLines_id : ∀ st : Stmt, st.mapLines id = st
  | .unknown .. => rfl
  | .declaration _ _ value | .ret _ value | .expression _ value => by
    rw [Stmt.mapLines, Expr.mapLines_id value]; rfl
  | .block body => by rw [Stmt.mapLines, Block.mapLines_id body]
  | .ifThen _ condition consequence => by
    rw [Stmt.mapLines, Expr.mapLines_id condition, Block.mapLines_id consequence]; rfl
  | .ifElse _ condition consequence alternative => by
    rw [Stmt.mapLines, Expr.mapLines_id condition, Block.mapLines_id consequence,
      Block.mapLines_id alternative]
    rfl

theorem Stmt.mapLinesList_id : ∀ ss : List Stmt, Stmt.mapLinesList id ss = ss
  | [] => rfl
  | s :: ss => by rw [Stmt.mapLinesList, Stmt.mapLines_id s, Stmt.mapLinesList_id ss]

theorem Block.mapLines_id : ∀ b : Block, b.mapLines id = b
  | ⟨_, ss⟩ => by rw [Block.mapLines, Stmt.mapLinesList_id ss]; rfl

end

/-- A program whose lines stay where they are is the same program. -/
theorem Program.mapLines_id (program : Program) : program.mapLines id = program := by
  have hid : Stmt.mapLines id = id := funext Stmt.mapLines_id
  rw [Program.mapLines, hid, List.map_id]

/-! ### Texts -/

namespace Node

/-- The node with all its tokens on their new lines. -/
def mapLines (f : Nat → Nat) : Node → Node
  | expression e => expression (e.mapLines f)
  | statement st => statement (st.mapLines f)
  | block b => block (b.mapLines f)

/-- The text of a node. -/
def text : Node → String
  | expression e => e.render
  | statement st => st.render
  | block b => b.render

end Node

theorem Stmt.renderAll_map {f : Nat → Nat} {ss : List Stmt}
    (h : ∀ st ∈ ss, (st.mapLines f).render = st.render) :
    Stmt.renderAll (ss.map (Stmt.mapLines f)) = Stmt.renderAll ss := by
  induction ss with
  | nil => rfl
  | cons st ss ih =>
    obtain ⟨hst, hss⟩ := List.forall_mem_cons.1 h
    rw [List.map_cons, Stmt.renderAll, Stmt.renderAll, hst, ih hss]

theorem renderParameters_map (f : Nat → Nat) (parameters : List Ident) :
    renderParameters (parameters.map (Ident.mapLines f)) = renderParameters parameters := by
  rw [renderParameters, List.map_map]
  rfl

theorem Expr.isMissing_mapLines (f : Nat → Nat) (e : Expr) :
    (e.mapLines f).isMissing = e.isMissing := by
  cases e <;> rfl

section Texts

variable {f : Nat → Nat}

theorem Block.render_mapLines {b : Block}
    (h : ∀ st ∈ b.statements, (st.mapLines f).render = st.render) :
    (b.mapLines f).render = b.render := by
  obtain ⟨token, ss⟩ := b
  rw [Block.mapLines, Block.render, Block.render, Stmt.mapLinesList_eq, Stmt.renderAll_map h]

/-- The text of a whole node has nothing of the lines of its tokens. -/
theorem Node.Whole.text_mapLines {node : Node} (h : node.Whole) :
    (node.mapLines f).text = node.text := by
  induction h with
  | @intro node hconstruct _ ih =>
    cases node with
    | block b =>
      simp only [Node.evaluated, Node.children, Node.within, List.forall_mem_map] at ih
      exact Block.render_mapLines ih
    | statement st =>
      cases st with
      | unknown => cases hconstruct
      | ret token value =>
        by_cases hmissing : value = .missing
        · subst hmissing
          rfl
        · rw [Node.evaluated_ret hmissing] at ih
          simp only [Node.here, List.forall_mem_map, List.forall_mem_singleton] at ih
          simp only [Node.mapLines, Node.text, Stmt.mapLines, Stmt.render,
            Expr.isMissing_mapLines, Token.mapLines_literal] at ih ⊢
          rw [ih]
      | declaration | expression | block | ifThen | ifElse =>
        simp only [Node.evaluated, Node.children, Node.here, List.forall_mem_map,
          List.forall_mem_cons, Node.mapLines, Node.text] at ih
        simp only [Node.mapLines, Node.text, Stmt.mapLines, Stmt.render, Ident.mapLines,
          Expr.isMissing_mapLines, Token.mapLines_literal, ih]
    | expression e =>
      cases e with
      | unknown => cases hconstruct
      | missing | identifier | integer | boolean | text => rfl
      | function token parameters body =>
        simp only [Node.evaluated, Node.children, Node.within, List.forall_mem_map] at ih
        have hbody : (body.mapLines f).render = body.render := Block.render_mapLines ih
        simp only [Node.mapLines, Node.text, Expr.mapLines, Expr.render, renderParameters_map,
          Token.mapLines_literal, hbody]
      | call token callee arguments =>
        simp only [Node.evaluated, Node.children, Node.here, List.forall_mem_map,
          List.forall_mem_cons, Node.mapLines, Node.text] at ih
        simp only [Node.mapLines, Node.text, Expr.mapLines, Expr.render, Expr.mapLinesList_eq, ih.1,
          renderList_map ih.2]
      | array token elements =>
        simp only [Node.evaluated, Node.children, Node.here, List.forall_mem_map,
          Node.mapLines, Node.text] at ih
        simp only [Node.mapLines, Node.text, Expr.mapLines, Expr.render, Expr.mapLinesList_eq,
          renderList_map ih]
      | hash token ps =>
        simp only [Node.evaluated, Node.children, Node.here, List.forall_mem_map,
          List.forall_mem_flatMap, List.forall_mem_cons, Node.mapLines, Node.text] at ih
        simp only [Node.mapLines, Node.text, Expr.mapLines, Expr.render, Expr.mapLinesPairs_eq,
          renderPairs_map (fun p hp => (ih p hp).1) fun p hp => (ih p hp).2.1]
      | unary | binary | index =>
        simp only [Node.evaluated, Node.children, Node.here, List.forall_mem_map,
          List.forall_mem_cons, Node.mapLines, Node.text] at ih
        simp only [Node.mapLines, Node.text, Expr.mapLines, Expr.render, ih]

end Texts

end MonkeyLang
