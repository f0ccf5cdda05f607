import MonkeyLang.Tree

/-!
# Places in a program

Where a node stands in a program is told by the blocks around it. A `Frame` is such a block, or the
top level: the statements directly in it, and the parameters if it is the body of a function. The
names of a frame are its parameters and what its statements declare.

`Occurs program frames node` says that the node occurs in the program with these frames around it,
the innermost first and the top level last.
-/

namespace MonkeyLang

/-- The name that a statement declares. -/
def Stmt.declared? : Stmt → Option String
  | .declaration _ ident _ => some ident.name
  | _ => none

/-- A block, or the top level. -/
structure Frame where
  parameters : List Ident
  statements : List Stmt

/-- The names of a frame: its parameters, and what the statements directly in it declare. -/
def Frame.names (frame : Frame) : List String :=
  frame.parameters.map Ident.name ++ frame.statements.filterMap Stmt.declared?

/-- A node of a program tree. -/
inductive Node where
  | expression (e : Expr)
  | statement (st : Stmt)
  | block (b : Block)

namespace Node

/-- Nodes without a new frame around them. -/
def here (nodes : List Node) : List (List Frame × Node) := nodes.map fun node => ([], node)

/-- The statements of a frame. -/
def within (frame : Frame) : List (List Frame × Node) :=
  frame.statements.map fun st => ([frame], .statement st)

theorem mem_here {node : Node} {nodes : List Node} (h : node ∈ nodes) : ([], node) ∈ here nodes :=
  List.mem_map.2 ⟨node, h, rfl⟩

theorem mem_within {frame : Frame} {st : Stmt} (h : st ∈ frame.statements) :
    ([frame], .statement st) ∈ within frame :=
  List.mem_map.2 ⟨st, h, rfl⟩

/-- The nodes right below a node, each with the frame it is in if that is a new one. -/
def children : Node → List (List Frame × Node)
  | expression (.unary _ _ operand) => here [.expression operand]
  | expression (.binary _ left _ right) => here [.expression left, .expression right]
  | expression (.function _ parameters body) => within ⟨parameters, body.statements⟩
  | expression (.call _ callee arguments) => here ((callee :: arguments).map .expression)
  | expression (.array _ elements) => here (elements.map .expression)
  | expression (.index _ collection position) => here [.expression collection, .expression position]
  | expression (.hash _ pairs) =>
    here (pairs.flatMap fun pair => [.expression pair.1, .expression pair.2])
  | expression _ => []
  | statement (.declaration _ _ value) => here [.expression value]
  | statement (.ret _ value) => here [.expression value]
  | statement (.expression _ value) => here [.expression value]
  | statement (.block body) => here [.block body]
  | statement (.ifThen _ condition consequence) => here [.expression condition, .block consequence]
  | statement (.ifElse _ condition consequence alternative) =>
    here [.expression condition, .block consequence, .block alternative]
  | statement (.unknown ..) => []
  | block b => within ⟨[], b.statements⟩

/-- The nodes right below a node that are evaluated: not the missing value of a bare return. -/
def evaluated : Node → List (List Frame × Node)
  | statement (.ret _ .missing) => []
  | node => node.children

theorem evaluated_ret {token : Token} {e : Expr} (h : e ≠ .missing) :
    (statement (.ret token e)).evaluated = here [.expression e] := by
  cases e with
  | missing => exact absurd rfl h
  | _ => rfl

end Node

/-- The frame of a program's top level. -/
def Program.frame (program : Program) : Frame := ⟨[], program.statements⟩

/-- A node occurs in a program with the given frames around it. -/
inductive Occurs (program : Program) : List Frame → Node → Prop
  | top {st : Stmt} : st ∈ program.statements → Occurs program [program.frame] (.statement st)
  | child {frames inner : List Frame} {node node' : Node} : Occurs program frames node →
      (inner, node') ∈ node.children → Occurs program (inner ++ frames) node'

namespace Occurs

variable {program : Program} {frames : List Frame} {node : Node} {st : Stmt}

/-- A statement of a frame. -/
theorem inFrame (h : Occurs program frames node) {frame : Frame}
    (hchildren : node.children = Node.within frame) (hst : st ∈ frame.statements) :
    Occurs program (frame :: frames) (.statement st) := by
  have hchild : ([frame], .statement st) ∈ node.children := by
    rw [hchildren]
    exact Node.mem_within hst
  exact h.child hchild

end Occurs

end MonkeyLang
