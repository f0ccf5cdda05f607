import MonkeyLang.Proofs.Evaluation.Place
import MonkeyLang.Proofs.Parsing.Soundness

/-!
# Trees without holes

A node is `Whole` when nothing that is evaluated is missing in it, and every node in it is a
construct of the language. It is `Built` when moreover its integer literals are in the range of signed
64-bit integers. The parser leaves a hole wherever it gives up, but never without a syntax error: what
it reads without one is derived by the grammar, and the grammar knows neither holes nor larger numbers.
-/

namespace MonkeyLang

namespace Node

/-- Whether the node is a construct of the language, and not the place of one that is missing. -/
def isConstruct : Node → Bool
  | expression .missing | expression (.unknown ..) | statement (.unknown ..) => false
  | _ => true

/-- A construct of the language whose evaluated parts are whole. -/
inductive Whole : Node → Prop
  | intro {node : Node} : node.isConstruct → (∀ child ∈ node.evaluated, Whole child.2) → Whole node

theorem Whole.isConstruct {node : Node} (h : node.Whole) : node.isConstruct := by
  obtain ⟨h, -⟩ := h
  exact h

theorem Whole.child {node node' : Node} {inner : List Frame} (h : node.Whole)
    (hchild : (inner, node') ∈ node.evaluated) : node'.Whole := by
  obtain ⟨-, h⟩ := h
  exact h _ hchild

theorem Whole.ne_missing {e : Expr} (h : (expression e).Whole) : e ≠ .missing := by
  rintro rfl
  exact absurd h.isConstruct (by decide)

/-- Whether the node is a construct of the language, and not a number that is too large. -/
def isBuilt : Node → Bool
  | expression (.integer _ n) => 0 ≤ n && n ≤ Parsing.maxInteger
  | node => node.isConstruct

/-- A whole node in which no number is too large. -/
inductive Built : Node → Prop
  | intro {node : Node} : node.isBuilt → (∀ child ∈ node.evaluated, Built child.2) → Built node

theorem Built.isBuilt {node : Node} (h : node.Built) : node.isBuilt := by
  obtain ⟨h, -⟩ := h
  exact h

theorem Built.child {node node' : Node} {inner : List Frame} (h : node.Built)
    (hchild : (inner, node') ∈ node.evaluated) : node'.Built := by
  obtain ⟨-, h⟩ := h
  exact h _ hchild

theorem isConstruct_of_isBuilt {node : Node} (h : node.isBuilt) : node.isConstruct := by
  unfold Node.isBuilt at h
  split at h
  · rfl
  · exact h

theorem Built.whole {node : Node} (h : node.Built) : node.Whole := by
  induction h with
  | intro h _ ih => exact .intro (isConstruct_of_isBuilt h) ih

@[simp] theorem isBuilt_integer {token : Token} {n : Int} :
    (expression (.integer token n)).isBuilt ↔ 0 ≤ n ∧ n ≤ Parsing.maxInteger := by
  simp [isBuilt]

section Parts

variable {node : Node} {nodes : List Node} {frame : Frame}

/-- A node without a new frame is built if its parts are. -/
theorem built_of_here (hbuilt : node.isBuilt) (hevaluated : node.evaluated = here nodes)
    (h : ∀ part ∈ nodes, part.Built) : node.Built := by
  refine .intro hbuilt fun child hchild => ?_
  rw [hevaluated] at hchild
  obtain ⟨part, hpart, rfl⟩ := List.mem_map.1 hchild
  exact h part hpart

/-- A node with a frame of its own is built if the statements of the frame are. -/
theorem built_of_within (hbuilt : node.isBuilt) (hevaluated : node.evaluated = within frame)
    (h : ∀ st ∈ frame.statements, (statement st).Built) : node.Built := by
  refine .intro hbuilt fun child hchild => ?_
  rw [hevaluated] at hchild
  obtain ⟨st, hst, rfl⟩ := List.mem_map.1 hchild
  exact h st hst

theorem built_block {b : Block} (h : ∀ st ∈ b.statements, (statement st).Built) :
    (block b).Built :=
  built_of_within rfl rfl h

end Parts

end Node

open Node

namespace Grammar

mutual

theorem Expression.built {s ts e} : Expression s ts e → (expression e).Built
  | .operand _ h => h.built
  | .binary _ h h' =>
    built_of_here rfl rfl (List.forall_mem_cons.2 ⟨h.built, List.forall_mem_singleton.2 h'.built⟩)
  | .unary _ h => built_of_here rfl rfl (List.forall_mem_singleton.2 h.built)
  | .suffixed h => h.built

theorem Postfix.built {ts e} : Postfix ts e → (expression e).Built
  | .primary h => h.built
  | .call h _ h' _ =>
    built_of_here rfl rfl (List.forall_mem_cons.2 ⟨h.built, List.forall_mem_map.2 h'.built⟩)
  | .index h _ h' _ =>
    built_of_here rfl rfl (List.forall_mem_cons.2 ⟨h.built, List.forall_mem_singleton.2 h'.built⟩)

theorem Primary.built {ts e} : Primary ts e → (expression e).Built
  | .identifier _ | .text _ | .boolean _ => .intro rfl (List.forall_mem_nil _)
  | .integer _ _ h => by
    refine .intro (isBuilt_integer.2 ⟨Int.natCast_nonneg _, ?_⟩) (List.forall_mem_nil _)
    exact Int.ofNat_le.2 h
  -- a group leaves no node of its own
  | .group _ h _ => h.built
  | .array _ h _ => built_of_here rfl rfl (List.forall_mem_map.2 h.built)
  | .hash _ h _ => by
    refine built_of_here rfl rfl fun part hpart => ?_
    obtain ⟨pair, hpair, hpart⟩ := List.mem_flatMap.1 hpart
    obtain ⟨hkey, hvalue⟩ := h.built pair hpair
    rw [List.mem_cons, List.mem_singleton] at hpart
    rcases hpart with rfl | rfl
    · exact hkey
    · exact hvalue
  | .function _ _ _ _ h => built_of_within rfl rfl h.built

theorem Arguments.built {ts es} : Arguments ts es → ∀ e ∈ es, (expression e).Built
  | .none => List.forall_mem_nil _
  | .some h => h.built

theorem Elements.built {ts es} : Elements ts es → ∀ e ∈ es, (expression e).Built
  | .one h => List.forall_mem_singleton.2 h.built
  | .more h _ h' => List.forall_mem_cons.2 ⟨h.built, h'.built⟩

theorem Entries.built {ts ps} : Entries ts ps →
    ∀ p ∈ ps, (expression p.1).Built ∧ (expression p.2).Built
  | .none => List.forall_mem_nil _
  | .last h _ h' => List.forall_mem_singleton.2 ⟨h.built, h'.built⟩
  | .more h _ h' _ hps => List.forall_mem_cons.2 ⟨⟨h.built, h'.built⟩, hps.built⟩

theorem Statement.built {ts st} : Statement ts st → (statement st).Built
  | .declaration _ _ _ h _ => built_of_here rfl rfl (List.forall_mem_singleton.2 h.built)
  | .bareReturn _ _ => .intro rfl (List.forall_mem_nil _)
  | .valueReturn _ h _ =>
    built_of_here rfl (evaluated_ret h.built.whole.ne_missing) (List.forall_mem_singleton.2 h.built)
  | .expression h _ => built_of_here rfl rfl (List.forall_mem_singleton.2 h.built)
  | .conditional h => h.built

theorem Conditional.built {ts st} : Conditional ts st → (statement st).Built
  | .ifThen _ _ h _ hb => built_of_here rfl rfl
    (List.forall_mem_cons.2 ⟨h.built, List.forall_mem_singleton.2 (built_block hb.built)⟩)
  | .ifElse _ _ h _ hb _ hb' => built_of_here rfl rfl
    (List.forall_mem_cons.2 ⟨h.built, List.forall_mem_cons.2
      ⟨built_block hb.built, List.forall_mem_singleton.2 (built_block hb'.built)⟩⟩)
  | .elseIf _ _ h _ hb _ hst => built_of_here rfl rfl
    (List.forall_mem_cons.2 ⟨h.built, List.forall_mem_cons.2
      ⟨built_block hb.built, List.forall_mem_singleton.2
        (built_block (List.forall_mem_singleton.2 hst.built))⟩⟩)

theorem Braced.built {ts b} : Braced ts b → ∀ st ∈ b.statements, (statement st).Built
  | .braces _ h _ => h.built

theorem Statements.built {ts ss} : Statements ts ss → ∀ st ∈ ss, (statement st).Built
  | .nil => List.forall_mem_nil _
  | .cons h h' => List.forall_mem_cons.2 ⟨h.built, h'.built⟩

end

end Grammar

/-- A program that is parsed without an error has no holes, and no number in it is too large. -/
theorem built_of_parse {source : String} {program : Program}
    (h : parse source = .ok ⟨program, []⟩) :
    ∀ st ∈ program.statements, (statement st).Built :=
  Grammar.Statements.built (derives_of_parse h)

theorem whole_of_parse {source : String} {program : Program}
    (h : parse source = .ok ⟨program, []⟩) :
    ∀ st ∈ program.statements, (statement st).Whole :=
  fun st hst => (built_of_parse h st hst).whole

end MonkeyLang
