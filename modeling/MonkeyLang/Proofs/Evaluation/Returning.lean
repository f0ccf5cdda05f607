import MonkeyLang.Proofs.Evaluation.Sources

/-!
# Returns that can be read off the source

Two conditions on statements are checked without running them. Statements always return
(`Stmt.anyReturns`) if a return is among them, or an `if` with two branches that always return; they
have no return (`Stmt.anyHasReturn`) if none occurs outside the function literals in them
(`Stmt.hasReturn_iff`). In the evaluator with exceptions the first ones never come to their end, and the
second ones never throw a return.

Every function that a program calls is a literal of the program, as long as nothing else is in its
scopes. So the two errors about returns do not come up in programs that meet the conditions
(`Policy.returning`, `allowed_of_run`).
-/

namespace MonkeyLang

/-! ### Conditions on statements -/

mutual

/-- The statement is a return, or an `if` with an alternative both of whose blocks always return. -/
def Stmt.alwaysReturns : Stmt → Bool
  | .ret .. => true
  | .ifElse _ _ consequence alternative => consequence.alwaysReturns && alternative.alwaysReturns
  | .unknown .. | .declaration .. | .expression .. | .block _ | .ifThen .. => false

/-- One of the statements of the block always returns. -/
def Block.alwaysReturns : Block → Bool
  | ⟨_, statements⟩ => Stmt.anyReturns statements

/-- One of the statements always returns. -/
def Stmt.anyReturns : List Stmt → Bool
  | [] => false
  | st :: sts => st.alwaysReturns || Stmt.anyReturns sts

end

mutual

/-- There is a return in the statement, outside the function literals in it. -/
def Stmt.hasReturn : Stmt → Bool
  | .ret .. => true
  | .block body => body.hasReturn
  | .ifThen _ _ consequence => consequence.hasReturn
  | .ifElse _ _ consequence alternative => consequence.hasReturn || alternative.hasReturn
  | .unknown .. | .declaration .. | .expression .. => false

/-- There is a return in the block, outside the function literals in it. -/
def Block.hasReturn : Block → Bool
  | ⟨_, statements⟩ => Stmt.anyHasReturn statements

/-- There is a return in one of the statements, outside the function literals in them. -/
def Stmt.anyHasReturn : List Stmt → Bool
  | [] => false
  | st :: sts => st.hasReturn || Stmt.anyHasReturn sts

end

/-- The node is a function literal. -/
def Node.isFunction : Node → Bool
  | expression (.function ..) => true
  | _ => false

/-- The second node is the first one, or it occurs in it, and not inside of a function literal. -/
inductive Node.Exposes : Node → Node → Prop
  | self {node : Node} : Exposes node node
  | child {node node' node'' : Node} {inner : List Frame} : node.isFunction = false →
      (inner, node') ∈ node.children → Exposes node' node'' → Exposes node node''

/-- A return occurs in the node, and not inside of a function literal. -/
def Node.ExposesReturn (node : Node) : Prop :=
  ∃ token value, node.Exposes (.statement (.ret token value))

/-- All function literals of the program always return. -/
def Program.FunctionsReturn (program : Program) : Prop :=
  ∀ frames token parameters body,
    Occurs program frames (.expression (.function token parameters body)) → body.alwaysReturns

namespace Node

variable {node node' : Node}

theorem exposesReturn_iff : node.ExposesReturn ↔ (∃ token value, node = statement (.ret token value)) ∨
    node.isFunction = false ∧ ∃ part ∈ node.children, part.2.ExposesReturn := by
  constructor
  · rintro ⟨token, value, h⟩
    cases h with
    | self => exact .inl ⟨token, value, rfl⟩
    | child hfunction hchild hexposes => exact .inr ⟨hfunction, _, hchild, token, value, hexposes⟩
  · rintro (⟨token, value, rfl⟩ | ⟨hfunction, part, hpart, token, value, hexposes⟩)
    · exact ⟨token, value, .self⟩
    · exact ⟨token, value, .child hfunction hpart hexposes⟩

/-- The parts of an expression are expressions, unless it is a function literal. -/
theorem isExpression_of_child {e : Expr} {part : List Frame × Node}
    (hfunction : (expression e).isFunction = false) (h : part ∈ (expression e).children) :
    ∃ e', part.2 = expression e' := by
  cases e with
  | function => cases hfunction
  | hash token ps =>
    obtain ⟨node, hnode, rfl⟩ := List.mem_map.1 h
    obtain ⟨p, -, hp⟩ := List.mem_flatMap.1 hnode
    rcases List.mem_cons.1 hp with rfl | hp
    · exact ⟨_, rfl⟩
    · exact ⟨_, List.mem_singleton.1 hp⟩
  | call token callee arguments =>
    obtain ⟨node, hnode, rfl⟩ := List.mem_map.1 h
    obtain ⟨e', -, rfl⟩ := List.mem_map.1 hnode
    exact ⟨e', rfl⟩
  | array token elements =>
    obtain ⟨node, hnode, rfl⟩ := List.mem_map.1 h
    obtain ⟨e', -, rfl⟩ := List.mem_map.1 hnode
    exact ⟨e', rfl⟩
  | unary | binary | index =>
    obtain ⟨node, hnode, rfl⟩ := List.mem_map.1 h
    simp only [List.mem_cons, List.not_mem_nil, or_false] at hnode
    grind
  | missing | unknown | identifier | integer | boolean | text => cases h

/-- Outside of function literals there are only expressions in an expression. -/
theorem Exposes.isExpression (h : node.Exposes node') {e : Expr} (he : node = expression e) :
    ∃ e', node' = expression e' := by
  induction h generalizing e with
  | self => exact ⟨e, he⟩
  | child hfunction hchild _ ih =>
    subst he
    obtain ⟨e', he'⟩ := isExpression_of_child hfunction hchild
    exact ih he'

theorem not_exposesReturn_expression (e : Expr) : ¬ (expression e).ExposesReturn := by
  rintro ⟨token, value, h⟩
  obtain ⟨e', he'⟩ := h.isExpression rfl
  cases he'

end Node

open Node in
mutual

/-- The condition on a statement says what it is meant to say. -/
theorem Stmt.hasReturn_iff : ∀ st : Stmt, st.hasReturn ↔ (Node.statement st).ExposesReturn
  | .ret token value => by
    rw [exposesReturn_iff]
    simp [Stmt.hasReturn]
  | .unknown .. | .declaration .. | .expression .. => by
    rw [exposesReturn_iff]
    simp [Stmt.hasReturn, children, here, not_exposesReturn_expression]
  | .block body => by
    rw [exposesReturn_iff]
    simp [Stmt.hasReturn, children, here, isFunction, Block.hasReturn_iff body]
  | .ifThen _ _ consequence => by
    rw [exposesReturn_iff]
    simp [Stmt.hasReturn, children, here, isFunction, not_exposesReturn_expression,
      Block.hasReturn_iff consequence]
  | .ifElse _ _ consequence alternative => by
    rw [exposesReturn_iff]
    simp [Stmt.hasReturn, children, here, isFunction, not_exposesReturn_expression,
      Block.hasReturn_iff consequence, Block.hasReturn_iff alternative]

theorem Block.hasReturn_iff : ∀ b : Block, b.hasReturn ↔ (Node.block b).ExposesReturn
  | ⟨_, sts⟩ => by
    rw [exposesReturn_iff]
    simp [Block.hasReturn, children, within, isFunction, Stmt.anyHasReturn_iff sts]

theorem Stmt.anyHasReturn_iff : ∀ sts : List Stmt, Stmt.anyHasReturn sts ↔
    ∃ st ∈ sts, (Node.statement st).ExposesReturn
  | [] => by simp [Stmt.anyHasReturn]
  | st :: sts => by
    simp [Stmt.anyHasReturn, Stmt.hasReturn_iff st, Stmt.anyHasReturn_iff sts]

end

/-! ### How statements end -/

namespace Throwing

/-- From every machine, the computation ends so or too many calls are nested. -/
def Ends {ε β : Type} (y : ExceptT ε Eval β) (good : Except ε β → Prop) : Prop :=
  ∀ m, Ensures y.run m (fun r _ => good r) fun _ _ => True

/-- The computation does not come to its end. -/
def IsExit (r : Except Exit Value) : Prop := ∃ e, r = .error e

/-- The computation does not end at a return. -/
def IsNoReturn {β : Type} (r : Except Exit β) : Prop := ∀ id value, r ≠ .error (.returned id value)

section Ends

variable {ε β β' : Type} {y : ExceptT ε Eval β} {good : Except ε β → Prop}

theorem ends_any (y : ExceptT ε Eval β) : Ends y fun _ => True :=
  fun _ => ensures_iff.2 ⟨fun _ _ _ => trivial, fun _ _ _ => trivial⟩

/-- What follows is run after a result only. -/
theorem Ends.bind {k : β → ExceptT ε Eval β'} {good' : Except ε β' → Prop} (h : Ends y good)
    (hok : ∀ b, good (.ok b) → Ends (k b) good') (herror : ∀ e, good (.error e) → good' (.error e)) :
    Ends (y >>= k) good' := by
  refine fun m => ensures_except_bind.2 ((h m).mono (fun r m' hr => ?_) fun _ _ h => h)
  cases r with
  | ok b => exact hok b hr m'
  | error e => exact herror e hr

/-- Whatever the machine is that is looked at. -/
theorem ends_get {k : Machine → ExceptT ε Eval β} (h : ∀ m, Ends (k m) good) :
    Ends ((get : Eval Machine) >>= k) good := fun m => h m m

theorem isNoReturn_ok (b : β) : IsNoReturn (.ok b) := nofun

theorem IsNoReturn.error {e : Exit} (h : IsNoReturn (.error e : Except Exit β)) :
    IsNoReturn (.error e : Except Exit β') := by
  rintro id value ⟨⟩
  exact h id value rfl

/-- An expression throws errors only. -/
theorem ends_part (y : Raising β) : Ends (part y) IsNoReturn := by
  refine fun m => ensures_part.2 (ensures_iff.2 ⟨fun r _ _ => ?_, fun _ _ _ => trivial⟩)
  cases r <;> exact nofun

end Ends

section Tree

variable (ctx : Context)

mutual

/-- A statement that always returns comes to an exit. -/
theorem isExit_statement (scope : ScopeId) :
    ∀ st : Stmt, st.alwaysReturns → Ends (statement ctx scope st) IsExit
  | .ret token value, _ => by
    by_cases hmissing : value = .missing
    · subst hmissing
      rw [statement]
      exact fun m => ⟨_, rfl⟩
    · rw [statement]
      · exact (ends_any _).bind (fun v _ m => ⟨_, rfl⟩) fun e _ => ⟨e, rfl⟩
      · exact hmissing
  | .ifElse _ condition consequence alternative, h => by
    rw [Stmt.alwaysReturns, Bool.and_eq_true] at h
    rw [statement]
    refine (ends_any _).bind (fun v _ => ?_) fun e _ => ⟨e, rfl⟩
    refine (ends_any _).bind (fun holds _ => ?_) fun e _ => ⟨e, rfl⟩
    cases holds with
    | true => exact isExit_block scope consequence h.1
    | false => exact isExit_block scope alternative h.2
  | .unknown .., h | .declaration .., h | .expression .., h | .block _, h | .ifThen .., h => by
    rw [Stmt.alwaysReturns] at h
    cases h

theorem isExit_sequence (scope : ScopeId) : ∀ (sts : List Stmt) (last : Value),
    Stmt.anyReturns sts → Ends (sequence ctx scope last sts) IsExit
  | [], _, h => by
    rw [Stmt.anyReturns] at h
    cases h
  | st :: sts, _, h => by
    rw [Stmt.anyReturns, Bool.or_eq_true] at h
    rw [sequence]
    rcases h with h | h
    · exact (isExit_statement scope st h).bind (fun v hv => nomatch hv) fun e _ => ⟨e, rfl⟩
    · exact (ends_any _).bind (fun v _ => isExit_sequence scope sts v h) fun e _ => ⟨e, rfl⟩

theorem isExit_block (scope : ScopeId) :
    ∀ b : Block, b.alwaysReturns → Ends (block ctx scope b) IsExit
  | ⟨_, sts⟩, h => by
    rw [block]
    exact fun m => isExit_sequence m.scopes.size sts .null h _

end

mutual

/-- A statement without a return does not end at one. -/
theorem isNoReturn_statement (scope : ScopeId) :
    ∀ st : Stmt, st.hasReturn = false → Ends (statement ctx scope st) IsNoReturn
  | .ret .., h => by
    rw [Stmt.hasReturn] at h
    cases h
  | .unknown .., _ => by
    rw [statement]
    exact ends_part _
  | .declaration keyword ident value, _ => by
    rw [statement]
    refine ends_get fun m => ?_
    cases m.lookupLocal scope ident.name with
    | some _ => exact ends_part _
    | none => exact (ends_part _).bind (fun v _ m' => isNoReturn_ok v) fun e => .error
  | .expression _ value, _ => by
    rw [statement]
    exact ends_part _
  | .block body, h => by
    rw [Stmt.hasReturn] at h
    rw [statement]
    exact isNoReturn_block scope body h
  | .ifThen _ condition consequence, h => by
    rw [Stmt.hasReturn] at h
    rw [statement]
    refine (ends_part _).bind (fun v _ => ?_) fun e => .error
    refine (ends_part _).bind (fun holds _ => ?_) fun e => .error
    cases holds with
    | true => exact isNoReturn_block scope consequence h
    | false => exact fun m => isNoReturn_ok _
  | .ifElse _ condition consequence alternative, h => by
    rw [Stmt.hasReturn, Bool.or_eq_false_iff] at h
    rw [statement]
    refine (ends_part _).bind (fun v _ => ?_) fun e => .error
    refine (ends_part _).bind (fun holds _ => ?_) fun e => .error
    cases holds with
    | true => exact isNoReturn_block scope consequence h.1
    | false => exact isNoReturn_block scope alternative h.2

theorem isNoReturn_sequence (scope : ScopeId) : ∀ (sts : List Stmt) (last : Value),
    Stmt.anyHasReturn sts = false → Ends (sequence ctx scope last sts) IsNoReturn
  | [], _, _ => by
    rw [sequence]
    exact fun m => isNoReturn_ok _
  | st :: sts, _, h => by
    rw [Stmt.anyHasReturn, Bool.or_eq_false_iff] at h
    rw [sequence]
    exact (isNoReturn_statement scope st h.1).bind (fun v _ => isNoReturn_sequence scope sts v h.2)
      fun e => .error

theorem isNoReturn_block (scope : ScopeId) :
    ∀ b : Block, b.hasReturn = false → Ends (block ctx scope b) IsNoReturn
  | ⟨_, sts⟩, h => by
    rw [block]
    exact fun m => isNoReturn_sequence m.scopes.size sts .null h _

end

end Tree

end Throwing

/-! ### The errors about returns -/

/-- The fault is about returns: about a missing one, or about one outside of functions. -/
def Fault.IsAboutReturns (fault : Fault) : Prop :=
  fault = .missingReturn ∨ fault = .returnOutsideFunction

/-- A text that begins otherwise. -/
theorem message_ne {l : List Char} {s t : String} (h : l <+: s.toList) (hne : ¬ l <+: t.toList) :
    s ≠ t := by
  rintro rfl
  exact hne h

/-- A fault with the message of one about returns is this fault. -/
theorem Fault.eq_of_message {fault fault' : Fault} (hcustom : ∀ text, fault ≠ .custom text)
    (h' : fault'.IsAboutReturns) (h : fault.message = fault'.message) : fault = fault' := by
  by_contra hne
  refine absurd h ?_
  -- every message begins with a text of its own, whatever it quotes behind that
  rcases h' with rfl | rfl
  all_goals
    cases fault with
    | custom text => exact absurd rfl (hcustom text)
    | returnOutsideFunction | divisionByZero | missingReturn | indexOutOfBounds
    | incompleteProgram =>
      first
        | exact absurd rfl hne
        | exact message_ne prefix_ofList (by decide)
    | conditionNotBoolean | negationNotBoolean | unknownIdentifier | notAFunction
    | lengthUnsupported | unknownNode =>
      exact message_ne (prefix_append prefix_ofList) (by decide)
    | unknownUnary => exact message_ne (prefix_append (prefix_append prefix_ofList)) (by decide)
    | argumentCount | builtinArgumentCount | arrayExpected =>
      exact message_ne (prefix_append (prefix_append (prefix_append prefix_ofList))) (by decide)
    | redeclared | indexUnsupported | missingKey =>
      exact message_ne
        (prefix_append (prefix_append (prefix_append (prefix_append prefix_ofList)))) (by decide)
    | typeMismatch | unknownBinary =>
      exact message_ne
        (prefix_append (prefix_append (prefix_append (prefix_append (prefix_append prefix_ofList)))))
        (by decide)
    | unhashableKey found =>
      cases found <;> exact message_ne (prefix_append prefix_ofList) (by decide)

/-- The value is no exit, and if it is a function, it is a literal of the program. -/
def Value.IsOf (program : Program) (value : Value) : Prop :=
  value.isExit = false ∧ ∀ id parameters body scope, value = .function id parameters body scope →
    ∃ frames token, Occurs program frames (.expression (.function token parameters body))

/-- What is evaluated and called are nodes of the program, and the errors about returns come up only
where the conditions on its statements are not met. -/
def Policy.returning (program : Program) : Policy where
  Fits := fun node => ∃ frames, Occurs program frames node
  Fine := Value.IsOf program
  Allowed := fun fault => (∀ text, fault ≠ .custom text) ∧
    (fault = .missingReturn → ¬ program.FunctionsReturn) ∧
    (fault = .returnOutsideFunction → Stmt.anyHasReturn program.statements)
  fits_child := fun ⟨_, h⟩ hchild => ⟨_, h.child (Node.mem_children hchild)⟩
  fine_genuine := fun h => h.1
  fine_plain := by constructor <;> intros <;> exact ⟨rfl, nofun⟩
  fine_function := by
    rintro token parameters body ⟨frames, h⟩ id scope
    refine ⟨rfl, ?_⟩
    rintro _ _ _ _ ⟨⟩
    exact ⟨frames, token, h⟩
  fits_body := by
    rintro id parameters body scope ⟨-, h⟩ st hst
    obtain ⟨frames, token, h⟩ := h _ _ _ _ rfl
    exact ⟨_, h.inFrame rfl hst⟩
  data := fun fault h => by
    cases fault with
    | missingReturn | returnOutsideFunction | custom => cases h
    | _ => exact ⟨nofun, nofun, nofun⟩
  missing := fun _ => ⟨nofun, nofun, nofun⟩
  unknownExpr := fun _ => ⟨nofun, nofun, nofun⟩
  unknownStmt := fun _ => ⟨nofun, nofun, nofun⟩
  finishes := by
    rintro id parameters body scope ⟨-, h⟩ ⟨ctx, scope', last, m, value, m', hrun⟩
    refine ⟨nofun, fun _ hreturn => ?_, nofun⟩
    obtain ⟨frames, token, h⟩ := h _ _ _ _ rfl
    have hbody : Stmt.anyReturns body.statements := by
      have := hreturn frames token parameters body h
      obtain ⟨token, sts⟩ := body
      rwa [Block.alwaysReturns] at this
    obtain ⟨e, he⟩ := (Throwing.isExit_sequence ctx scope' body.statements last hbody m).of_ok hrun
    cases he

/-- A program in a scope that nothing is bound in runs by the policy. -/
theorem ensures_returning (program : Program) (table : ObjectId) (limit : Nat) :
    Ensures (program.evalAlone (.ofTable table limit)) .initial
      (fun value _ => value.isExit = false ∨
        ∃ id fault, value = .error id fault ∧ (Policy.returning program).Allowed fault)
      fun _ _ => True := by
  have hm : (Policy.returning program).Holds Machine.single :=
    Machine.Holds.push Machine.Holds.initial none
  have hreturn : ∀ id value m', (Throwing.sequence (.ofTable table limit) 0 .null
      program.statements).run.run .single = .ok (.error (.returned id value)) m' →
        (Policy.returning program).Allowed .returnOutsideFunction := by
    intro id value m' hrun
    refine ⟨nofun, nofun, fun _ => ?_⟩
    by_contra hnone
    exact (Throwing.isNoReturn_sequence _ 0 program.statements .null (Bool.eq_false_iff.2 hnone)
      Machine.single).of_ok hrun id value rfl
  refine (Policy.ensures_program hm (fun st hst => ⟨_, .top hst⟩) hreturn).mono
    (fun value _ h => ?_) fun _ _ _ => trivial
  exact h.2.imp (fun hsound => hsound.genuine.isExit) id

/-- If a program ends in an error with the message of one about returns, in a new scope of any machine,
the condition on its statements is not met. -/
theorem allowed_of_run {m m' : Machine} {limit : Nat} {source : String} {program : Program}
    {id : ObjectId} {fault fault' : Fault} (h : parse source = .ok ⟨program, []⟩)
    (hrun : (runAlone limit source).run m = .ok ⟨program, [], some (.error id fault)⟩ m')
    (hreturns : fault'.IsAboutReturns) (hmessage : fault.message = fault'.message) :
    (Policy.returning program).Allowed fault' := by
  -- what is seen of it is seen on a machine on which nothing has run
  have hseen : observeRun limit source m = program.observe 0 limit .initial := observeRun_of_parse h
  have hends := ensures_returning program 0 limit
  unfold observeRun at hseen
  rw [hrun] at hseen
  unfold Program.observe at hseen
  cases hlast : (program.evalAlone (.ofTable 0 limit)).run .initial with
  | error overflow last =>
    rw [hlast] at hseen
    cases congrArg Observation.answer hseen
  | ok value last =>
    rw [hlast] at hseen
    have hshown : (Value.error id fault).shown = value.shown :=
      Option.some.inj (congrArg Observation.answer hseen)
    obtain ⟨htype, htext⟩ := Prod.mk.inj hshown
    rcases hends.of_ok hlast with hvalue | ⟨id', fault'', rfl, hallowed⟩
    · cases value with
      | error => cases hvalue
      | _ => cases htype
    · have hsame : fault.message = fault''.message := by
        simp only [Value.inspect] at htext
        exact String.append_right_inj _ |>.1 htext
      have heq : fault'' = fault' := Fault.eq_of_message hallowed.1 hreturns (hsame.symm.trans hmessage)
      rwa [← heq]

end MonkeyLang
