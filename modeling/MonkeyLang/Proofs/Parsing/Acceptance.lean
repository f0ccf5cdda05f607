import MonkeyLang.Proofs.Parsing.Completeness

/-!
# The programs the parser accepts

`parse_eq_ok_iff_derives`: the parser builds a program without an error exactly if the tokens of the
source text, up to the end token, derive it. An illegal token derives nothing, so a text that has
one is accepted by neither side.
-/

namespace MonkeyLang

namespace Parsing

open Grammar

/-! ### Illegal tokens derive nothing -/

@[simp] theorem legal_nil : Legal [] := fun _ h => nomatch h

@[simp] theorem legal_cons {t : Token} {ts : List Token} :
    Legal (t :: ts) ↔ t.kind ≠ .illegal ∧ Legal ts := List.forall_mem_cons

@[simp] theorem legal_append {ts us : List Token} : Legal (ts ++ us) ↔ Legal ts ∧ Legal us :=
  List.forall_mem_append

theorem legal_names {ts is} (h : Names ts is) : Legal ts := by
  induction h with
  | one ht => simp [ht]
  | more ht hcomma _ ih => simp [ht, hcomma, ih]

theorem legal_parameters {ts is} (h : Parameters ts is) : Legal ts := by
  cases h with
  | none => exact legal_nil
  | some h => exact legal_names h

theorem ne_illegal_of_mem_operators {s : Stratum} {k : Kind} (h : k ∈ s.operators) :
    k ≠ .illegal := by
  rintro rfl
  exact absurd (precedence_of_mem_operators h).2.1 (by decide)

mutual

theorem legal_expression {s ts e} : Expression s ts e → Legal ts
  | .operand _ h => legal_expression h
  | .binary hop hl hr => by
    simp [legal_expression hl, legal_expression hr, ne_illegal_of_mem_operators hop]
  | .unary (.inl hop) h | .unary (.inr hop) h => by simp [hop, legal_expression h]
  | .suffixed h => legal_suffixed h

theorem legal_suffixed {ts e} : Postfix ts e → Legal ts
  | .primary h => legal_primary h
  | .call h hopening hes hclosing => by
    simp [legal_suffixed h, hopening, legal_arguments hes, hclosing]
  | .index h hopening hr hclosing => by
    simp [legal_suffixed h, hopening, legal_expression hr, hclosing]

theorem legal_primary {ts e} : Primary ts e → Legal ts
  | .identifier ht | .text ht | .boolean ht | .integer ht _ _ => by simp [ht]
  | .group hopening h hclosing => by simp [hopening, legal_expression h, hclosing]
  | .array hopening h hclosing => by simp [hopening, legal_arguments h, hclosing]
  | .hash hopening h hclosing => by simp [hopening, legal_entries h, hclosing]
  | .function hkeyword hopening h hclosing hb => by
    simp [hkeyword, hopening, legal_parameters h, hclosing, legal_braced hb]

theorem legal_arguments {ts es} : Arguments ts es → Legal ts
  | .none => legal_nil
  | .some h => legal_elements h

theorem legal_elements {ts es} : Elements ts es → Legal ts
  | .one h => legal_expression h
  | .more h hcomma hes => by simp [legal_expression h, hcomma, legal_elements hes]

theorem legal_entries {ts ps} : Entries ts ps → Legal ts
  | .none => legal_nil
  | .last hl hcolon hr => by simp [legal_expression hl, hcolon, legal_expression hr]
  | .more hl hcolon hr hcomma hps => by
    simp [legal_expression hl, hcolon, legal_expression hr, hcomma, legal_entries hps]

theorem legal_statement {ts st} : Statement ts st → Legal ts
  | .declaration (.inl hk) hname hassign h hsemicolon
  | .declaration (.inr hk) hname hassign h hsemicolon => by
    simp [hk, hname, hassign, legal_expression h, hsemicolon]
  | .bareReturn hk hsemicolon => by simp [hk, hsemicolon]
  | .valueReturn hk h hsemicolon => by simp [hk, legal_expression h, hsemicolon]
  | .expression h hsemicolon => by
    have := legal_expression h
    simp_all
  | .conditional h => legal_conditional h

theorem legal_conditional {ts st} : Conditional ts st → Legal ts
  | .ifThen hk hopening h hclosing hb => by
    simp [hk, hopening, legal_expression h, hclosing, legal_braced hb]
  | .ifElse hk hopening h hclosing hb hother hb' => by
    simp [hk, hopening, legal_expression h, hclosing, legal_braced hb, hother, legal_braced hb']
  | .elseIf hk hopening h hclosing hb hother hst => by
    have := legal_conditional hst
    simp_all [legal_expression h, legal_braced hb]

theorem legal_braced {ts b} : Braced ts b → Legal ts
  | .braces hopening h hclosing => by simp [hopening, legal_statements h, hclosing]

theorem legal_statements {ts ss} : Statements ts ss → Legal ts
  | .nil => legal_nil
  | .cons h hss => by simp [legal_statement h, legal_statements hss]

end

/-! ### Programs -/

section Programs

variable {w : Window}

theorem shift_upcoming_subset (w : Window) : w.shift.upcoming ⊆ w.upcoming := by
  unfold Window.shift Window.upcoming
  cases w.rest with
  | nil => simp
  | cons t ts => simp

theorem run_advance_of_legal (h : Legal w.upcoming) : advance.run w = .ok () w.shift := by
  rw [run_advance]
  exact if_neg (h _ (shift_upcoming_subset w List.mem_cons_self))

/-- The end of the input follows whatever stands before it. -/
theorem Terminated.of_append {ts us : List Token} (h : Terminated (ts ++ us)) (hus : us ≠ []) :
    Terminated us := by
  induction ts with
  | nil => exact h
  | cons t ts ih =>
    refine ih (h.tail fun ht => hus ?_)
    exact (List.append_eq_nil_iff.1 (h.eq_nil ht)).2

/-- The window is in front of the tokens, which are legal up to their end. -/
structure Facing (w : Window) (ts : List Token) : Prop where
  pending : w.pending = ts
  terminated : Terminated w.upcoming
  legal : Legal w.upcoming

theorem Facing.current {t : Token} {ts : List Token} (h : Facing w (t :: ts)) : w.current = t := by
  have hpending : w.pending = t :: [] ++ ts := h.pending
  exact (Window.eq_current_of_pending hpending).symm

/-- In front of a token that can begin a statement, that token is the current one. -/
theorem Facing.at_of_mem_starters {t : Token} {ts : List Token} (h : Facing w (t :: ts))
    (ht : t.kind ∈ starters) :
    w.current.kind ≠ .endOfInput ∧ At w (t :: ts) := by
  have hend : w.current.kind ≠ .endOfInput := fun hk => by
    rw [h.current] at hk
    exact absurd (hk ▸ ht) (by decide)
  have hpending := h.pending
  rw [Window.pending_eq hend] at hpending
  refine ⟨hend, hpending, ?_⟩
  rw [← hpending, h.current]
  exact legal_cons.2 ⟨fun hk => absurd (hk ▸ ht) (by decide), h.legal⟩

/-- Behind what was read, the window moves in front of what was ahead. -/
theorem Ahead.facing_shift {us : List Token} (h : Ahead w us) (hus : Terminated us) :
    Facing w.shift us := by
  have hterminated : Terminated w.upcoming := h.upcoming ▸ hus
  exact {
    pending := by rw [Window.shift_pending hterminated, h.upcoming]
    terminated := Window.shift_terminated hterminated
    legal := fun t ht => h.legal t (h.upcoming ▸ shift_upcoming_subset w ht) }

/-- At the end of the input nothing more is read. -/
theorem readStatements_of_end {steps count : Nat} (hcount : 0 < count)
    (hend : w.current.kind = .endOfInput) : readStatements steps count w = ⟨[], none, w⟩ := by
  obtain ⟨count, rfl⟩ : ∃ m, count = m + 1 := ⟨count - 1, by omega⟩
  rw [readStatements, if_pos hend]

/-- What one statement gave is the first step, and the others are read from behind it. -/
theorem readStatements_succ {steps : Nat} {o : Option Stmt} {w₁ : Window}
    (hend : w.current.kind ≠ .endOfInput) (hrun : (statement steps).run w = .ok o w₁)
    (hlegal : Legal w₁.upcoming) (count : Nat) :
    readStatements steps (count + 1) w =
      { readStatements steps count w₁.shift with
        steps := ⟨o, w₁⟩ :: (readStatements steps count w₁.shift).steps } := by
  rw [readStatements, if_neg hend, hrun]
  dsimp only
  rw [run_advance_of_legal hlegal]

/-- A statement is read, and the window is in front of what stands behind it. -/
theorem readStatements_statement {steps : Nat} {ts rest : List Token} {st : Stmt} {next : Token}
    (h : Statement ts st) (hsteps : 4 * ts.length ≤ steps) (hnext : next.kind ≠ .elseWord)
    (hw : Facing w (ts ++ next :: rest)) :
    ∃ w₁, Facing w₁.shift (next :: rest) ∧ w₁.errors = w.errors ∧
      ∀ count, readStatements steps (count + 1) w =
        { readStatements steps count w₁.shift with
          steps := ⟨some st, w₁⟩ :: (readStatements steps count w₁.shift).steps } := by
  have hgives := statementGiven h
  obtain ⟨t, ts, rfl, ht⟩ := h.exists_cons
  obtain ⟨hend, hat⟩ := hw.at_of_mem_starters ht
  obtain ⟨w₁, hrun, hw₁, herr⟩ := hgives hsteps hat hnext
  have hterminated : Terminated (next :: rest) := by
    have hupcoming : w.upcoming = ts ++ next :: rest := hat.ahead.upcoming
    exact Terminated.of_append (hupcoming ▸ hw.terminated) (List.cons_ne_nil _ _)
  exact ⟨w₁, hw₁.facing_shift hterminated, herr,
    readStatements_succ hend hrun (hw₁.upcoming ▸ hw₁.legal)⟩

/-- Statements are read one by one, up to what stands behind them. -/
theorem readStatements_statements {steps : Nat} {next : Token} (hnext : next.kind ≠ .elseWord)
    {rest ts : List Token} {ss : List Stmt} (h : Statements ts ss) (hsteps : 4 * ts.length ≤ steps)
    {count : Nat} (hcount : ts.length ≤ count) (hw : Facing w (ts ++ next :: rest)) :
    ∃ front count' w', front.filterMap Step.statement = ss ∧ count ≤ count' + ts.length ∧
      Facing w' (next :: rest) ∧ w'.errors = w.errors ∧
      readStatements steps count w = ⟨front ++ (readStatements steps count' w').steps,
        (readStatements steps count' w').halt, (readStatements steps count' w').window⟩ := by
  induction ss generalizing ts count w with
  | nil =>
    cases h
    exact ⟨[], count, w, rfl, Nat.le_add_right _ _, hw, rfl, rfl⟩
  | cons st ss ih =>
    cases h with
    | @cons ts us _ _ h hss =>
      rw [List.length_append] at hsteps hcount
      rw [List.append_assoc] at hw
      have hpos : 0 < ts.length := by
        obtain ⟨t, ts, rfl, _⟩ := h.exists_cons
        exact Nat.succ_pos _
      obtain ⟨count, rfl⟩ : ∃ m, count = m + 1 := ⟨count - 1, by omega⟩
      -- the statement is read up to the next one or to what stands behind all of them
      obtain ⟨next', vs, hus, hkind⟩ := exists_next hss hnext rest
      have hdeep : 4 * ts.length ≤ steps := by omega
      obtain ⟨w₁, hw₁, herr₁, hread⟩ := readStatements_statement h hdeep hkind (hus ▸ hw)
      rw [← hus] at hw₁
      have hcount₁ : us.length ≤ count := by omega
      obtain ⟨front, count', w', hfront, hcount', hw', herr', hreads⟩ :=
        ih hss (by omega) hcount₁ hw₁
      refine ⟨⟨some st, w₁⟩ :: front, count', w', ?_, by rw [List.length_append]; omega, hw', ?_, ?_⟩
      · simp [hfront]
      · rw [herr', Window.shift_errors, herr₁]
      · rw [hread, hreads]
        rfl

/-- Statements that reach to the end of the input are read as a program. -/
theorem readStatements_complete {steps : Nat} {last : Token} (hlast : last.kind = .endOfInput)
    {ts : List Token} {ss : List Stmt} (h : Statements ts ss) (hsteps : 4 * ts.length ≤ steps)
    {count : Nat} (hcount : ts.length < count) (hw : Facing w (ts ++ [last])) :
    (readStatements steps count w).halt = none ∧
      (readStatements steps count w).steps.filterMap Step.statement = ss ∧
      (readStatements steps count w).window.errors = w.errors := by
  obtain ⟨front, count', w', rfl, hcount', hw', herr, hreads⟩ :=
    readStatements_statements (by rw [hlast]; decide) h hsteps (Nat.le_of_lt hcount) hw
  rw [hreads, readStatements_of_end (by omega) (by rw [hw'.current, hlast])]
  exact ⟨rfl, by simp, herr⟩

/-- Legal tokens come into sight. -/
theorem run_fill {tokens : List Token} (h : Terminated tokens) (hlegal : Legal tokens) :
    ∃ w, fill.run (Window.before tokens) = .ok () w ∧ Facing w tokens ∧ w.errors = [] := by
  cases tokens with
  | nil => exact h.elim
  | cons t ts =>
    have hfirst : advance.run (Window.before (t :: ts)) =
        .ok () (Window.before (t :: ts)).shift := by
      rw [run_advance]
      exact if_neg (hlegal t List.mem_cons_self)
    refine ⟨(Window.before (t :: ts)).shift.shift, ?_, ⟨Window.shift_pending h,
      Window.shift_terminated h, ?_⟩, ?_⟩
    · unfold fill
      rw [run_bind_of_ok hfirst]
      exact run_advance_of_legal hlegal
    · exact fun u hu => hlegal u (shift_upcoming_subset _ hu)
    · rw [Window.shift_errors, Window.shift_errors]; rfl

end Programs

end Parsing

open Parsing

/-- Tokens that derive a program are parsed as it, without an error. -/
theorem parse_of_derives {source : String} {program : Program}
    (h : Derives (tokenize source).dropLast program) : parse source = .ok ⟨program, []⟩ := by
  obtain ⟨body, last, htokens, hlast, _⟩ := (terminated_tokenize source).eq_append
  rw [htokens, List.dropLast_concat] at h
  have hlegal : Legal (tokenize source) := by
    rw [htokens]
    simp [legal_statements h, hlast]
  obtain ⟨w, hrun, hw, herr⟩ := run_fill (terminated_tokenize source) hlegal
  have hsteps : stepsFor (tokenize source) = 8 * (body.length + 1) + 8 := by
    rw [htokens]; simp [stepsFor]
  have hfuel : 4 * body.length ≤ stepsFor (tokenize source) := by omega
  have hcount : body.length < stepsFor (tokenize source) := by omega
  rw [htokens] at hw
  obtain ⟨hhalt, hprogram, herrors⟩ := readStatements_complete hlast h hfuel hcount hw
  rw [parse_eq, hrun]
  dsimp only
  rw [hhalt, herrors, herr, Trace.program, hprogram]

/-- The parser builds a program without an error exactly if the tokens derive it. -/
theorem parse_eq_ok_iff_derives (source : String) (program : Program) :
    parse source = .ok ⟨program, []⟩ ↔ Derives (tokenize source).dropLast program :=
  ⟨derives_of_parse, parse_of_derives⟩

end MonkeyLang
