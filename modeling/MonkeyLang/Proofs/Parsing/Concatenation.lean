import MonkeyLang.Proofs.Lexing.Concatenation
import MonkeyLang.Proofs.Parsing.Acceptance
import MonkeyLang.Proofs.Parsing.Draining
import MonkeyLang.Proofs.Parsing.Relabeling
import MonkeyLang.Tree.Equality

/-!
# Programs put together

A text that is parsed without an error may be put in front of any other: its statements are read
first, and then the other text is read as if it stood alone, only further down. The parser is then in
front of the first token of the other text, has found no error, and has enough steps left.
-/

namespace MonkeyLang

namespace Grammar

/-! ### The last token -/

/-- The kinds of tokens that end a statement. -/
def closers : List Kind := [.semicolon, .rightBrace]

/-- The tokens end as a statement does. -/
def Closes (ts : List Token) : Prop := ∃ us t, ts = us ++ [t] ∧ t.kind ∈ closers

theorem Closes.append {us : List Token} (h : Closes us) (ts : List Token) : Closes (ts ++ us) := by
  obtain ⟨vs, t, rfl, ht⟩ := h
  exact ⟨ts ++ vs, t, by simp, ht⟩

theorem closes_concat {t : Token} {k : Kind} (h : t.kind = k) (hk : k ∈ closers) (us : List Token) :
    Closes (us ++ [t]) := ⟨us, t, rfl, h ▸ hk⟩

theorem Braced.closes {ts b} (h : Braced ts b) : Closes ts := by
  cases h with
  | braces _ _ hclosing => exact closes_concat hclosing (by decide) (_ :: _)

theorem Conditional.closes {ts st} (h : Conditional ts st) : Closes ts := by
  cases h with
  | ifThen _ _ _ _ hb => exact (hb.closes.append [_]).append (_ :: _ :: _)
  | ifElse _ _ _ _ _ _ hb =>
    exact (((hb.closes.append [_]).append _).append [_]).append (_ :: _ :: _)
  | elseIf _ _ _ _ _ _ hst =>
    exact (((hst.closes.append [_]).append _).append [_]).append (_ :: _ :: _)

theorem Statement.closes {ts st} (h : Statement ts st) : Closes ts := by
  cases h with
  | declaration _ _ _ _ hsemicolon =>
    exact closes_concat hsemicolon (by decide) (_ :: _ :: _ :: _)
  | bareReturn _ hsemicolon => exact closes_concat hsemicolon (by decide) [_]
  | valueReturn _ _ hsemicolon | expression _ hsemicolon =>
    exact closes_concat hsemicolon (by decide) (_ :: _)
  | conditional h => exact h.closes

theorem Statements.closes {ts ss} (h : Statements ts ss) : ts = [] ∨ Closes ts := by
  induction ss generalizing ts with
  | nil =>
    cases h
    exact .inl rfl
  | cons st ss ih =>
    cases h with
    | cons h hss =>
      obtain rfl | hss := ih hss
      · exact .inr (by simpa using h.closes)
      · exact .inr (hss.append _)

/-- The last token of statements is no text literal. -/
theorem Statements.getLast_ne_text {ts ss} (h : Statements ts ss) :
    ∀ t ∈ ts.getLast?, t.kind ≠ .text := by
  rintro t ht hk
  obtain rfl | ⟨us, u, rfl, hu⟩ := h.closes
  · simp at ht
  · obtain rfl : u = t := by simpa using ht
    rw [hk] at hu
    exact absurd hu (by decide)

end Grammar

namespace Parsing

open Grammar

section Windows

variable {f : Nat → Nat} {w w' : Window}

/-- In front of a token, the window is told by what is pending and by its errors. -/
theorem Window.eq_of_pending {t u : Token} {ts : List Token} (hend : t.kind ≠ .endOfInput)
    (h : Facing w (t :: u :: ts)) : w = ⟨t, u, ts, w.errors⟩ := by
  obtain ⟨current, ahead, rest, errors⟩ := w
  obtain rfl : current = t := h.current
  have hpending := h.pending
  rw [Window.pending_eq hend] at hpending
  obtain ⟨-, rfl, rfl⟩ : current = current ∧ ahead = u ∧ rest = ts := by
    simpa [Window.upcoming] using hpending
  rfl

/-- Behind other statements, what is pending is read as it is alone, with its lines moved. -/
theorem readStatements_resumed {steps steps' count count' : Nat} {ts : List Token}
    (hts : Terminated ts) (hw : Facing w ts) (hw' : Facing w' (ts.map (Token.mapLines f)))
    (herr : w'.errors = w.errors.map (SyntaxError.mapLines f))
    (hsteps : steps ≤ steps') (hpos : 0 < count) (hcount : count ≤ count')
    (hhalt : (readStatements steps count w).halt = none) :
    (readStatements steps' count' w').halt = none ∧
      (readStatements steps' count' w').program =
        (readStatements steps count w).program.mapLines f ∧
      (readStatements steps' count' w').window.errors =
        (readStatements steps count w).window.errors.map (SyntaxError.mapLines f) := by
  match ts, hts with
  | [t], hend =>
    have hcurrent : w.current.kind = .endOfInput := by rw [hw.current, hend]
    have hcurrent' : w'.current.kind = .endOfInput := by
      rw [show w'.current = t.mapLines f from hw'.current]
      exact hend
    rw [readStatements_of_end hpos hcurrent, readStatements_of_end (by omega) hcurrent']
    exact ⟨rfl, rfl, herr⟩
  | t :: u :: ts, hts =>
    have hwindow : w = ⟨t, u, ts, w.errors⟩ := Window.eq_of_pending hts.1 hw
    have hwindow' : w' = ⟨t.mapLines f, u.mapLines f, ts.map (Token.mapLines f), w'.errors⟩ :=
      Window.eq_of_pending (by simpa using hts.1) hw'
    have hmoved : w' = w.mapLines f := by
      rw [hwindow', herr, hwindow]
      rfl
    obtain hout | htrace := readStatements_mapLines f hsteps count w count' hcount
    · rw [hhalt] at hout
      cases hout
    · rw [hmoved, htrace]
      refine ⟨?_, program_mapLines _, rfl⟩
      rw [Trace.mapLines, hhalt]
      rfl

end Windows

theorem legal_iff_find? {ts : List Token} : Legal ts ↔ ts.find? (·.kind = .illegal) = none := by
  simp [Legal]

/-- Legal tokens are read without a halt. -/
theorem exists_window_of_legal {source : String} (h : Legal (tokenize source)) :
    ∃ w, Facing w (tokenize source) ∧ w.errors = [] ∧
      fill.run (Window.before (tokenize source)) = .ok () w ∧
      (readStatements (stepsFor (tokenize source)) (stepsFor (tokenize source)) w).halt = none := by
  obtain ⟨w, hrun, hw, herr⟩ := run_fill (terminated_tokenize source) h
  refine ⟨w, hw, herr, hrun, ?_⟩
  rcases parse_outcome source with ⟨t, ht, -⟩ | ⟨-, trace, -, -, -, -, hparse⟩
  · rw [legal_iff_find?.1 h] at ht
    cases ht
  · rw [parse_eq, hrun] at hparse
    dsimp only at hparse
    generalize (readStatements _ _ w).halt = halt at hparse ⊢
    cases halt with
    | none => rfl
    | some halt => cases hparse

section Behind

variable {s s₂ : String} {ts : List Token} {ss : List Stmt} {f : Nat → Nat}

/-- Behind statements, the first illegal token is the one of the other text. -/
theorem parse_behind_of_illegal {t : Token} (h : Statements ts ss)
    (htokens : tokenize s = ts ++ (tokenize s₂).map (Token.mapLines f))
    (ht : (tokenize s₂).find? (·.kind = .illegal) = some t) :
    parse s = .error (.illegalCharacter t.literal (f t.line)) := by
  have hnone := legal_iff_find?.1 (legal_statements h)
  have hfind : (tokenize s).find? (·.kind = .illegal) = some (t.mapLines f) := by
    rw [htokens, List.find?_append, hnone, Option.none_or, List.find?_map]
    exact congrArg (Option.map _) ht
  rcases parse_outcome s with ⟨t', ht', hparse⟩ | ⟨hnone', -⟩
  · obtain rfl := Option.some.inj (hfind.symm.trans ht')
    exact hparse
  · rw [hfind] at hnone'
    cases hnone'

/-- Behind statements, legal tokens are read as they are alone. -/
theorem parse_behind_of_legal (h : Statements ts ss)
    (htokens : tokenize s = ts ++ (tokenize s₂).map (Token.mapLines f))
    (halternative : ∀ t ∈ (tokenize s₂).head?, t.kind ≠ .elseWord) (hlegal : Legal (tokenize s₂)) :
    ∃ p₂ errors, parse s₂ = .ok ⟨p₂, errors⟩ ∧
      parse s = .ok ⟨⟨ss ++ (p₂.mapLines f).statements⟩, errors.map (SyntaxError.mapLines f)⟩ := by
  have hlegal' : Legal (tokenize s) := by
    rw [htokens, legal_append]
    exact ⟨legal_statements h, List.forall_mem_map.2 hlegal⟩
  obtain ⟨w₂, hw₂, herr₂, hrun₂, hhalt₂⟩ := exists_window_of_legal hlegal
  obtain ⟨w, hrun, hw, herr⟩ := run_fill (terminated_tokenize s) hlegal'
  have hterminated := terminated_tokenize s₂
  obtain ⟨t, us, hcons⟩ : ∃ t us, tokenize s₂ = t :: us :=
    List.exists_cons_of_ne_nil fun hnil => by rw [hnil] at hterminated; exact hterminated
  have hlength : (tokenize s).length = ts.length + (tokenize s₂).length := by
    rw [htokens, List.length_append, List.length_map]
  have hsteps : stepsFor (tokenize s) = 8 * ts.length + stepsFor (tokenize s₂) := by
    unfold stepsFor
    omega
  have hpos : 0 < stepsFor (tokenize s₂) := Nat.succ_pos _
  have hdeep : 4 * ts.length ≤ stepsFor (tokenize s) := by omega
  have hmany : ts.length ≤ stepsFor (tokenize s) := by omega
  -- the statements are read, and the window is in front of the other text
  have hnext : (t.mapLines f).kind ≠ .elseWord := halternative t (by rw [hcons]; rfl)
  have hw₁ : Facing w (ts ++ t.mapLines f :: us.map (Token.mapLines f)) := by
    rwa [htokens, hcons] at hw
  obtain ⟨front, count', w', hfront, hcount', hw', herr', hreads⟩ :=
    readStatements_statements hnext h hdeep hmany hw₁
  rw [← List.map_cons, ← hcons] at hw'
  -- which is read as it is alone
  have hclean : w'.errors = w₂.errors.map (SyntaxError.mapLines f) := by
    rw [herr', herr, herr₂]
    rfl
  have hdeeper : stepsFor (tokenize s₂) ≤ stepsFor (tokenize s) := by omega
  have hmore : stepsFor (tokenize s₂) ≤ count' := by omega
  obtain ⟨hhalt, hprogram, herrors⟩ :=
    readStatements_resumed hterminated hw₂ hw' hclean hdeeper hpos hmore hhalt₂
  refine ⟨_, _, by rw [parse_eq, hrun₂]; dsimp only; rw [hhalt₂], ?_⟩
  rw [parse_eq, hrun]
  dsimp only
  rw [hreads]
  dsimp only
  rw [hhalt, herrors, ← hprogram, ← hfront]
  simp [Trace.program]

end Behind

end Parsing

open Parsing

/-- A text without syntax errors that leaves no comment open and is not followed by an alternative is
read by itself. The text behind it is read as if it stood alone, further down by the lines in front of
it. -/
theorem parse_append {s₁ s₂ : String} {p₁ : Program} (h : parse s₁ = .ok ⟨p₁, []⟩)
    (hcomment : ¬ EndsInComment s₁.toList)
    (halternative : ∀ t ∈ (tokenize s₂).head?, t.kind ≠ .elseWord) :
    parse (s₁ ++ "\n" ++ s₂) =
      match parse s₂ with
      | .ok ⟨p₂, errors⟩ =>
        .ok ⟨⟨p₁.statements ++ (p₂.mapLines (· + lineCount s₁)).statements⟩,
          errors.map (SyntaxError.mapLines (· + lineCount s₁))⟩
      | .error halt => .error (halt.mapLines (· + lineCount s₁)) := by
  have hstatements : Grammar.Statements (tokenize s₁).dropLast p₁.statements := derives_of_parse h
  have htokens : tokenize (s₁ ++ "\n" ++ s₂) = _ ++ _ :=
    tokenize_append hcomment hstatements.getLast_ne_text
  rcases parse_outcome s₂ with ⟨t, ht, hparse⟩ | ⟨hnone, -⟩
  · rw [hparse, parse_behind_of_illegal hstatements htokens ht]
    rfl
  · obtain ⟨p₂, errors, hparse, hwhole⟩ :=
      parse_behind_of_legal hstatements htokens halternative (legal_iff_find?.2 hnone)
    rw [hparse, hwhole]

deriving instance DecidableEq for Parsed

/-- A declaration over two lines with a comment behind it, and a text that lacks a semicolon. -/
theorem parse_append_of_declaration :
    parse "var a =\n1; // b" = .ok ⟨⟨[.declaration ⟨.var, "var", 1⟩ ⟨⟨.identifier, "a", 1⟩, "a"⟩
      (.integer ⟨.integer, "1", 2⟩ 1)]⟩, []⟩ ∧
    ¬ EndsInComment "var a =\n1; // b".toList ∧
    (∀ t ∈ (tokenize "a;\n2").head?, t.kind ≠ .elseWord) ∧
    parse ("var a =\n1; // b" ++ "\n" ++ "a;\n2") =
      .ok ⟨⟨[.declaration ⟨.var, "var", 1⟩ ⟨⟨.identifier, "a", 1⟩, "a"⟩
          (.integer ⟨.integer, "1", 2⟩ 1),
        .expression ⟨.identifier, "a", 3⟩ (.identifier ⟨⟨.identifier, "a", 3⟩, "a"⟩),
        .expression ⟨.integer, "2", 4⟩ (.integer ⟨.integer, "2", 4⟩ 2)]⟩,
        [⟨.missingSemicolon, 4⟩]⟩ := by
  have hparse : parse "var a =\n1; // b" = .ok ⟨⟨[.declaration ⟨.var, "var", 1⟩
      ⟨⟨.identifier, "a", 1⟩, "a"⟩ (.integer ⟨.integer, "1", 2⟩ 1)]⟩, []⟩ := by decide +kernel
  have hcomment : ¬ EndsInComment "var a =\n1; // b".toList :=
    fun h => absurd h.mem (by decide)
  have halternative : ∀ t ∈ (tokenize "a;\n2").head?, t.kind ≠ .elseWord := by decide +kernel
  have hbehind : parse "a;\n2" =
      .ok ⟨⟨[.expression ⟨.identifier, "a", 1⟩ (.identifier ⟨⟨.identifier, "a", 1⟩, "a"⟩),
        .expression ⟨.integer, "2", 2⟩ (.integer ⟨.integer, "2", 2⟩ 2)]⟩,
        [⟨.missingSemicolon, 2⟩]⟩ := by decide +kernel
  refine ⟨hparse, hcomment, halternative, ?_⟩
  rw [parse_append hparse hcomment halternative, hbehind]
  rfl

end MonkeyLang
