import MonkeyLang.Proofs.Parsing.Acceptance

/-!
# Numbers that are out of range

A number that is out of range is reported and leaves a hole in the tree; the parser stands behind it
as behind any other number, and reads on. So the literals of numbers, booleans, arrays and hashes are
read in full, whatever numbers are in them.

* `Reports x w a errors rest`: from the window `w` the parser `x` gives `a`, finds these errors and
  leaves the tokens `rest`. Where there are none, this is `Gives`.
* `Literal`, `Literals` and `LiteralPairs` say so of the tokens of one literal, of one or more behind
  each other, and of the pairs of a hash. There is one lemma for each way to build them.
* `parse_of_literal` is about a program that is a literal and a semicolon.
-/

namespace MonkeyLang

namespace Parsing

open Grammar

/-! ### Errors on the way -/

/-- The parser gives `a`, finds the errors and leaves the tokens `rest`. -/
def Reports {α : Type} (x : Parser α) (w : Window) (a : α) (errors : List SyntaxError)
    (rest : List Token) : Prop :=
  ∃ w', x.run w = .ok a w' ∧ Ahead w' rest ∧ w'.errors = w.errors ++ errors

section Steps

variable {α β : Type} {w : Window} {t : Token} {ts mid rest : List Token} {a : α} {b : β} {k : Kind}
  {x : Parser α} {f : α → Parser β} {errors errors' : List SyntaxError}

theorem Gives.reports (h : Gives x w a rest) : Reports x w a [] rest := by
  obtain ⟨w', hrun, hw', herr⟩ := h
  exact ⟨w', hrun, hw', by rw [herr, List.append_nil]⟩

theorem Reports.bind (hx : Reports x w a errors mid)
    (hf : ∀ w', Ahead w' mid → Reports (f a) w' b errors' rest) :
    Reports (x >>= f) w b (errors ++ errors') rest := by
  obtain ⟨w₁, hrun₁, hw₁, herr₁⟩ := hx
  obtain ⟨w₂, hrun₂, hw₂, herr₂⟩ := hf w₁ hw₁
  exact ⟨w₂, by rw [run_bind_of_ok hrun₁, hrun₂], hw₂, by rw [herr₂, herr₁, List.append_assoc]⟩

theorem Reports.bind_gives (hx : Reports x w a errors mid)
    (hf : ∀ w', Ahead w' mid → Gives (f a) w' b rest) : Reports (x >>= f) w b errors rest := by
  have hreports := hx.bind fun w' hw' => (hf w' hw').reports
  rwa [List.append_nil] at hreports

/-- What is done first finds no error. -/
theorem Reports.after {w₁ : Window} (hrun : x.run w = .ok a w₁) (herr : w₁.errors = w.errors)
    (h : Reports (f a) w₁ b errors rest) : Reports (x >>= f) w b errors rest := by
  obtain ⟨w₂, hrun₂, hw₂, herr₂⟩ := h
  exact ⟨w₂, by rw [run_bind_of_ok hrun, hrun₂], hw₂, by rw [herr₂, herr]⟩

theorem reports_current {f : Token → Parser β} (h : Reports (f w.current) w b errors rest) :
    Reports (current >>= f) w b errors rest := h

theorem reports_advance {f : Unit → Parser β} (h : Ahead w ts) (hts : 2 ≤ ts.length)
    (hf : ∀ w', At w' ts → Reports (f ()) w' b errors rest) :
    Reports (advance >>= f) w b errors rest := by
  obtain ⟨w₁, hrun, hw₁, herr⟩ := run_advance_of_ahead h hts
  exact .after hrun herr (hf w₁ hw₁)

theorem reports_expect {x y : Parser β} (h : Ahead w (t :: ts)) (hk : t.kind = k)
    (hts : 0 < ts.length) (hx : ∀ w', At w' (t :: ts) → Reports x w' b errors rest) :
    Reports (do if ← expect k then x else y) w b errors rest := by
  obtain ⟨w₁, hrun, hw₁, herr⟩ := run_expect_of_ahead h hk hts
  exact .after hrun herr (hx w₁ hw₁)

theorem reports_of_ahead {x y : Parser β} (hk : w.ahead.kind = k)
    (hx : Reports x w b errors rest) : Reports (do if ← aheadIs k then x else y) w b errors rest := by
  show Reports (if decide (w.ahead.kind = k) = true then x else y) w b errors rest
  rwa [if_pos (decide_eq_true hk)]

theorem reports_of_not_ahead {x y : Parser β} (hk : w.ahead.kind ≠ k)
    (hy : Reports y w b errors rest) : Reports (do if ← aheadIs k then x else y) w b errors rest := by
  show Reports (if decide (w.ahead.kind = k) = true then x else y) w b errors rest
  rwa [if_neg (by simpa using hk)]

end Steps

/-! ### Literals -/

/-- What is read from the token of a number: a hole, if the number is out of range. -/
def numeral (t : Token) : Expr :=
  match integerValue? t.literal with
  | some n => .integer t n
  | none => .missing

/-- What is reported of the token of a number. -/
def numeralErrors (t : Token) : List SyntaxError :=
  match integerValue? t.literal with
  | some _ => []
  | none => [⟨.integerOutOfRange t.literal, t.line⟩]

/-- The tokens are read as the literal, up to a token that continues no expression. -/
structure Literal (ts : List Token) (e : Expr) (errors : List SyntaxError) : Prop where
  opens : Opens ts
  legal : Legal ts
  reads : ∀ ⦃n : Nat⦄ ⦃w : Window⦄ ⦃next : Token⦄ ⦃rest : List Token⦄, 4 * ts.length ≤ n →
    At w (ts ++ next :: rest) → next.kind.precedence ≤ Precedence.lowest →
    Reports (expression n Precedence.lowest) w e errors (next :: rest)

/-- The tokens are read as one or more literals with commas between them. -/
structure Literals (ts : List Token) (es : List Expr) (errors : List SyntaxError) : Prop where
  opens : Opens ts
  legal : Legal ts
  reads : ∀ ⦃α : Type⦄ ⦃f : List Expr → Parser α⦄ ⦃n : Nat⦄ ⦃w : Window⦄ ⦃next : Token⦄
    ⦃rest : List Token⦄ ⦃a : α⦄ ⦃last : List Token⦄,
    4 * ts.length ≤ n → At w (ts ++ next :: rest) → next.kind.precedence ≤ Precedence.lowest →
    next.kind ≠ .comma → (∀ w', Ahead w' (next :: rest) → Gives (f es) w' a last) →
    Reports (do
      let first ← expression n Precedence.lowest
      let rest ← moreExpressions n
      f (first :: rest)) w a errors last

/-- The tokens are read as the pairs of a hash literal, up to its closing brace. -/
structure LiteralPairs (ts : List Token) (ps : List (Expr × Expr)) (errors : List SyntaxError) :
    Prop where
  legal : Legal ts
  reads : ∀ ⦃n : Nat⦄ ⦃w : Window⦄ ⦃closing : Token⦄ ⦃rest : List Token⦄,
    closing.kind = .rightBrace → 4 * ts.length + 1 ≤ n → Ahead w (ts ++ closing :: rest) →
    0 < rest.length → Reports (pairs n) w (some ps) errors rest

section Literals

variable {ts us vs : List Token} {e l r : Expr} {es : List Expr} {ps : List (Expr × Expr)}
  {errors errors' errors'' : List SyntaxError} {t op opening closing comma colon : Token}
  {n p : Nat} {w : Window} {next : Token} {rest : List Token}

/-- Nothing is taken on by what stands behind an operand. -/
theorem reports_expression (h : Reports (operand n) w (some e) errors (next :: rest)) (hn : 0 < n)
    (hp : next.kind.precedence ≤ p) : Reports (expression (n + 1) p) w e errors (next :: rest) := by
  rw [expression]
  exact h.bind_gives fun w₁ hw₁ => gives_operators_of_le hw₁ hn hp

/-- Whether or not a number is out of range, the parser stands behind it. -/
theorem reports_numeral (ht : t.kind = .integer) (hw : At w (t :: next :: rest))
    (hp : next.kind.precedence ≤ p) :
    Reports (expression (n + 2) p) w (numeral t) (numeralErrors t) (next :: rest) := by
  have hliteral : Reports integerLiteral w (numeral t) (numeralErrors t) (next :: rest) := by
    unfold integerLiteral numeral numeralErrors
    refine reports_current ?_
    rw [hw.current]
    cases integerValue? t.literal with
    | some value => exact (gives_pure hw.ahead).reports
    | none => exact ⟨_, rfl, ⟨hw.ahead.upcoming, hw.ahead.legal⟩, rfl⟩
  refine reports_expression ?_ (Nat.succ_pos n) hp
  rw [operand]
  refine reports_current ?_
  rw [hw.current, ht]
  exact hliteral.bind_gives fun w₁ hw₁ => gives_pure hw₁

/-- What derives an expression has no errors. -/
theorem Literal.of_expression (h : Expression .equality ts e) : Literal ts e [] where
  opens := h.opens
  legal := legal_expression h
  reads := fun _ _ _ _ hn hw hnext =>
    ((expressionGiven h).full h.opens hn (Nat.le_refl _) hw hnext).reports

theorem Literal.number (ht : t.kind = .integer) : Literal [t] (numeral t) (numeralErrors t) where
  opens := ⟨t, [], rfl, by rw [ht]; decide⟩
  legal := by simp [ht]
  reads := by
    intro n w next rest hn hw hnext
    obtain ⟨n, rfl⟩ : ∃ m, n = m + 2 := ⟨n - 2, by simp at hn; omega⟩
    exact reports_numeral ht hw hnext

theorem Literal.negative (hop : op.kind = .minus) (ht : t.kind = .integer) :
    Literal [op, t] (.unary op op.literal (numeral t)) (numeralErrors t) where
  opens := ⟨op, [t], rfl, by rw [hop]; decide⟩
  legal := by simp [hop, ht]
  reads := by
    intro n w next rest hn hw hnext
    obtain ⟨n, rfl⟩ : ∃ m, n = m + 4 := ⟨n - 4, by simp at hn; omega⟩
    refine reports_expression ?_ (by omega) hnext
    rw [operand]
    refine reports_current ?_
    rw [At.current hw, hop]
    refine reports_advance (At.ahead hw) (by simp) fun w₁ hw₁ => ?_
    have hstrength : next.kind.precedence ≤ Precedence.unary := Nat.le_trans hnext (by decide)
    exact (reports_numeral ht hw₁ hstrength).bind_gives fun w₂ hw₂ => gives_pure hw₂

theorem Literals.one (h : Literal ts e errors) : Literals ts [e] errors where
  opens := h.opens
  legal := h.legal
  reads := by
    intro α f n w next rest a last hn hw hprec hcomma hf
    have hpos := length_pos_of_opens h.opens
    obtain ⟨n, rfl⟩ : ∃ m, n = m + 1 := ⟨n - 1, by omega⟩
    refine (h.reads hn hw hprec).bind_gives fun w₁ hw₁ => ?_
    have hmore : Gives (moreExpressions (n + 1)) w₁ [] (next :: rest) := by
      rw [moreExpressions]
      exact gives_of_not_ahead (by rwa [hw₁.ahead]) (gives_pure hw₁)
    exact hmore.bind hf

theorem Literals.more (h : Literal ts e errors) (hcomma : comma.kind = .comma)
    (hes : Literals us es errors') : Literals (ts ++ comma :: us) (e :: es) (errors ++ errors') where
  opens := h.opens.append _
  legal := by simp [h.legal, hcomma, hes.legal]
  reads := by
    intro α f n w next rest a last hn hw hprec hnext hf
    have hpos := length_pos_of_opens h.opens
    have hpos' := length_pos_of_opens hes.opens
    simp only [List.length_append, List.length_cons, List.append_assoc, List.cons_append] at hn hw
    obtain ⟨n, rfl⟩ : ∃ m, n = m + 1 := ⟨n - 1, by omega⟩
    refine (h.reads (by omega) hw (by rw [hcomma]; decide)).bind fun w₁ hw₁ => ?_
    -- what is reported of the later ones comes behind
    have hmore : Reports (moreExpressions (n + 1)) w₁ es errors' (next :: rest) := by
      rw [moreExpressions]
      refine reports_of_ahead (by rw [hw₁.ahead, hcomma]) ?_
      refine reports_advance hw₁ (by simp; omega) fun w₂ hw₂ => ?_
      refine reports_advance hw₂.ahead (by simp; omega) fun w₃ hw₃ => ?_
      exact hes.reads (f := pure) (by omega) hw₃ hprec hnext fun w₄ hw₄ => gives_pure hw₄
    exact hmore.bind_gives hf

theorem Literal.array (hopening : opening.kind = .leftBracket) (h : Literals ts es errors)
    (hclosing : closing.kind = .rightBracket) :
    Literal (opening :: (ts ++ [closing])) (.array opening es) errors where
  opens := ⟨opening, _, rfl, by rw [hopening]; decide⟩
  legal := by simp [hopening, h.legal, hclosing]
  reads := by
    intro n w next rest hn hw hnext
    simp only [List.length_append, List.length_cons, List.length_nil, List.append_assoc,
      List.cons_append, List.nil_append] at hn hw
    obtain ⟨n, rfl⟩ : ∃ m, n = m + 3 := ⟨n - 3, by omega⟩
    have hahead := hw.ahead.opens h.opens
    have helements : Reports (expressions (n + 1) .rightBracket) w (some es) errors
        (next :: rest) := by
      rw [expressions]
      refine reports_of_not_ahead (fun hk => absurd (hk ▸ hahead) (by decide)) ?_
      refine reports_advance hw.ahead (by simp; omega) fun w₁ hw₁ => ?_
      refine h.reads (f := fun es => do if ← expect .rightBracket then return some es else return none)
        (by omega) hw₁ (by rw [hclosing]; decide) (by rw [hclosing]; decide) fun w₂ hw₂ => ?_
      exact gives_expect hw₂ hclosing (by simp) fun w₃ hw₃ => gives_pure hw₃.ahead
    refine reports_expression ?_ (by omega) hnext
    rw [operand]
    refine reports_current ?_
    rw [hw.current, hopening]
    exact helements.bind_gives fun w₁ hw₁ => gives_pure hw₁

/-- A pair is read up to the token behind it. -/
theorem reports_pair (hl : Literal ts l errors) (hcolon : colon.kind = .colon)
    (hr : Literal us r errors') (hn : 4 * (ts.length + us.length) ≤ n)
    (hw : Ahead w (ts ++ colon :: (us ++ next :: rest)))
    (hnext : next.kind.precedence ≤ Precedence.lowest)
    {f : Expr → Expr → Parser (Option (List (Expr × Expr)))} {a : Option (List (Expr × Expr))}
    {last : List Token} (hf : ∀ w', Ahead w' (next :: rest) → Reports (f l r) w' a errors'' last) :
    Reports (do
      if ← aheadIs .rightBrace then
        advance
        return some []
      else
        advance
        let key ← expression n Precedence.lowest
        if ← expect .colon then
          advance
          let value ← expression n Precedence.lowest
          f key value
        else return none) w a (errors ++ (errors' ++ errors'')) last := by
  have hahead := hw.opens hl.opens
  refine reports_of_not_ahead (fun hk => absurd (hk ▸ hahead) (by decide)) ?_
  refine reports_advance hw (by simp; omega) fun w₁ hw₁ => ?_
  refine (hl.reads (by omega) hw₁ (by rw [hcolon]; decide)).bind fun w₂ hw₂ => ?_
  refine reports_expect hw₂ hcolon (List.length_pos_iff.2 (by simp)) fun w₃ hw₃ => ?_
  refine reports_advance hw₃.ahead (by have := length_pos_of_opens hr.opens; simp; omega)
    fun w₄ hw₄ => ?_
  exact (hr.reads (by omega) hw₄ hnext).bind hf

theorem LiteralPairs.last (hl : Literal ts l errors) (hcolon : colon.kind = .colon)
    (hr : Literal us r errors') :
    LiteralPairs (ts ++ colon :: us) [(l, r)] (errors ++ errors') where
  legal := by simp [hl.legal, hcolon, hr.legal]
  reads := by
    intro n w closing rest hclosing hn hw hrest
    simp only [List.length_append, List.length_cons, List.append_assoc, List.cons_append] at hn hw
    obtain ⟨n, rfl⟩ : ∃ m, n = m + 1 := ⟨n - 1, by omega⟩
    rw [pairs, ← List.append_nil errors']
    refine reports_pair hl hcolon hr (by omega) hw (by rw [hclosing]; decide) fun w₁ hw₁ => ?_
    refine reports_of_ahead (by rw [hw₁.ahead, hclosing]) (Gives.reports ?_)
    exact gives_advance hw₁ (by simp; omega) fun w₂ hw₂ => gives_pure hw₂.ahead

theorem LiteralPairs.more (hl : Literal ts l errors) (hcolon : colon.kind = .colon)
    (hr : Literal us r errors') (hcomma : comma.kind = .comma) (hps : LiteralPairs vs ps errors'') :
    LiteralPairs (ts ++ colon :: (us ++ comma :: vs)) ((l, r) :: ps)
      (errors ++ (errors' ++ errors'')) where
  legal := by simp [hl.legal, hcolon, hr.legal, hcomma, hps.legal]
  reads := by
    intro n w closing rest hclosing hn hw hrest
    simp only [List.length_append, List.length_cons, List.append_assoc, List.cons_append] at hn hw
    obtain ⟨n, rfl⟩ : ∃ m, n = m + 1 := ⟨n - 1, by omega⟩
    rw [pairs]
    refine reports_pair hl hcolon hr (by omega) hw (by rw [hcomma]; decide) fun w₁ hw₁ => ?_
    refine reports_of_not_ahead (by rw [hw₁.ahead, hcomma]; decide) ?_
    refine reports_expect hw₁ hcomma (List.length_pos_iff.2 (by simp)) fun w₂ hw₂ => ?_
    exact (hps.reads hclosing (by omega) hw₂.ahead hrest).bind_gives fun w₃ hw₃ => gives_pure hw₃

theorem Literal.hash (hopening : opening.kind = .leftBrace) (h : LiteralPairs ts ps errors)
    (hclosing : closing.kind = .rightBrace) :
    Literal (opening :: (ts ++ [closing])) (.hash opening ps) errors where
  opens := ⟨opening, _, rfl, by rw [hopening]; decide⟩
  legal := by simp [hopening, h.legal, hclosing]
  reads := by
    intro n w next rest hn hw hnext
    simp only [List.length_append, List.length_cons, List.length_nil, List.append_assoc,
      List.cons_append, List.nil_append] at hn hw
    obtain ⟨n, rfl⟩ : ∃ m, n = m + 2 := ⟨n - 2, by omega⟩
    refine reports_expression ?_ (by omega) hnext
    rw [operand]
    refine reports_current ?_
    rw [hw.current, hopening]
    exact (h.reads hclosing (by omega) hw.ahead (by simp)).bind_gives fun w₁ hw₁ => gives_pure hw₁

theorem Literal.mem_openers (h : Literal (t :: ts) e errors) : t.kind ∈ openers := by
  obtain ⟨u, us, hts, hu⟩ := h.opens
  rwa [(List.cons.inj hts).1]

/-- A literal with a semicolon behind it is a statement. -/
theorem reports_statement {semicolon : Token} (h : Literal (t :: ts) e errors)
    (hsemicolon : semicolon.kind = .semicolon) (hn : 4 * (ts.length + 2) ≤ n)
    (hw : At w (t :: (ts ++ semicolon :: rest))) (hrest : 0 < rest.length) :
    Reports (statement n) w (some (.expression t e)) errors rest := by
  obtain ⟨n, rfl⟩ : ∃ m, n = m + 1 := ⟨n - 1, by omega⟩
  have hk : w.current.kind ∈ openers := by
    rw [hw.current]
    exact h.mem_openers
  rw [Reports, run_statement_of_mem_openers hk]
  refine reports_current ?_
  rw [hw.current]
  refine (h.reads (by simp; omega) hw (by rw [hsemicolon]; decide)).bind_gives fun w₁ hw₁ => ?_
  exact (gives_semicolon hw₁ hsemicolon hrest).bind fun w₂ hw₂ => gives_pure hw₂

end Literals

end Parsing

open Parsing

/-- A program that is a literal and a semicolon is read, with the errors in the literal. -/
theorem parse_of_literal {source : String} {t semicolon last : Token} {ts : List Token} {e : Expr}
    {errors : List SyntaxError} (h : Literal (t :: ts) e errors)
    (hsemicolon : semicolon.kind = .semicolon)
    (htokens : tokenize source = t :: (ts ++ [semicolon, last])) :
    parse source = .ok ⟨⟨[.expression t e]⟩, errors⟩ := by
  have hterminated : Terminated (t :: (ts ++ [semicolon, last])) :=
    htokens ▸ terminated_tokenize source
  have hends : Terminated (t :: (ts ++ [semicolon]) ++ [last]) := by simpa using hterminated
  have hlast : last.kind = .endOfInput :=
    show Terminated [last] from Terminated.of_append hends (List.cons_ne_nil _ _)
  have hlegal : Legal (t :: (ts ++ [semicolon, last])) := by
    simpa [hsemicolon, hlast] using h.legal
  obtain ⟨w, hfill, hw, herr⟩ := run_fill hterminated hlegal
  obtain ⟨hend, hat⟩ := hw.at_of_mem_starters (List.mem_append_right _ h.mem_openers)
  have hsteps : 4 * (ts.length + 2) ≤ stepsFor (tokenize source) := by
    rw [htokens]
    simp [stepsFor]
    omega
  obtain ⟨w₁, hrun, hw₁, herr₁⟩ := reports_statement h hsemicolon hsteps hat (by simp)
  -- the token behind the semicolon is the last one
  have hlegal₁ : Legal w₁.upcoming := hw₁.upcoming ▸ hw₁.legal
  have hend₁ : w₁.shift.current.kind = .endOfInput := by
    rw [Window.shift_current, hw₁.ahead, hlast]
  have hread : ∀ count, 2 ≤ count → readStatements (stepsFor (tokenize source)) count w =
      ⟨[⟨some (.expression t e), w₁⟩], none, w₁.shift⟩ := by
    intro count hcount
    obtain ⟨count, rfl⟩ : ∃ m, count = m + 1 := ⟨count - 1, by omega⟩
    rw [readStatements_succ hend hrun hlegal₁, readStatements_of_end (by omega) hend₁]
  rw [parse_eq, htokens, hfill, ← htokens]
  dsimp only
  rw [hread _ (by unfold stepsFor; omega), Window.shift_errors, herr₁, herr]
  rfl

end MonkeyLang
