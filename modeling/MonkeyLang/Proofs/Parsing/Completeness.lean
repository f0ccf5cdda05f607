import MonkeyLang.Proofs.Parsing.Soundness

/-!
# What derives a tree is read as that tree

The tokens of a derivation are read without an error, whatever stands behind them. `Gives x w a rest`
says that the parser `x` does so: from the window `w` it gives `a`, finds no error and leaves the
tokens `rest`. For each relation of the grammar there is a statement `…Given` about its parser, with
one lemma for each production; the number of steps that suffices is four for each token.

An expression may be taken on by the operators behind it. `ExpressionGiven` therefore says that
reading it leads to `operators` with its tree, and leaves open what comes of that.
-/

namespace MonkeyLang

namespace Parsing

open Grammar

/-! ### Windows and single steps -/

/-- No token halts the parser. -/
def Legal (ts : List Token) : Prop := ∀ t ∈ ts, t.kind ≠ .illegal

/-- The tokens stand behind the current one. -/
structure Ahead (w : Window) (ts : List Token) : Prop where
  upcoming : w.upcoming = ts
  legal : Legal ts

/-- The first of the tokens is the current one. -/
structure At (w : Window) (ts : List Token) : Prop where
  pending : w.current :: w.upcoming = ts
  legal : Legal ts

/-- The parser gives `a` and leaves the tokens `rest`. -/
def Gives {α : Type} (x : Parser α) (w : Window) (a : α) (rest : List Token) : Prop :=
  ∃ w', x.run w = .ok a w' ∧ Ahead w' rest ∧ w'.errors = w.errors

section Steps

variable {α β : Type} {w : Window} {t : Token} {ts us rest mid : List Token} {a : α} {b : β} {k : Kind}

theorem At.current (h : At w (t :: ts)) : w.current = t := (List.cons.inj h.pending).1

theorem At.ahead (h : At w (t :: ts)) : Ahead w ts :=
  ⟨(List.cons.inj h.pending).2, fun u hu => h.legal u (List.mem_cons_of_mem t hu)⟩

theorem Ahead.ahead (h : Ahead w (t :: ts)) : w.ahead = t := (List.cons.inj h.upcoming).1

theorem Ahead.opens (h : Ahead w (ts ++ us)) (hts : Opens ts) : w.ahead.kind ∈ openers := by
  obtain ⟨t, vs, rfl, ht⟩ := hts
  rwa [h.ahead]

theorem gives_pure (h : Ahead w rest) : Gives (pure a) w a rest := ⟨w, rfl, h, rfl⟩

theorem Gives.bind {x : Parser α} {f : α → Parser β} (hx : Gives x w a mid)
    (hf : ∀ w', Ahead w' mid → Gives (f a) w' b rest) : Gives (x >>= f) w b rest := by
  obtain ⟨w₁, hrun₁, hw₁, herr₁⟩ := hx
  obtain ⟨w₂, hrun₂, hw₂, herr₂⟩ := hf w₁ hw₁
  exact ⟨w₂, by rw [run_bind_of_ok hrun₁, hrun₂], hw₂, herr₂.trans herr₁⟩

/-- Moving on makes the next token the current one, if there is another one behind it. -/
theorem run_advance_of_ahead (h : Ahead w ts) (hts : 2 ≤ ts.length) :
    ∃ w', advance.run w = .ok () w' ∧ At w' ts ∧ w'.errors = w.errors := by
  obtain ⟨current, ahead, rest, errors⟩ := w
  obtain ⟨rfl, hlegal⟩ := h
  cases rest with
  | nil => exact absurd hts (by simp [Window.upcoming])
  | cons u us =>
    have hu : u.kind ≠ .illegal := hlegal u (List.mem_cons_of_mem _ List.mem_cons_self)
    refine ⟨⟨ahead, u, us, errors⟩, ?_, ⟨rfl, hlegal⟩, rfl⟩
    rw [run_advance]
    exact if_neg hu

theorem gives_advance {f : Unit → Parser β} (h : Ahead w ts) (hts : 2 ≤ ts.length)
    (hf : ∀ w', At w' ts → Gives (f ()) w' b rest) : Gives (advance >>= f) w b rest := by
  obtain ⟨w₁, hrun₁, hw₁, herr₁⟩ := run_advance_of_ahead h hts
  obtain ⟨w₂, hrun₂, hw₂, herr₂⟩ := hf w₁ hw₁
  exact ⟨w₂, by rw [run_bind_of_ok hrun₁, hrun₂], hw₂, herr₂.trans herr₁⟩

theorem run_current (f : Token → Parser β) (w : Window) :
    (current >>= f).run w = (f w.current).run w := rfl

theorem gives_current {f : Token → Parser β} (h : Gives (f w.current) w b rest) :
    Gives (current >>= f) w b rest := h

theorem gives_currentIdent {f : Ident → Parser β}
    (h : Gives (f ⟨w.current, w.current.literal⟩) w b rest) :
    Gives (currentIdent >>= f) w b rest := h

theorem gives_of_ahead {x y : Parser β} (hk : w.ahead.kind = k) (hx : Gives x w b rest) :
    Gives (do if ← aheadIs k then x else y) w b rest := by
  show Gives (if decide (w.ahead.kind = k) = true then x else y) w b rest
  rwa [if_pos (decide_eq_true hk)]

theorem gives_of_not_ahead {x y : Parser β} (hk : w.ahead.kind ≠ k) (hy : Gives y w b rest) :
    Gives (do if ← aheadIs k then x else y) w b rest := by
  show Gives (if decide (w.ahead.kind = k) = true then x else y) w b rest
  rwa [if_neg (by simpa using hk)]

/-- The token that is expected becomes the current one. -/
theorem run_expect_of_ahead (h : Ahead w (t :: ts)) (hk : t.kind = k) (hts : 0 < ts.length) :
    ∃ w', (expect k).run w = .ok true w' ∧ At w' (t :: ts) ∧ w'.errors = w.errors := by
  obtain ⟨w₁, hrun, hw₁, herr⟩ := run_advance_of_ahead h (by simp; omega)
  refine ⟨w₁, ?_, hw₁, herr⟩
  unfold expect
  show (if decide (w.ahead.kind = k) = true then _ else _ : Parser Bool).run w = _
  rw [if_pos (decide_eq_true (by rw [h.ahead, hk])), run_bind_of_ok hrun]
  rfl

theorem gives_expect {x y : Parser β} (h : Ahead w (t :: ts)) (hk : t.kind = k) (hts : 0 < ts.length)
    (hx : ∀ w', At w' (t :: ts) → Gives x w' b rest) :
    Gives (do if ← expect k then x else y) w b rest := by
  obtain ⟨w₁, hrun₁, hw₁, herr₁⟩ := run_expect_of_ahead h hk hts
  obtain ⟨w₂, hrun₂, hw₂, herr₂⟩ := hx w₁ hw₁
  refine ⟨w₂, ?_, hw₂, herr₂.trans herr₁⟩
  rw [run_bind_of_ok hrun₁, ← hrun₂]
  rfl

theorem gives_semicolon (h : Ahead w (t :: ts)) (hk : t.kind = .semicolon) (hts : 0 < ts.length) :
    Gives expectSemicolon w () ts := by
  unfold expectSemicolon
  refine gives_of_ahead (by rw [h.ahead, hk]) ?_
  obtain ⟨w₁, hrun, hw₁, herr⟩ := run_advance_of_ahead h (by simp; omega)
  exact ⟨w₁, hrun, hw₁.ahead, herr⟩

end Steps

/-! ### Expressions -/

/-- The largest strength that lets the operators of a stratum have their operands. -/
def reach : Stratum → Nat
  | .equality => 1
  | .order => 2
  | .sum => 3
  | .product => 4
  | .unary => 6

theorem reach_le_strength (s : Stratum) : reach s ≤ s.strength := by
  cases s <;> decide

theorem strength_le_reach_tighter (s : Stratum) : s.strength ≤ reach s.tighter := by
  cases s <;> decide

theorem precedence_of_mem_operators {s : Stratum} {k : Kind} (h : k ∈ s.operators) :
    s ≠ .unary ∧ k.isBinary ∧ k.precedence = s.strength := by
  cases s <;> simp [Stratum.operators] at h <;> rcases h with rfl | rfl | rfl | rfl <;> decide

/-- Reading leads to the operators behind the expression, if they do not bind too strongly. -/
def ExpressionGiven (s : Stratum) (ts : List Token) (e : Expr) : Prop :=
  ∀ ⦃n p : Nat⦄ ⦃w : Window⦄ ⦃next : Token⦄ ⦃rest : List Token⦄ ⦃a : Expr⦄ ⦃last : List Token⦄,
    4 * ts.length ≤ n → p ≤ reach s → At w (ts ++ next :: rest) →
    next.kind.precedence ≤ s.strength →
    (∀ n' w', n ≤ n' + ts.length → Ahead w' (next :: rest) → Gives (operators n' p e) w' a last) →
    Gives (expression n p) w a last

/-- Reading leads to the operators behind the expression. -/
def PostfixGiven (ts : List Token) (e : Expr) : Prop :=
  ∀ ⦃n p : Nat⦄ ⦃w : Window⦄ ⦃rest : List Token⦄ ⦃a : Expr⦄ ⦃last : List Token⦄,
    4 * ts.length ≤ n → p ≤ 6 → At w (ts ++ rest) → 0 < rest.length →
    (∀ n' w', n ≤ n' + ts.length → Ahead w' rest → Gives (operators n' p e) w' a last) →
    Gives (expression n p) w a last

/-- The tokens are read as an operand. -/
def PrimaryGiven (ts : List Token) (e : Expr) : Prop :=
  ∀ ⦃n : Nat⦄ ⦃w : Window⦄ ⦃rest : List Token⦄, 4 * ts.length ≤ n + 1 → At w (ts ++ rest) →
    0 < rest.length → Gives (operand n) w (some e) rest

/-- The tokens are read as a list of expressions in brackets. -/
def ArgumentsGiven (ts : List Token) (es : List Expr) : Prop :=
  ∀ ⦃n : Nat⦄ ⦃w : Window⦄ ⦃closing : Token⦄ ⦃rest : List Token⦄ ⦃close : Kind⦄,
    close = .rightParen ∨ close = .rightBracket → closing.kind = close → 4 * ts.length + 1 ≤ n →
    Ahead w (ts ++ closing :: rest) → 0 < rest.length →
    Gives (expressions n close) w (some es) rest

/-- The tokens are read as an expression and more of them behind commas. -/
def ElementsGiven (ts : List Token) (es : List Expr) : Prop :=
  ∀ ⦃α : Type⦄ ⦃f : List Expr → Parser α⦄ ⦃n : Nat⦄ ⦃w : Window⦄ ⦃next : Token⦄
    ⦃rest : List Token⦄ ⦃a : α⦄ ⦃last : List Token⦄,
    4 * ts.length ≤ n → At w (ts ++ next :: rest) → next.kind.precedence ≤ Precedence.lowest →
    next.kind ≠ .comma → (∀ w', Ahead w' (next :: rest) → Gives (f es) w' a last) →
    Gives (do
      let first ← expression n Precedence.lowest
      let rest ← moreExpressions n
      f (first :: rest)) w a last

/-- The tokens are read as the pairs of a hash literal. -/
def EntriesGiven (ts : List Token) (ps : List (Expr × Expr)) : Prop :=
  ∀ ⦃n : Nat⦄ ⦃w : Window⦄ ⦃closing : Token⦄ ⦃rest : List Token⦄, closing.kind = .rightBrace →
    4 * ts.length + 1 ≤ n → Ahead w (ts ++ closing :: rest) → 0 < rest.length →
    Gives (pairs n) w (some ps) rest

/-- The tokens are read as a statement, unless an alternative may follow. -/
def StatementGiven (ts : List Token) (st : Stmt) : Prop :=
  ∀ ⦃n : Nat⦄ ⦃w : Window⦄ ⦃next : Token⦄ ⦃rest : List Token⦄, 4 * ts.length ≤ n →
    At w (ts ++ next :: rest) → next.kind ≠ .elseWord →
    Gives (statement n) w (some st) (next :: rest)

/-- The tokens are read as a conditional, unless an alternative may follow. -/
def ConditionalGiven (ts : List Token) (st : Stmt) : Prop :=
  ∀ ⦃n : Nat⦄ ⦃w : Window⦄ ⦃next : Token⦄ ⦃rest : List Token⦄, 4 * ts.length ≤ n + 1 →
    At w (ts ++ next :: rest) → next.kind ≠ .elseWord →
    Gives (conditional n) w (some st) (next :: rest)

/-- The tokens are read as a block. -/
def BracedGiven (ts : List Token) (b : Block) : Prop :=
  ∀ ⦃n : Nat⦄ ⦃w : Window⦄ ⦃rest : List Token⦄, 4 * ts.length ≤ n → At w (ts ++ rest) →
    0 < rest.length → Gives (block n) w b rest

/-- The tokens are read as the statements of a block. -/
def StatementsGiven (ts : List Token) (ss : List Stmt) : Prop :=
  ∀ ⦃n : Nat⦄ ⦃w : Window⦄ ⦃closing : Token⦄ ⦃rest : List Token⦄, closing.kind = .rightBrace →
    4 * ts.length + 1 ≤ n → At w (ts ++ closing :: rest) → 0 < rest.length →
    Gives (statements n) w ss rest

section Expressions

variable {s : Stratum} {ts us vs : List Token} {e l r : Expr} {es : List Expr}
  {op opening closing comma colon : Token}

theorem length_pos_of_opens (h : Opens ts) : 0 < ts.length := by
  obtain ⟨t, us, rfl, _⟩ := h
  exact Nat.succ_pos _

/-- Operators that are not stronger than `p` leave the expression as it is. -/
theorem gives_operators_of_le {n p : Nat} {w : Window} {next : Token} {rest : List Token}
    (h : Ahead w (next :: rest)) (hn : 0 < n) (hp : next.kind.precedence ≤ p) :
    Gives (operators n p e) w e (next :: rest) := by
  obtain ⟨n, rfl⟩ : ∃ m, n = m + 1 := ⟨n - 1, by omega⟩
  rw [operators]
  show Gives (if p < w.ahead.kind.precedence then _ else _) w _ _
  rw [h.ahead, if_neg (by omega)]
  exact gives_pure h

/-- An expression is read up to an operator that is not stronger than `p`. -/
theorem ExpressionGiven.full (h : ExpressionGiven s ts e) (hopens : Opens ts) {n p : Nat}
    {w : Window} {next : Token} {rest : List Token} (hn : 4 * ts.length ≤ n) (hp : p ≤ reach s)
    (hw : At w (ts ++ next :: rest)) (hnext : next.kind.precedence ≤ p) :
    Gives (expression n p) w e (next :: rest) := by
  have hpos := length_pos_of_opens hopens
  have hstrength := reach_le_strength s
  exact h hn hp hw (by omega) fun n' w' hn' hw' => gives_operators_of_le hw' (by omega) hnext

theorem ExpressionGiven.loosen (h : ExpressionGiven s.tighter ts e) : ExpressionGiven s ts e := by
  intro n p w next rest a last hn hp hw hnext hk
  have hreach := reach_le_strength s
  have htighter := strength_le_reach_tighter s
  have hstrength := reach_le_strength s.tighter
  exact h hn (by omega) hw (by omega) hk

theorem ExpressionGiven.suffixed (h : PostfixGiven ts e) : ExpressionGiven .unary ts e := by
  intro n p w next rest a last hn hp hw _ hk
  exact h hn hp hw (Nat.succ_pos _) hk

theorem ExpressionGiven.binary (hop : op.kind ∈ s.operators) (hl : ExpressionGiven s ts l)
    (hr : ExpressionGiven s.tighter us r) (hopens : Opens us) :
    ExpressionGiven s (ts ++ op :: us) (.binary op l op.literal r) := by
  intro n p w next rest a last hn hp hw hnext hk
  obtain ⟨hs, hbinary, hprec⟩ := precedence_of_mem_operators hop
  have hreach := strength_le_reach_tighter s
  have hpos := length_pos_of_opens hopens
  have hlt : p < s.strength := by
    cases s <;> first | exact absurd rfl hs | exact Nat.lt_succ_of_le hp
  simp only [List.length_append, List.length_cons, List.append_assoc, List.cons_append] at hn hw hk
  refine hl (by omega) hp hw (by omega) fun n₁ w₁ hn₁ hw₁ => ?_
  obtain ⟨n₁, rfl⟩ : ∃ m, n₁ = m + 1 := ⟨n₁ - 1, by omega⟩
  rw [operators]
  show Gives (if p < w₁.ahead.kind.precedence then _ else _) w₁ _ _
  rw [hw₁.ahead, if_pos (by omega)]
  split
  · next hkind => rw [hkind] at hbinary; cases hbinary
  · next hkind => rw [hkind] at hbinary; cases hbinary
  rw [if_pos hbinary]
  refine gives_advance hw₁ (by simp; omega) fun w₂ hw₂ => ?_
  refine gives_current ?_
  rw [hw₂.current]
  refine gives_advance hw₂.ahead (by simp; omega) fun w₃ hw₃ => ?_
  refine (hr.full hopens (by omega) (by omega) hw₃ (by omega)).bind fun w₄ hw₄ => ?_
  exact hk n₁ w₄ (by omega) hw₄

theorem ExpressionGiven.unary (hop : op.kind = .bang ∨ op.kind = .minus)
    (h : ExpressionGiven .unary ts e) (hopens : Opens ts) :
    ExpressionGiven .unary (op :: ts) (.unary op op.literal e) := by
  intro n p w next rest a last hn hp hw hnext hk
  have hpos := length_pos_of_opens hopens
  simp only [List.length_cons, List.cons_append] at hn hw hk
  obtain ⟨n, rfl⟩ : ∃ m, n = m + 2 := ⟨n - 2, by omega⟩
  have hoperand : Gives (operand (n + 1)) w (some (.unary op op.literal e)) (next :: rest) := by
    rw [operand]
    refine gives_current ?_
    rw [hw.current]
    have hrest : Gives (do
        advance
        let inner ← expression n Precedence.unary
        return some (Expr.unary op op.literal inner)) w
        (some (Expr.unary op op.literal e)) (next :: rest) := by
      refine gives_advance hw.ahead (by simp; omega) fun w₁ hw₁ => ?_
      refine (h.full hopens (by omega) (Nat.le_refl _) hw₁ hnext).bind fun w₂ hw₂ => ?_
      exact gives_pure hw₂
    rcases hop with hop | hop <;> rw [hop] <;> exact hrest
  rw [expression]
  refine hoperand.bind fun w₁ hw₁ => ?_
  exact hk _ w₁ (by omega) hw₁

theorem PostfixGiven.primary (h : PrimaryGiven ts e) (hopens : Opens ts) : PostfixGiven ts e := by
  intro n p w rest a last hn hp hw hrest hk
  have hpos := length_pos_of_opens hopens
  obtain ⟨n, rfl⟩ : ∃ m, n = m + 1 := ⟨n - 1, by omega⟩
  rw [expression]
  refine (h (by omega) hw hrest).bind fun w₁ hw₁ => ?_
  exact hk n w₁ (by omega) hw₁

theorem PostfixGiven.call (h : PostfixGiven ts e) (hopening : opening.kind = .leftParen)
    (hargs : ArgumentsGiven us es) (hclosing : closing.kind = .rightParen) :
    PostfixGiven (ts ++ opening :: (us ++ [closing])) (.call opening e es) := by
  intro n p w rest a last hn hp hw hrest hk
  simp only [List.length_append, List.length_cons, List.length_nil, List.append_assoc,
    List.cons_append, List.nil_append] at hn hw hk
  refine h (by omega) hp hw (Nat.succ_pos _) fun n₁ w₁ hn₁ hw₁ => ?_
  obtain ⟨n₁, rfl⟩ : ∃ m, n₁ = m + 1 := ⟨n₁ - 1, by omega⟩
  rw [operators]
  show Gives (if p < w₁.ahead.kind.precedence then _ else _) w₁ _ _
  rw [hw₁.ahead, hopening, if_pos (Nat.lt_of_le_of_lt hp (by decide))]
  refine gives_advance hw₁ (by simp; omega) fun w₂ hw₂ => ?_
  refine gives_current ?_
  rw [hw₂.current]
  refine (hargs (.inl rfl) hclosing (by omega) hw₂.ahead hrest).bind fun w₃ hw₃ => ?_
  exact hk n₁ w₃ (by omega) hw₃

theorem PostfixGiven.index (h : PostfixGiven ts l) (hopening : opening.kind = .leftBracket)
    (hr : ExpressionGiven .equality us r) (hopens : Opens us)
    (hclosing : closing.kind = .rightBracket) :
    PostfixGiven (ts ++ opening :: (us ++ [closing])) (.index opening l r) := by
  intro n p w rest a last hn hp hw hrest hk
  have hpos := length_pos_of_opens hopens
  simp only [List.length_append, List.length_cons, List.length_nil, List.append_assoc,
    List.cons_append, List.nil_append] at hn hw hk
  refine h (by omega) hp hw (Nat.succ_pos _) fun n₁ w₁ hn₁ hw₁ => ?_
  obtain ⟨n₁, rfl⟩ : ∃ m, n₁ = m + 1 := ⟨n₁ - 1, by omega⟩
  rw [operators]
  show Gives (if p < w₁.ahead.kind.precedence then _ else _) w₁ _ _
  rw [hw₁.ahead, hopening, if_pos (Nat.lt_of_le_of_lt hp (by decide))]
  refine gives_advance hw₁ (by simp; omega) fun w₂ hw₂ => ?_
  refine gives_current ?_
  rw [hw₂.current]
  refine gives_advance hw₂.ahead (by simp; omega) fun w₃ hw₃ => ?_
  refine (hr.full hopens (by omega) (Nat.le_refl _) hw₃ (by rw [hclosing]; decide)).bind
    fun w₄ hw₄ => ?_
  refine gives_expect hw₄ hclosing hrest fun w₅ hw₅ => ?_
  exact hk n₁ w₅ (by omega) hw₅.ahead

end Expressions

/-! ### Primary expressions -/

section Primaries

variable {ts us vs : List Token} {e l r : Expr} {es : List Expr} {ps : List (Expr × Expr)}
  {is : List Ident} {b : Block} {t keyword opening closing comma colon : Token}

/-- An operand of one token stays where it is. -/
theorem PrimaryGiven.single
    (h : ∀ n w, w.current = t → (operand (n + 1)).run w = .ok (some e) w) : PrimaryGiven [t] e := by
  intro n w rest hn hw _
  obtain ⟨n, rfl⟩ : ∃ m, n = m + 1 := ⟨n - 1, by simp at hn; omega⟩
  exact ⟨w, h n w hw.current, hw.ahead, rfl⟩

theorem PrimaryGiven.identifier (ht : t.kind = .identifier) :
    PrimaryGiven [t] (.identifier ⟨t, t.literal⟩) := by
  refine PrimaryGiven.single fun n w hcur => ?_
  rw [operand, run_current, hcur, ht]
  rfl

theorem PrimaryGiven.text (ht : t.kind = .text) : PrimaryGiven [t] (.text t t.literal) := by
  refine PrimaryGiven.single fun n w hcur => ?_
  rw [operand, run_current, hcur, ht]
  rfl

theorem PrimaryGiven.boolean (ht : t.kind = .boolean) :
    PrimaryGiven [t] (.boolean t (t.literal = "true")) := by
  refine PrimaryGiven.single fun n w hcur => ?_
  rw [operand, run_current, hcur, ht]
  rfl

theorem PrimaryGiven.integer (ht : t.kind = .integer) (hlength : t.literal.length ≤ 4300)
    (hle : decimal t.literal ≤ 9223372036854775807) :
    PrimaryGiven [t] (.integer t (decimal t.literal)) := by
  refine PrimaryGiven.single fun n w hcur => ?_
  have hvalue := integerValue?_eq_some_iff.2 ⟨hlength, hle, rfl⟩
  have hliteral : integerLiteral.run w = .ok (.integer t (decimal t.literal)) w := by
    unfold integerLiteral
    rw [run_current, hcur, hvalue]
    rfl
  rw [operand, run_current, hcur, ht]
  exact run_bind_of_ok hliteral

theorem PrimaryGiven.group (hopening : opening.kind = .leftParen)
    (h : ExpressionGiven .equality ts e) (hopens : Opens ts) (hclosing : closing.kind = .rightParen) :
    PrimaryGiven (opening :: (ts ++ [closing])) e := by
  intro n w rest hn hw hrest
  have hpos := length_pos_of_opens hopens
  simp only [List.length_append, List.length_cons, List.length_nil, List.append_assoc,
    List.cons_append, List.nil_append] at hn hw
  obtain ⟨n, rfl⟩ : ∃ m, n = m + 1 := ⟨n - 1, by omega⟩
  rw [operand]
  refine gives_current ?_
  rw [hw.current, hopening]
  refine gives_advance hw.ahead (by simp; omega) fun w₁ hw₁ => ?_
  refine (h.full hopens (by omega) (Nat.le_refl _) hw₁ (by rw [hclosing]; decide)).bind
    fun w₂ hw₂ => ?_
  refine gives_expect hw₂ hclosing hrest fun w₃ hw₃ => ?_
  exact gives_pure hw₃.ahead

theorem ArgumentsGiven.empty : ArgumentsGiven [] [] := by
  intro n w closing rest close _ hclosing hn hw hrest
  obtain ⟨n, rfl⟩ : ∃ m, n = m + 1 := ⟨n - 1, by simp at hn; omega⟩
  rw [expressions]
  refine gives_of_ahead (by rw [hw.ahead, hclosing]) ?_
  exact gives_advance hw (by simp; omega) fun w₁ hw₁ => gives_pure hw₁.ahead

theorem ArgumentsGiven.elements (h : ElementsGiven ts es) (hopens : Opens ts) :
    ArgumentsGiven ts es := by
  intro n w closing rest close hclose hclosing hn hw hrest
  obtain ⟨n, rfl⟩ : ∃ m, n = m + 1 := ⟨n - 1, by omega⟩
  have hahead := hw.opens hopens
  rw [expressions]
  refine gives_of_not_ahead (fun hk => ?_) ?_
  · rw [hk] at hahead
    rcases hclose with rfl | rfl <;> exact absurd hahead (by decide)
  refine gives_advance hw (by simp; omega) fun w₁ hw₁ => ?_
  refine h (f := fun es => do if ← expect close then return some es else return none)
    (by omega) hw₁ ?_ ?_ fun w₂ hw₂ => ?_
  · rw [hclosing]; rcases hclose with rfl | rfl <;> decide
  · rw [hclosing]; rcases hclose with rfl | rfl <;> decide
  exact gives_expect hw₂ hclosing hrest fun w₃ hw₃ => gives_pure hw₃.ahead

theorem ElementsGiven.one (h : ExpressionGiven .equality ts e) (hopens : Opens ts) :
    ElementsGiven ts [e] := by
  intro α f n w next rest a last hn hw hprec hcomma hf
  have hpos := length_pos_of_opens hopens
  obtain ⟨n, rfl⟩ : ∃ m, n = m + 1 := ⟨n - 1, by omega⟩
  refine (h.full hopens hn (Nat.le_refl _) hw hprec).bind fun w₁ hw₁ => ?_
  have hmore : Gives (moreExpressions (n + 1)) w₁ [] (next :: rest) := by
    rw [moreExpressions]
    exact gives_of_not_ahead (by rwa [hw₁.ahead]) (gives_pure hw₁)
  exact hmore.bind hf

theorem ElementsGiven.more (h : ExpressionGiven .equality ts e) (hopens : Opens ts)
    (hcomma : comma.kind = .comma) (hes : ElementsGiven us es) (hopens' : Opens us) :
    ElementsGiven (ts ++ comma :: us) (e :: es) := by
  intro α f n w next rest a last hn hw hprec hnext hf
  have hpos := length_pos_of_opens hopens
  have hpos' := length_pos_of_opens hopens'
  simp only [List.length_append, List.length_cons, List.append_assoc, List.cons_append] at hn hw
  obtain ⟨n, rfl⟩ : ∃ m, n = m + 1 := ⟨n - 1, by omega⟩
  refine (h.full hopens (by omega) (Nat.le_refl _) hw (by rw [hcomma]; decide)).bind
    fun w₁ hw₁ => ?_
  have hmore : Gives (moreExpressions (n + 1)) w₁ es (next :: rest) := by
    rw [moreExpressions]
    refine gives_of_ahead (by rw [hw₁.ahead, hcomma]) ?_
    refine gives_advance hw₁ (by simp; omega) fun w₂ hw₂ => ?_
    refine gives_advance hw₂.ahead (by simp; omega) fun w₃ hw₃ => ?_
    exact hes (f := pure) (by omega) hw₃ hprec hnext fun w₄ hw₄ => gives_pure hw₄
  exact hmore.bind hf

theorem PrimaryGiven.array (hopening : opening.kind = .leftBracket) (h : ArgumentsGiven ts es)
    (hclosing : closing.kind = .rightBracket) :
    PrimaryGiven (opening :: (ts ++ [closing])) (.array opening es) := by
  intro n w rest hn hw hrest
  simp only [List.length_append, List.length_cons, List.length_nil, List.append_assoc,
    List.cons_append, List.nil_append] at hn hw
  obtain ⟨n, rfl⟩ : ∃ m, n = m + 1 := ⟨n - 1, by omega⟩
  rw [operand]
  refine gives_current ?_
  rw [hw.current, hopening]
  exact (h (.inr rfl) hclosing (by omega) hw.ahead hrest).bind fun w₁ hw₁ => gives_pure hw₁

theorem EntriesGiven.empty : EntriesGiven [] [] := by
  intro n w closing rest hclosing hn hw hrest
  obtain ⟨n, rfl⟩ : ∃ m, n = m + 1 := ⟨n - 1, by simp at hn; omega⟩
  rw [pairs]
  refine gives_of_ahead (by rw [hw.ahead, hclosing]) ?_
  exact gives_advance hw (by simp; omega) fun w₁ hw₁ => gives_pure hw₁.ahead

/-- A pair is read up to the token behind it. -/
theorem gives_pair (hl : ExpressionGiven .equality ts l) (hopensl : Opens ts)
    (hcolon : colon.kind = .colon) (hr : ExpressionGiven .equality us r) (hopensr : Opens us)
    {n : Nat} {w : Window} {next : Token} {rest : List Token}
    (hn : 4 * (ts.length + us.length) ≤ n) (hw : Ahead w (ts ++ colon :: (us ++ next :: rest)))
    (hnext : next.kind.precedence ≤ Precedence.lowest)
    {f : Expr → Expr → Parser (Option (List (Expr × Expr)))} {a : Option (List (Expr × Expr))}
    {last : List Token} (hf : ∀ w', Ahead w' (next :: rest) → Gives (f l r) w' a last) :
    Gives (do
      if ← aheadIs .rightBrace then
        advance
        return some []
      else
        advance
        let key ← expression n Precedence.lowest
        if ← expect .colon then
          advance
          let value ← expression n Precedence.lowest
          f key value
        else return none) w a last := by
  have hahead := hw.opens hopensl
  refine gives_of_not_ahead (fun hk => absurd (hk ▸ hahead) (by decide)) ?_
  refine gives_advance hw (by simp; omega) fun w₁ hw₁ => ?_
  refine (hl.full hopensl (by omega) (Nat.le_refl _) hw₁ (by rw [hcolon]; decide)).bind
    fun w₂ hw₂ => ?_
  refine gives_expect hw₂ hcolon (List.length_pos_iff.2 (by simp)) fun w₃ hw₃ => ?_
  refine gives_advance hw₃.ahead (by have := length_pos_of_opens hopensr; simp; omega)
    fun w₄ hw₄ => ?_
  exact (hr.full hopensr (by omega) (Nat.le_refl _) hw₄ hnext).bind hf

theorem EntriesGiven.last (hl : ExpressionGiven .equality ts l) (hopensl : Opens ts)
    (hcolon : colon.kind = .colon) (hr : ExpressionGiven .equality us r) (hopensr : Opens us) :
    EntriesGiven (ts ++ colon :: us) [(l, r)] := by
  intro n w closing rest hclosing hn hw hrest
  simp only [List.length_append, List.length_cons, List.append_assoc, List.cons_append] at hn hw
  obtain ⟨n, rfl⟩ : ∃ m, n = m + 1 := ⟨n - 1, by omega⟩
  rw [pairs]
  refine gives_pair hl hopensl hcolon hr hopensr (by omega) hw (by rw [hclosing]; decide)
    fun w₁ hw₁ => ?_
  refine gives_of_ahead (by rw [hw₁.ahead, hclosing]) ?_
  exact gives_advance hw₁ (by simp; omega) fun w₂ hw₂ => gives_pure hw₂.ahead

theorem EntriesGiven.more (hl : ExpressionGiven .equality ts l) (hopensl : Opens ts)
    (hcolon : colon.kind = .colon) (hr : ExpressionGiven .equality us r) (hopensr : Opens us)
    (hcomma : comma.kind = .comma) (hps : EntriesGiven vs ps) :
    EntriesGiven (ts ++ colon :: (us ++ comma :: vs)) ((l, r) :: ps) := by
  intro n w closing rest hclosing hn hw hrest
  simp only [List.length_append, List.length_cons, List.append_assoc, List.cons_append] at hn hw
  obtain ⟨n, rfl⟩ : ∃ m, n = m + 1 := ⟨n - 1, by omega⟩
  rw [pairs]
  refine gives_pair hl hopensl hcolon hr hopensr (by omega) hw (by rw [hcomma]; decide)
    fun w₁ hw₁ => ?_
  refine gives_of_not_ahead (by rw [hw₁.ahead, hcomma]; decide) ?_
  refine gives_expect hw₁ hcomma (List.length_pos_iff.2 (by simp)) fun w₂ hw₂ => ?_
  exact (hps hclosing (by omega) hw₂.ahead hrest).bind fun w₃ hw₃ => gives_pure hw₃

theorem PrimaryGiven.hash (hopening : opening.kind = .leftBrace) (h : EntriesGiven ts ps)
    (hclosing : closing.kind = .rightBrace) :
    PrimaryGiven (opening :: (ts ++ [closing])) (.hash opening ps) := by
  intro n w rest hn hw hrest
  simp only [List.length_append, List.length_cons, List.length_nil, List.append_assoc,
    List.cons_append, List.nil_append] at hn hw
  obtain ⟨n, rfl⟩ : ∃ m, n = m + 1 := ⟨n - 1, by omega⟩
  rw [operand]
  refine gives_current ?_
  rw [hw.current, hopening]
  exact (h hclosing (by omega) hw.ahead hrest).bind fun w₁ hw₁ => gives_pure hw₁

/-- Names are read with the closing parenthesis behind them. -/
theorem gives_names (h : Names ts is) : ∀ {n : Nat} {w : Window} {rest : List Token},
    ts.length ≤ n → Ahead w (ts ++ closing :: rest) → closing.kind = .rightParen →
    0 < rest.length → Gives (do
      if ← expect .identifier then
        let ident ← currentIdent
        return (← moreParameters n).map (ident :: ·)
      else return none) w (some is) rest := by
  induction h with
  | @one t ht =>
    intro n w rest hn hw hclosing hrest
    obtain ⟨n, rfl⟩ : ∃ m, n = m + 1 := ⟨n - 1, by simp at hn; omega⟩
    refine gives_expect hw ht (by simp) fun w₁ hw₁ => gives_currentIdent ?_
    rw [hw₁.current]
    have hmore : Gives (moreParameters (n + 1)) w₁ (some []) rest := by
      rw [moreParameters]
      refine gives_of_not_ahead (by rw [hw₁.ahead.ahead, hclosing]; decide) ?_
      exact gives_expect hw₁.ahead hclosing hrest fun w₂ hw₂ => gives_pure hw₂.ahead
    exact hmore.bind fun w₂ hw₂ => gives_pure hw₂
  | @more t comma ts is ht hcomma _ ih =>
    intro n w rest hn hw hclosing hrest
    simp only [List.length_cons] at hn
    obtain ⟨n, rfl⟩ : ∃ m, n = m + 1 := ⟨n - 1, by omega⟩
    refine gives_expect hw ht (by simp) fun w₁ hw₁ => gives_currentIdent ?_
    rw [hw₁.current]
    have hmore : Gives (moreParameters (n + 1)) w₁ (some is) rest := by
      rw [moreParameters]
      refine gives_of_ahead (by rw [hw₁.ahead.ahead, hcomma]) ?_
      refine gives_advance hw₁.ahead (by simp; omega) fun w₂ hw₂ => ?_
      exact ih (by omega) hw₂.ahead hclosing hrest
    exact hmore.bind fun w₂ hw₂ => gives_pure hw₂

theorem gives_parameters (h : Parameters ts is) {n : Nat} {w : Window} {rest : List Token}
    (hn : ts.length ≤ n) (hw : Ahead w (ts ++ closing :: rest)) (hclosing : closing.kind = .rightParen)
    (hrest : 0 < rest.length) : Gives (parameters n) w (some is) rest := by
  unfold parameters
  cases h with
  | none =>
    refine gives_of_ahead (by rw [Ahead.ahead hw, hclosing]) ?_
    exact gives_advance hw (by simp; omega) fun w₁ hw₁ => gives_pure (At.ahead hw₁)
  | some h =>
    have hahead : w.ahead.kind = .identifier := by
      cases h with
      | one ht | more ht => rwa [Ahead.ahead hw]
    refine gives_of_not_ahead (by rw [hahead]; decide) ?_
    exact gives_names h hn hw hclosing hrest

theorem PrimaryGiven.function (hkeyword : keyword.kind = .function)
    (hopening : opening.kind = .leftParen) (hparameters : Parameters ts is)
    (hclosing : closing.kind = .rightParen) (hb : BracedGiven us b)
    (hbrace : ∃ brace vs, us = brace :: vs ∧ brace.kind = .leftBrace) :
    PrimaryGiven (keyword :: opening :: (ts ++ closing :: us)) (.function keyword is b) := by
  obtain ⟨brace, vs, rfl, hbrace⟩ := hbrace
  intro n w rest hn hw hrest
  simp only [List.length_append, List.length_cons, List.append_assoc, List.cons_append] at hn hw
  obtain ⟨n, rfl⟩ : ∃ m, n = m + 2 := ⟨n - 2, by omega⟩
  have hfunction : Gives (Parsing.function (n + 1)) w (.function keyword is b) rest := by
    rw [Parsing.function]
    refine gives_current ?_
    rw [hw.current]
    refine gives_expect hw.ahead hopening (List.length_pos_iff.2 (by simp)) fun w₁ hw₁ => ?_
    refine (gives_parameters hparameters (by omega) hw₁.ahead hclosing (by simp)).bind
      fun w₂ hw₂ => ?_
    refine gives_expect hw₂ hbrace (by simp; omega) fun w₃ hw₃ => ?_
    exact (hb (by simp; omega) hw₃ hrest).bind fun w₄ hw₄ => gives_pure hw₄
  rw [operand]
  refine gives_current ?_
  rw [hw.current, hkeyword]
  exact hfunction.bind fun w₁ hw₁ => gives_pure hw₁

end Primaries

/-! ### Statements -/

section Statements

variable {ts us vs : List Token} {e : Expr} {st : Stmt} {ss : List Stmt} {b b' : Block}
  {t keyword name assign opening closing other nested semicolon : Token}

theorem StatementGiven.declaration (hkeyword : keyword.kind = .var ∨ keyword.kind = .const)
    (hname : name.kind = .identifier) (hassign : assign.kind = .assign)
    (h : ExpressionGiven .equality ts e) (hopens : Opens ts)
    (hsemicolon : semicolon.kind = .semicolon) :
    StatementGiven (keyword :: name :: assign :: (ts ++ [semicolon]))
      (.declaration keyword ⟨name, name.literal⟩ e) := by
  intro n w next rest hn hw _
  have hpos := length_pos_of_opens hopens
  simp only [List.length_append, List.length_cons, List.length_nil, List.append_assoc,
    List.cons_append, List.nil_append] at hn hw
  obtain ⟨n, rfl⟩ : ∃ m, n = m + 1 := ⟨n - 1, by omega⟩
  have hdeclaration : Gives (Parsing.declaration (expression n Precedence.lowest)) w
      (some (.declaration keyword ⟨name, name.literal⟩ e)) (next :: rest) := by
    unfold Parsing.declaration
    refine gives_current ?_
    rw [hw.current]
    refine gives_expect hw.ahead hname (by simp) fun w₁ hw₁ => gives_currentIdent ?_
    rw [hw₁.current]
    refine gives_expect hw₁.ahead hassign (List.length_pos_iff.2 (by simp)) fun w₂ hw₂ => ?_
    refine gives_advance hw₂.ahead (by simp; omega) fun w₃ hw₃ => ?_
    refine (h.full hopens (by omega) (Nat.le_refl _) hw₃ (by rw [hsemicolon]; decide)).bind
      fun w₄ hw₄ => ?_
    exact (gives_semicolon hw₄ hsemicolon (by simp)).bind fun w₅ hw₅ => gives_pure hw₅
  rw [statement]
  refine gives_current ?_
  rw [hw.current]
  rcases hkeyword with hk | hk <;> rw [hk] <;> exact hdeclaration

theorem StatementGiven.bareReturn (hkeyword : keyword.kind = .ret)
    (hsemicolon : semicolon.kind = .semicolon) :
    StatementGiven [keyword, semicolon] (.ret keyword .missing) := by
  intro n w next rest hn hw _
  obtain ⟨n, rfl⟩ : ∃ m, n = m + 1 := ⟨n - 1, by simp at hn; omega⟩
  rw [statement]
  refine gives_current ?_
  rw [hw.current, hkeyword]
  unfold returnStatement
  refine gives_current (gives_of_ahead (by rw [hw.ahead.ahead, hsemicolon]) ?_)
  rw [hw.current]
  exact gives_advance hw.ahead (by simp) fun w₁ hw₁ => gives_pure hw₁.ahead

theorem StatementGiven.valueReturn (hkeyword : keyword.kind = .ret)
    (h : ExpressionGiven .equality ts e) (hopens : Opens ts)
    (hsemicolon : semicolon.kind = .semicolon) :
    StatementGiven (keyword :: (ts ++ [semicolon])) (.ret keyword e) := by
  intro n w next rest hn hw _
  simp only [List.length_append, List.length_cons, List.length_nil, List.append_assoc,
    List.cons_append, List.nil_append] at hn hw
  obtain ⟨n, rfl⟩ : ∃ m, n = m + 1 := ⟨n - 1, by omega⟩
  have hahead := hw.ahead.opens hopens
  rw [statement]
  refine gives_current ?_
  rw [hw.current, hkeyword]
  unfold returnStatement
  refine gives_current (gives_of_not_ahead (fun hk => absurd (hk ▸ hahead) (by decide)) ?_)
  rw [hw.current]
  refine gives_advance hw.ahead (by simp; omega) fun w₁ hw₁ => ?_
  refine (h.full hopens (by omega) (Nat.le_refl _) hw₁ (by rw [hsemicolon]; decide)).bind
    fun w₂ hw₂ => ?_
  exact (gives_semicolon hw₂ hsemicolon (by simp)).bind fun w₃ hw₃ => gives_pure hw₃

/-- A token that begins an expression begins no other statement. -/
theorem run_statement_of_mem_openers {n : Nat} {w : Window} (h : w.current.kind ∈ openers) :
    (statement (n + 1)).run w = (expressionStatement (expression n Precedence.lowest)).run w := by
  rw [statement, run_current]
  split
  · next hkind => exact absurd (hkind ▸ h) (by decide)
  · next hkind => exact absurd (hkind ▸ h) (by decide)
  · next hkind => exact absurd (hkind ▸ h) (by decide)
  · next hkind => exact absurd (hkind ▸ h) (by decide)
  rfl

theorem StatementGiven.expression (h : ExpressionGiven .equality (t :: ts) e)
    (hopens : Opens (t :: ts)) (hsemicolon : semicolon.kind = .semicolon) :
    StatementGiven (t :: (ts ++ [semicolon])) (.expression t e) := by
  intro n w next rest hn hw _
  simp only [List.length_append, List.length_cons, List.length_nil, List.append_assoc,
    List.cons_append, List.nil_append] at hn hw
  obtain ⟨n, rfl⟩ : ∃ m, n = m + 1 := ⟨n - 1, by omega⟩
  have hk : w.current.kind ∈ openers := by
    obtain ⟨u, us, hts, hu⟩ := hopens
    rwa [hw.current, (List.cons.inj hts).1]
  rw [Gives, run_statement_of_mem_openers hk]
  refine gives_current ?_
  rw [hw.current]
  refine (h.full hopens (by simp; omega) (Nat.le_refl _) hw (by rw [hsemicolon]; decide)).bind
    fun w₁ hw₁ => ?_
  exact (gives_semicolon hw₁ hsemicolon (by simp)).bind fun w₂ hw₂ => gives_pure hw₂

theorem StatementGiven.conditional (h : ConditionalGiven ts st)
    (hstarts : ∃ t us, ts = t :: us ∧ t.kind = .ifWord) : StatementGiven ts st := by
  obtain ⟨t, ts, rfl, ht⟩ := hstarts
  intro n w next rest hn hw hnext
  obtain ⟨n, rfl⟩ : ∃ m, n = m + 1 := ⟨n - 1, by simp at hn; omega⟩
  rw [statement]
  refine gives_current ?_
  rw [At.current hw, ht]
  exact h hn hw hnext

/-- A conditional is read up to what follows its first block. -/
theorem gives_conditional (hopening : opening.kind = .leftParen)
    (h : ExpressionGiven .equality ts e) (hopens : Opens ts) (hclosing : closing.kind = .rightParen)
    (hb : BracedGiven us b) (hbrace : ∃ brace vs, us = brace :: vs ∧ brace.kind = .leftBrace)
    {n : Nat} {w : Window} {rest : List Token} (hn : 4 * (ts.length + us.length) ≤ n)
    (hw : At w (keyword :: opening :: (ts ++ closing :: (us ++ rest)))) (hrest : 0 < rest.length)
    {f : Expr → Block → Parser (Option Stmt)} {a : Option Stmt} {last : List Token}
    (hf : ∀ w', Ahead w' rest → Gives (f e b) w' a last) :
    Gives (do
      if ← expect .leftParen then
        advance
        let condition ← expression n Precedence.lowest
        if ← expect .rightParen then
          if ← expect .leftBrace then
            let consequence ← block n
            f condition consequence
          else return none
        else return none
      else return none) w a last := by
  obtain ⟨brace, vs, rfl, hbrace⟩ := hbrace
  refine gives_expect hw.ahead hopening (List.length_pos_iff.2 (by simp)) fun w₁ hw₁ => ?_
  refine gives_advance hw₁.ahead (by simp; omega) fun w₂ hw₂ => ?_
  refine (h.full hopens (by omega) (Nat.le_refl _) hw₂ (by rw [hclosing]; decide)).bind
    fun w₃ hw₃ => ?_
  refine gives_expect hw₃ hclosing (by simp) fun w₄ hw₄ => ?_
  refine gives_expect hw₄.ahead hbrace (by simp; omega) fun w₅ hw₅ => ?_
  exact (hb (by omega) hw₅ hrest).bind hf

theorem ConditionalGiven.ifThen (hopening : opening.kind = .leftParen)
    (h : ExpressionGiven .equality ts e) (hopens : Opens ts) (hclosing : closing.kind = .rightParen)
    (hb : BracedGiven us b) (hbrace : ∃ brace vs, us = brace :: vs ∧ brace.kind = .leftBrace) :
    ConditionalGiven (keyword :: opening :: (ts ++ closing :: us)) (.ifThen keyword e b) := by
  intro n w next rest hn hw hnext
  simp only [List.length_append, List.length_cons, List.append_assoc, List.cons_append] at hn hw
  obtain ⟨n, rfl⟩ : ∃ m, n = m + 1 := ⟨n - 1, by omega⟩
  rw [conditional]
  refine gives_current ?_
  refine gives_conditional hopening h hopens hclosing hb hbrace (by omega) hw (by simp)
    fun w₁ hw₁ => ?_
  rw [hw.current]
  exact gives_of_not_ahead (by rwa [hw₁.ahead]) (gives_pure hw₁)

theorem ConditionalGiven.ifElse (hopening : opening.kind = .leftParen)
    (h : ExpressionGiven .equality ts e) (hopens : Opens ts) (hclosing : closing.kind = .rightParen)
    (hb : BracedGiven us b) (hbrace : ∃ brace vs, us = brace :: vs ∧ brace.kind = .leftBrace)
    (hother : other.kind = .elseWord) (hb' : BracedGiven vs b')
    (hbrace' : ∃ brace us, vs = brace :: us ∧ brace.kind = .leftBrace) :
    ConditionalGiven (keyword :: opening :: (ts ++ closing :: (us ++ other :: vs)))
      (.ifElse keyword e b b') := by
  obtain ⟨brace', vs, rfl, hbrace'⟩ := hbrace'
  intro n w next rest hn hw hnext
  simp only [List.length_append, List.length_cons, List.append_assoc, List.cons_append] at hn hw
  obtain ⟨n, rfl⟩ : ∃ m, n = m + 1 := ⟨n - 1, by omega⟩
  rw [conditional]
  refine gives_current ?_
  refine gives_conditional hopening h hopens hclosing hb hbrace (by omega) hw (by simp)
    fun w₁ hw₁ => ?_
  rw [hw.current]
  refine gives_of_ahead (by rw [hw₁.ahead, hother]) ?_
  refine gives_advance hw₁ (by simp) fun w₂ hw₂ => ?_
  refine gives_of_not_ahead (by rw [hw₂.ahead.ahead, hbrace']; decide) ?_
  refine gives_expect hw₂.ahead hbrace' (List.length_pos_iff.2 (by simp)) fun w₃ hw₃ => ?_
  exact (hb' (by simp; omega) hw₃ (by simp)).bind fun w₄ hw₄ => gives_pure hw₄

theorem ConditionalGiven.elseIf (hopening : opening.kind = .leftParen)
    (h : ExpressionGiven .equality ts e) (hopens : Opens ts) (hclosing : closing.kind = .rightParen)
    (hb : BracedGiven us b) (hbrace : ∃ brace vs, us = brace :: vs ∧ brace.kind = .leftBrace)
    (hother : other.kind = .elseWord) (hst : ConditionalGiven (nested :: vs) st)
    (hstarts : ∃ t us, nested :: vs = t :: us ∧ t.kind = .ifWord) :
    ConditionalGiven (keyword :: opening :: (ts ++ closing :: (us ++ other :: nested :: vs)))
      (.ifElse keyword e b ⟨nested, [st]⟩) := by
  have hnested : nested.kind = .ifWord := by
    obtain ⟨t, us, hts, ht⟩ := hstarts
    rwa [(List.cons.inj hts).1]
  intro n w next rest hn hw hnext
  simp only [List.length_append, List.length_cons, List.append_assoc, List.cons_append] at hn hw
  obtain ⟨n, rfl⟩ : ∃ m, n = m + 1 := ⟨n - 1, by omega⟩
  rw [conditional]
  refine gives_current ?_
  refine gives_conditional hopening h hopens hclosing hb hbrace (by omega) hw (by simp)
    fun w₁ hw₁ => ?_
  rw [hw.current]
  refine gives_of_ahead (by rw [hw₁.ahead, hother]) ?_
  refine gives_advance hw₁ (by simp) fun w₂ hw₂ => ?_
  refine gives_of_ahead (by rw [hw₂.ahead.ahead, hnested]) ?_
  refine gives_advance hw₂.ahead (by simp; omega) fun w₃ hw₃ => gives_current ?_
  rw [hw₃.current]
  exact (hst (by simp; omega) hw₃ hnext).bind fun w₄ hw₄ => gives_pure hw₄

theorem BracedGiven.braces (h : StatementsGiven ts ss) (hclosing : closing.kind = .rightBrace) :
    BracedGiven (opening :: (ts ++ [closing])) ⟨opening, ss⟩ := by
  intro n w rest hn hw hrest
  simp only [List.length_append, List.length_cons, List.length_nil, List.append_assoc,
    List.cons_append, List.nil_append] at hn hw
  obtain ⟨n, rfl⟩ : ∃ m, n = m + 1 := ⟨n - 1, by omega⟩
  rw [block]
  refine gives_current ?_
  rw [hw.current]
  refine gives_advance hw.ahead (by simp; omega) fun w₁ hw₁ => ?_
  exact (h hclosing (by omega) hw₁ hrest).bind fun w₂ hw₂ => gives_pure hw₂

theorem StatementsGiven.nil : StatementsGiven [] [] := by
  intro n w closing rest hclosing hn hw _
  obtain ⟨n, rfl⟩ : ∃ m, n = m + 1 := ⟨n - 1, by simp at hn; omega⟩
  rw [statements]
  refine gives_current ?_
  rw [hw.current, if_pos hclosing]
  exact gives_pure hw.ahead

/-- Behind a statement stands no alternative. -/
theorem exists_next (hss : Statements us ss) (hclosing : closing.kind ≠ .elseWord)
    (rest : List Token) :
    ∃ next ts, us ++ closing :: rest = next :: ts ∧ next.kind ≠ .elseWord := by
  rcases hss.eq_nil_or_exists_cons with rfl | ⟨t, us, rfl, ht⟩
  · exact ⟨closing, rest, rfl, hclosing⟩
  · exact ⟨t, us ++ closing :: rest, rfl, fun hk => absurd (hk ▸ ht) (by decide)⟩

theorem StatementsGiven.cons (h : StatementGiven ts st)
    (hstarts : ∃ t us, ts = t :: us ∧ t.kind ∈ starters) (hss : StatementsGiven us ss)
    (hderived : Statements us ss) : StatementsGiven (ts ++ us) (st :: ss) := by
  obtain ⟨t, ts, rfl, ht⟩ := hstarts
  intro n w closing rest hclosing hn hw hrest
  simp only [List.length_append, List.length_cons, List.append_assoc, List.cons_append] at hn hw
  obtain ⟨n, rfl⟩ : ∃ m, n = m + 1 := ⟨n - 1, by omega⟩
  obtain ⟨next, vs, hnext, hkind⟩ := exists_next hderived (by rw [hclosing]; decide) rest
  rw [statements]
  refine gives_current ?_
  rw [hw.current, if_neg fun hk => absurd (hk ▸ ht) (by decide),
    if_neg fun hk => absurd (hk ▸ ht) (by decide)]
  rw [hnext] at hw
  refine (h (by simp; omega) hw hkind).bind fun w₁ hw₁ => ?_
  rw [← hnext] at hw₁
  refine gives_advance hw₁ (by simp; omega) fun w₂ hw₂ => ?_
  exact (hss hclosing (by omega) hw₂ hrest).bind fun w₃ hw₃ => gives_pure hw₃

end Statements

/-! ### All derivations -/

mutual

theorem expressionGiven {s ts e} : Expression s ts e → ExpressionGiven s ts e
  | .operand _ h => (expressionGiven h).loosen
  | .binary hop hl hr => .binary hop (expressionGiven hl) (expressionGiven hr) hr.opens
  | .unary hop h => .unary hop (expressionGiven h) h.opens
  | .suffixed h => .suffixed (postfixGiven h)

theorem postfixGiven {ts e} : Postfix ts e → PostfixGiven ts e
  | .primary h => .primary (primaryGiven h) h.opens
  | .call h hopening hes hclosing =>
    (postfixGiven h).call hopening (argumentsGiven hes) hclosing
  | .index h hopening hr hclosing =>
    (postfixGiven h).index hopening (expressionGiven hr) hr.opens hclosing

theorem primaryGiven {ts e} : Primary ts e → PrimaryGiven ts e
  | .identifier ht => PrimaryGiven.identifier ht
  | .text ht => PrimaryGiven.text ht
  | .boolean ht => PrimaryGiven.boolean ht
  | .integer ht hlength hle => PrimaryGiven.integer ht hlength hle
  | .group hopening h hclosing => PrimaryGiven.group hopening (expressionGiven h) h.opens hclosing
  | .array hopening h hclosing => PrimaryGiven.array hopening (argumentsGiven h) hclosing
  | .hash hopening h hclosing => PrimaryGiven.hash hopening (entriesGiven h) hclosing
  | .function hkeyword hopening h hclosing hb =>
    PrimaryGiven.function hkeyword hopening h hclosing (bracedGiven hb) hb.exists_cons

theorem argumentsGiven {ts es} : Arguments ts es → ArgumentsGiven ts es
  | .none => .empty
  | .some h => .elements (elementsGiven h) h.opens

theorem elementsGiven {ts es} : Elements ts es → ElementsGiven ts es
  | .one h => .one (expressionGiven h) h.opens
  | .more h hcomma hes => .more (expressionGiven h) h.opens hcomma (elementsGiven hes) hes.opens

theorem entriesGiven {ts ps} : Entries ts ps → EntriesGiven ts ps
  | .none => .empty
  | .last hl hcolon hr => .last (expressionGiven hl) hl.opens hcolon (expressionGiven hr) hr.opens
  | .more hl hcolon hr hcomma hps =>
    .more (expressionGiven hl) hl.opens hcolon (expressionGiven hr) hr.opens hcomma
      (entriesGiven hps)

theorem statementGiven {ts st} : Statement ts st → StatementGiven ts st
  | .declaration hkeyword hname hassign h hsemicolon =>
    .declaration hkeyword hname hassign (expressionGiven h) h.opens hsemicolon
  | .bareReturn hkeyword hsemicolon => .bareReturn hkeyword hsemicolon
  | .valueReturn hkeyword h hsemicolon =>
    .valueReturn hkeyword (expressionGiven h) h.opens hsemicolon
  | .expression h hsemicolon => .expression (expressionGiven h) h.opens hsemicolon
  | .conditional h => .conditional (conditionalGiven h) h.exists_cons

theorem conditionalGiven {ts st} : Conditional ts st → ConditionalGiven ts st
  | .ifThen _ hopening h hclosing hb =>
    .ifThen hopening (expressionGiven h) h.opens hclosing (bracedGiven hb) hb.exists_cons
  | .ifElse _ hopening h hclosing hb hother hb' =>
    .ifElse hopening (expressionGiven h) h.opens hclosing (bracedGiven hb) hb.exists_cons hother
      (bracedGiven hb') hb'.exists_cons
  | .elseIf _ hopening h hclosing hb hother hst =>
    .elseIf hopening (expressionGiven h) h.opens hclosing (bracedGiven hb) hb.exists_cons hother
      (conditionalGiven hst) hst.exists_cons

theorem bracedGiven {ts b} : Braced ts b → BracedGiven ts b
  | .braces _ h hclosing => .braces (statementsGiven h) hclosing

theorem statementsGiven {ts ss} : Statements ts ss → StatementsGiven ts ss
  | .nil => .nil
  | .cons h hss => .cons (statementGiven h) h.exists_cons (statementsGiven hss) hss

end

end Parsing

end MonkeyLang
