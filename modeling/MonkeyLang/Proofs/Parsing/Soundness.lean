import Mathlib.Tactic.SplitIfs
import MonkeyLang.Proofs.Parsing.Derivation
import MonkeyLang.Proofs.Parsing.Stream

/-!
# What the parser reads derives what it builds

A parser that finds no error has read a derivation of its tree. `Reads start w w' P` says what a
parser does from the window `w` to the window `w'`: it keeps the stream terminated, it forgets no
error, and if it found no new one it has read, from the front of `start`, tokens that satisfy `P`.
`Sound n` states this for every parser of the grammar with `n` steps; `sound` proves it by
induction on the steps.
-/

namespace MonkeyLang

namespace Grammar

namespace Stratum

/-- The strength of a stratum is that of its operators. -/
def strength : Stratum → Nat
  | equality => 2
  | order => 3
  | sum => 4
  | product => 5
  | unary => 6

/-- The loosest stratum whose operators are stronger than `p`. -/
def above (p : Nat) : Stratum :=
  if p < 2 then equality else if p < 3 then order else if p < 4 then sum
  else if p < 5 then product else unary

theorem above_strength (s : Stratum) : above s.strength = s.tighter := by
  cases s <;> rfl

/-- An operator stronger than `p` belongs to a stratum above `p`. -/
theorem strength_above_le {p : Nat} {s : Stratum} (h : p < s.strength ∨ s = unary) :
    (above p).strength ≤ s.strength := by
  unfold above
  cases s <;> split_ifs <;> simp_all [strength]

theorem ne_unary_of_lt {s s' : Stratum} (h : s'.strength < s.strength) : s' ≠ unary := by
  rintro rfl
  cases s <;> exact absurd h (by decide)

theorem tighter_le_of_lt {s s' : Stratum} (h : s'.strength < s.strength) :
    s'.tighter.strength ≤ s.strength ∧ s'.strength < s'.tighter.strength := by
  cases s' <;> cases s <;> first | decide | exact absurd h (by decide)

end Stratum

/-- Every operator between operands belongs to one stratum, and has its strength. -/
theorem exists_stratum {k : Kind} (h : k.isBinary) :
    ∃ s : Stratum, s ≠ .unary ∧ k ∈ s.operators ∧ k.precedence = s.strength := by
  cases k <;> first
    | exact ⟨.equality, by decide, by decide, rfl⟩
    | exact ⟨.order, by decide, by decide, rfl⟩
    | exact ⟨.sum, by decide, by decide, rfl⟩
    | exact ⟨.product, by decide, by decide, rfl⟩
    | exact Bool.noConfusion h

/-- Only operators, calls and element accesses continue an expression. -/
theorem precedence_eq_lowest {k : Kind} (hparen : k ≠ .leftParen) (hbracket : k ≠ .leftBracket)
    (hbinary : k.isBinary = false) : k.precedence = Precedence.lowest := by
  cases k <;> first | rfl | exact absurd rfl hparen | exact absurd rfl hbracket | cases hbinary

variable {s : Stratum} {ts : List Token} {e : Expr}

/-- An expression belongs to every looser stratum. -/
theorem Expression.loosen (h : Expression s ts e) (s' : Stratum) (hs : s'.strength ≤ s.strength) :
    Expression s' ts e := by
  rcases Nat.eq_or_lt_of_le hs with heq | hlt
  · have : s' = s := by cases s <;> cases s' <;> first | rfl | exact absurd heq (by decide)
    exact this ▸ h
  · obtain ⟨hle, _⟩ := Stratum.tighter_le_of_lt hlt
    exact .operand (Stratum.ne_unary_of_lt hlt) (h.loosen s'.tighter hle)
termination_by s.strength - s'.strength
decreasing_by omega

theorem Postfix.toExpression (h : Postfix ts e) (s : Stratum) : Expression s ts e :=
  (Expression.suffixed h).loosen s (by cases s <;> decide)

end Grammar

namespace Parsing

open Grammar

/-- From `w` to `w'` nothing is lost, and if no error was found, the tokens read from `start` on
satisfy `P`. -/
structure Reads (start : List Token) (w w' : Window) (P : List Token → Prop) : Prop where
  terminated : Terminated w'.upcoming
  errors : w.errors.length ≤ w'.errors.length
  tokens : w'.errors.length = w.errors.length → ∃ ts, start = ts ++ w'.upcoming ∧ P ts

/-- Where a parser ends, if it does not halt. -/
abbrev Yields {α : Type} (x : Parser α) (w : Window) (good : α → Window → Prop) : Prop :=
  Ensures x w good fun _ _ => True

section Reads

variable {α : Type} {start : List Token} {w w' w'' : Window} {P Q : List Token → Prop}

/-- A parser that found an error has nothing more to show. -/
theorem Reads.of_error (h : Terminated w'.upcoming) (he : w.errors.length < w'.errors.length) :
    Reads start w w' P :=
  ⟨h, Nat.le_of_lt he, fun heq => absurd heq (by omega)⟩

theorem Reads.mono (h : Reads start w w' P) (hPQ : ∀ ts, P ts → Q ts) : Reads start w w' Q :=
  ⟨h.terminated, h.errors, fun heq => let ⟨ts, hts, hP⟩ := h.tokens heq; ⟨ts, hts, hPQ ts hP⟩⟩

theorem Reads.of_length_eq (h : Reads start w' w'' P) (heq : w'.errors.length = w.errors.length) :
    Reads start w w'' P :=
  ⟨h.terminated, heq ▸ h.errors, fun h' => h.tokens (by omega)⟩

theorem Reads.single (h : Terminated w.upcoming) (hk : w.current.kind ≠ .endOfInput)
    (hP : P [w.current]) : Reads w.pending w w P :=
  ⟨h, Nat.le_refl _, fun _ => ⟨[w.current], Window.pending_eq hk, hP⟩⟩

end Reads

/-! ### Single steps -/

section Steps

variable {α : Type} {w : Window} {k : Kind} {x y : Parser α} {good : α → Window → Prop}

theorem yields_current {f : Token → Parser α} (h : Yields (f w.current) w good) :
    Yields (current >>= f) w good := h

theorem yields_currentIdent {f : Ident → Parser α}
    (h : Yields (f ⟨w.current, w.current.literal⟩) w good) :
    Yields (currentIdent >>= f) w good := h

theorem yields_aheadIs (hx : w.ahead.kind = k → Yields x w good)
    (hy : w.ahead.kind ≠ k → Yields y w good) :
    Yields (do if ← aheadIs k then x else y) w good := by
  refine ensures_bind.2 (show Ensures (if decide (w.ahead.kind = k) = true then x else y) w _ _ from ?_)
  by_cases h : w.ahead.kind = k
  · rw [if_pos (decide_eq_true h)]; exact hx h
  · rw [if_neg (by simpa using h)]; exact hy h

/-- A report adds an error. -/
theorem yields_report {c : SyntaxError.Cause} {line : Nat} {good : Unit → Window → Prop}
    (h : ∀ w', w'.upcoming = w.upcoming → w.errors.length < w'.errors.length → good () w') :
    Yields (report c line) w good :=
  h { w with errors := w.errors ++ [⟨c, line⟩] } rfl (by simp)

/-- Moving on shifts the window. -/
theorem yields_advance {good : Unit → Window → Prop} (h : Terminated w.upcoming)
    (hgood : ∀ w', Terminated w'.upcoming → w'.errors.length = w.errors.length →
      w'.current = w.ahead → w'.pending = w.upcoming → good () w') : Yields advance w good := by
  unfold Yields Ensures
  rw [run_advance]
  by_cases hk : w.shift.ahead.kind = .illegal
  · rw [if_pos hk]; trivial
  · rw [if_neg hk]
    exact hgood w.shift (Window.shift_terminated h) (by rw [Window.shift_errors]) Window.shift_current
      (Window.shift_pending h)

/-- An expected token is moved on to; if another one stands there, that is an error. -/
theorem yields_expect (h : Terminated w.upcoming) (hk : k ≠ .endOfInput)
    (hx : ∀ w', Terminated w'.upcoming → w'.errors.length = w.errors.length →
      w'.current.kind = k → w.upcoming = w'.current :: w'.upcoming → Yields x w' good)
    (hy : ∀ w', Terminated w'.upcoming → w.errors.length < w'.errors.length → Yields y w' good) :
    Yields (do if ← expect k then x else y) w good := by
  refine ensures_bind.2 ?_
  unfold expect
  refine yields_aheadIs (fun hahead => ?_) (fun hahead => ?_)
  · refine ensures_bind.2 (yields_advance h fun w' hw' herr hcur hpend => ?_)
    have hkind : w'.current.kind = k := by rw [hcur, hahead]
    have hne : w'.current.kind ≠ .endOfInput := by rwa [hkind]
    exact hx w' hw' herr hkind (by rw [← hpend, Window.pending_eq hne])
  · refine ensures_get_bind (ensures_bind.2 (yields_report fun w' hup herr => ?_))
    exact hy w' (by rwa [hup]) herr

/-- An expected semicolon is moved on to; if it is missing, that is an error. -/
theorem yields_semicolon {good : Unit → Window → Prop} (h : Terminated w.upcoming)
    (hx : ∀ w', Terminated w'.upcoming → w'.errors.length = w.errors.length →
      w'.current.kind = .semicolon → w.upcoming = w'.current :: w'.upcoming → good () w')
    (hy : ∀ w', Terminated w'.upcoming → w.errors.length < w'.errors.length → good () w') :
    Yields expectSemicolon w good := by
  unfold expectSemicolon
  refine yields_aheadIs (fun hahead => ?_) (fun _ => ?_)
  · refine yields_advance h fun w' hw' herr hcur hpend => ?_
    have hkind : w'.current.kind = .semicolon := by rw [hcur, hahead]
    exact hx w' hw' herr hkind (by rw [← hpend, Window.pending_eq (by rw [hkind]; decide)])
  · exact yields_current (yields_report fun w' hup herr => hy w' (by rwa [hup]) herr)

end Steps

/-! ### What each parser reads -/

/-- An expression of the strata above `p`, up to a token that does not continue it. -/
def ReadsExpression (p : Nat) (x : Parser Expr) : Prop :=
  ∀ w, Terminated w.upcoming → Yields x w fun e w' =>
    Reads w.pending w w' fun ts => Expression (.above p) ts e ∧ w'.ahead.kind.precedence ≤ p

/-- A statement in the sense of `D` that begins with a token of the kinds `first`. -/
def ReadsStatement (first : Kind → Prop) (D : List Token → Stmt → Prop)
    (x : Parser (Option Stmt)) : Prop :=
  ∀ w, Terminated w.upcoming → first w.current.kind → Yields x w fun o w' =>
    Reads w.pending w w' fun ts => ∃ st, o = some st ∧ D ts st

/-- A block, from its opening brace on. -/
def ReadsBlock (x : Parser Block) : Prop :=
  ∀ w, Terminated w.upcoming → w.current.kind = .leftBrace → Yields x w fun b w' =>
    Reads w.pending w w' fun ts => Braced ts b

/-- Statements and the closing brace behind them. -/
def ReadsStatements (x : Parser (List Stmt)) : Prop :=
  ∀ w, Terminated w.upcoming → Yields x w fun ss w' =>
    Reads w.pending w w' fun ts => ∃ body closing, ts = body ++ [closing] ∧
      closing.kind = .rightBrace ∧ Statements body ss

/-- A list in the sense of `D` and the token of kind `close` behind it. -/
def ReadsList {α : Type} (close : Kind) (D : List Token → List α → Prop)
    (x : Parser (Option (List α))) : Prop :=
  ∀ w, Terminated w.upcoming → Yields x w fun o w' =>
    Reads w.upcoming w w' fun ts => ∃ as inner closing, o = some as ∧ ts = inner ++ [closing] ∧
      closing.kind = close ∧ D inner as

/-- More items, each behind a comma. -/
def Rest {α : Type} (D : List Token → List α → Prop) (ts : List Token) (as : List α) : Prop :=
  ts = [] ∧ as = [] ∨ ∃ comma us, ts = comma :: us ∧ comma.kind = .comma ∧ D us as

theorem Rest.elements {ts us : List Token} {e : Expr} {es : List Expr} (h : Rest Elements us es)
    (he : Expression .equality ts e) : Elements (ts ++ us) (e :: es) := by
  rcases h with ⟨rfl, rfl⟩ | ⟨comma, vs, rfl, hcomma, hes⟩
  · rw [List.append_nil]; exact .one he
  · exact .more he hcomma hes

theorem Rest.names {t : Token} {us : List Token} {is : List Ident} (h : Rest Names us is)
    (ht : t.kind = .identifier) : Names (t :: us) (⟨t, t.literal⟩ :: is) := by
  rcases h with ⟨rfl, rfl⟩ | ⟨comma, vs, rfl, hcomma, his⟩
  · exact .one ht
  · exact .more ht hcomma his

/-- An operand: it can still take calls and element accesses, or what follows is no such thing and
it belongs to a stratum that is tight enough for `p`. -/
def Ready (p : Nat) (ts : List Token) (e : Expr) (ahead : Kind) : Prop :=
  Postfix ts e ∨ ∃ s, Expression s ts e ∧ ahead.precedence ≤ s.strength ∧
    (Stratum.above p).strength ≤ s.strength

/-- What takes a call or an element access behind it is a postfix expression. -/
theorem Ready.postfixed {p : Nat} {ts : List Token} {e : Expr} {k : Kind} (h : Ready p ts e k)
    (hk : 6 < k.precedence) : Postfix ts e := by
  rcases h with h | ⟨s, _, hs, _⟩
  · exact h
  · have : s.strength ≤ 6 := by cases s <;> decide
    omega

/-- What takes an operator behind it belongs to the stratum of the operator. -/
theorem Ready.toExpression {p : Nat} {ts : List Token} {e : Expr} {k : Kind} (h : Ready p ts e k)
    {s : Stratum} (hs : k.precedence = s.strength) : Expression s ts e := by
  rcases h with h | ⟨s', h, hs', _⟩
  · exact h.toExpression s
  · exact h.loosen s (hs ▸ hs')

/-- The parsers with `n` steps read what they build. -/
structure Sound (n : Nat) : Prop where
  statement : ReadsStatement (fun _ => True) Statement (statement n)
  conditional : ReadsStatement (· = .ifWord) Conditional (conditional n)
  block : ReadsBlock (block n)
  statements : ReadsStatements (statements n)
  expression : ∀ p, 1 ≤ p → ReadsExpression p (expression n p)
  operand : ∀ w, Terminated w.upcoming → Yields (operand n) w fun o w' => match o with
    | none => w' = w
    | some e => Reads w.pending w w' fun ts => ∀ p, Ready p ts e w'.ahead.kind
  function : ∀ w, Terminated w.upcoming → w.current.kind = .function →
    Yields (function n) w fun e w' => Reads w.pending w w' fun ts => Primary ts e
  operators : ∀ p left w, 1 ≤ p → Terminated w.upcoming → Yields (operators n p left) w fun e w' =>
    Reads w.upcoming w w' fun ts => ∀ us, Ready p us left w.ahead.kind →
      Expression (.above p) (us ++ ts) e ∧ w'.ahead.kind.precedence ≤ p
  expressions : ∀ close, close ≠ .endOfInput → ReadsList close Arguments (expressions n close)
  moreExpressions : ∀ w, Terminated w.upcoming → Yields (moreExpressions n) w fun es w' =>
    Reads w.upcoming w w' fun ts => Rest Elements ts es
  pairs : ReadsList .rightBrace Entries (pairs n)

/-- A list that was not read leaves an error. -/
theorem Reads.of_none {α : Type} {close : Kind} {D : List Token → List α → Prop}
    {start : List Token} {w w' : Window} {P : List Token → Prop}
    (h : Reads start w w' fun ts => ∃ as inner closing, (none : Option (List α)) = some as ∧
      ts = inner ++ [closing] ∧ closing.kind = close ∧ D inner as) {start' : List Token} :
    Reads start' w w' P := by
  refine ⟨h.terminated, h.errors, fun heq => ?_⟩
  obtain ⟨_, _, _, _, _, h, _⟩ := h.tokens heq
  exact nomatch h

/-- A list that was read, with the token before it. -/
theorem Reads.closed {α : Type} {close : Kind} {D : List Token → List α → Prop}
    {w w' : Window} {as : List α} {P : List Token → Prop}
    (h : Reads w.upcoming w w' fun ts => ∃ as' inner closing, some as = some as' ∧
      ts = inner ++ [closing] ∧ closing.kind = close ∧ D inner as')
    (hk : w.current.kind ≠ .endOfInput)
    (hP : ∀ inner closing, closing.kind = close → D inner as →
      P (w.current :: (inner ++ [closing]))) : Reads w.pending w w' P := by
  refine ⟨h.terminated, h.errors, fun heq => ?_⟩
  obtain ⟨_, hts, _, inner, closing, has, rfl, hclosing, hD⟩ := h.tokens heq
  cases has
  exact ⟨_, by rw [Window.pending_eq hk, hts]; rfl, hP inner closing hclosing hD⟩

/-- The parser adds up the digits from the front, which comes to the number they name. -/
theorem digitsValue_eq_decimal (literal : String) :
    digitsValue literal.toList = decimal literal := by
  rw [decimal, List.map_reverse, Nat.ofDigits_eq_foldr, List.foldr_reverse, List.foldl_map]
  simp only [digitsValue, Nat.cast_id, Nat.add_comm]

theorem integerValue?_eq_some_iff {literal : String} {value : Int} :
    integerValue? literal = some value ↔ literal.length ≤ 4300 ∧
      decimal literal ≤ 9223372036854775807 ∧ value = decimal literal := by
  unfold integerValue?
  simp only [digitsValue_eq_decimal, String.length_toList, maxDigits, maxInteger]
  by_cases hlength : literal.length ≤ 4300
  · by_cases hle : decimal literal ≤ 9223372036854775807
    · simp [hlength, hle, eq_comm]
    · simp [hle]
  · simp [hlength]

/-! ### Names -/

theorem moreParameters_sound (n : Nat) : ∀ w, Terminated w.upcoming →
    Yields (moreParameters n) w fun o w' => Reads w.upcoming w w' fun ts =>
      ∃ is inner closing, o = some is ∧ ts = inner ++ [closing] ∧ closing.kind = .rightParen ∧
        Rest Names inner is := by
  induction n with
  | zero => intro w _; exact trivial
  | succ n ih =>
    intro w hw
    rw [moreParameters]
    refine yields_aheadIs (fun hcomma => ?_) (fun _ => ?_)
    · have htokens := Window.upcoming_eq_cons hw (by rw [hcomma]; decide)
      refine ensures_bind.2 (yields_advance hw fun w₁ hw₁ herr₁ hcur₁ hpend₁ => ?_)
      have hne : w₁.current.kind ≠ .endOfInput := by rw [hcur₁, hcomma]; decide
      refine yields_expect hw₁ (by decide) (fun w₂ hw₂ herr₂ hname htokens₂ => ?_)
        (fun w₂ hw₂ herr₂ => Reads.of_error hw₂ (by omega))
      refine yields_currentIdent ((ih w₂ hw₂).bind fun o w₃ h₃ => ?_)
      have herr₃ := h₃.errors
      refine ⟨h₃.terminated, by omega, fun heq => ?_⟩
      obtain ⟨ts, hts, is, inner, closing, rfl, rfl, hclosing, hrest⟩ := h₃.tokens (by omega)
      refine ⟨w₁.current :: w₂.current :: (inner ++ [closing]), ?_, _,
        w₁.current :: w₂.current :: inner, closing, rfl, rfl, hclosing,
        .inr ⟨w₁.current, w₂.current :: inner, rfl, by rw [hcur₁, hcomma], hrest.names hname⟩⟩
      rw [← hpend₁, Window.pending_eq hne, htokens₂, hts]
      rfl
    · exact yields_expect hw (by decide)
        (fun w₁ hw₁ herr₁ hclosing htokens₁ => ⟨hw₁, by omega, fun _ => ⟨[w₁.current], htokens₁, [],
          [], w₁.current, rfl, rfl, hclosing, .inl ⟨rfl, rfl⟩⟩⟩)
        (fun w₁ hw₁ herr₁ => Reads.of_error hw₁ herr₁)

theorem parameters_sound (n : Nat) : ReadsList .rightParen Parameters (parameters n) := by
  intro w hw
  unfold parameters
  refine yields_aheadIs (fun hclosing => ?_) (fun _ => ?_)
  · refine ensures_bind.2 (yields_advance hw fun w₁ hw₁ herr₁ hcur₁ hpend₁ => ?_)
    have hclosing₁ : w₁.current.kind = .rightParen := by rw [hcur₁, hclosing]
    refine ⟨hw₁, by omega, fun _ => ⟨[w₁.current], ?_, [], [], w₁.current, rfl, rfl, hclosing₁,
      .none⟩⟩
    rw [← hpend₁, Window.pending_eq (by rw [hclosing₁]; decide)]; rfl
  · refine yields_expect hw (by decide) (fun w₁ hw₁ herr₁ hname htokens₁ => ?_)
      (fun w₁ hw₁ herr₁ => Reads.of_error hw₁ herr₁)
    refine yields_currentIdent ((moreParameters_sound n w₁ hw₁).bind fun o w₂ h₂ => ?_)
    have herr₂ := h₂.errors
    refine ⟨h₂.terminated, by omega, fun heq => ?_⟩
    obtain ⟨ts, hts, is, inner, closing, rfl, rfl, hclosing, hrest⟩ := h₂.tokens (by omega)
    exact ⟨w₁.current :: (inner ++ [closing]), by rw [htokens₁, hts]; rfl, _,
      w₁.current :: inner, closing, rfl, rfl, hclosing, .some (hrest.names hname)⟩

/-! ### Statements -/

theorem declaration_sound {value : Parser Expr} (h : ReadsExpression Precedence.lowest value) :
    ReadsStatement (fun k => k = .var ∨ k = .const) Statement (declaration value) := by
  intro w hw hk
  unfold declaration
  refine yields_current ?_
  refine yields_expect hw (by decide) (fun w₁ hw₁ herr₁ hname htokens₁ => ?_)
    (fun w₁ hw₁ herr₁ => Reads.of_error hw₁ herr₁)
  refine yields_currentIdent ?_
  refine yields_expect hw₁ (by decide) (fun w₂ hw₂ herr₂ hassign htokens₂ => ?_)
    (fun w₂ hw₂ herr₂ => Reads.of_error hw₂ (by omega))
  refine ensures_bind.2 (yields_advance hw₂ fun w₃ hw₃ herr₃ _ hpend₃ => ?_)
  refine (h w₃ hw₃).bind fun e w₄ h₄ => ?_
  have herr₄ := h₄.errors
  refine ensures_bind.2 (yields_semicolon h₄.terminated (fun w₅ hw₅ herr₅ hsemicolon htokens₅ => ?_)
    (fun w₅ hw₅ herr₅ => Reads.of_error hw₅ (by omega)))
  refine ⟨hw₅, by omega, fun heq => ?_⟩
  obtain ⟨ts, hts, he, _⟩ := h₄.tokens (by omega)
  refine ⟨w.current :: w₁.current :: w₂.current :: (ts ++ [w₅.current]), ?_, _, rfl,
    .declaration hk hname hassign he hsemicolon⟩
  have hne : w.current.kind ≠ .endOfInput := by rcases hk with hk | hk <;> rw [hk] <;> decide
  rw [Window.pending_eq hne, htokens₁, htokens₂, ← hpend₃, hts, htokens₅]
  simp

theorem returnStatement_sound {value : Parser Expr} (h : ReadsExpression Precedence.lowest value) :
    ReadsStatement (· = .ret) Statement (returnStatement value) := by
  intro w hw hk
  have hne : w.current.kind ≠ .endOfInput := by rw [hk]; decide
  unfold returnStatement
  refine yields_current (yields_aheadIs (fun hahead => ?_) (fun _ => ?_))
  · refine ensures_bind.2 (yields_advance hw fun w₁ hw₁ herr₁ hcur₁ hpend₁ => ?_)
    have hsemicolon : w₁.current.kind = .semicolon := by rw [hcur₁, hahead]
    refine ⟨hw₁, by omega, fun _ => ⟨[w.current, w₁.current], ?_, _, rfl,
      .bareReturn hk hsemicolon⟩⟩
    rw [Window.pending_eq hne, ← hpend₁, Window.pending_eq (by rw [hsemicolon]; decide)]; rfl
  · refine ensures_bind.2 (yields_advance hw fun w₁ hw₁ herr₁ _ hpend₁ => ?_)
    refine (h w₁ hw₁).bind fun e w₂ h₂ => ?_
    have herr₂ := h₂.errors
    refine ensures_bind.2 (yields_semicolon h₂.terminated (fun w₃ hw₃ herr₃ hsemicolon htokens₃ => ?_)
      (fun w₃ hw₃ herr₃ => Reads.of_error hw₃ (by omega)))
    refine ⟨hw₃, by omega, fun heq => ?_⟩
    obtain ⟨ts, hts, he, _⟩ := h₂.tokens (by omega)
    refine ⟨w.current :: (ts ++ [w₃.current]), ?_, _, rfl, .valueReturn hk he hsemicolon⟩
    rw [Window.pending_eq hne, ← hpend₁, hts, htokens₃]
    simp

theorem expressionStatement_sound {value : Parser Expr}
    (h : ReadsExpression Precedence.lowest value) :
    ReadsStatement (fun _ => True) Statement (expressionStatement value) := by
  intro w hw _
  unfold expressionStatement
  refine yields_current ((h w hw).bind fun e w₁ h₁ => ?_)
  have herr₁ := h₁.errors
  refine ensures_bind.2 (yields_semicolon h₁.terminated (fun w₂ hw₂ herr₂ hsemicolon htokens₂ => ?_)
    (fun w₂ hw₂ herr₂ => Reads.of_error hw₂ (by omega)))
  refine ⟨hw₂, by omega, fun heq => ?_⟩
  obtain ⟨ts, hts, he, _⟩ := h₁.tokens (by omega)
  obtain ⟨t, us, rfl, _⟩ := he.opens
  have ht : t = w.current := Window.eq_current_of_pending hts
  subst ht
  exact ⟨w.current :: (us ++ [w₂.current]), by rw [hts, htokens₂]; simp, _, rfl,
    .expression he hsemicolon⟩

section Step

variable {n : Nat}

theorem Sound.statement_succ (ih : Sound n) :
    ReadsStatement (fun _ => True) Statement (Parsing.statement (n + 1)) := by
  intro w hw _
  have hvalue := ih.expression Precedence.lowest (Nat.le_refl _)
  rw [Parsing.statement]
  refine yields_current ?_
  split
  · next hk => exact declaration_sound hvalue w hw (.inl hk)
  · next hk => exact declaration_sound hvalue w hw (.inr hk)
  · next hk =>
    refine (ih.conditional w hw hk).mono (fun o w' h => h.mono fun ts hts => ?_) fun _ _ h => h
    obtain ⟨st, rfl, hst⟩ := hts
    exact ⟨st, rfl, .conditional hst⟩
  · next hk => exact returnStatement_sound hvalue w hw hk
  · exact expressionStatement_sound hvalue w hw trivial

theorem Sound.conditional_succ (ih : Sound n) :
    ReadsStatement (· = .ifWord) Conditional (Parsing.conditional (n + 1)) := by
  intro w hw hk
  have htokens : w.pending = w.current :: w.upcoming := Window.pending_eq (by rw [hk]; decide)
  rw [Parsing.conditional]
  refine yields_current ?_
  refine yields_expect hw (by decide) (fun w₁ hw₁ herr₁ hopening htokens₁ => ?_)
    (fun w₁ hw₁ herr₁ => Reads.of_error hw₁ herr₁)
  refine ensures_bind.2 (yields_advance hw₁ fun w₂ hw₂ herr₂ _ hpend₂ => ?_)
  refine (ih.expression _ (Nat.le_refl _) w₂ hw₂).bind fun e w₃ h₃ => ?_
  have herr₃ := h₃.errors
  refine yields_expect h₃.terminated (by decide) (fun w₄ hw₄ herr₄ hclosing htokens₄ => ?_)
    (fun w₄ hw₄ herr₄ => Reads.of_error hw₄ (by omega))
  refine yields_expect hw₄ (by decide) (fun w₅ hw₅ herr₅ hbrace htokens₅ => ?_)
    (fun w₅ hw₅ herr₅ => Reads.of_error hw₅ (by omega))
  have hpend₅ : w₅.pending = w₄.upcoming := by
    rw [htokens₅, Window.pending_eq (by rw [hbrace]; decide)]
  refine (ih.block w₅ hw₅ hbrace).bind fun b w₆ h₆ => ?_
  have herr₆ := h₆.errors
  -- the tokens up to the end of the first block
  have hfront (heq : w₆.errors.length = w.errors.length) : ∃ ts us,
      w.pending = w.current :: w₁.current :: (ts ++ w₄.current :: (us ++ w₆.upcoming)) ∧
        Expression .equality ts e ∧ Braced us b := by
    obtain ⟨ts, hts, he, _⟩ := h₃.tokens (by omega)
    obtain ⟨us, hus, hb⟩ := h₆.tokens (by omega)
    exact ⟨ts, us, by rw [htokens, htokens₁, ← hpend₂, hts, htokens₄, ← hpend₅, hus], he, hb⟩
  refine yields_aheadIs (fun helse => ?_) (fun _ => ?_)
  · refine ensures_bind.2 (yields_advance h₆.terminated fun w₇ hw₇ herr₇ hcur₇ hpend₇ => ?_)
    have hother : w₇.current.kind = .elseWord := by rw [hcur₇, helse]
    have htokens₇ : w₆.upcoming = w₇.current :: w₇.upcoming := by
      rw [← hpend₇, Window.pending_eq (by rw [hother]; decide)]
    refine yields_aheadIs (fun hif => ?_) (fun _ => ?_)
    · refine ensures_bind.2 (yields_advance hw₇ fun w₈ hw₈ herr₈ hcur₈ hpend₈ => ?_)
      refine yields_current ?_
      refine (ih.conditional w₈ hw₈ (by rw [hcur₈, hif])).bind fun o w₉ h₉ => ?_
      have herr₉ := h₉.errors
      have hresult : Reads w.pending w w₉ fun ts => ∃ st, o = some st ∧
          Conditional ts (.ifElse w.current e b ⟨w₈.current, [st]⟩) := by
        refine ⟨h₉.terminated, by omega, fun heq => ?_⟩
        obtain ⟨ts, us, hfront, he, hb⟩ := hfront (by omega)
        obtain ⟨vs, hvs, st, rfl, hst⟩ := h₉.tokens (by omega)
        obtain ⟨t, vs, rfl, _⟩ := hst.exists_cons
        have ht : t = w₈.current := Window.eq_current_of_pending hvs
        subst ht
        refine ⟨_, ?_, st, rfl, .elseIf hk hopening he hclosing hb hother hst⟩
        rw [hfront, htokens₇, ← hpend₈, hvs]
        simp
      cases o with
      | none => exact hresult.mono fun ts ⟨st, h, _⟩ => nomatch h
      | some st => exact hresult.mono fun ts ⟨st', h, hst⟩ => ⟨_, rfl, Option.some.inj h ▸ hst⟩
    · refine yields_expect hw₇ (by decide) (fun w₈ hw₈ herr₈ hbrace₈ htokens₈ => ?_)
        (fun w₈ hw₈ herr₈ => Reads.of_error hw₈ (by omega))
      have hpend₈ : w₈.pending = w₇.upcoming := by
        rw [htokens₈, Window.pending_eq (by rw [hbrace₈]; decide)]
      refine (ih.block w₈ hw₈ hbrace₈).bind fun b' w₉ h₉ => ?_
      have herr₉ := h₉.errors
      refine ⟨h₉.terminated, by omega, fun heq => ?_⟩
      obtain ⟨ts, us, hfront, he, hb⟩ := hfront (by omega)
      obtain ⟨vs, hvs, hb'⟩ := h₉.tokens (by omega)
      refine ⟨_, ?_, _, rfl, .ifElse hk hopening he hclosing hb hother hb'⟩
      rw [hfront, htokens₇, ← hpend₈, hvs]
      simp
  · refine ⟨h₆.terminated, by omega, fun heq => ?_⟩
    obtain ⟨ts, us, hfront, he, hb⟩ := hfront heq
    refine ⟨_, ?_, _, rfl, .ifThen hk hopening he hclosing hb⟩
    rw [hfront]
    simp

theorem Sound.block_succ (ih : Sound n) : ReadsBlock (Parsing.block (n + 1)) := by
  intro w hw hk
  rw [Parsing.block]
  refine yields_current (ensures_bind.2 (yields_advance hw fun w₁ hw₁ herr₁ _ hpend₁ => ?_))
  refine (ih.statements w₁ hw₁).bind fun ss w₂ h₂ => ?_
  have herr₂ := h₂.errors
  refine ⟨h₂.terminated, by omega, fun heq => ?_⟩
  obtain ⟨ts, hts, body, closing, rfl, hclosing, hss⟩ := h₂.tokens (by omega)
  refine ⟨w.current :: (body ++ [closing]), ?_, .braces hk hss hclosing⟩
  rw [Window.pending_eq (by rw [hk]; decide), ← hpend₁, hts]
  rfl

theorem Sound.statements_succ (ih : Sound n) : ReadsStatements (Parsing.statements (n + 1)) := by
  intro w hw
  rw [Parsing.statements]
  refine yields_current ?_
  by_cases hclosing : w.current.kind = .rightBrace
  · rw [if_pos hclosing]
    refine ⟨hw, Nat.le_refl _, fun _ => ⟨[w.current], ?_, [], w.current, rfl, hclosing, .nil⟩⟩
    rw [Window.pending_eq (by rw [hclosing]; decide)]; rfl
  rw [if_neg hclosing]
  by_cases hend : w.current.kind = .endOfInput
  · rw [if_pos hend]
    exact ensures_bind.2 (yields_report fun w' hup herr => Reads.of_error (by rwa [hup]) herr)
  rw [if_neg hend]
  refine (ih.statement w hw trivial).bind fun o w₁ h₁ => ?_
  have herr₁ := h₁.errors
  refine ensures_bind.2 (yields_advance h₁.terminated fun w₂ hw₂ herr₂ _ hpend₂ => ?_)
  refine (ih.statements w₂ hw₂).bind fun ss w₃ h₃ => ?_
  have herr₃ := h₃.errors
  refine ⟨h₃.terminated, by omega, fun heq => ?_⟩
  obtain ⟨ts, hts, st, rfl, hst⟩ := h₁.tokens (by omega)
  obtain ⟨us, hus, body, closing, rfl, hclosing, hss⟩ := h₃.tokens (by omega)
  refine ⟨ts ++ (body ++ [closing]), ?_, ts ++ body, closing, by simp, hclosing, .cons hst hss⟩
  rw [hts, ← hpend₂, hus]
  simp

/-- An operator before its operand, at the current token. -/
theorem Sound.unary_operand (ih : Sound n) {w : Window} (hw : Terminated w.upcoming)
    (hk : w.current.kind = .bang ∨ w.current.kind = .minus) :
    Yields (do
      advance
      let inner ← Parsing.expression n Precedence.unary
      return some (Expr.unary w.current w.current.literal inner)) w fun o w' => match o with
        | none => w' = w
        | some e => Reads w.pending w w' fun ts => ∀ p, Ready p ts e w'.ahead.kind := by
  have hne : w.current.kind ≠ .endOfInput := by rcases hk with hk | hk <;> rw [hk] <;> decide
  refine ensures_bind.2 (yields_advance hw fun w₁ hw₁ herr₁ _ hpend₁ => ?_)
  refine (ih.expression _ (by decide) w₁ hw₁).bind fun e w₂ h₂ => ?_
  have herr₂ := h₂.errors
  refine ⟨h₂.terminated, by omega, fun heq => ?_⟩
  obtain ⟨ts, hts, he, hprec⟩ := h₂.tokens (by omega)
  exact ⟨w.current :: ts, by rw [Window.pending_eq hne, ← hpend₁, hts]; rfl, fun p =>
    .inr ⟨.unary, .unary hk he, hprec, Stratum.strength_above_le (.inr rfl)⟩⟩

theorem Sound.expression_succ (ih : Sound n) (p : Nat) (hp : 1 ≤ p) :
    ReadsExpression p (Parsing.expression (n + 1) p) := by
  intro w hw
  rw [Parsing.expression]
  refine (ih.operand w hw).bind fun o w₁ h₁ => ?_
  cases o with
  | none =>
    subst h₁
    refine yields_current (ensures_bind.2 (yields_report fun w' hup herr => ?_))
    exact Reads.of_error (by rwa [hup]) herr
  | some left =>
    have herr₁ := h₁.errors
    refine (ih.operators p left w₁ hp h₁.terminated).mono (fun e w₂ h₂ => ?_) fun _ _ h => h
    have herr₂ := h₂.errors
    refine ⟨h₂.terminated, by omega, fun heq => ?_⟩
    obtain ⟨ts, hts, hready⟩ := h₁.tokens (by omega)
    obtain ⟨us, hus, he⟩ := h₂.tokens (by omega)
    exact ⟨ts ++ us, by rw [hts, hus, List.append_assoc], he ts (hready p)⟩

theorem Sound.operand_succ (ih : Sound n) (w : Window) (hw : Terminated w.upcoming) :
    Yields (Parsing.operand (n + 1)) w fun o w' => match o with
      | none => w' = w
      | some e => Reads w.pending w w' fun ts => ∀ p, Ready p ts e w'.ahead.kind := by
  rw [Parsing.operand]
  refine yields_current ?_
  split
  · next hk => exact Reads.single hw (by rw [hk]; decide) fun _ => .inl (.primary (.identifier hk))
  · next hk =>
    unfold integerLiteral
    refine ensures_bind.2 (yields_current ?_)
    split
    · next value hvalue =>
      obtain ⟨hlength, hle, rfl⟩ := integerValue?_eq_some_iff.1 hvalue
      exact Reads.single hw (by rw [hk]; decide) fun _ =>
        .inl (.primary (.integer hk hlength hle))
    · exact ensures_bind.2 (yields_report fun w' hup herr => Reads.of_error (by rwa [hup]) herr)
  · next hk => exact Reads.single hw (by rw [hk]; decide) fun _ => .inl (.primary (.text hk))
  · next hk => exact Reads.single hw (by rw [hk]; decide) fun _ => .inl (.primary (.boolean hk))
  · next hk => exact ih.unary_operand hw (.inl hk)
  · next hk => exact ih.unary_operand hw (.inr hk)
  · next hk =>
    refine ensures_bind.2 (yields_advance hw fun w₁ hw₁ herr₁ _ hpend₁ => ?_)
    refine (ih.expression _ (Nat.le_refl _) w₁ hw₁).bind fun e w₂ h₂ => ?_
    have herr₂ := h₂.errors
    refine yields_expect h₂.terminated (by decide) (fun w₃ hw₃ herr₃ hclosing htokens₃ => ?_)
      (fun w₃ hw₃ herr₃ => Reads.of_error hw₃ (by omega))
    refine ⟨hw₃, by omega, fun heq => ?_⟩
    obtain ⟨ts, hts, he, _⟩ := h₂.tokens (by omega)
    refine ⟨w.current :: (ts ++ [w₃.current]), ?_, fun _ => .inl (.primary (.group hk he hclosing))⟩
    rw [Window.pending_eq (by rw [hk]; decide), ← hpend₁, hts, htokens₃]
    simp
  · next hk =>
    refine (ih.expressions .rightBracket (by decide) w hw).bind fun o w₁ h₁ => ?_
    cases o with
    | none => exact h₁.of_none
    | some es =>
      exact h₁.closed (by rw [hk]; decide) fun ts closing hclosing hes _ =>
        .inl (.primary (.array hk hes hclosing))
  · next hk =>
    refine (ih.pairs w hw).bind fun o w₁ h₁ => ?_
    cases o with
    | none => exact h₁.of_none
    | some ps =>
      exact h₁.closed (by rw [hk]; decide) fun ts closing hclosing hps _ =>
        .inl (.primary (.hash hk hps hclosing))
  · next hk =>
    exact (ih.function w hw hk).bind fun e w₁ h₁ => h₁.mono fun ts he _ => .inl (.primary he)
  · exact rfl

/-- An operand that has grown goes on taking operators. -/
theorem Sound.operators_next (ih : Sound n) {p : Nat} {left left' : Expr} {w w' : Window}
    (hp : 1 ≤ p) (h : Reads w.upcoming w w' fun ts => ∀ us, Ready p us left w.ahead.kind →
      Ready p (us ++ ts) left' w'.ahead.kind) :
    Yields (Parsing.operators n p left') w' fun e w'' => Reads w.upcoming w w'' fun ts =>
      ∀ us, Ready p us left w.ahead.kind →
        Expression (.above p) (us ++ ts) e ∧ w''.ahead.kind.precedence ≤ p := by
  have herr := h.errors
  refine (ih.operators p left' w' hp h.terminated).mono (fun e w'' h' => ?_) fun _ _ h => h
  have herr' := h'.errors
  refine ⟨h'.terminated, by omega, fun heq => ?_⟩
  obtain ⟨ts, hts, hready⟩ := h.tokens (by omega)
  obtain ⟨vs, hvs, he⟩ := h'.tokens (by omega)
  refine ⟨ts ++ vs, by rw [hts, hvs, List.append_assoc], fun us hus => ?_⟩
  rw [← List.append_assoc]
  exact he _ (hready us hus)

theorem Sound.operators_succ (ih : Sound n) (p : Nat) (left : Expr) (w : Window) (hp : 1 ≤ p)
    (hw : Terminated w.upcoming) : Yields (Parsing.operators (n + 1) p left) w fun e w' =>
      Reads w.upcoming w w' fun ts => ∀ us, Ready p us left w.ahead.kind →
        Expression (.above p) (us ++ ts) e ∧ w'.ahead.kind.precedence ≤ p := by
  rw [Parsing.operators]
  refine ensures_get_bind ?_
  show Ensures (if p < w.ahead.kind.precedence then _ else _) _ _ _
  by_cases hprec : p < w.ahead.kind.precedence
  · rw [if_pos hprec]
    split
    · next hk =>
      refine ensures_bind.2 (yields_advance hw fun w₁ hw₁ herr₁ hcur₁ hpend₁ => ?_)
      have hopening : w₁.current.kind = .leftParen := by rw [hcur₁, hk]
      refine yields_current ?_
      refine (ih.expressions .rightParen (by decide) w₁ hw₁).bind fun o w₂ h₂ => ?_
      cases o with
      | none => exact ih.operators_next hp (h₂.of_none.of_length_eq herr₁)
      | some es =>
        refine ih.operators_next hp (Reads.of_length_eq ?_ herr₁)
        rw [← hpend₁]
        refine h₂.closed (by rw [hopening]; decide) fun ts closing hclosing hes us hus => .inl ?_
        exact .call (hus.postfixed (by rw [hk]; decide)) hopening hes hclosing
    · next hk =>
      refine ensures_bind.2 (yields_advance hw fun w₁ hw₁ herr₁ hcur₁ hpend₁ => ?_)
      have hopening : w₁.current.kind = .leftBracket := by rw [hcur₁, hk]
      refine yields_current (ensures_bind.2 (yields_advance hw₁ fun w₂ hw₂ herr₂ _ hpend₂ => ?_))
      refine (ih.expression _ (Nat.le_refl _) w₂ hw₂).bind fun e w₃ h₃ => ?_
      have herr₃ := h₃.errors
      refine yields_expect h₃.terminated (by decide) (fun w₄ hw₄ herr₄ hclosing htokens₄ => ?_)
        (fun w₄ hw₄ herr₄ => ih.operators_next hp (Reads.of_error hw₄ (by omega)))
      refine ih.operators_next hp ⟨hw₄, by omega, fun heq => ?_⟩
      obtain ⟨ts, hts, he, _⟩ := h₃.tokens (by omega)
      refine ⟨w₁.current :: (ts ++ [w₄.current]), ?_, fun us hus => .inl ?_⟩
      · rw [← hpend₁, Window.pending_eq (by rw [hopening]; decide), ← hpend₂, hts, htokens₄]
        simp
      · exact .index (hus.postfixed (by rw [hk]; decide)) hopening he hclosing
    · next hparen hbracket =>
      by_cases hbinary : w.ahead.kind.isBinary
      · rw [if_pos hbinary]
        obtain ⟨s, _, hmem, hstrength⟩ := exists_stratum hbinary
        have hne : w.ahead.kind ≠ .endOfInput := fun h => by rw [h] at hbinary; cases hbinary
        refine ensures_bind.2 (yields_advance hw fun w₁ hw₁ herr₁ hcur₁ hpend₁ => ?_)
        refine yields_current (ensures_bind.2 (yields_advance hw₁ fun w₂ hw₂ herr₂ _ hpend₂ => ?_))
        refine (ih.expression _ (by omega) w₂ hw₂).bind fun e w₃ h₃ => ?_
        have herr₃ := h₃.errors
        refine ih.operators_next hp ⟨h₃.terminated, by omega, fun heq => ?_⟩
        obtain ⟨ts, hts, he, hprec₃⟩ := h₃.tokens (by omega)
        rw [hstrength, Stratum.above_strength] at he
        refine ⟨w₁.current :: ts, ?_, fun us hus => .inr ⟨s, ?_, by rwa [← hstrength],
          Stratum.strength_above_le (.inl (by omega))⟩⟩
        · rw [← hpend₁, Window.pending_eq (by rwa [hcur₁]), ← hpend₂, hts]; rfl
        · exact .binary (by rwa [hcur₁]) (hus.toExpression hstrength) he
      · have := precedence_eq_lowest hparen hbracket (by simpa using hbinary)
        unfold Precedence.lowest at this
        omega
  · rw [if_neg hprec]
    refine ⟨hw, Nat.le_refl _, fun _ => ⟨[], rfl, fun us hus => ⟨?_, by omega⟩⟩⟩
    rw [List.append_nil]
    rcases hus with h | ⟨s, h, _, hs⟩
    · exact h.toExpression _
    · exact h.loosen _ hs

theorem Sound.expressions_succ (ih : Sound n) (close : Kind) (hclose : close ≠ .endOfInput) :
    ReadsList close Arguments (Parsing.expressions (n + 1) close) := by
  intro w hw
  rw [Parsing.expressions]
  refine yields_aheadIs (fun hahead => ?_) (fun _ => ?_)
  · refine ensures_bind.2 (yields_advance hw fun w₁ hw₁ herr₁ hcur₁ hpend₁ => ?_)
    have hclosing : w₁.current.kind = close := by rw [hcur₁, hahead]
    refine ⟨hw₁, by omega, fun _ => ⟨[w₁.current], ?_, [], [], w₁.current, rfl, rfl, hclosing,
      .none⟩⟩
    rw [← hpend₁, Window.pending_eq (by rwa [hclosing])]; rfl
  · refine ensures_bind.2 (yields_advance hw fun w₁ hw₁ herr₁ _ hpend₁ => ?_)
    refine (ih.expression _ (Nat.le_refl _) w₁ hw₁).bind fun e w₂ h₂ => ?_
    have herr₂ := h₂.errors
    refine (ih.moreExpressions w₂ h₂.terminated).bind fun es w₃ h₃ => ?_
    have herr₃ := h₃.errors
    refine yields_expect h₃.terminated hclose (fun w₄ hw₄ herr₄ hclosing htokens₄ => ?_)
      (fun w₄ hw₄ herr₄ => Reads.of_error hw₄ (by omega))
    refine ⟨hw₄, by omega, fun heq => ?_⟩
    obtain ⟨ts, hts, he, _⟩ := h₂.tokens (by omega)
    obtain ⟨us, hus, hrest⟩ := h₃.tokens (by omega)
    refine ⟨ts ++ us ++ [w₄.current], ?_, _, ts ++ us, w₄.current, rfl, rfl, hclosing, .some ?_⟩
    · rw [← hpend₁, hts, hus, htokens₄]; simp
    · exact hrest.elements he

theorem Sound.moreExpressions_succ (ih : Sound n) (w : Window) (hw : Terminated w.upcoming) :
    Yields (Parsing.moreExpressions (n + 1)) w fun es w' =>
      Reads w.upcoming w w' fun ts => Rest Elements ts es := by
  rw [Parsing.moreExpressions]
  refine yields_aheadIs (fun hahead => ?_) (fun _ => ?_)
  · refine ensures_bind.2 (yields_advance hw fun w₁ hw₁ herr₁ hcur₁ hpend₁ => ?_)
    have hcomma : w₁.current.kind = .comma := by rw [hcur₁, hahead]
    refine ensures_bind.2 (yields_advance hw₁ fun w₂ hw₂ herr₂ _ hpend₂ => ?_)
    refine (ih.expression _ (Nat.le_refl _) w₂ hw₂).bind fun e w₃ h₃ => ?_
    have herr₃ := h₃.errors
    refine (ih.moreExpressions w₃ h₃.terminated).bind fun es w₄ h₄ => ?_
    have herr₄ := h₄.errors
    refine ⟨h₄.terminated, by omega, fun heq => ?_⟩
    obtain ⟨ts, hts, he, _⟩ := h₃.tokens (by omega)
    obtain ⟨us, hus, hrest⟩ := h₄.tokens (by omega)
    refine ⟨w₁.current :: (ts ++ us), ?_, .inr ⟨_, _, rfl, hcomma, hrest.elements he⟩⟩
    rw [← hpend₁, Window.pending_eq (by rw [hcomma]; decide), ← hpend₂, hts, hus]
    simp
  · exact ⟨hw, Nat.le_refl _, fun _ => ⟨[], rfl, .inl ⟨rfl, rfl⟩⟩⟩

theorem Sound.pairs_succ (ih : Sound n) :
    ReadsList .rightBrace Entries (Parsing.pairs (n + 1)) := by
  intro w hw
  rw [Parsing.pairs]
  refine yields_aheadIs (fun hahead => ?_) (fun _ => ?_)
  · refine ensures_bind.2 (yields_advance hw fun w₁ hw₁ herr₁ hcur₁ hpend₁ => ?_)
    have hclosing : w₁.current.kind = .rightBrace := by rw [hcur₁, hahead]
    refine ⟨hw₁, by omega, fun _ => ⟨[w₁.current], ?_, [], [], w₁.current, rfl, rfl, hclosing,
      .none⟩⟩
    rw [← hpend₁, Window.pending_eq (by rw [hclosing]; decide)]; rfl
  refine ensures_bind.2 (yields_advance hw fun w₁ hw₁ herr₁ _ hpend₁ => ?_)
  refine (ih.expression _ (Nat.le_refl _) w₁ hw₁).bind fun l w₂ h₂ => ?_
  have herr₂ := h₂.errors
  refine yields_expect h₂.terminated (by decide) (fun w₃ hw₃ herr₃ hcolon htokens₃ => ?_)
    (fun w₃ hw₃ herr₃ => Reads.of_error hw₃ (by omega))
  refine ensures_bind.2 (yields_advance hw₃ fun w₄ hw₄ herr₄ _ hpend₄ => ?_)
  refine (ih.expression _ (Nat.le_refl _) w₄ hw₄).bind fun r w₅ h₅ => ?_
  have herr₅ := h₅.errors
  -- the tokens of the first pair
  have hfront (heq : w₅.errors.length = w.errors.length) : ∃ ts us,
      w.upcoming = ts ++ w₃.current :: (us ++ w₅.upcoming) ∧
        Expression .equality ts l ∧ Expression .equality us r := by
    obtain ⟨ts, hts, hl, _⟩ := h₂.tokens (by omega)
    obtain ⟨us, hus, hr, _⟩ := h₅.tokens (by omega)
    exact ⟨ts, us, by rw [← hpend₁, hts, htokens₃, ← hpend₄, hus], hl, hr⟩
  refine yields_aheadIs (fun hahead => ?_) (fun _ => ?_)
  · refine ensures_bind.2 (yields_advance h₅.terminated fun w₆ hw₆ herr₆ hcur₆ hpend₆ => ?_)
    have hclosing : w₆.current.kind = .rightBrace := by rw [hcur₆, hahead]
    refine ⟨hw₆, by omega, fun heq => ?_⟩
    obtain ⟨ts, us, hfront, hl, hr⟩ := hfront (by omega)
    refine ⟨ts ++ w₃.current :: us ++ [w₆.current], ?_, _, ts ++ w₃.current :: us, w₆.current, rfl,
      rfl, hclosing, .last hl hcolon hr⟩
    rw [hfront, ← hpend₆, Window.pending_eq (by rw [hclosing]; decide)]
    simp
  · refine yields_expect h₅.terminated (by decide) (fun w₆ hw₆ herr₆ hcomma htokens₆ => ?_)
      (fun w₆ hw₆ herr₆ => Reads.of_error hw₆ (by omega))
    refine (ih.pairs w₆ hw₆).bind fun o w₇ h₇ => ?_
    have herr₇ := h₇.errors
    refine ⟨h₇.terminated, by omega, fun heq => ?_⟩
    obtain ⟨ts, us, hfront, hl, hr⟩ := hfront (by omega)
    obtain ⟨vs, hvs, ps, inner, closing, rfl, rfl, hclosing, hps⟩ := h₇.tokens (by omega)
    refine ⟨ts ++ w₃.current :: (us ++ w₆.current :: inner) ++ [closing], ?_, _, _, closing, rfl, rfl,
      hclosing, .more hl hcolon hr hcomma hps⟩
    rw [hfront, htokens₆, hvs]
    simp

theorem Sound.function_succ (ih : Sound n) (w : Window) (hw : Terminated w.upcoming)
    (hk : w.current.kind = .function) : Yields (Parsing.function (n + 1)) w fun e w' =>
      Reads w.pending w w' fun ts => Primary ts e := by
  rw [Parsing.function]
  refine yields_current ?_
  refine yields_expect hw (by decide) (fun w₁ hw₁ herr₁ hopening htokens₁ => ?_)
    (fun w₁ hw₁ herr₁ => Reads.of_error hw₁ herr₁)
  refine (parameters_sound n w₁ hw₁).bind fun o w₂ h₂ => ?_
  have herr₂ := h₂.errors
  cases o with
  | none =>
    refine ⟨h₂.terminated, by omega, fun heq => ?_⟩
    obtain ⟨_, _, _, _, _, h, _⟩ := h₂.tokens (by omega)
    exact nomatch h
  | some is =>
    refine yields_expect h₂.terminated (by decide) (fun w₃ hw₃ herr₃ hbrace htokens₃ => ?_)
      (fun w₃ hw₃ herr₃ => Reads.of_error hw₃ (by omega))
    refine (ih.block w₃ hw₃ hbrace).bind fun b w₄ h₄ => ?_
    have herr₄ := h₄.errors
    refine ⟨h₄.terminated, by omega, fun heq => ?_⟩
    obtain ⟨_, hts, _, inner, closing, his, rfl, hclosing, hparams⟩ := h₂.tokens (by omega)
    obtain ⟨us, hus, hb⟩ := h₄.tokens (by omega)
    cases his
    refine ⟨_, ?_, .function hk hopening hparams hclosing hb⟩
    rw [Window.pending_eq (by rw [hk]; decide), htokens₁, hts, htokens₃,
      ← Window.pending_eq (by rw [hbrace]; decide), hus]
    simp

end Step

/-- However many steps they are given, the parsers read what they build. -/
theorem sound (n : Nat) : Sound n := by
  induction n with
  | zero =>
    constructor <;> intros
    · rw [statement]; intro w _ _; trivial
    · rw [conditional]; intro w _ _; trivial
    · rw [block]; intro w _ _; trivial
    · rw [statements]; intro w _; trivial
    · rw [expression]; intro w _; trivial
    · rw [operand]; trivial
    · rw [function]; trivial
    · rw [operators]; trivial
    · rw [expressions]; intro w _; trivial
    · rw [moreExpressions]; trivial
    · rw [pairs]; intro w _; trivial
  | succ n ih =>
    exact ⟨ih.statement_succ, ih.conditional_succ, ih.block_succ, ih.statements_succ,
      ih.expression_succ, ih.operand_succ, ih.function_succ, ih.operators_succ, ih.expressions_succ,
      ih.moreExpressions_succ, ih.pairs_succ⟩

/-! ### Programs -/

/-- Reading to the end without an error reads statements up to the end token. -/
theorem readStatements_sound (steps count : Nat) (w : Window) (hw : Terminated w.upcoming)
    (hhalt : (readStatements steps count w).halt = none) :
    w.errors.length ≤ (readStatements steps count w).window.errors.length ∧
      ((readStatements steps count w).window.errors.length = w.errors.length →
        ∃ ts last, w.pending = ts ++ [last] ∧
          Statements ts ((readStatements steps count w).steps.filterMap Step.statement)) := by
  fun_induction readStatements steps count w with
  | case1 => cases hhalt
  | case2 count w hend =>
    exact ⟨Nat.le_refl _, fun _ => ⟨[], w.current, Window.pending_of_end hend, .nil⟩⟩
  | case3 => cases hhalt
  | case4 => cases hhalt
  | case5 count w hend o w₁ hstatement _ w₂ hadvance trace ih =>
    have h₁ := ((sound steps).statement w hw trivial).of_ok hstatement
    have herr₁ := h₁.errors
    have hstep : Yields advance w₁ fun _ w' => Terminated w'.upcoming ∧
        w'.errors.length = w₁.errors.length ∧ w'.pending = w₁.upcoming :=
      yields_advance h₁.terminated fun _ ht he _ hp => ⟨ht, he, hp⟩
    obtain ⟨hw₂, herr₂, hpend₂⟩ := hstep.of_ok hadvance
    obtain ⟨herr, htokens⟩ := ih hw₂ hhalt
    refine ⟨?_, fun heq => ?_⟩
    · show w.errors.length ≤ (readStatements steps count w₂).window.errors.length
      omega
    replace heq : (readStatements steps count w₂).window.errors.length = w.errors.length := heq
    obtain ⟨ts, hts, st, rfl, hst⟩ := h₁.tokens (by omega)
    obtain ⟨us, last, hus, hss⟩ := htokens (by omega)
    exact ⟨ts ++ us, last, by rw [hts, ← hpend₂, hus, List.append_assoc], .cons hst hss⟩

theorem yields_fill {tokens : List Token} (h : Terminated tokens) :
    Yields fill (Window.before tokens) fun _ w =>
      Terminated w.upcoming ∧ w.errors = [] ∧ w.pending = tokens := by
  cases tokens with
  | nil => exact h.elim
  | cons t ts =>
    unfold fill
    refine ensures_bind.2 ?_
    unfold Ensures
    rw [run_advance]
    by_cases hk : t.kind = .illegal
    · rw [if_pos (show (Window.before (t :: ts)).shift.ahead.kind = .illegal from hk)]; trivial
    rw [if_neg (show (Window.before (t :: ts)).shift.ahead.kind ≠ .illegal from hk)]
    exact yields_advance h fun w hw herr _ hpend =>
      ⟨hw, List.length_eq_zero_iff.1 herr, hpend⟩

end Parsing

open Parsing

/-- A program that is parsed without an error is derived by the tokens before the end token. -/
theorem derives_of_parse {source : String} {program : Program}
    (h : parse source = .ok ⟨program, []⟩) : Derives (tokenize source).dropLast program := by
  rw [parse_eq] at h
  have hfill := yields_fill (terminated_tokenize source)
  cases hrun : fill.run (Window.before (tokenize source)) with
  | error halt w => rw [hrun] at h; cases h
  | ok _ w =>
    rw [hrun] at h
    obtain ⟨hw, herr, hpend⟩ := hfill.of_ok hrun
    have hsound := readStatements_sound (stepsFor (tokenize source)) (stepsFor (tokenize source)) w hw
    dsimp only at h
    generalize readStatements (stepsFor (tokenize source)) (stepsFor (tokenize source)) w = trace
      at h hsound
    cases hhalt : trace.halt with
    | some halt => rw [hhalt] at h; cases h
    | none =>
      rw [hhalt] at h
      simp only [Except.ok.injEq, Parsed.mk.injEq] at h
      obtain ⟨rfl, herrors⟩ := h
      obtain ⟨ts, last, hts, hss⟩ := (hsound hhalt).2 (by rw [herrors, herr])
      rw [← hpend, hts, List.dropLast_concat]
      exact hss

end MonkeyLang
