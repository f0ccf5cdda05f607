import MonkeyLang.Proofs.Lexing.Concatenation
import MonkeyLang.Proofs.Parsing.Acceptance
import MonkeyLang.Proofs.Parsing.Lines
import MonkeyLang.Tree.Render

/-!
# Parsing undoes rendering

The text of a tree tells how the tree is built, as long as the tree has neither text literals, which
are rendered without their quotes, nor functions, whose bodies are rendered without their braces.

* `Legible` are the expressions without them, with tokens and values as the parser makes them. The
  statements around them are declarations and returns, which end with a semicolon; other statements
  are rendered without one.
* `Shows text ts e`: the text, on the first line, is read as tokens that derive `e`, wherever no
  letter or digit follows.
* `parse_render` says that the tree is read back, with all its tokens on the first line.
-/

namespace MonkeyLang

open Parsing Grammar

/-! ### Legible trees -/

namespace Token

/-- The token of an operator or a delimiter. -/
structure IsSymbol (t : Token) (k : Kind) : Prop where
  kind : t.kind = k
  literal : t.literal = k.name

/-- The token of a keyword. -/
structure IsKeyword (t : Token) (k : Kind) : Prop where
  kind : t.kind = k
  mem : (t.literal, k) ∈ keywords

/-- The token of a word that is no keyword. -/
structure IsName (t : Token) : Prop where
  kind : t.kind = .identifier
  ne_nil : t.literal.toList ≠ []
  letters : ∀ c ∈ t.literal.toList, isLetter c
  free : ∀ k, (t.literal, k) ∉ keywords

/-- The token of a number that is not too long or too large. -/
structure IsNumber (t : Token) : Prop where
  kind : t.kind = .integer
  ne_nil : t.literal.toList ≠ []
  digits : ∀ c ∈ t.literal.toList, isDigit c
  length : t.literal.length ≤ maxDigits
  value : decimal t.literal ≤ maxInteger

end Token

/-- The expressions whose text can be read back, with tokens and values as the parser makes them. -/
inductive Legible : Expr → Prop
  | identifier {t : Token} : t.IsName → Legible (.identifier ⟨t, t.literal⟩)
  | integer {t : Token} : t.IsNumber → Legible (.integer t (decimal t.literal))
  | boolean {t : Token} : t.IsKeyword .boolean → Legible (.boolean t (t.literal = "true"))
  | unary {t : Token} {k e} : k = .bang ∨ k = .minus → t.IsSymbol k → Legible e →
      Legible (.unary t k.name e)
  | binary {t : Token} {k l r} : k.isBinary → t.IsSymbol k → Legible l → Legible r →
      Legible (.binary t l k.name r)
  | call {t : Token} {e es} : t.IsSymbol .leftParen → Legible e → (∀ a ∈ es, Legible a) →
      Legible (.call t e es)
  | array {t : Token} {es} : t.IsSymbol .leftBracket → (∀ a ∈ es, Legible a) →
      Legible (.array t es)
  | index {t : Token} {l r} : t.IsSymbol .leftBracket → Legible l → Legible r →
      Legible (.index t l r)
  | hash {t : Token} {ps} : t.IsSymbol .leftBrace → (∀ p ∈ ps, Legible p.1) →
      (∀ p ∈ ps, Legible p.2) → Legible (.hash t ps)

/-- The declarations and returns of legible expressions. -/
inductive LegibleStatement : Stmt → Prop
  | declaration {t name : Token} {k e} : k = .var ∨ k = .const → t.IsKeyword k → name.IsName →
      Legible e → LegibleStatement (.declaration t ⟨name, name.literal⟩ e)
  | bareReturn {t : Token} : t.IsKeyword .ret → LegibleStatement (.ret t .missing)
  | valueReturn {t : Token} {e} : t.IsKeyword .ret → Legible e → LegibleStatement (.ret t e)

/-- The programs of such statements. -/
def LegibleProgram (p : Program) : Prop := ∀ st ∈ p.statements, LegibleStatement st

/-! ### Rendering knows no lines -/

section Lines

variable {f : Nat → Nat}

/-- The text of a legible expression has nothing of the lines of its tokens. -/
theorem Legible.render_mapLines {e : Expr} (h : Legible e) :
    (e.mapLines f).render = e.render := by
  induction h with
  | identifier | integer | boolean => rfl
  | unary _ _ _ ih => rw [Expr.mapLines, Expr.render, Expr.render, ih]
  | binary _ _ _ _ ihl ihr => rw [Expr.mapLines, Expr.render, Expr.render, ihl, ihr]
  | call _ _ _ ih ihs =>
    rw [Expr.mapLines, Expr.render, Expr.render, ih, Expr.mapLinesList_eq, renderList_map ihs]
  | array _ _ ihs =>
    rw [Expr.mapLines, Expr.render, Expr.render, Expr.mapLinesList_eq, renderList_map ihs]
  | index _ _ _ ihl ihr => rw [Expr.mapLines, Expr.render, Expr.render, ihl, ihr]
  | hash _ _ _ ihl ihr =>
    rw [Expr.mapLines, Expr.render, Expr.render, Expr.mapLinesPairs_eq, renderPairs_map ihl ihr]

theorem Legible.isMissing {e : Expr} (h : Legible e) : e.isMissing = false := by
  cases h <;> rfl

theorem Legible.isMissing_mapLines {e : Expr} (h : Legible e) :
    (e.mapLines f).isMissing = false := by
  cases h <;> rfl

theorem LegibleStatement.render_mapLines {st : Stmt} (h : LegibleStatement st) :
    (st.mapLines f).render = st.render := by
  cases h with
  | declaration _ _ _ h =>
    rw [Stmt.mapLines, Stmt.render, Stmt.render, h.isMissing, h.isMissing_mapLines,
      h.render_mapLines]
    rfl
  | bareReturn => rfl
  | valueReturn _ h =>
    rw [Stmt.mapLines, Stmt.render, Stmt.render, h.isMissing, h.isMissing_mapLines,
      h.render_mapLines]
    rfl

theorem LegibleProgram.render_mapLines {p : Program} (h : LegibleProgram p) :
    (p.mapLines f).render = p.render := by
  obtain ⟨ss⟩ := p
  induction ss with
  | nil => rfl
  | cons st ss ih =>
    obtain ⟨hst, hss⟩ := List.forall_mem_cons.1 h
    show (st.mapLines f).render ++ (Program.mapLines f ⟨ss⟩).render =
      st.render ++ Program.render ⟨ss⟩
    rw [hst.render_mapLines, ih hss]

end Lines

/-! ### Tokens on the first line -/

/-- No word or number goes on at the head of the text. -/
def Apart (text : List Char) : Prop := ∀ c ∈ text.head?, isLetter c = false ∧ isDigit c = false

theorem apart_cons {c : Char} (h : isLetter c = false ∧ isDigit c = false) (cs : List Char) :
    Apart (c :: cs) := by
  intro d hd
  obtain rfl := Option.some.inj hd
  exact h

/-- The characters that may make up an operator or the mark of a comment with the next one. -/
def joiners : List Char := ['=', '!', '<', '>', '/']

/-- The token of a symbol as it stands on the first line. -/
def symbol (k : Kind) : Token := ⟨k, k.name, 1⟩

theorem Token.IsSymbol.eq_symbol {t : Token} {k : Kind} (h : t.IsSymbol k) :
    t.mapLines firstLine = symbol k := by
  obtain ⟨rfl, hliteral⟩ := h
  rw [symbol, ← hliteral]
  rfl

section Tokens

variable {t : Token} {k : Kind} {c : Char} {rest : List Char} {us : List Token}

/-- Only text literals and illegal characters are spelled with line ends. -/
theorem Spells.newline_not_mem {kind : Kind} {literal : String} {spelling : List Char}
    (h : Spells kind literal spelling rest) (hkind : kind ≠ .text ∧ kind ≠ .illegal) :
    '\n' ∉ spelling := by
  cases h with
  | keyword _ hrun | identifier _ hrun | integer hrun =>
    exact fun hmem => absurd (hrun.all _ hmem) (by decide)
  | text | cutText => exact absurd rfl hkind.1
  | double hmark =>
    have hall : ∀ mark ∈ doubleMarks, '\n' ∉ [mark.1.1, mark.1.2] := by decide
    exact hall _ hmark
  | single hmark =>
    have hall : ∀ mark ∈ marks, '\n' ∉ [mark.1] := by decide
    exact hall _ hmark
  | illegal => exact absurd rfl hkind.2

/-- A lexeme stands in front of what follows on its line. -/
theorem layout_of_spells {kind : Kind} {literal : String} {spelling : List Char}
    (h : Spells kind literal spelling rest) (hkind : kind ≠ .text ∧ kind ≠ .illegal)
    (hrest : Layout 1 rest us) : Layout 1 (spelling ++ rest) (⟨kind, literal, 1⟩ :: us) := by
  have hcount : ([] ++ spelling).count '\n' = 0 := List.count_eq_zero.2 (h.newline_not_mem hkind)
  have hgap : Gap [] (spelling ++ rest) := .nil
  exact .token hgap h (by rwa [hcount])

theorem layout_space (h : Layout 1 rest us) : Layout 1 (' ' :: rest) us := by
  have hspace : Filler [' '] := .blank rfl .nil
  exact hspace.layout h

theorem Token.IsName.layout (ht : t.IsName) (hrest : Apart rest) (h : Layout 1 rest us) :
    Layout 1 (t.literal.toList ++ rest) (t.mapLines firstLine :: us) := by
  have hrun : Longest isLetter t.literal.toList rest :=
    ⟨ht.ne_nil, ht.letters, fun c hc => (hrest c hc).1⟩
  have hspells := Spells.identifier (by simpa using ht.free) hrun
  rw [String.ofList_toList, ← ht.kind] at hspells
  exact layout_of_spells hspells (by rw [ht.kind]; decide) h

theorem Token.IsNumber.layout (ht : t.IsNumber) (hrest : Apart rest) (h : Layout 1 rest us) :
    Layout 1 (t.literal.toList ++ rest) (t.mapLines firstLine :: us) := by
  have hrun : Longest isDigit t.literal.toList rest :=
    ⟨ht.ne_nil, ht.digits, fun c hc => (hrest c hc).2⟩
  have hspells := Spells.integer hrun
  rw [String.ofList_toList, ← ht.kind] at hspells
  exact layout_of_spells hspells (by rw [ht.kind]; decide) h

theorem Token.IsKeyword.layout (ht : t.IsKeyword k) (hrest : Apart rest) (h : Layout 1 rest us) :
    Layout 1 (t.literal.toList ++ rest) (t.mapLines firstLine :: us) := by
  obtain ⟨hne, hletters, hkind⟩ := letters_of_mem_keywords ht.mem
  have hrun : Longest isLetter t.literal.toList rest := ⟨hne, hletters, fun c hc => (hrest c hc).1⟩
  have hspells := Spells.keyword (by simpa using ht.mem) hrun
  rw [String.ofList_toList, ← ht.kind] at hspells
  exact layout_of_spells hspells (by rwa [ht.kind]) h

/-- One character is the name of the symbol that it spells. -/
theorem name_of_mem_marks (h : (c, k) ∈ marks) :
    k.name = String.ofList [c] ∧ k ≠ .text ∧ k ≠ .illegal := by
  have hall : ∀ mark ∈ marks,
      mark.2.name = String.ofList [mark.1] ∧ mark.2 ≠ .text ∧ mark.2 ≠ .illegal := by decide
  exact hall _ h

/-- Two characters are the name of the symbol that they spell. -/
theorem name_of_mem_doubleMarks {d : Char} (h : ((c, d), k) ∈ doubleMarks) :
    k.name = String.ofList [c, d] := by
  have hall : ∀ mark ∈ doubleMarks, mark.2.name = String.ofList [mark.1.1, mark.1.2] := by decide
  exact hall _ h

/-- A delimiter is read whatever follows. -/
theorem layout_delimiter (hc : singleOperator c = some k) (hsolid : c ∉ joiners)
    (h : Layout 1 rest us) : Layout 1 (c :: rest) (symbol k :: us) := by
  have hmark := singleOperator_eq_some_iff.1 hc
  obtain ⟨hname, hkind⟩ := name_of_mem_marks hmark
  have hall : ∀ mark ∈ doubleMarks, mark.1.1 ∈ joiners := by decide
  have halone : ∀ d ∈ rest.head?, ∀ kind, ((c, d), kind) ∉ doubleMarks :=
    fun d _ kind hmem => hsolid (hall _ hmem)
  have hspells := Spells.single hmark halone (by rintro rfl; simp [joiners] at hsolid)
  rw [← hname] at hspells
  exact layout_of_spells hspells hkind h

/-- An operator before its operand is read unless an equals sign follows. -/
theorem layout_unary (hk : k = .bang ∨ k = .minus) (hrest : ∀ c ∈ rest.head?, c ≠ '=')
    (h : Layout 1 rest us) : Layout 1 (k.name.toList ++ rest) (symbol k :: us) := by
  obtain rfl | rfl := hk
  · have hall : ∀ mark ∈ doubleMarks, mark.1.2 = '=' := by decide
    have halone : ∀ d ∈ rest.head?, ∀ kind, (('!', d), kind) ∉ doubleMarks :=
      fun d hd kind hmem => hrest d hd (hall _ hmem)
    have hspells : Spells .bang _ ['!'] rest :=
      .single (by decide) halone fun hslash => absurd hslash (by decide)
    exact layout_of_spells hspells (by decide) h
  · exact layout_delimiter rfl (by decide) h

/-- An operator between its operands is read when a blank follows. -/
theorem layout_operator (hk : k.isBinary ∨ k = .assign) (h : Layout 1 rest us) :
    Layout 1 (k.name.toList ++ ' ' :: rest) (symbol k :: us) := by
  have hsingle (c : Char) (hc : (c, k) ∈ marks) : Written k k.name k.name.toList := by
    rw [(name_of_mem_marks hc).1, String.toList_ofList]
    exact .single hc
  have hdouble (c d : Char) (hcd : ((c, d), k) ∈ doubleMarks) :
      Written k k.name k.name.toList := by
    rw [name_of_mem_doubleMarks hcd, String.toList_ofList]
    exact .double hcd
  have hwritten : Written k k.name k.name.toList := by
    cases k with
    | assign => exact hsingle '=' (by decide)
    | plus => exact hsingle '+' (by decide)
    | minus => exact hsingle '-' (by decide)
    | asterisk => exact hsingle '*' (by decide)
    | slash => exact hsingle '/' (by decide)
    | less => exact hsingle '<' (by decide)
    | greater => exact hsingle '>' (by decide)
    | equal => exact hdouble '=' '=' (by decide)
    | notEqual => exact hdouble '!' '=' (by decide)
    | lessEqual => exact hdouble '<' '=' (by decide)
    | greaterEqual => exact hdouble '>' '=' (by decide)
    | _ => simp [Kind.isBinary] at hk
  have hkind : k ≠ .text ∧ k ≠ .illegal := by
    constructor <;> rintro rfl <;> simp [Kind.isBinary] at hk
  have hblank : BlankAhead (' ' :: rest) := by simp [BlankAhead, isSpace]
  exact layout_of_spells (hwritten.spells hblank) hkind (layout_space h)

/-- Delimiters around a text are read whatever follows them. -/
theorem layout_enclosed {d : Char} {k' : Kind} {text : String} {ts : List Token}
    (hc : singleOperator c = some k) (hd : singleOperator d = some k')
    (hsolid : c ∉ joiners ∧ d ∉ joiners)
    (htext : ∀ {rest us}, Apart rest → Layout 1 rest us → Layout 1 (text.toList ++ rest) (ts ++ us))
    (h : Layout 1 rest us) :
    Layout 1 (c :: (text.toList ++ d :: rest)) (symbol k :: (ts ++ symbol k' :: us)) := by
  obtain ⟨-, hletter, hdigit, -⟩ := classes_of_mem_marks (singleOperator_eq_some_iff.1 hd)
  have hclosing := layout_delimiter hd hsolid.2 h
  exact layout_delimiter hc hsolid.1 (htext (apart_cons ⟨hletter, hdigit⟩ rest) hclosing)

/-- A word or a number does not begin as the end of an operator. -/
theorem first_of_all {p : Char → Bool} {text : String} (hne : text.toList ≠ [])
    (hall : ∀ c ∈ text.toList, p c) (hp : p '=' = false) :
    ∃ c cs, text.toList = c :: cs ∧ c ≠ '=' := by
  obtain ⟨c, cs, hcons⟩ := List.exists_cons_of_ne_nil hne
  refine ⟨c, cs, hcons, ?_⟩
  rintro rfl
  have heq := hall '=' (by simp [hcons])
  rw [hp] at heq
  cases heq

end Tokens

/-! ### Expressions -/

/-- The text is read as the tokens, which derive the expression. -/
structure Shows (text : String) (ts : List Token) (e : Expr) : Prop where
  derives : Postfix ts e
  layout : ∀ {rest us}, Apart rest → Layout 1 rest us → Layout 1 (text.toList ++ rest) (ts ++ us)
  first : ∃ c cs, text.toList = c :: cs ∧ c ≠ '='

/-- The text is read as the tokens, which derive the items. -/
structure ShowsList {α : Type} (D : List Token → List α → Prop) (text : String) (ts : List Token)
    (as : List α) : Prop where
  derives : D ts as
  layout : ∀ {rest us}, Apart rest → Layout 1 rest us → Layout 1 (text.toList ++ rest) (ts ++ us)

namespace Shows

variable {t : Token} {k : Kind} {e l r : Expr} {ts us : List Token} {text text' : String}

theorem identifier (ht : t.IsName) :
    Shows t.literal [t.mapLines firstLine] (.identifier ⟨t.mapLines firstLine, t.literal⟩) where
  derives := .primary (.identifier ht.kind)
  layout := ht.layout
  first := first_of_all ht.ne_nil ht.letters (by decide)

theorem integer (ht : t.IsNumber) :
    Shows t.literal [t.mapLines firstLine]
      (.integer (t.mapLines firstLine) (decimal t.literal)) where
  derives := .primary (.integer ht.kind ht.length ht.value)
  layout := ht.layout
  first := first_of_all ht.ne_nil ht.digits (by decide)

theorem boolean (ht : t.IsKeyword .boolean) :
    Shows t.literal [t.mapLines firstLine]
      (.boolean (t.mapLines firstLine) (t.literal = "true")) where
  derives := .primary (.boolean ht.kind)
  layout := ht.layout
  first := by
    obtain ⟨hne, hletters, -⟩ := letters_of_mem_keywords ht.mem
    exact first_of_all hne hletters (by decide)

/-- What stands in parentheses is an operand. -/
theorem group (he : Expression .equality ts e)
    (hlayout : ∀ {rest us}, Apart rest → Layout 1 rest us →
      Layout 1 (text.toList ++ rest) (ts ++ us)) :
    Shows ("(" ++ text ++ ")") (symbol .leftParen :: (ts ++ [symbol .rightParen])) e where
  derives := .primary (.group rfl he rfl)
  layout := by
    intro rest us _ h
    simpa using layout_enclosed (c := '(') (d := ')') rfl rfl (by decide) hlayout h
  first := ⟨'(', _, by simp; rfl, by decide⟩

theorem unary (hk : k = .bang ∨ k = .minus) (h : Shows text ts e) :
    Shows ("(" ++ k.name ++ text ++ ")")
      (symbol .leftParen :: (symbol k :: ts ++ [symbol .rightParen]))
      (.unary (symbol k) k.name e) := by
  have hexpression : Expression .unary (symbol k :: ts) (.unary (symbol k) k.name e) :=
    .unary hk (h.derives.toExpression _)
  have htext : "(" ++ k.name ++ text ++ ")" = "(" ++ (k.name ++ text) ++ ")" := by
    simp [String.append_assoc]
  rw [htext]
  refine group (hexpression.loosen _ (by decide)) fun hrest hus => ?_
  obtain ⟨c, cs, hcons, hc⟩ := h.first
  have hoperand := h.layout hrest hus
  rw [String.toList_append, List.append_assoc]
  refine layout_unary hk ?_ hoperand
  simp [hcons, hc]

theorem binary (hk : k.isBinary) (hl : Shows text ts l) (hr : Shows text' us r) :
    Shows ("(" ++ text ++ " " ++ k.name ++ " " ++ text' ++ ")")
      (symbol .leftParen :: (ts ++ symbol k :: us ++ [symbol .rightParen]))
      (.binary (symbol k) l k.name r) := by
  obtain ⟨s, -, hoperator, -⟩ := exists_stratum hk
  have hexpression : Expression s (ts ++ symbol k :: us) (.binary (symbol k) l k.name r) :=
    .binary hoperator (hl.derives.toExpression _) (hr.derives.toExpression _)
  have htext : "(" ++ text ++ " " ++ k.name ++ " " ++ text' ++ ")" =
      "(" ++ (text ++ " " ++ k.name ++ " " ++ text') ++ ")" := by
    simp [String.append_assoc]
  rw [htext]
  refine group (hexpression.loosen _ (by cases s <;> decide)) fun hrest hvs => ?_
  have hright := layout_operator (.inl hk) (hr.layout hrest hvs)
  have hleft := hl.layout (apart_cons (by decide) _) (layout_space hright)
  simpa using hleft

theorem call {es : List Expr} (h : Shows text ts e) (hargs : ShowsList Arguments text' us es) :
    Shows (text ++ "(" ++ text' ++ ")") (ts ++ symbol .leftParen :: (us ++ [symbol .rightParen]))
      (.call (symbol .leftParen) e es) where
  derives := .call h.derives rfl hargs.derives rfl
  layout := by
    intro rest vs _ hvs
    have hinside := layout_enclosed (c := '(') (d := ')') rfl rfl (by decide) hargs.layout hvs
    simpa using h.layout (apart_cons (by decide) _) hinside
  first := by
    obtain ⟨c, cs, hcons, hc⟩ := h.first
    exact ⟨c, _, by simp [hcons]; rfl, hc⟩

theorem index (hl : Shows text ts l) (hr : Shows text' us r) :
    Shows ("(" ++ text ++ "[" ++ text' ++ "])")
      (symbol .leftParen ::
        (ts ++ symbol .leftBracket :: (us ++ [symbol .rightBracket]) ++ [symbol .rightParen]))
      (.index (symbol .leftBracket) l r) := by
  have hindex : Postfix (ts ++ symbol .leftBracket :: (us ++ [symbol .rightBracket]))
      (.index (symbol .leftBracket) l r) :=
    .index hl.derives rfl (hr.derives.toExpression _) rfl
  have htext : "(" ++ text ++ "[" ++ text' ++ "])" =
      "(" ++ (text ++ "[" ++ text' ++ "]") ++ ")" := by
    simp [String.append_assoc]
  rw [htext]
  refine group (hindex.toExpression _) fun hrest hvs => ?_
  have hinside := layout_enclosed (c := '[') (d := ']') rfl rfl (by decide) hr.layout hvs
  simpa using hl.layout (apart_cons (by decide) _) hinside

theorem array {es : List Expr} (hes : ShowsList Arguments text ts es) :
    Shows ("[" ++ text ++ "]") (symbol .leftBracket :: (ts ++ [symbol .rightBracket]))
      (.array (symbol .leftBracket) es) where
  derives := .primary (.array rfl hes.derives rfl)
  layout := by
    intro rest us _ h
    simpa using layout_enclosed (c := '[') (d := ']') rfl rfl (by decide) hes.layout h
  first := ⟨'[', _, by simp; rfl, by decide⟩

theorem hash {ps : List (Expr × Expr)} (hps : ShowsList Entries text ts ps) :
    Shows ("\x7b" ++ text ++ "\x7d") (symbol .leftBrace :: (ts ++ [symbol .rightBrace]))
      (.hash (symbol .leftBrace) ps) where
  derives := .primary (.hash rfl hps.derives rfl)
  layout := by
    intro rest us _ h
    simpa using layout_enclosed (c := '\x7b') (d := '\x7d') rfl rfl (by decide) hps.layout h
  first := ⟨'\x7b', _, by simp; rfl, by decide⟩

end Shows

/-- The text of an expression is read as tokens that derive it, on the first line. -/
def Readable (e : Expr) : Prop := ∃ ts, Shows e.render ts (e.mapLines firstLine)

theorem shows_elements {e : Expr} {es : List Expr} (h : ∀ a ∈ e :: es, Readable a) :
    ∃ ts, ShowsList Elements (", ".intercalate (Expr.renderList (e :: es))) ts
      ((e :: es).map (Expr.mapLines firstLine)) := by
  induction es generalizing e with
  | nil =>
    obtain ⟨ts, hts⟩ := h e List.mem_cons_self
    refine ⟨ts, .one (hts.derives.toExpression _), fun hrest hus => ?_⟩
    simpa [Expr.renderList] using hts.layout hrest hus
  | cons e' es ih =>
    obtain ⟨he, hes⟩ := List.forall_mem_cons.1 h
    obtain ⟨ts, hts⟩ := he
    obtain ⟨us, hus⟩ := ih hes
    refine ⟨ts ++ symbol .comma :: us, .more (hts.derives.toExpression _) rfl hus.derives, ?_⟩
    intro rest vs hrest hvs
    have hcomma := layout_delimiter (c := ',') rfl (by decide) (layout_space (hus.layout hrest hvs))
    simpa [Expr.renderList] using hts.layout (apart_cons (by decide) _) hcomma

theorem shows_arguments {es : List Expr} (h : ∀ a ∈ es, Readable a) :
    ∃ ts, ShowsList Arguments (", ".intercalate (Expr.renderList es)) ts
      (es.map (Expr.mapLines firstLine)) := by
  cases es with
  | nil => exact ⟨[], .none, fun _ h => by simpa [Expr.renderList] using h⟩
  | cons e es =>
    obtain ⟨ts, hts⟩ := shows_elements h
    exact ⟨ts, .some hts.derives, hts.layout⟩

theorem shows_entries {ps : List (Expr × Expr)} (hkeys : ∀ p ∈ ps, Readable p.1)
    (hvalues : ∀ p ∈ ps, Readable p.2) :
    ∃ ts, ShowsList Entries (", ".intercalate (Expr.renderPairs ps)) ts
      (ps.map (Prod.map (Expr.mapLines firstLine) (Expr.mapLines firstLine))) := by
  induction ps with
  | nil => exact ⟨[], .none, fun _ h => by simpa [Expr.renderPairs] using h⟩
  | cons p ps ih =>
    obtain ⟨⟨ts, hts⟩, hkeys⟩ := List.forall_mem_cons.1 hkeys
    obtain ⟨⟨us, hus⟩, hvalues⟩ := List.forall_mem_cons.1 hvalues
    obtain ⟨vs, hvs⟩ := ih hkeys hvalues
    obtain ⟨key, value⟩ := p
    have hkey := hts.derives.toExpression .equality
    have hvalue := hus.derives.toExpression .equality
    cases ps with
    | nil =>
      refine ⟨ts ++ symbol .colon :: us, .last hkey rfl hvalue, fun hrest hrun => ?_⟩
      have hcolon := layout_delimiter (c := ':') rfl (by decide) (hus.layout hrest hrun)
      simpa [Expr.renderPairs] using hts.layout (apart_cons (by decide) _) hcolon
    | cons p' ps =>
      refine ⟨ts ++ symbol .colon :: (us ++ symbol .comma :: vs),
        .more hkey rfl hvalue rfl hvs.derives, fun hrest hrun => ?_⟩
      have hpairs := layout_space (hvs.layout hrest hrun)
      have hcomma := layout_delimiter (c := ',') rfl (by decide) hpairs
      have hpair := hus.layout (apart_cons (by decide) _) hcomma
      have hcolon := layout_delimiter (c := ':') rfl (by decide) hpair
      simpa [Expr.renderPairs] using hts.layout (apart_cons (by decide) _) hcolon

/-- The text of a legible expression is read as tokens that derive it. -/
theorem Legible.readable {e : Expr} (h : Legible e) : Readable e := by
  induction h with
  | identifier ht => exact ⟨_, .identifier ht⟩
  | integer ht => exact ⟨_, .integer ht⟩
  | boolean ht => exact ⟨_, .boolean ht⟩
  | unary hk ht _ ih =>
    obtain ⟨ts, hts⟩ := ih
    rw [Readable, Expr.mapLines, ht.eq_symbol]
    exact ⟨_, hts.unary hk⟩
  | binary hk ht _ _ ihl ihr =>
    obtain ⟨ts, hts⟩ := ihl
    obtain ⟨us, hus⟩ := ihr
    rw [Readable, Expr.mapLines, ht.eq_symbol]
    exact ⟨_, hts.binary hk hus⟩
  | call ht _ _ ih ihs =>
    obtain ⟨ts, hts⟩ := ih
    obtain ⟨us, hus⟩ := shows_arguments ihs
    rw [Readable, Expr.mapLines, ht.eq_symbol, Expr.mapLinesList_eq]
    exact ⟨_, hts.call hus⟩
  | array ht _ ihs =>
    obtain ⟨us, hus⟩ := shows_arguments ihs
    rw [Readable, Expr.mapLines, ht.eq_symbol, Expr.mapLinesList_eq]
    exact ⟨_, .array hus⟩
  | index ht _ _ ihl ihr =>
    obtain ⟨ts, hts⟩ := ihl
    obtain ⟨us, hus⟩ := ihr
    rw [Readable, Expr.mapLines, ht.eq_symbol]
    exact ⟨_, hts.index hus⟩
  | hash ht _ _ ihl ihr =>
    obtain ⟨us, hus⟩ := shows_entries ihl ihr
    rw [Readable, Expr.mapLines, ht.eq_symbol, Expr.mapLinesPairs_eq]
    exact ⟨_, .hash hus⟩

/-! ### Statements and programs -/

/-- A legible statement ends with a semicolon, so that it is read whatever follows. -/
theorem LegibleStatement.readable {st : Stmt} (h : LegibleStatement st) :
    ∃ ts, Statement ts (st.mapLines firstLine) ∧
      ∀ rest us, Layout 1 rest us → Layout 1 (st.render.toList ++ rest) (ts ++ us) := by
  cases h with
  | @declaration t name k e hk ht hname he =>
    obtain ⟨ts, hts⟩ := he.readable
    have hkeyword : t.kind = .var ∨ t.kind = .const := by rwa [ht.kind]
    refine ⟨t.mapLines firstLine :: name.mapLines firstLine :: symbol .assign ::
      (ts ++ [symbol .semicolon]), .declaration hkeyword hname.kind rfl
      (hts.derives.toExpression _) rfl, fun rest us h => ?_⟩
    have hsemicolon := layout_delimiter (c := ';') rfl (by decide) h
    have hvalue := hts.layout (apart_cons (by decide) _) hsemicolon
    have hassign := layout_operator (.inr rfl) hvalue
    have hleft := hname.layout (apart_cons (by decide) _) (layout_space hassign)
    have hwhole := ht.layout (apart_cons (by decide) _) (layout_space hleft)
    simpa [Stmt.render, he.isMissing, Kind.name] using hwhole
  | @bareReturn t ht =>
    refine ⟨[t.mapLines firstLine, symbol .semicolon], .bareReturn ht.kind rfl, fun rest us h => ?_⟩
    have hsemicolon := layout_delimiter (c := ';') rfl (by decide) h
    simpa [Stmt.render, Expr.isMissing] using ht.layout (apart_cons (by decide) _) hsemicolon
  | @valueReturn t e ht he =>
    obtain ⟨ts, hts⟩ := he.readable
    refine ⟨t.mapLines firstLine :: (ts ++ [symbol .semicolon]),
      .valueReturn ht.kind (hts.derives.toExpression _) rfl, fun rest us h => ?_⟩
    have hsemicolon := layout_delimiter (c := ';') rfl (by decide) h
    have hvalue := hts.layout (apart_cons (by decide) _) hsemicolon
    have hwhole := ht.layout (apart_cons (by decide) _) (layout_space hvalue)
    simpa [Stmt.render, he.isMissing] using hwhole

theorem readable_statements {ss : List Stmt} (h : ∀ st ∈ ss, LegibleStatement st) :
    ∃ ts, Statements ts (ss.map (Stmt.mapLines firstLine)) ∧
      ∀ rest us, Layout 1 rest us → Layout 1 ((Stmt.renderAll ss).toList ++ rest) (ts ++ us) := by
  induction ss with
  | nil => exact ⟨[], .nil, fun _ _ h => h⟩
  | cons st ss ih =>
    obtain ⟨hst, hss⟩ := List.forall_mem_cons.1 h
    obtain ⟨ts, hts, hlayout⟩ := hst.readable
    obtain ⟨us, hus, hlayout'⟩ := ih hss
    refine ⟨ts ++ us, .cons hts hus, fun rest vs h => ?_⟩
    simpa [Stmt.renderAll] using hlayout _ _ (hlayout' rest vs h)

/-- A text that is read as the tokens of statements is parsed as them. -/
theorem parse_of_layout {s : String} {ts : List Token} {p : Program} (h : Derives ts p)
    (hlayout : Layout 1 s.toList (ts ++ [⟨.endOfInput, "", 1⟩])) : parse s = .ok ⟨p, []⟩ := by
  refine parse_of_derives ?_
  rwa [tokenize_of_layout hlayout, List.dropLast_concat]

theorem layout_end : Layout 1 [] [⟨.endOfInput, "", 1⟩] := .finish .nil

theorem Legible.read_back {e : Expr} (h : Legible e) : ∃ t,
    parse (e.render ++ ";") = .ok ⟨⟨[.expression t (e.mapLines firstLine)]⟩, []⟩ := by
  obtain ⟨ts, hts⟩ := h.readable
  obtain ⟨t, us, rfl, -⟩ := hts.derives.opens
  have hstatement : Statement (t :: (us ++ [symbol .semicolon]))
      (.expression t (e.mapLines firstLine)) :=
    .expression (hts.derives.toExpression _) rfl
  have hsemicolon := layout_delimiter (c := ';') rfl (by decide) layout_end
  have hlayout := hts.layout (apart_cons (by decide) _) hsemicolon
  refine ⟨t, parse_of_layout (.cons hstatement .nil) ?_⟩
  simpa using hlayout

theorem LegibleProgram.read_back {p : Program} (h : LegibleProgram p) :
    parse p.render = .ok ⟨p.mapLines firstLine, []⟩ := by
  obtain ⟨ts, hts, hlayout⟩ := readable_statements h
  have hderives : Derives ts (p.mapLines firstLine) := hts
  refine parse_of_layout hderives ?_
  simpa [Program.render] using hlayout _ _ layout_end

/-- Rendering and then parsing gives a legible tree back, with its tokens on the first line. So the
tree that is read has the same text again, and trees with the same text differ in their lines at
most. -/
theorem parse_render :
    (∀ e, Legible e → (e.mapLines firstLine).render = e.render ∧ ∃ t,
      parse (e.render ++ ";") = .ok ⟨⟨[.expression t (e.mapLines firstLine)]⟩, []⟩) ∧
    (∀ p, LegibleProgram p → parse p.render = .ok ⟨p.mapLines firstLine, []⟩) ∧
    (∀ p, LegibleProgram p →
      (parse p.render).map (fun parsed => parsed.program.render) = .ok p.render) ∧
    (∀ e e', Legible e → Legible e' → e.render = e'.render →
      e.mapLines firstLine = e'.mapLines firstLine) ∧
    ∀ p p', LegibleProgram p → LegibleProgram p' → p.render = p'.render →
      p.mapLines firstLine = p'.mapLines firstLine := by
  refine ⟨fun e he => ⟨he.render_mapLines, he.read_back⟩, fun p hp => hp.read_back,
    fun p hp => ?_, fun e e' he he' hrender => ?_, fun p p' hp hp' hrender => ?_⟩
  · rw [hp.read_back]
    exact congrArg Except.ok hp.render_mapLines
  · obtain ⟨t, ht⟩ := he.read_back
    obtain ⟨t', ht'⟩ := he'.read_back
    rw [hrender, ht'] at ht
    simp only [Except.ok.injEq, Parsed.mk.injEq, Program.mk.injEq, List.cons.injEq,
      Stmt.expression.injEq, and_true] at ht
    exact ht.2.symm
  · have hp := hp.read_back
    rw [hrender, hp'.read_back] at hp
    simp only [Except.ok.injEq, Parsed.mk.injEq, and_true] at hp
    exact hp.symm

/-- A negated name that is called, and an element of what comes back: brackets in every position,
with tokens from several lines. -/
def calledAndPicked : Expr :=
  .index ⟨.leftBracket, "[", 4⟩
    (.call ⟨.leftParen, "(", 2⟩
      (.unary ⟨.minus, "-", 1⟩ "-" (.identifier ⟨⟨.identifier, "f", 1⟩, "f"⟩))
      [.boolean ⟨.boolean, "true", 2⟩ true, .array ⟨.leftBracket, "[", 3⟩ []])
    (.hash ⟨.leftBrace, "\x7b", 5⟩
      [(.integer ⟨.integer, "07", 5⟩ 7, .identifier ⟨⟨.identifier, "f", 6⟩, "f"⟩)])

theorem isName_f (line : Nat) : Token.IsName ⟨.identifier, "f", line⟩ where
  kind := rfl
  ne_nil := show "f".toList ≠ [] by decide
  letters := List.all_eq_true.1 (show "f".toList.all isLetter by decide)
  free := by simp [keywords]

theorem legible_calledAndPicked : Legible calledAndPicked := by
  have hname (line : Nat) : Legible (.identifier ⟨⟨.identifier, "f", line⟩, "f"⟩) :=
    .identifier (isName_f line)
  have hcallee : Legible (.unary ⟨.minus, "-", 1⟩ "-" (.identifier ⟨⟨.identifier, "f", 1⟩, "f"⟩)) :=
    .unary (.inr rfl) ⟨rfl, rfl⟩ (hname 1)
  have hboolean : Legible (.boolean ⟨.boolean, "true", 2⟩ true) := .boolean ⟨rfl, by decide⟩
  have harray : Legible (.array ⟨.leftBracket, "[", 3⟩ []) := .array ⟨rfl, rfl⟩ (by simp)
  have hdigits : ∀ c ∈ "07".toList, isDigit c :=
    List.all_eq_true.1 (show "07".toList.all isDigit by decide)
  have hnumber : Legible (.integer ⟨.integer, "07", 5⟩ 7) :=
    .integer ⟨rfl, by decide, hdigits, by decide, by decide⟩
  exact .index ⟨rfl, rfl⟩ (.call ⟨rfl, rfl⟩ hcallee (by simp [hboolean, harray]))
    (.hash ⟨rfl, rfl⟩ (by simp [hnumber]) (by simp [hname]))

/-- The program declares a name with that value and returns nothing. -/
theorem parse_render_of_calledAndPicked :
    Legible calledAndPicked ∧
    (∃ t, parse "((-f)(true, [])[\x7b07:f\x7d]);" =
      .ok ⟨⟨[.expression t (calledAndPicked.mapLines firstLine)]⟩, []⟩) ∧
    parse "var f = ((-f)(true, [])[\x7b07:f\x7d]);return;" = .ok ⟨⟨
      [.declaration ⟨.var, "var", 1⟩ ⟨⟨.identifier, "f", 1⟩, "f"⟩
        (calledAndPicked.mapLines firstLine), .ret ⟨.ret, "return", 1⟩ .missing]⟩, []⟩ := by
  have hprogram : LegibleProgram ⟨[.declaration ⟨.var, "var", 8⟩ ⟨⟨.identifier, "f", 8⟩, "f"⟩
      calledAndPicked, .ret ⟨.ret, "return", 9⟩ .missing]⟩ := by
    refine List.forall_mem_cons.2 ⟨?_, List.forall_mem_singleton.2 (.bareReturn ⟨rfl, by decide⟩)⟩
    exact .declaration (.inl rfl) ⟨rfl, by decide⟩ (isName_f 8) legible_calledAndPicked
  have hexpression := (parse_render.1 _ legible_calledAndPicked).2
  have hwhole := parse_render.2.1 _ hprogram
  have htext : calledAndPicked.render ++ ";" = "((-f)(true, [])[\x7b07:f\x7d]);" := by decide
  have hprogramText : Program.render ⟨[.declaration ⟨.var, "var", 8⟩ ⟨⟨.identifier, "f", 8⟩, "f"⟩
      calledAndPicked, .ret ⟨.ret, "return", 9⟩ .missing]⟩ =
        "var f = ((-f)(true, [])[\x7b07:f\x7d]);return;" := by decide
  rw [htext] at hexpression
  rw [hprogramText] at hwhole
  exact ⟨legible_calledAndPicked, hexpression, hwhole⟩

end MonkeyLang
