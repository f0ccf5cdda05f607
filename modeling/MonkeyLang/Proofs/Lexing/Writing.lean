import MonkeyLang.Proofs.Lexing.Reading

/-!
# Reading undoes writing

Tokens written out with separators between them are read back as they are. A separator begins with
a blank, so that no lexeme runs into the next one, and goes on with blanks and closed comments.

* `Symbol` is a token to be written: its kind and literal with the characters that spell it.
* `written` is the text of symbols, each with the separator in front of it, and `inscribed` the
  tokens that stand there.
* `tokenize_written` says that these tokens are read.
-/

namespace MonkeyLang

/-! ### Separators -/

/-- Blanks and comments in a row, where each comment is closed: with its line, or by its mark. -/
inductive Filler : List Char → Prop
  | nil : Filler []
  | blank {c filler} : isSpace c → Filler filler → Filler (c :: filler)
  | line {body filler} : '\n' ∉ body → Filler filler →
      Filler ('/' :: '/' :: (body ++ '\n' :: filler))
  | block {body filler} : Unclosed body → Filler filler →
      Filler ('/' :: '*' :: (body ++ '*' :: '/' :: filler))

/-- What keeps two lexemes apart. -/
inductive Separator : List Char → Prop
  | intro {c filler} : isSpace c → Filler filler → Separator (c :: filler)

/-- Closed comments are trivia whatever follows them. -/
theorem Filler.gap {filler : List Char} (h : Filler filler) (rest : List Char) :
    Gap filler rest := by
  induction h with
  | nil => exact .nil
  | blank hc _ ih => exact .blank hc ih
  | line hbody _ ih => exact .line hbody (by simp) (.blank isSpace_newline ih)
  | block hbody _ ih => exact .block hbody ih

/-- The text ends here, or a blank follows. -/
def BlankAhead (text : List Char) : Prop := ∀ c ∈ text.head?, isSpace c

namespace Separator

variable {gap : List Char}

theorem filler (h : Separator gap) : Filler gap := by
  obtain ⟨hc, hfiller⟩ := h
  exact .blank hc hfiller

theorem blankAhead (h : Separator gap) (rest : List Char) : BlankAhead (gap ++ rest) := by
  obtain ⟨hc, -⟩ := h
  rintro d hd
  obtain rfl := Option.some.inj hd
  exact hc

end Separator

/-- A separator that may be left out is filler all the same. -/
theorem filler_of_optional {gap : List Char} (h : gap = [] ∨ Separator gap) : Filler gap := by
  obtain rfl | h := h
  · exact .nil
  · exact h.filler

/-! ### Symbols -/

/-- The spelling of the token of that kind and literal, whatever follows it. -/
inductive Written : (kind : Kind) → (literal : String) → (spelling : List Char) → Prop
  | keyword {word kind} : (String.ofList word, kind) ∈ keywords →
      Written kind (String.ofList word) word
  | identifier {word} : (∀ kind, (String.ofList word, kind) ∉ keywords) → word ≠ [] →
      (∀ c ∈ word, isLetter c) → Written .identifier (String.ofList word) word
  | integer {digits} : digits ≠ [] → (∀ c ∈ digits, isDigit c) →
      Written .integer (String.ofList digits) digits
  | text {body} : '"' ∉ body → Written .text (String.ofList body) ('"' :: (body ++ ['"']))
  | double {c d kind} : ((c, d), kind) ∈ doubleMarks → Written kind (String.ofList [c, d]) [c, d]
  | single {c kind} : (c, kind) ∈ marks → Written kind (String.ofList [c]) [c]
  | illegal {c} : Stray c → Written .illegal (String.ofList [c]) [c]

/-- A run in front of a blank goes no further. -/
theorem longest_of_blankAhead {p : Char → Bool} {run rest : List Char} (hne : run ≠ [])
    (hall : ∀ c ∈ run, p c) (hp : ∀ c, isSpace c → p c = false) (h : BlankAhead rest) :
    Longest p run rest :=
  ⟨hne, hall, fun c hc => hp c (h c hc)⟩

/-- A blank extends no operator and opens no comment. -/
theorem apart_of_isSpace {d : Char} (h : isSpace d) :
    (∀ c kind, ((c, d), kind) ∉ doubleMarks) ∧ d ≠ '/' ∧ d ≠ '*' := by
  simp only [isSpace, Bool.or_eq_true, beq_iff_eq, or_assoc] at h
  rcases h with rfl | rfl | rfl | rfl <;> simp [doubleMarks]

/-- With a blank behind it, a spelling is the lexeme of its token. -/
theorem Written.spells {kind : Kind} {literal : String} {spelling rest : List Char}
    (h : Written kind literal spelling) (hrest : BlankAhead rest) :
    Spells kind literal spelling rest := by
  -- what a lexeme asks of the text behind it is met by the end and by every blank
  cases h with
  | keyword hword =>
    obtain ⟨hne, hall, -⟩ := letters_of_mem_keywords hword
    rw [String.toList_ofList] at hne hall
    exact .keyword hword
      (longest_of_blankAhead hne hall (fun _ hc => (classes_of_isSpace hc).1) hrest)
  | identifier hword hne hall =>
    exact .identifier hword
      (longest_of_blankAhead hne hall (fun _ hc => (classes_of_isSpace hc).1) hrest)
  | integer hne hall =>
    exact .integer (longest_of_blankAhead hne hall (fun _ hc => (classes_of_isSpace hc).2) hrest)
  | text hbody => exact .text hbody
  | double hdouble => exact .double hdouble
  | single hsingle =>
    exact .single hsingle (fun d hd => (apart_of_isSpace (hrest d hd)).1 _)
      (fun _ d hd => (apart_of_isSpace (hrest d hd)).2)
  | illegal hstray => exact .illegal hstray

/-- A token to be written. -/
structure Symbol where
  kind : Kind
  literal : String
  spelling : List Char
  written : Written kind literal spelling

/-! ### Texts -/

/-- The text of symbols with the separators in front of them, and with `trail` behind the last. -/
def written (trail : List Char) : List (List Char × Symbol) → List Char
  | [] => trail
  | (gap, symbol) :: items => gap ++ (symbol.spelling ++ written trail items)

/-- The tokens of the symbols and the end token, when the text `before` stands in front of all. Each
is on the line that the line ends in front of it make up. -/
def inscribed (trail : List Char) : (before : List Char) → List (List Char × Symbol) → List Token
  | before, [] => [⟨.endOfInput, "", 1 + (before ++ trail).count '\n'⟩]
  | before, (gap, symbol) :: items =>
    ⟨symbol.kind, symbol.literal, 1 + (before ++ gap).count '\n'⟩ ::
      inscribed trail (before ++ gap ++ symbol.spelling) items

/-- Separators stand between all neighbours. In front of the first symbol and behind the last one
there may be nothing. -/
structure Separated (items : List (List Char × Symbol)) (trail : List Char) : Prop where
  first : ∀ item ∈ items.head?, item.1 = [] ∨ Separator item.1
  later : ∀ item ∈ items.tail, Separator item.1
  last : trail = [] ∨ Separator trail

namespace Separated

variable {item : List Char × Symbol} {items : List (List Char × Symbol)} {trail : List Char}

theorem tail (h : Separated (item :: items) trail) : Separated items trail where
  first := fun next hnext => .inr (h.later next (List.mem_of_mem_head? hnext))
  later := fun next hnext => h.later next (List.mem_of_mem_tail hnext)
  last := h.last

/-- Behind the first symbol the text ends or a blank follows. -/
theorem blankAhead (h : Separated (item :: items) trail) : BlankAhead (written trail items) := by
  -- the next symbol is no first one, so its separator may not be left out
  cases items with
  | nil =>
    obtain rfl | htrail := h.last
    · simp [BlankAhead, written]
    · simpa [written] using htrail.blankAhead []
  | cons next items => exact (h.later next (by simp)).blankAhead _

/-- The text of separated symbols is laid out as their tokens. -/
theorem layout (h : Separated items trail) (before : List Char) :
    Layout (1 + before.count '\n') (written trail items) (inscribed trail before items) := by
  induction items generalizing before with
  | nil =>
    rw [inscribed, List.count_append, ← Nat.add_assoc]
    exact .finish ((filler_of_optional h.last).gap [])
  | cons item items ih =>
    obtain ⟨gap, symbol⟩ := item
    have hgap : Gap gap (symbol.spelling ++ written trail items) :=
      (filler_of_optional (h.first _ rfl)).gap _
    have hspells := symbol.written.spells h.blankAhead
    have hrest := ih h.tail (before ++ gap ++ symbol.spelling)
    rw [List.append_assoc, List.count_append, ← Nat.add_assoc] at hrest
    rw [inscribed, List.count_append, ← Nat.add_assoc, List.append_assoc]
    exact .token hgap hspells hrest

end Separated

/-- Tokens written out with separators between them are read as they are, each on the line that the
line ends written before it make up. -/
theorem tokenize_written {items : List (List Char × Symbol)} {trail : List Char}
    (h : Separated items trail) :
    tokenize (String.ofList (written trail items)) = inscribed trail [] items := by
  have hlayout := h.layout []
  have htext : (String.ofList (written trail items)).toList = written trail items :=
    String.toList_ofList
  unfold tokenize Cursor.start
  rw [htext]
  exact Cursor.tokens_of_layout hlayout 0

/-- Symbols that would run into their neighbours or turn into comments, and comments that hold what
looks like symbols. -/
def lookalikes : List (List Char × Symbol) :=
  [([], ⟨.text, "/*", ['"', '/', '*', '"'], .text (by decide)⟩),
    ([' ', '/', '/', ' ', '"', '\n'], ⟨.assign, "=", ['='], .single (by decide)⟩),
    ([' '], ⟨.assign, "=", ['='], .single (by decide)⟩),
    (['\t', '/', '*', '*', '*', '/'], ⟨.slash, "/", ['/'], .single (by decide)⟩),
    (['\r', '\n'], ⟨.asterisk, "*", ['*'], .single (by decide)⟩),
    ([' '], ⟨.function, "fun", ['f', 'u', 'n'], .keyword (by decide)⟩),
    ([' '], ⟨.integer, "07", ['0', '7'], .integer (by decide) (List.all_eq_true.1 rfl)⟩),
    ([' '], ⟨.illegal, "λ", ['λ'], .illegal ⟨rfl, rfl, rfl, by decide, by simp [marks]⟩⟩)]

theorem separated_lookalikes : Separated lookalikes ['\n'] where
  first := by simp [lookalikes]
  later := by
    have hline : Separator [' ', '/', '/', ' ', '"', '\n'] :=
      .intro rfl (@Filler.line [' ', '"'] [] (by decide) .nil)
    have hblock : Separator ['\t', '/', '*', '*', '*', '/'] :=
      .intro rfl (@Filler.block ['*'] [] (by unfold Unclosed; decide) .nil)
    have hends : Separator ['\r', '\n'] := .intro rfl (.blank rfl .nil)
    have hspace : Separator [' '] := .intro rfl .nil
    simp [lookalikes, hline, hblock, hends, hspace]
  last := .inr (.intro rfl .nil)

theorem tokenize_written_lookalikes :
    Separated lookalikes ['\n'] ∧
      tokenize "\"/*\" // \"\n= =\t/***//\r\n* fun 07 λ\n" =
        [⟨.text, "/*", 1⟩, ⟨.assign, "=", 2⟩, ⟨.assign, "=", 2⟩, ⟨.slash, "/", 2⟩,
          ⟨.asterisk, "*", 3⟩, ⟨.function, "fun", 3⟩, ⟨.integer, "07", 3⟩, ⟨.illegal, "λ", 3⟩,
          ⟨.endOfInput, "", 4⟩] := by
  refine ⟨separated_lookalikes, ?_⟩
  have hread := tokenize_written separated_lookalikes
  have htext : String.ofList (written ['\n'] lookalikes) =
      "\"/*\" // \"\n= =\t/***//\r\n* fun 07 λ\n" := by decide +kernel
  have htokens : inscribed ['\n'] [] lookalikes =
      [⟨.text, "/*", 1⟩, ⟨.assign, "=", 2⟩, ⟨.assign, "=", 2⟩, ⟨.slash, "/", 2⟩,
        ⟨.asterisk, "*", 3⟩, ⟨.function, "fun", 3⟩, ⟨.integer, "07", 3⟩, ⟨.illegal, "λ", 3⟩,
        ⟨.endOfInput, "", 4⟩] := by decide +kernel
  rwa [htext, htokens] at hread

end MonkeyLang
