import Mathlib.Tactic.SplitIfs
import MonkeyLang.Token.Lexeme

/-!
# The layout of source text

How a source text is made up of trivia and lexemes, as relations that know nothing of a reader.

* `Gap gap rest`: the characters `gap` are trivia, with `rest` behind them.
* `Spells kind literal spelling rest`: the characters `spelling` are the lexeme of a token, with
  `rest` behind them. What stands behind a lexeme matters, for words, numbers and operators are as
  long as they can be.
* `keywords`, `marks` and `doubleMarks` list the words and the operators of the language.
* `Layout line text tokens`: the text is trivia and lexemes in turn, beginning and ending with
  trivia; the lexemes are those of the tokens, in order, and the end token stands at the end.
-/

namespace MonkeyLang

/-- The body of a comment does not close it. -/
def Unclosed (body : List Char) : Prop := ¬ ['*', '/'] <:+: body

/-- Trivia in a row: blanks, comments from two slashes up to the end of the line, and comments from
the opening mark to the first closing mark behind it. A comment that is not closed goes to the end
of the text. -/
inductive Gap : (gap rest : List Char) → Prop
  | nil {rest} : Gap [] rest
  | blank {c gap rest} : isSpace c → Gap gap rest → Gap (c :: gap) rest
  | line {body gap rest} : '\n' ∉ body → (∀ c ∈ (gap ++ rest).head?, c = '\n') → Gap gap rest →
      Gap ('/' :: '/' :: (body ++ gap)) rest
  | block {body gap rest} : Unclosed body → Gap gap rest →
      Gap ('/' :: '*' :: (body ++ '*' :: '/' :: gap)) rest
  | unclosed {body} : Unclosed body → Gap ('/' :: '*' :: body) []

/-- The words with a kind of their own. -/
def keywords : List (String × Kind) :=
  [("fun", .function), ("var", .var), ("const", .const), ("return", .ret), ("true", .boolean),
    ("false", .boolean), ("if", .ifWord), ("else", .elseWord)]

/-- The operators and delimiters of one character. -/
def marks : List (Char × Kind) :=
  [('=', .assign), ('+', .plus), ('-', .minus), ('!', .bang), ('*', .asterisk), ('/', .slash),
    ('<', .less), ('>', .greater), (',', .comma), (';', .semicolon), (':', .colon),
    ('(', .leftParen), (')', .rightParen), ('\x7b', .leftBrace), ('\x7d', .rightBrace),
    ('[', .leftBracket), (']', .rightBracket)]

/-- The operators of two characters. -/
def doubleMarks : List ((Char × Char) × Kind) :=
  [(('=', '='), .equal), (('!', '='), .notEqual), (('<', '='), .lessEqual),
    (('>', '='), .greaterEqual)]

/-- A run of characters of a class, as long as it can be. -/
structure Longest (p : Char → Bool) (run rest : List Char) : Prop where
  ne_nil : run ≠ []
  all : ∀ c ∈ run, p c
  maximal : ∀ c ∈ rest.head?, p c = false

/-- The character is no blank and begins no token. -/
structure Stray (c : Char) : Prop where
  space : isSpace c = false
  letter : isLetter c = false
  digit : isDigit c = false
  quote : c ≠ '"'
  operator : ∀ kind, (c, kind) ∉ marks

/-- The lexeme of a token of that kind and literal. -/
inductive Spells : (kind : Kind) → (literal : String) → (spelling rest : List Char) → Prop
  | keyword {word rest kind} : (String.ofList word, kind) ∈ keywords → Longest isLetter word rest →
      Spells kind (String.ofList word) word rest
  | identifier {word rest} : (∀ kind, (String.ofList word, kind) ∉ keywords) →
      Longest isLetter word rest → Spells .identifier (String.ofList word) word rest
  | integer {digits rest} : Longest isDigit digits rest →
      Spells .integer (String.ofList digits) digits rest
  | text {body rest} : '"' ∉ body →
      Spells .text (String.ofList body) ('"' :: (body ++ ['"'])) rest
  /-- a text that the end of the source cuts off -/
  | cutText {body} : '"' ∉ body → Spells .text (String.ofList body) ('"' :: body) []
  | double {c d kind rest} : ((c, d), kind) ∈ doubleMarks →
      Spells kind (String.ofList [c, d]) [c, d] rest
  /-- an operator of one character, which the next one neither extends nor turns into a comment -/
  | single {c kind rest} : (c, kind) ∈ marks →
      (∀ d ∈ rest.head?, ∀ kind, ((c, d), kind) ∉ doubleMarks) →
      (c = '/' → ∀ d ∈ rest.head?, d ≠ '/' ∧ d ≠ '*') →
      Spells kind (String.ofList [c]) [c] rest
  | illegal {c rest} : Stray c → Spells .illegal (String.ofList [c]) [c] rest

/-- The text, which begins on the given line, consists of trivia and of the lexemes of the tokens.
Each token is on the line where its lexeme begins. -/
inductive Layout : (line : Nat) → (text : List Char) → List Token → Prop
  | finish {line gap} : Gap gap [] →
      Layout line gap [⟨.endOfInput, "", line + gap.count '\n'⟩]
  | token {line gap kind literal spelling rest tokens} : Gap gap (spelling ++ rest) →
      Spells kind literal spelling rest →
      Layout (line + (gap ++ spelling).count '\n') rest tokens →
      Layout line (gap ++ (spelling ++ rest)) (⟨kind, literal, line + gap.count '\n'⟩ :: tokens)

/-! ### Keywords -/

/-- A word has the kind of the keyword that it is. -/
theorem ofWord_of_mem_keywords {word : String} {kind : Kind} (h : (word, kind) ∈ keywords) :
    Kind.ofWord word = kind := by
  simp only [keywords, List.mem_cons, Prod.mk.injEq, List.not_mem_nil, or_false] at h
  rcases h with ⟨rfl, rfl⟩ | ⟨rfl, rfl⟩ | ⟨rfl, rfl⟩ | ⟨rfl, rfl⟩ | ⟨rfl, rfl⟩ | ⟨rfl, rfl⟩ |
    ⟨rfl, rfl⟩ | ⟨rfl, rfl⟩ <;> rfl

theorem ofWord_eq_identifier_or_mem (word : String) :
    Kind.ofWord word = .identifier ∨ (word, Kind.ofWord word) ∈ keywords := by
  unfold Kind.ofWord
  split_ifs <;> simp_all [keywords]

/-- Every other word is an identifier. -/
theorem ofWord_of_not_mem_keywords {word : String} (h : ∀ kind, (word, kind) ∉ keywords) :
    Kind.ofWord word = .identifier :=
  (ofWord_eq_identifier_or_mem word).resolve_right (h _)

/-- Keywords are words. -/
theorem letters_of_mem_keywords {word : String} {kind : Kind} (h : (word, kind) ∈ keywords) :
    word.toList ≠ [] ∧ (∀ c ∈ word.toList, isLetter c) ∧ kind ≠ .text ∧ kind ≠ .illegal := by
  have hall : ∀ w ∈ keywords, w.1.toList ≠ [] ∧ w.1.toList.all isLetter ∧
      w.2 ≠ .text ∧ w.2 ≠ .illegal := by decide
  obtain ⟨hne, hletters, hkind⟩ := hall _ h
  exact ⟨hne, List.all_eq_true.1 hletters, hkind⟩

/-! ### Operators -/

section Marks

variable {c d : Char} {kind : Kind}

/-- The reader knows the operators of one character. -/
theorem singleOperator_eq_some_iff : singleOperator c = some kind ↔ (c, kind) ∈ marks := by
  constructor
  · intro h
    unfold singleOperator at h
    split at h <;> first | contradiction | (injection h with h; subst h; decide)
  · have hall : ∀ mark ∈ marks, singleOperator mark.1 = some mark.2 := by decide
    exact hall (c, kind)

theorem singleOperator_eq_none_iff : singleOperator c = none ↔ ∀ kind, (c, kind) ∉ marks := by
  rw [Option.eq_none_iff_forall_ne_some]
  exact forall_congr' fun _ => not_congr singleOperator_eq_some_iff

/-- The reader knows the operators of two characters. -/
theorem doubleOperator_eq_some_iff :
    doubleOperator c d = some kind ↔ ((c, d), kind) ∈ doubleMarks := by
  constructor
  · intro h
    unfold doubleOperator at h
    split at h <;> first | contradiction | (injection h with h; subst h; decide)
  · have hall : ∀ mark ∈ doubleMarks, doubleOperator mark.1.1 mark.1.2 = some mark.2 := by decide
    exact hall ((c, d), kind)

theorem doubleOperator_eq_none_iff :
    doubleOperator c d = none ↔ ∀ kind, ((c, d), kind) ∉ doubleMarks := by
  rw [Option.eq_none_iff_forall_ne_some]
  exact forall_congr' fun _ => not_congr doubleOperator_eq_some_iff

end Marks

end MonkeyLang
