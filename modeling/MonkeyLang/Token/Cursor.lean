import MonkeyLang.Token.Lexeme

/-!
# The cursor of the lexer

A `Cursor` stands between two characters of a source text. `Cursor.next` skips trivia, reads one
token and stands behind it; at the end of the text it gives the end token and stays.
`Cursor.tokens` reads everything that is left, and `tokenize` a whole source.
-/

namespace MonkeyLang

/-- A place in a source text: the number of characters before it, the line it is on, and the
characters that are still to be read. -/
structure Cursor where
  position : Nat
  line : Nat
  rest : List Char

namespace Cursor

/-- The cursor at the start of a source text. -/
def start (source : String) : Cursor := ⟨0, 1, source.toList⟩

/-- The cursor behind the characters `consumed`, with `rest` still to be read. -/
def advance (cursor : Cursor) (consumed rest : List Char) : Cursor :=
  ⟨cursor.position + consumed.length, cursor.line + consumed.count '\n', rest⟩

/-- The cursor behind the trivia at the cursor. -/
def skipTrivia (cursor : Cursor) : Cursor :=
  let (gap, rest) := splitTrivia .space cursor.rest
  cursor.advance gap rest

/-- The token that starts exactly at the cursor, and the cursor behind it. -/
def read (cursor : Cursor) : Token × Cursor :=
  match cursor.rest with
  | [] => (⟨.endOfInput, "", cursor.line⟩, cursor)
  | c :: cs =>
    let (lexeme, rest) := Lexeme.split c cs
    (⟨lexeme.kind, lexeme.literal, cursor.line⟩, cursor.advance lexeme.spelling rest)

/-- The next token and the cursor behind it. -/
def next (cursor : Cursor) : Token × Cursor := cursor.skipTrivia.read

/-- Skipping trivia never adds characters. -/
theorem length_rest_skipTrivia_le (cursor : Cursor) :
    cursor.skipTrivia.rest.length ≤ cursor.rest.length := by
  have h := congrArg List.length (splitTrivia_append .space cursor.rest)
  rw [List.length_append] at h
  show (splitTrivia .space cursor.rest).2.length ≤ _
  omega

/-- A token other than the end token takes up characters. -/
theorem length_rest_read_lt (cursor : Cursor) (h : cursor.read.1.kind ≠ .endOfInput) :
    cursor.read.2.rest.length < cursor.rest.length := by
  unfold read at h ⊢
  split
  · next hrest => simp [hrest] at h
  · next c cs hrest =>
    rw [hrest]
    exact Lexeme.length_split_lt c cs

/-- Only the end token is read without consuming a character. -/
theorem length_rest_next_lt (cursor : Cursor) (h : cursor.next.1.kind ≠ .endOfInput) :
    cursor.next.2.rest.length < cursor.rest.length :=
  Nat.lt_of_lt_of_le (length_rest_read_lt _ h) (length_rest_skipTrivia_le cursor)

/-- All tokens from the cursor on, ending with the end token. -/
def tokens (cursor : Cursor) : List Token :=
  let step := cursor.next
  if step.1.kind = .endOfInput then [step.1] else step.1 :: step.2.tokens
termination_by cursor.rest.length
decreasing_by exact length_rest_next_lt cursor ‹_›

end Cursor

/-- The tokens of a source text, ending with the end token. -/
def tokenize (source : String) : List Token := (Cursor.start source).tokens

end MonkeyLang
