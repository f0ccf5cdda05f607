import MonkeyLang.Token

/-!
# Trivia and lexemes

Source text is a sequence of lexemes, the spellings of tokens, with trivia around them.

* Trivia are blanks, comments from `//` up to the end of the line, and comments from `/*` to the
  first `*/` after it; an unclosed comment runs to the end of the text. `splitTrivia` cuts the
  leading trivia off.
* `Lexeme.split` cuts off the lexeme at the head of a text that does not begin with trivia. Two
  characters that spell an operator win over the first of them alone, and words and numbers are as
  long as possible.
-/

namespace MonkeyLang

/-- The characters that separate tokens. -/
def isSpace (c : Char) : Bool := c == ' ' || c == '\t' || c == '\n' || c == '\r'

/-- The characters of words: ASCII letters and the underscore. -/
def isLetter (c : Char) : Bool := c.isAlpha || c == '_'

/-- The characters of numbers: ASCII digits. -/
def isDigit (c : Char) : Bool := c.isDigit

/-! ### Trivia -/

/-- Where a character of trivia stands. -/
inductive Trivia where
  /-- outside every comment -/
  | space
  /-- in a comment that the end of the line closes -/
  | line
  /-- in a comment that its closing mark closes -/
  | block

/-- The leading trivia of a text and what follows it, for a text that starts inside `mode`. -/
def splitTrivia : (mode : Trivia) → List Char → List Char × List Char
  | _, [] => ([], [])
  | .space, '/' :: '/' :: cs =>
    let (gap, rest) := splitTrivia .line cs
    ('/' :: '/' :: gap, rest)
  | .space, '/' :: '*' :: cs =>
    let (gap, rest) := splitTrivia .block cs
    ('/' :: '*' :: gap, rest)
  | .space, c :: cs =>
    if isSpace c then
      let (gap, rest) := splitTrivia .space cs
      (c :: gap, rest)
    else ([], c :: cs)
  | .line, c :: cs =>
    let (gap, rest) := splitTrivia (if c = '\n' then .space else .line) cs
    (c :: gap, rest)
  | .block, '*' :: '/' :: cs =>
    let (gap, rest) := splitTrivia .space cs
    ('*' :: '/' :: gap, rest)
  | .block, c :: cs =>
    let (gap, rest) := splitTrivia .block cs
    (c :: gap, rest)

/-- Cutting off trivia loses no character. -/
theorem splitTrivia_append (mode : Trivia) (cs : List Char) :
    (splitTrivia mode cs).1 ++ (splitTrivia mode cs).2 = cs := by
  fun_induction splitTrivia mode cs <;> simp_all

/-! ### Lexemes -/

/-- A lexeme: the kind and literal of its token, and the characters that spell it. -/
structure Lexeme where
  kind : Kind
  literal : String
  spelling : List Char

/-- The operator that two characters spell together. -/
def doubleOperator : Char → Char → Option Kind
  | '=', '=' => some .equal
  | '!', '=' => some .notEqual
  | '<', '=' => some .lessEqual
  | '>', '=' => some .greaterEqual
  | _, _ => none

/-- The operator or delimiter that one character spells. -/
def singleOperator : Char → Option Kind
  | '=' => some .assign
  | '+' => some .plus
  | '-' => some .minus
  | '!' => some .bang
  | '*' => some .asterisk
  | '/' => some .slash
  | '<' => some .less
  | '>' => some .greater
  | ',' => some .comma
  | ';' => some .semicolon
  | ':' => some .colon
  | '(' => some .leftParen
  | ')' => some .rightParen
  | '\x7b' => some .leftBrace
  | '\x7d' => some .rightBrace
  | '[' => some .leftBracket
  | ']' => some .rightBracket
  | _ => none

namespace Lexeme

/-- A lexeme whose literal is its spelling. -/
def verbatim (kind : Kind) (spelling : List Char) : Lexeme :=
  ⟨kind, String.ofList spelling, spelling⟩

/-- The text literal that an opening quote begins, before the characters `cs`. It has no escapes
and ends at the next quote, or at the end of the text. -/
def splitText (cs : List Char) : Lexeme × List Char :=
  let body := cs.takeWhile (· != '"')
  match cs.dropWhile (· != '"') with
  | [] => (⟨.text, String.ofList body, '"' :: body⟩, [])
  | quote :: rest => (⟨.text, String.ofList body, '"' :: body ++ [quote]⟩, rest)

/-- The longest run of characters of a class, as a lexeme. -/
def splitRun (p : Char → Bool) (kind : String → Kind) (cs : List Char) : Lexeme × List Char :=
  let run := cs.takeWhile p
  (verbatim (kind (String.ofList run)) run, cs.dropWhile p)

/-- The lexeme at the head of `c :: cs`, and what follows it. A character that starts no token is
an illegal lexeme of its own. -/
def split (c : Char) (cs : List Char) : Lexeme × List Char :=
  match cs.head?.bind (doubleOperator c) with
  | some kind => (verbatim kind (c :: cs.take 1), cs.drop 1)
  | none =>
    match singleOperator c with
    | some kind => (verbatim kind [c], cs)
    | none =>
      if c = '"' then splitText cs
      else if isLetter c then splitRun isLetter Kind.ofWord (c :: cs)
      else if isDigit c then splitRun isDigit (fun _ => .integer) (c :: cs)
      else (verbatim .illegal [c], cs)

/-- A run and what follows it make up the text. -/
theorem splitRun_append (p : Char → Bool) (kind : String → Kind) (cs : List Char) :
    (splitRun p kind cs).1.spelling ++ (splitRun p kind cs).2 = cs := by
  simp [splitRun, verbatim]

/-- A text literal and what follows it make up the text with its opening quote. -/
theorem splitText_append (cs : List Char) :
    (splitText cs).1.spelling ++ (splitText cs).2 = '"' :: cs := by
  have h := List.takeWhile_append_dropWhile (p := (· != '"')) (l := cs)
  unfold splitText
  split <;> simp_all

/-- Cutting off a lexeme loses no character. -/
theorem split_append (c : Char) (cs : List Char) :
    (split c cs).1.spelling ++ (split c cs).2 = c :: cs := by
  unfold split
  split
  · cases cs <;> simp [verbatim]
  · split
    · simp [verbatim]
    · split
      · next h => subst h; exact splitText_append cs
      · split
        · exact splitRun_append ..
        · split
          · exact splitRun_append ..
          · simp [verbatim]

/-- A lexeme is never empty, so cutting it off makes progress. -/
theorem length_split_lt (c : Char) (cs : List Char) :
    (split c cs).2.length < (c :: cs).length := by
  have h : (split c cs).1.spelling ≠ [] := by
    unfold split
    split
    · simp [verbatim]
    · split
      · simp [verbatim]
      · split
        · unfold splitText; split <;> simp
        · split
          · next h => simp [splitRun, verbatim, h]
          · split
            · next h => simp [splitRun, verbatim, h]
            · simp [verbatim]
  have total := congrArg List.length (split_append c cs)
  have positive := List.length_pos_iff.2 h
  rw [List.length_append] at total
  omega

end Lexeme

end MonkeyLang
