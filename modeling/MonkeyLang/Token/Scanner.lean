import MonkeyLang.Token.Lexeme

/-!
# The scanner

A `Scanner` reads a source text in place: it holds the whole text, the character that it looks at,
and two counters, one for the place of that character and one for the place of the next. It moves by
single characters. `Scanner.fetch` moves both counters on and does not ask whether the text has
ended; at its end there is no character, and the loops look at the character before they move on.

`Scanner.next` skips trivia and reads one token; at the end of the text it gives the end token.
`Scanner.tokens` reads everything that is left, and `Scanner.after` asks for tokens any number of
times, also when the text has ended.

A `Cursor` knows the text only by what is left of it. The scanner keeps the text and finds its way
by its counters, and reads the same tokens.
-/

namespace MonkeyLang

/-- A text and where it is being read. The character is `none` at the end of the text. -/
structure Scanner where
  source : Array Char
  position : Nat
  nextPosition : Nat
  char : Option Char
  line : Nat
deriving DecidableEq

namespace Scanner

/-! ### Moving -/

/-- The scanner on the next character. Both counters move, whether there is one or not. -/
def fetch (scanner : Scanner) : Scanner :=
  { scanner with
    char := scanner.source[scanner.nextPosition]?
    position := scanner.nextPosition
    nextPosition := scanner.nextPosition + 1 }

/-- The scanner on the first character of a source text. -/
def start (source : String) : Scanner := fetch ⟨source.toList.toArray, 0, 0, none, 1⟩

/-- Leaves the current character behind, which ends a line if it is a line feed. -/
def advance (scanner : Scanner) : Scanner :=
  if scanner.char = some '\n' then { scanner with line := scanner.line + 1 }.fetch
  else scanner.fetch

/-- The character behind the current one. -/
def ahead (scanner : Scanner) : Option Char := scanner.source[scanner.nextPosition]?

/-- The text between two places. -/
def slice (scanner : Scanner) (first last : Nat) : String :=
  String.ofList (scanner.source.extract first last).toList

/-- A bound on the characters to come, the current one included. -/
def remaining (scanner : Scanner) : Nat :=
  scanner.source.size - scanner.nextPosition + scanner.char.toList.length

theorem remaining_advance (scanner : Scanner) :
    scanner.advance.remaining = scanner.source.size - scanner.nextPosition := by
  have h : scanner.fetch.remaining = scanner.source.size - scanner.nextPosition := by
    unfold fetch remaining
    by_cases hnext : scanner.nextPosition < scanner.source.size
    · simp [hnext]
      omega
    · simp [hnext]
      omega
  unfold advance
  split
  · exact h
  · exact h

theorem remaining_advance_le (scanner : Scanner) :
    scanner.advance.remaining ≤ scanner.remaining := by
  rw [remaining_advance]
  exact Nat.le_add_right ..

theorem remaining_advance_lt {scanner : Scanner} (h : scanner.char ≠ none) :
    scanner.advance.remaining < scanner.remaining := by
  obtain ⟨c, hc⟩ := Option.ne_none_iff_exists'.1 h
  rw [remaining_advance, remaining, hc]
  exact Nat.lt_succ_self _

theorem char_ne_none_of_any {scanner : Scanner} {p : Char → Bool} (h : scanner.char.any p) :
    scanner.char ≠ none := by
  intro hnone
  rw [hnone] at h
  contradiction

/-! ### Skipping -/

/-- Moves on while the current character belongs to a class. -/
def skipWhile (p : Char → Bool) (scanner : Scanner) : Scanner :=
  if scanner.char.any p then scanner.advance.skipWhile p else scanner
termination_by scanner.remaining
decreasing_by exact remaining_advance_lt (char_ne_none_of_any ‹_›)

/-- Moves behind the closing mark of a comment, or to the end of the text. -/
def skipComment (scanner : Scanner) : Scanner :=
  if scanner.char = none then scanner
  else if scanner.char = some '*' ∧ scanner.ahead = some '/' then scanner.advance.advance
  else scanner.advance.skipComment
termination_by scanner.remaining
decreasing_by exact remaining_advance_lt ‹_›

theorem remaining_skipWhile_le (p : Char → Bool) (scanner : Scanner) :
    (scanner.skipWhile p).remaining ≤ scanner.remaining := by
  fun_induction skipWhile p scanner with
  | case1 scanner _ ih => exact Nat.le_trans ih (remaining_advance_le scanner)
  | case2 => exact Nat.le_refl _

theorem remaining_skipWhile_lt {p : Char → Bool} {scanner : Scanner}
    (h : scanner.char.any p) : (scanner.skipWhile p).remaining < scanner.remaining := by
  rw [skipWhile, if_pos h]
  exact Nat.lt_of_le_of_lt (remaining_skipWhile_le ..)
    (remaining_advance_lt (char_ne_none_of_any h))

theorem remaining_skipComment_le (scanner : Scanner) :
    scanner.skipComment.remaining ≤ scanner.remaining := by
  fun_induction skipComment scanner with
  | case1 => exact Nat.le_refl _
  | case2 scanner =>
    exact Nat.le_trans (remaining_advance_le _) (remaining_advance_le scanner)
  | case3 scanner _ _ ih => exact Nat.le_trans ih (remaining_advance_le scanner)

/-- Behind its opening mark, a comment is shorter than with it. -/
theorem remaining_comment_lt {scanner : Scanner} (h : scanner.char ≠ none) :
    scanner.advance.advance.skipComment.remaining < scanner.remaining := by
  have hbody := remaining_skipComment_le scanner.advance.advance
  have hsecond := remaining_advance_le scanner.advance
  have hfirst := remaining_advance_lt h
  omega

/-- Moves to the next character that is neither blank nor part of a comment. -/
def skipTrivia (scanner : Scanner) : Scanner :=
  let solid := scanner.skipWhile isSpace
  if solid.char = some '/' ∧ solid.ahead = some '/' then
    (solid.skipWhile (· != '\n')).skipTrivia
  else if solid.char = some '/' ∧ solid.ahead = some '*' then
    solid.advance.advance.skipComment.skipTrivia
  else solid
termination_by scanner.remaining
decreasing_by
  · next h =>
    have hchar : solid.char.any (· != '\n') := by rw [h.1]; rfl
    exact Nat.lt_of_lt_of_le (remaining_skipWhile_lt hchar) (remaining_skipWhile_le ..)
  · next h =>
    have hsolid : solid.remaining ≤ scanner.remaining := remaining_skipWhile_le isSpace scanner
    have hchar : solid.char ≠ none := by rw [h.1]; exact Option.some_ne_none _
    exact Nat.lt_of_lt_of_le (remaining_comment_lt hchar) hsolid

theorem remaining_skipTrivia_le (scanner : Scanner) :
    scanner.skipTrivia.remaining ≤ scanner.remaining := by
  fun_induction skipTrivia scanner with
  | case1 scanner solid _ ih =>
    have hsolid : solid.remaining ≤ scanner.remaining := remaining_skipWhile_le isSpace scanner
    exact Nat.le_trans ih (Nat.le_trans (remaining_skipWhile_le ..) hsolid)
  | case2 scanner solid _ h ih =>
    have hsolid : solid.remaining ≤ scanner.remaining := remaining_skipWhile_le isSpace scanner
    have hchar : solid.char ≠ none := by rw [h.1]; exact Option.some_ne_none _
    exact Nat.le_trans ih (Nat.le_trans (Nat.le_of_lt (remaining_comment_lt hchar)) hsolid)
  | case3 scanner => exact remaining_skipWhile_le isSpace scanner

/-! ### Reading -/

/-- The characters of a class from the current one on. -/
def readRun (p : Char → Bool) (scanner : Scanner) : String × Scanner :=
  let behind := scanner.skipWhile p
  (scanner.slice scanner.position behind.position, behind)

/-- The text literal that begins with the current character. The quote that closes it may be
missing at the end of the source. -/
def readText (scanner : Scanner) : String × Scanner :=
  let (text, stop) := scanner.advance.readRun (· != '"')
  (text, if stop.char = some '"' then stop.advance else stop)

/-- The token that begins with the current character. -/
def read (scanner : Scanner) : Token × Scanner :=
  match scanner.char with
  | none => (⟨.endOfInput, "", scanner.line⟩, scanner)
  | some c =>
    match scanner.ahead.bind (doubleOperator c) with
    | some kind =>
      (⟨kind, String.ofList (c :: scanner.ahead.toList), scanner.line⟩, scanner.advance.advance)
    | none =>
      match singleOperator c with
      | some kind => (⟨kind, String.ofList [c], scanner.line⟩, scanner.advance)
      | none =>
        if c = '"' then
          let (text, behind) := scanner.readText
          (⟨.text, text, scanner.line⟩, behind)
        else if isLetter c then
          let (word, behind) := scanner.readRun isLetter
          (⟨Kind.ofWord word, word, scanner.line⟩, behind)
        else if isDigit c then
          let (digits, behind) := scanner.readRun isDigit
          (⟨.integer, digits, scanner.line⟩, behind)
        else (⟨.illegal, String.ofList [c], scanner.line⟩, scanner.advance)

/-- The next token and the scanner behind it. -/
def next (scanner : Scanner) : Token × Scanner := scanner.skipTrivia.read

theorem remaining_readText_lt {scanner : Scanner} (h : scanner.char ≠ none) :
    scanner.readText.2.remaining < scanner.remaining := by
  have hstop := remaining_skipWhile_le (· != '"') scanner.advance
  have hquote := remaining_advance_le (scanner.advance.skipWhile (· != '"'))
  have hopen := remaining_advance_lt h
  unfold readText readRun
  dsimp only
  split
  · omega
  · omega

/-- A token other than the end token takes up characters. -/
theorem remaining_read_lt {scanner : Scanner} (h : scanner.read.1.kind ≠ .endOfInput) :
    scanner.read.2.remaining < scanner.remaining := by
  unfold read at h ⊢
  split
  · next hnone => simp [hnone] at h
  · next c hc =>
    have hchar : scanner.char ≠ none := by rw [hc]; exact Option.some_ne_none _
    have hadvance := remaining_advance_lt hchar
    split
    · exact Nat.lt_of_le_of_lt (remaining_advance_le _) hadvance
    · split
      · exact hadvance
      · split
        · exact remaining_readText_lt hchar
        · split
          · next hletter => exact remaining_skipWhile_lt (by rwa [hc])
          · split
            · next hdigit => exact remaining_skipWhile_lt (by rwa [hc])
            · exact hadvance

theorem remaining_next_lt {scanner : Scanner} (h : scanner.next.1.kind ≠ .endOfInput) :
    scanner.next.2.remaining < scanner.remaining :=
  Nat.lt_of_lt_of_le (remaining_read_lt h) (remaining_skipTrivia_le scanner)

/-- All tokens from the current character on, ending with the end token. -/
def tokens (scanner : Scanner) : List Token :=
  let step := scanner.next
  if step.1.kind = .endOfInput then [step.1] else step.1 :: step.2.tokens
termination_by scanner.remaining
decreasing_by exact remaining_next_lt ‹_›

/-- The scanner after `count` tokens, the end token counted as often as it is given. -/
def after (scanner : Scanner) : (count : Nat) → Scanner
  | 0 => scanner
  | count + 1 => (scanner.after count).next.2

end Scanner

end MonkeyLang
