import MonkeyLang.Proofs.Lexing.Reading
import MonkeyLang.Token.Scanner

/-!
# The scanner keeps its place

A scanner that reads a source text stands at a place of that text whenever it is asked for a token:
its counters, its character and its line are those of the place. This is no matter of course, for
`Scanner.fetch` counts on behind the end of the text; each loop has to stop in time.

* `Scanner.between before rest` is the one scanner that has read `before` and still has to read
  `rest`. Each operation of the scanner is an equation between such scanners, and
  `Scanner.next_cases` says all that a call can do.
* `Scanner.InPlace` lists what the fields of a scanner in its place are, and
  `Scanner.inPlace_iff` says that the scanners in their place are those of `between`.
* `Scanner.calls_keep_place` is about a whole run: however often the scanner is asked, it is in its
  place, each token moves it forward, and at the end it rests.
* A scanner in its place and the cursor at the same place make the same steps
  (`Scanner.InPlace.next_cursor`), and so the scanner reads the tokens of `tokenize`
  (`Scanner.tokens_start`).
-/

namespace MonkeyLang

namespace Scanner

/-! ### A scanner between two parts of a text -/

/-- The scanner that has read the first part of a text and not the second. -/
def between (before rest : List Char) : Scanner :=
  ⟨(before ++ rest).toArray, before.length, before.length + 1, rest.head?,
    1 + before.count '\n'⟩

theorem fetch_between (before rest : List Char) (position : Nat) (char : Option Char) :
    fetch ⟨(before ++ rest).toArray, position, before.length, char, 1 + before.count '\n'⟩ =
      between before rest := by
  simp [fetch, between, List.head?_eq_getElem?, List.getElem?_append_right]

theorem start_eq_between (source : String) : start source = between [] source.toList :=
  fetch_between [] source.toList 0 none

@[simp] theorem char_between (before rest : List Char) :
    (between before rest).char = rest.head? := rfl

@[simp] theorem line_between (before rest : List Char) :
    (between before rest).line = 1 + before.count '\n' := rfl

@[simp] theorem ahead_between (before : List Char) (c : Char) (cs : List Char) :
    (between before (c :: cs)).ahead = cs.head? := by
  simp [ahead, between, List.head?_eq_getElem?, List.getElem?_append_right]

/-- To leave a character behind is to count it among those that have been read. -/
@[simp] theorem advance_between (before : List Char) (c : Char) (cs : List Char) :
    (between before (c :: cs)).advance = between (before ++ [c]) cs := by
  have hfetch := fetch_between (before ++ [c]) cs before.length (some c)
  rw [List.append_assoc, List.singleton_append, List.length_append, List.length_singleton,
    List.count_append] at hfetch
  unfold advance
  by_cases hc : c = '\n'
  · subst hc
    exact hfetch
  · rw [if_neg (by simpa using hc)]
    rw [List.count_singleton, beq_false_of_ne hc] at hfetch
    exact hfetch

theorem slice_between (before run rest : List Char) :
    (between before (run ++ rest)).slice before.length (before ++ run).length =
      String.ofList run := by
  simp [slice, between]

/-! ### Skipping -/

theorem skipWhile_between_cons (p : Char → Bool) (before : List Char) (c : Char)
    (cs : List Char) :
    (between before (c :: cs)).skipWhile p =
      if p c then (between (before ++ [c]) cs).skipWhile p else between before (c :: cs) := by
  rw [skipWhile, advance_between]
  rfl

/-- The scanner skips the longest run of characters of a class. -/
theorem skipWhile_between (p : Char → Bool) (before rest : List Char) :
    (between before rest).skipWhile p =
      between (before ++ rest.takeWhile p) (rest.dropWhile p) := by
  induction rest generalizing before with
  | nil =>
    rw [skipWhile]
    simp
  | cons c cs ih =>
    rw [skipWhile_between_cons]
    by_cases hc : p c
    · rw [if_pos hc, ih, List.takeWhile_cons_of_pos hc, List.dropWhile_cons_of_pos hc,
        List.append_assoc, List.singleton_append]
    · rw [if_neg hc, List.takeWhile_cons_of_neg hc, List.dropWhile_cons_of_neg hc,
        List.append_nil]

/-- How the scanner goes on inside each part of trivia, up to the next solid character. -/
def resume : Trivia → Scanner → Scanner
  | .space, scanner => scanner.skipTrivia
  | .line, scanner => (scanner.skipWhile (· != '\n')).skipTrivia
  | .block, scanner => scanner.skipComment.skipTrivia

theorem skipTrivia_space {before : List Char} {c : Char} {cs : List Char} (h : isSpace c) :
    (between before (c :: cs)).skipTrivia = (between (before ++ [c]) cs).skipTrivia := by
  rw [skipTrivia, skipWhile_between_cons, if_pos h, ← skipTrivia]

/-- On a solid character the scanner looks for the marks that open a comment. -/
theorem skipTrivia_solid {before : List Char} {c : Char} {cs : List Char}
    (h : isSpace c = false) :
    (between before (c :: cs)).skipTrivia =
      if c = '/' ∧ cs.head? = some '/' then resume .line (between before (c :: cs))
      else if c = '/' ∧ cs.head? = some '*' then
        resume .block (between (before ++ [c]) cs).advance
      else between before (c :: cs) := by
  have hsolid : (between before (c :: cs)).skipWhile isSpace = between before (c :: cs) := by
    rw [skipWhile_between_cons, if_neg (by simp [h])]
  rw [skipTrivia, hsolid, char_between, ahead_between, advance_between, List.head?_cons]
  simp only [Option.some_inj, resume]

theorem skipTrivia_line (before cs : List Char) :
    (between before ('/' :: '/' :: cs)).skipTrivia =
      resume .line (between (before ++ ['/', '/']) cs) := by
  rw [skipTrivia_solid rfl, if_pos ⟨rfl, rfl⟩]
  simp [resume, skipWhile_between_cons]

theorem skipTrivia_block (before cs : List Char) :
    (between before ('/' :: '*' :: cs)).skipTrivia =
      resume .block (between (before ++ ['/', '*']) cs) := by
  rw [skipTrivia_solid rfl, if_neg (by simp), if_pos ⟨rfl, rfl⟩, advance_between]
  simp

theorem skipTrivia_of_bare {before rest : List Char} (h : Bare rest) :
    (between before rest).skipTrivia = between before rest := by
  cases rest with
  | nil =>
    rw [skipTrivia, skipWhile_between]
    simp
  | cons c cs =>
    obtain ⟨hspace, hslash⟩ := h
    rw [skipTrivia_solid hspace, if_neg, if_neg]
    · rintro ⟨hc, hd⟩
      exact (hslash hc '*' hd).2 rfl
    · rintro ⟨hc, hd⟩
      exact (hslash hc '/' hd).1 rfl

/-- From inside trivia the scanner goes to where `splitTrivia` cuts the text. -/
theorem resume_between (mode : Trivia) (before rest : List Char) :
    resume mode (between before rest) =
      between (before ++ (splitTrivia mode rest).1) (splitTrivia mode rest).2 := by
  fun_induction splitTrivia mode rest generalizing before with
  | case1 mode =>
    have hend : (between before []).skipTrivia = between before [] := skipTrivia_of_bare trivial
    cases mode with
    | space => simpa [resume] using hend
    | line => simpa [resume, skipWhile_between] using hend
    | block => simpa [resume, skipComment] using hend
  | case2 cs gap rest h ih =>
    rw [h] at ih
    exact (skipTrivia_line before cs).trans (by simpa using ih (before ++ ['/', '/']))
  | case3 cs gap rest h ih =>
    rw [h] at ih
    exact (skipTrivia_block before cs).trans (by simpa using ih (before ++ ['/', '*']))
  | case4 c cs hline hblock hc gap rest h ih =>
    rw [h] at ih
    exact (skipTrivia_space hc).trans (by simpa [resume] using ih (before ++ [c]))
  | case5 c cs hline hblock hc =>
    have hbare := bare_splitTrivia .space (c :: cs)
    rw [splitTrivia.eq_4 _ _ hline hblock, if_neg hc] at hbare
    simpa [resume] using skipTrivia_of_bare hbare
  | case6 c cs gap rest h ih =>
    rw [h] at ih
    have hnext := ih (before ++ [c])
    by_cases hc : c = '\n'
    · subst hc
      rw [resume, skipWhile_between_cons, if_neg (by decide), skipTrivia_space isSpace_newline]
      simpa [resume] using hnext
    · rw [resume, skipWhile_between_cons, if_pos (by simpa using hc)]
      simpa [resume, hc] using hnext
  | case7 cs gap rest h ih =>
    rw [h] at ih
    rw [resume, skipComment]
    simpa [resume] using ih (before ++ ['*', '/'])
  | case8 c cs hopen gap rest h ih =>
    rw [h] at ih
    -- a closing mark at the character would have been taken as one
    have hfirst := not_closing hopen
    rw [resume, skipComment]
    simpa [resume, hfirst] using ih (before ++ [c])

theorem skipTrivia_between (before rest : List Char) :
    (between before rest).skipTrivia =
      between (before ++ (splitTrivia .space rest).1) (splitTrivia .space rest).2 :=
  resume_between .space before rest

/-! ### Reading -/

theorem readRun_between (p : Char → Bool) (before rest : List Char) :
    (between before rest).readRun p =
      (String.ofList (rest.takeWhile p),
        between (before ++ rest.takeWhile p) (rest.dropWhile p)) := by
  have hslice := slice_between before (rest.takeWhile p) (rest.dropWhile p)
  rw [List.takeWhile_append_dropWhile] at hslice
  rw [readRun, skipWhile_between]
  exact congrArg (·, _) hslice

theorem kind_splitText (cs : List Char) : (Lexeme.splitText cs).1.kind = .text := by
  unfold Lexeme.splitText
  split
  · rfl
  · rfl

theorem readText_between (before cs : List Char) :
    (between before ('"' :: cs)).readText =
      ((Lexeme.splitText cs).1.literal,
        between (before ++ (Lexeme.splitText cs).1.spelling) (Lexeme.splitText cs).2) := by
  have hbehind := List.head?_dropWhile_not (· != '"') cs
  rw [readText, advance_between, readRun_between]
  unfold Lexeme.splitText
  dsimp only
  cases hrest : cs.dropWhile (· != '"') with
  | nil => simp
  | cons quote rest =>
    rw [hrest] at hbehind
    obtain rfl : quote = '"' := by simpa using hbehind
    simp

/-- The scanner reads the lexeme that `Lexeme.split` cuts off. -/
theorem read_between_cons (before : List Char) (c : Char) (cs : List Char) :
    (between before (c :: cs)).read =
      (⟨(Lexeme.split c cs).1.kind, (Lexeme.split c cs).1.literal, 1 + before.count '\n'⟩,
        between (before ++ (Lexeme.split c cs).1.spelling) (Lexeme.split c cs).2) := by
  unfold read Lexeme.split
  rw [char_between, ahead_between, line_between, List.head?_cons]
  dsimp only
  -- in the order of the scanner: two characters, one character, then the class of the first
  cases hdouble : cs.head?.bind (doubleOperator c) with
  | some kind =>
    cases cs with
    | nil => contradiction
    | cons d ds => simp [Lexeme.verbatim]
  | none =>
    cases hsingle : singleOperator c with
    | some kind => simp [Lexeme.verbatim]
    | none =>
      by_cases hquote : c = '"'
      · subst hquote
        simp [readText_between, kind_splitText]
      · by_cases hletter : isLetter c
        · simp [hquote, hletter, readRun_between, Lexeme.splitRun, Lexeme.verbatim]
        · by_cases hdigit : isDigit c
          · simp [hquote, hletter, hdigit, readRun_between, Lexeme.splitRun, Lexeme.verbatim]
          · simp [hquote, hletter, hdigit, Lexeme.verbatim]

theorem read_between_nil (before : List Char) :
    (between before []).read =
      (⟨.endOfInput, "", 1 + before.count '\n'⟩, between before []) := rfl

/-- All that a call can do. At the end of the text it skips the last trivia, and gives the end token
there; otherwise it skips a gap and takes the lexeme behind it. -/
theorem next_cases (before rest : List Char) :
    (Gap rest [] ∧
      (between before rest).next =
        (⟨.endOfInput, "", 1 + (before ++ rest).count '\n'⟩, between (before ++ rest) [])) ∨
    ∃ gap kind literal spelling behind,
      rest = gap ++ (spelling ++ behind) ∧ Gap gap (spelling ++ behind) ∧
        Spells kind literal spelling behind ∧
        (between before rest).next =
          (⟨kind, literal, 1 + (before ++ gap).count '\n'⟩,
            between (before ++ gap ++ spelling) behind) := by
  have hgap : Gap (splitTrivia .space rest).1 (splitTrivia .space rest).2 :=
    inside_splitTrivia .space rest
  have hbare := bare_splitTrivia .space rest
  have htext := splitTrivia_append .space rest
  rw [next, skipTrivia_between]
  generalize (splitTrivia .space rest).1 = gap at hgap htext ⊢
  generalize (splitTrivia .space rest).2 = bare at hgap hbare htext ⊢
  cases bare with
  | nil =>
    rw [List.append_nil] at htext
    subst htext
    exact .inl ⟨hgap, read_between_nil _⟩
  | cons c cs =>
    have hspells := Lexeme.correct_split hbare
    have happend := Lexeme.split_append c cs
    have hread := read_between_cons (before ++ gap) c cs
    rw [← happend] at hgap htext
    exact .inr ⟨gap, _, _, _, _, htext.symm, hgap, hspells, hread⟩

/-! ### The place of a scanner -/

/-- The scanner is in its place in a source text: its counters are those of a character of the text
or of its end, and it has counted every line feed on the way once. -/
structure InPlace (source : String) (scanner : Scanner) : Prop where
  source_eq : scanner.source = source.toList.toArray
  position_le : scanner.position ≤ source.length
  nextPosition_eq : scanner.nextPosition = scanner.position + 1
  char_eq : ∀ h : scanner.position < source.toList.length,
    scanner.char = some source.toList[scanner.position]
  char_eq_none_iff : scanner.char = none ↔ scanner.position = source.length
  line_eq : scanner.line = 1 + (source.toList.take scanner.position).count '\n'

theorem inPlace_between {source : String} {before rest : List Char}
    (h : source.toList = before ++ rest) : (between before rest).InPlace source where
  source_eq := by rw [h]; rfl
  position_le := by
    rw [← String.length_toList, h, List.length_append]
    exact Nat.le_add_right ..
  nextPosition_eq := rfl
  char_eq := by
    intro hlt
    have hchar : (between before rest).char = source.toList[before.length]? := by
      simp [h, List.head?_eq_getElem?, List.getElem?_append_right]
    rw [hchar]
    exact List.getElem?_eq_getElem hlt
  char_eq_none_iff := by
    rw [← String.length_toList, h]
    cases rest <;> simp [between]
  line_eq := by
    rw [h]
    simp [between]

/-- The fields of a scanner in its place say what it has read and what not. -/
theorem inPlace_iff {source : String} {scanner : Scanner} :
    scanner.InPlace source ↔
      ∃ before rest, source.toList = before ++ rest ∧ scanner = between before rest := by
  constructor
  · intro h
    refine ⟨source.toList.take scanner.position, source.toList.drop scanner.position,
      (List.take_append_drop ..).symm, ?_⟩
    have hle := h.position_le
    rw [← String.length_toList] at hle
    have hchar : scanner.char = source.toList[scanner.position]? := by
      by_cases hlt : scanner.position < source.toList.length
      · rw [List.getElem?_eq_getElem hlt]
        exact h.char_eq hlt
      · rw [List.getElem?_eq_none (Nat.le_of_not_lt hlt)]
        refine h.char_eq_none_iff.2 ?_
        rw [← String.length_toList]
        omega
    obtain ⟨hsource, -, hnext, -, -, hline⟩ := h
    cases scanner
    simp_all [between]
  · rintro ⟨before, rest, htext, rfl⟩
    exact inPlace_between htext

theorem inPlace_start (source : String) : (start source).InPlace source := by
  rw [start_eq_between]
  exact inPlace_between rfl

section Calls

variable {source : String} {scanner : Scanner}

/-- A call keeps the scanner in its place. -/
theorem InPlace.next (h : scanner.InPlace source) : scanner.next.2.InPlace source := by
  obtain ⟨before, rest, htext, rfl⟩ := inPlace_iff.1 h
  obtain ⟨-, hnext⟩ | ⟨gap, kind, literal, spelling, behind, rfl, -, -, hnext⟩ :=
    next_cases before rest
  · rw [hnext]
    exact inPlace_between (by simpa using htext)
  · rw [hnext]
    exact inPlace_between (by simpa using htext)

/-- A token takes up characters. -/
theorem InPlace.position_lt (h : scanner.InPlace source)
    (htoken : scanner.next.1.kind ≠ .endOfInput) :
    scanner.position < scanner.next.2.position := by
  obtain ⟨before, rest, htext, rfl⟩ := inPlace_iff.1 h
  obtain ⟨-, hnext⟩ | ⟨gap, kind, literal, spelling, behind, rfl, -, hspells, hnext⟩ :=
    next_cases before rest
  · rw [hnext] at htoken
    exact absurd rfl htoken
  · have hpos := List.length_pos_iff.2 hspells.spelling_ne_nil
    rw [hnext]
    simp only [between, List.length_append]
    omega

/-- The end token is given at the end of the text, and there nothing is left to skip or to read. -/
theorem InPlace.ends (h : scanner.InPlace source)
    (hend : scanner.next.1.kind = .endOfInput) :
    scanner.next.2.position = source.length ∧ scanner.next.2.next = scanner.next := by
  obtain ⟨before, rest, htext, rfl⟩ := inPlace_iff.1 h
  obtain ⟨-, hnext⟩ | ⟨gap, kind, literal, spelling, behind, rfl, -, hspells, hnext⟩ :=
    next_cases before rest
  · have hstop : (between (before ++ rest) []).skipTrivia = between (before ++ rest) [] :=
      skipTrivia_of_bare trivial
    rw [hnext]
    refine ⟨?_, ?_⟩
    · rw [← String.length_toList, htext]
      rfl
    · dsimp only
      rw [Scanner.next, hstop]
      rfl
  · rw [hnext] at hend
    exact absurd hend hspells.kind_ne

end Calls

/-! ### Any number of calls -/

theorem inPlace_after (source : String) (count : Nat) :
    ((start source).after count).InPlace source := by
  induction count with
  | zero => exact inPlace_start source
  | succ count ih => exact ih.next

theorem after_add (scanner : Scanner) (count more : Nat) :
    scanner.after (count + more) = (scanner.after count).after more := by
  induction more with
  | zero => rfl
  | succ more ih => rw [← Nat.add_assoc, after, ih, ← after]

/-- A scanner that a call does not move stays where it is. -/
theorem after_of_next_eq {scanner : Scanner} (h : scanner.next.2 = scanner) (count : Nat) :
    scanner.after count = scanner := by
  induction count with
  | zero => rfl
  | succ count ih => rw [after, ih, h]

/-- However often a scanner has been asked for a token, it is in its place in the text. The next
call moves it forward if it gives a token. If it gives the end token, the scanner is at the end, and
all calls from then on leave it as it is and give that same end token. -/
theorem calls_keep_place (source : String) (count : Nat) :
    ((start source).after count).InPlace source ∧
      (((start source).after count).next.1.kind ≠ .endOfInput →
        ((start source).after count).position < ((start source).after (count + 1)).position) ∧
      (((start source).after count).next.1.kind = .endOfInput →
        ((start source).after (count + 1)).position = source.length ∧
          ∀ more,
            (start source).after (count + 1 + more) = (start source).after (count + 1) ∧
            ((start source).after (count + 1 + more)).next =
              ((start source).after count).next) := by
  have hplace := inPlace_after source count
  refine ⟨hplace, hplace.position_lt, fun hend => ?_⟩
  obtain ⟨hposition, hnext⟩ := hplace.ends hend
  have hrest : ∀ more,
      (start source).after (count + 1 + more) = (start source).after (count + 1) := fun more =>
    (after_add ..).trans (after_of_next_eq (congrArg Prod.snd hnext) more)
  refine ⟨hposition, fun more => ⟨hrest more, ?_⟩⟩
  rw [hrest more]
  exact hnext

/-- A comment that nobody closes goes to the end of the text, which is on the second line. Behind
the name in front of it, all calls give the end token of that line. -/
theorem calls_keep_place_of_openComment :
    (start "x/*\n").position < ((start "x/*\n").after 1).position ∧
      ((start "x/*\n").after 1).next.1 = ⟨.endOfInput, "", 2⟩ ∧
      ((start "x/*\n").after 2).position = "x/*\n".length ∧
      ∀ more, ((start "x/*\n").after (2 + more)).next.1 = ⟨.endOfInput, "", 2⟩ := by
  have hname : ((start "x/*\n").after 0).next.1.kind ≠ .endOfInput := by decide +kernel
  have hend : ((start "x/*\n").after 1).next.1 = ⟨.endOfInput, "", 2⟩ := by decide +kernel
  obtain ⟨-, hforward, -⟩ := calls_keep_place "x/*\n" 0
  obtain ⟨-, -, hlast⟩ := calls_keep_place "x/*\n" 1
  obtain ⟨hposition, hmore⟩ := hlast (congrArg Token.kind hend)
  refine ⟨hforward hname, hend, hposition, fun more => ?_⟩
  rw [(hmore more).2]
  exact hend

/-! ### The scanner and the cursor -/

/-- The cursor at the place of a scanner. -/
def cursor (scanner : Scanner) : Cursor :=
  ⟨scanner.position, scanner.line, scanner.source.toList.drop scanner.position⟩

theorem cursor_between (before rest : List Char) :
    (between before rest).cursor = ⟨before.length, 1 + before.count '\n', rest⟩ := by
  simp [cursor, between]

theorem skipTrivia_cursor (before rest : List Char) :
    (between before rest).cursor.skipTrivia = (between before rest).skipTrivia.cursor := by
  rw [skipTrivia_between, cursor_between, cursor_between]
  simp [Cursor.skipTrivia, Cursor.advance, Nat.add_assoc]

theorem read_cursor (before rest : List Char) :
    (between before rest).cursor.read =
      ((between before rest).read.1, (between before rest).read.2.cursor) := by
  cases rest with
  | nil =>
    rw [read_between_nil, cursor_between]
    rfl
  | cons c cs =>
    rw [read_between_cons, cursor_between, cursor_between]
    simp [Cursor.read, Cursor.advance, Nat.add_assoc]

theorem cursor_start (source : String) : (start source).cursor = Cursor.start source := by
  rw [start_eq_between, cursor_between]
  rfl

section Cursors

variable {source : String} {scanner : Scanner}

/-- Scanner and cursor give the same token, and are at the same place behind it. -/
theorem InPlace.next_cursor (h : scanner.InPlace source) :
    scanner.cursor.next = (scanner.next.1, scanner.next.2.cursor) := by
  obtain ⟨before, rest, -, rfl⟩ := inPlace_iff.1 h
  rw [Cursor.next, skipTrivia_cursor, Scanner.next, skipTrivia_between, read_cursor]

/-- Scanner and cursor read the same tokens up to the end of the text. -/
theorem InPlace.tokens_cursor (h : scanner.InPlace source) :
    scanner.cursor.tokens = scanner.tokens := by
  fun_induction Scanner.tokens scanner with
  | case1 scanner step hend =>
    rw [Cursor.tokens, h.next_cursor]
    dsimp only
    rw [if_pos hend]
  | case2 scanner step hend ih =>
    rw [Cursor.tokens, h.next_cursor]
    dsimp only
    rw [if_neg hend, ih h.next]

end Cursors

/-- The scanner reads the tokens of the text. -/
theorem tokens_start (source : String) : (start source).tokens = tokenize source := by
  rw [← (inPlace_start source).tokens_cursor, cursor_start]
  rfl

end Scanner

end MonkeyLang
