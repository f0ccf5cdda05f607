import Mathlib.Data.List.TakeWhile
import MonkeyLang.Proofs.Lexing.Layout
import MonkeyLang.Proofs.Parsing.Stream

/-!
# The reader follows the layout

The tokens of a text are exactly those of its layout. `splitTrivia` cuts off the gap at the head of
a text and `Lexeme.split` the lexeme behind it, and each is shown both ways: what it cuts off is a
gap or a lexeme, and a gap or a lexeme at the head of a text is what it cuts off. So a text has one
layout only, the one that the reader finds.
-/

namespace MonkeyLang

/-! ### Trivia -/

/-- The text does not begin with trivia. -/
def Bare : (text : List Char) → Prop
  | [] => True
  | c :: cs => isSpace c = false ∧ (c = '/' → ∀ d ∈ cs.head?, d ≠ '/' ∧ d ≠ '*')

/-- What trivia may look like from inside each of its parts: the part is finished first, and a gap
follows. -/
def Trivia.Inside : (mode : Trivia) → (gap rest : List Char) → Prop
  | .space, gap, rest => Gap gap rest
  | .line, gap, rest => ∃ body behind, gap = body ++ behind ∧ '\n' ∉ body ∧
      (∀ c ∈ (behind ++ rest).head?, c = '\n') ∧ Gap behind rest
  | .block, gap, rest =>
      (∃ body behind, gap = body ++ '*' :: '/' :: behind ∧ Unclosed body ∧ Gap behind rest) ∨
        rest = [] ∧ Unclosed gap

theorem isSpace_newline : isSpace '\n' := by decide

/-- Where the reader stays in a block comment, no closing mark begins. -/
theorem not_closing {c : Char} {cs : List Char} (h : ∀ ds, c = '*' → cs = '/' :: ds → False) :
    ¬ (c = '*' ∧ cs.head? = some '/') := by
  rintro ⟨rfl, hhead⟩
  cases cs with
  | nil => simp at hhead
  | cons d ds => exact h ds rfl (by simpa using hhead)

theorem unclosed_nil : Unclosed [] := by simp [Unclosed]

/-- A body stays open when no closing mark begins at the character put in front. -/
theorem unclosed_cons {c : Char} {body : List Char} :
    Unclosed (c :: body) ↔ ¬ (c = '*' ∧ body.head? = some '/') ∧ Unclosed body := by
  unfold Unclosed
  rw [List.infix_cons_iff, not_or]
  refine and_congr_left fun _ => not_congr ?_
  cases body <;> simp [List.cons_prefix_cons, eq_comm]

/-- The reader takes a gap off the text. -/
theorem inside_splitTrivia (mode : Trivia) (cs : List Char) :
    mode.Inside (splitTrivia mode cs).1 (splitTrivia mode cs).2 := by
  fun_induction splitTrivia mode cs with
  | case1 mode =>
    cases mode with
    | space => exact .nil
    | line => exact ⟨[], [], rfl, by simp, by simp, .nil⟩
    | block => exact .inr ⟨rfl, unclosed_nil⟩
  | case2 cs gap rest h ih =>
    rw [h] at ih
    obtain ⟨body, behind, rfl, hbody, hhead, hgap⟩ := ih
    exact .line hbody hhead hgap
  | case3 cs gap rest h ih =>
    rw [h] at ih
    obtain ⟨body, behind, rfl, hbody, hgap⟩ | ⟨rfl, hgap⟩ := ih
    · exact .block hbody hgap
    · exact .unclosed hgap
  | case4 c cs _ _ hc gap rest h ih =>
    rw [h] at ih
    exact .blank hc ih
  | case5 => exact .nil
  | case6 c cs gap rest h ih =>
    rw [h] at ih
    by_cases hc : c = '\n'
    · rw [if_pos hc] at ih
      subst hc
      exact ⟨[], '\n' :: gap, rfl, by simp, by simp, .blank isSpace_newline ih⟩
    · rw [if_neg hc] at ih
      obtain ⟨body, behind, rfl, hbody, hhead, hgap⟩ := ih
      exact ⟨c :: body, behind, rfl, by simp [Ne.symm hc, hbody], hhead, hgap⟩
  | case7 cs gap rest h ih =>
    rw [h] at ih
    exact .inl ⟨[], gap, rfl, unclosed_nil, ih⟩
  | case8 c cs hopen gap rest h ih =>
    have happend : gap ++ rest = cs := by
      simpa [h] using splitTrivia_append .block cs
    -- a closing mark at the character would have been taken as one
    have hfirst := not_closing hopen
    rw [h] at ih
    obtain ⟨body, behind, rfl, hbody, hgap⟩ | ⟨rfl, hgap⟩ := ih
    · refine .inl ⟨c :: body, behind, rfl, unclosed_cons.2 ⟨?_, hbody⟩, hgap⟩
      rintro ⟨hc, hhead⟩
      exact hfirst ⟨hc, by simp [← happend, hhead]⟩
    · refine .inr ⟨rfl, unclosed_cons.2 ⟨?_, hgap⟩⟩
      rwa [← happend, List.append_nil] at hfirst

/-- What follows the trivia is bare. -/
theorem bare_splitTrivia (mode : Trivia) (cs : List Char) : Bare (splitTrivia mode cs).2 := by
  fun_induction splitTrivia mode cs with
  | case1 => trivial
  | case5 c cs hline hblock hspace =>
    refine ⟨by simpa using hspace, ?_⟩
    rintro rfl d hd
    cases cs with
    | nil => simp at hd
    | cons e es =>
      obtain rfl : e = d := by simpa using hd
      exact ⟨fun h => hline es rfl (by rw [h]), fun h => hblock es rfl (by rw [h])⟩
  | _ => simp_all

theorem splitTrivia_of_bare {cs : List Char} (h : Bare cs) : splitTrivia .space cs = ([], cs) := by
  cases cs with
  | nil => rfl
  | cons c cs =>
    obtain ⟨hspace, hslash⟩ := h
    rw [splitTrivia.eq_4, if_neg (by simp [hspace])]
    · rintro ds rfl rfl
      exact (hslash rfl '/' rfl).1 rfl
    · rintro ds rfl rfl
      exact (hslash rfl '*' rfl).2 rfl

theorem splitTrivia_blank {c : Char} {cs : List Char} (h : isSpace c) :
    splitTrivia .space (c :: cs) =
      (c :: (splitTrivia .space cs).1, (splitTrivia .space cs).2) := by
  have hc : c ≠ '/' := by rintro rfl; exact absurd h (by decide)
  rw [splitTrivia.eq_4 _ _ (fun _ h _ => hc h) (fun _ h _ => hc h), if_pos h]

/-- A comment of one line ends where the line or the text does. -/
theorem splitTrivia_line {body cs : List Char} (hbody : '\n' ∉ body)
    (hhead : ∀ c ∈ cs.head?, c = '\n') :
    splitTrivia .line (body ++ cs) =
      (body ++ (splitTrivia .space cs).1, (splitTrivia .space cs).2) := by
  induction body with
  | nil =>
    cases cs with
    | nil => rfl
    | cons c cs =>
      obtain rfl : c = '\n' := hhead c rfl
      rw [splitTrivia_blank isSpace_newline]
      rfl
  | cons c body ih =>
    simp only [List.mem_cons, not_or] at hbody
    rw [List.cons_append, splitTrivia, if_neg (Ne.symm hbody.1), ih hbody.2]
    rfl

theorem splitTrivia_block_cons {c : Char} {cs : List Char}
    (h : ¬ (c = '*' ∧ cs.head? = some '/')) :
    splitTrivia .block (c :: cs) =
      (c :: (splitTrivia .block cs).1, (splitTrivia .block cs).2) :=
  splitTrivia.eq_7 _ _ fun ds hc hcs => h ⟨hc, by rw [hcs]; rfl⟩

/-- A closed comment ends at its first closing mark. -/
theorem splitTrivia_block {body cs : List Char} (h : Unclosed body) :
    splitTrivia .block (body ++ '*' :: '/' :: cs) =
      (body ++ '*' :: '/' :: (splitTrivia .space cs).1, (splitTrivia .space cs).2) := by
  induction body with
  | nil => rfl
  | cons c body ih =>
    obtain ⟨hfirst, hbody⟩ := unclosed_cons.1 h
    have hopen : ¬ (c = '*' ∧ (body ++ '*' :: '/' :: cs).head? = some '/') := by
      cases body <;> simp_all
    rw [List.cons_append, splitTrivia_block_cons hopen, ih hbody]
    rfl

theorem splitTrivia_block_of_unclosed {body : List Char} (h : Unclosed body) :
    splitTrivia .block body = (body, []) := by
  induction body with
  | nil => rfl
  | cons c body ih =>
    obtain ⟨hfirst, hbody⟩ := unclosed_cons.1 h
    rw [splitTrivia_block_cons hfirst, ih hbody]

/-- A gap in front of a bare text is what the reader takes off. -/
theorem splitTrivia_of_gap {gap rest : List Char} (h : Gap gap rest) (hrest : Bare rest) :
    splitTrivia .space (gap ++ rest) = (gap, rest) := by
  induction h with
  | nil => exact splitTrivia_of_bare hrest
  | blank hc _ ih => rw [List.cons_append, splitTrivia_blank hc, ih hrest]
  | @line body gap rest hbody hhead _ ih =>
    show splitTrivia .space ('/' :: '/' :: (body ++ gap ++ rest)) = _
    rw [splitTrivia, List.append_assoc, splitTrivia_line hbody hhead, ih hrest]
  | @block body gap rest hbody _ ih =>
    show splitTrivia .space ('/' :: '*' :: (body ++ '*' :: '/' :: gap ++ rest)) = _
    rw [splitTrivia, List.append_assoc, List.cons_append, List.cons_append,
      splitTrivia_block hbody, ih hrest]
  | unclosed hbody =>
    rw [List.append_nil, splitTrivia, splitTrivia_block_of_unclosed hbody]

/-! ### Lexemes -/

/-- The characters of operators begin nothing else. -/
theorem classes_of_mem_marks {c : Char} {kind : Kind} (h : (c, kind) ∈ marks) :
    isSpace c = false ∧ isLetter c = false ∧ isDigit c = false ∧ c ≠ '"' ∧ kind ≠ .endOfInput := by
  have hall : ∀ mark ∈ marks, isSpace mark.1 = false ∧ isLetter mark.1 = false ∧
      isDigit mark.1 = false ∧ mark.1 ≠ '"' ∧ mark.2 ≠ .endOfInput := by decide
  exact hall _ h

/-- The first of two characters that spell an operator spells one alone, and is no slash. -/
theorem first_of_mem_doubleMarks {c d : Char} {kind : Kind} (h : ((c, d), kind) ∈ doubleMarks) :
    (∃ mark ∈ marks, mark.1 = c) ∧ c ≠ '/' ∧ kind ≠ .endOfInput := by
  have hall : ∀ double ∈ doubleMarks, (∃ mark ∈ marks, mark.1 = double.1.1) ∧
      double.1.1 ≠ '/' ∧ double.2 ≠ .endOfInput := by decide
  exact hall _ h

theorem doubleOperator_of_not_singleOperator {c : Char} (h : singleOperator c = none) (d : Char) :
    doubleOperator c d = none := by
  refine doubleOperator_eq_none_iff.2 fun kind hdouble => ?_
  obtain ⟨⟨mark, hmark, rfl⟩, -⟩ := first_of_mem_doubleMarks hdouble
  exact singleOperator_eq_none_iff.1 h mark.2 hmark

/-- Blanks belong to no word and no number. -/
theorem classes_of_isSpace {c : Char} (h : isSpace c) :
    isLetter c = false ∧ isDigit c = false := by
  simp only [isSpace, Bool.or_eq_true, beq_iff_eq, or_assoc] at h
  rcases h with rfl | rfl | rfl | rfl <;> decide

/-- Letters are no blanks and begin no operator or text. -/
theorem classes_of_isLetter {c : Char} (h : isLetter c) :
    isSpace c = false ∧ singleOperator c = none ∧ c ≠ '"' := by
  refine ⟨?_, ?_, by rintro rfl; exact absurd h (by decide)⟩
  · refine Bool.eq_false_iff.2 fun hspace => ?_
    rw [(classes_of_isSpace hspace).1] at h
    contradiction
  · refine singleOperator_eq_none_iff.2 fun kind hmark => ?_
    rw [(classes_of_mem_marks hmark).2.1] at h
    contradiction

/-- Digits are no blanks and no letters, and begin no operator or text. -/
theorem classes_of_isDigit {c : Char} (h : isDigit c) :
    isSpace c = false ∧ singleOperator c = none ∧ c ≠ '"' ∧ isLetter c = false := by
  refine ⟨?_, ?_, by rintro rfl; exact absurd h (by decide), ?_⟩
  · refine Bool.eq_false_iff.2 fun hspace => ?_
    rw [(classes_of_isSpace hspace).2] at h
    contradiction
  · refine singleOperator_eq_none_iff.2 fun kind hmark => ?_
    rw [(classes_of_mem_marks hmark).2.2.1] at h
    contradiction
  · have hne : c ≠ '_' := by rintro rfl; exact absurd h (by decide)
    have hdigit : 48 ≤ c.val ∧ c.val ≤ 57 := by
      change (decide (48 ≤ c.val) && decide (c.val ≤ 57)) = true at h
      simpa using h
    show (decide (65 ≤ c.val ∧ c.val ≤ 90) || (decide (97 ≤ c.val) && decide (c.val ≤ 122)) ||
      c == '_') = false
    grind

/-- A lexeme that no operator begins is bare. -/
theorem bare_of_not_operator {c : Char} {cs : List Char} (hspace : isSpace c = false)
    (h : singleOperator c = none) : Bare (c :: cs) :=
  ⟨hspace, by rintro rfl; contradiction⟩

namespace Longest

variable {p : Char → Bool} {run rest : List Char}

/-- The run at the head of a text. -/
theorem takeWhile_dropWhile {c : Char} {cs : List Char} (h : p c) :
    Longest p ((c :: cs).takeWhile p) ((c :: cs).dropWhile p) where
  ne_nil := by simp [h]
  all := fun _ hd => List.mem_takeWhile_imp hd
  maximal := fun d hd => by
    have := List.head?_dropWhile_not p (c :: cs)
    rw [Option.mem_def.1 hd] at this
    simpa using this

theorem takeWhile_eq (h : Longest p run rest) : (run ++ rest).takeWhile p = run := by
  rw [List.takeWhile_append_of_pos h.all]
  cases rest with
  | nil => simp
  | cons c cs => simp [h.maximal c rfl]

theorem dropWhile_eq (h : Longest p run rest) : (run ++ rest).dropWhile p = rest := by
  rw [List.dropWhile_append_of_pos h.all]
  cases rest with
  | nil => rfl
  | cons c cs => simp [h.maximal c rfl]

/-- A run begins with a character of its class. -/
theorem exists_cons (h : Longest p run rest) : ∃ c cs, run = c :: cs ∧ p c := by
  cases run with
  | nil => exact absurd rfl h.ne_nil
  | cons c cs => exact ⟨c, cs, rfl, h.all c (by simp)⟩

end Longest

/-- A word is a lexeme, with the kind of the keyword that it is or as an identifier. -/
theorem spells_word {word rest : List Char} (h : Longest isLetter word rest) :
    Spells (Kind.ofWord (String.ofList word)) (String.ofList word) word rest := by
  by_cases hword : ∃ kind, (String.ofList word, kind) ∈ keywords
  · obtain ⟨kind, hkind⟩ := hword
    rw [ofWord_of_mem_keywords hkind]
    exact .keyword hkind h
  · rw [not_exists] at hword
    rw [ofWord_of_not_mem_keywords hword]
    exact .identifier hword h

namespace Lexeme

/-- The lexeme of a token in front of a text, with the text behind it. -/
def Correct (lexeme : Lexeme) (rest : List Char) : Prop :=
  Spells lexeme.kind lexeme.literal lexeme.spelling rest

theorem correct_splitText (cs : List Char) : (splitText cs).1.Correct (splitText cs).2 := by
  have happend := List.takeWhile_append_dropWhile (p := (· != '"')) (l := cs)
  have hbody : '"' ∉ cs.takeWhile (· != '"') := fun h => by
    simpa using List.mem_takeWhile_imp h
  unfold splitText
  split
  · exact .cutText hbody
  · next quote rest hrest =>
    have hquote := List.head?_dropWhile_not (· != '"') cs
    rw [hrest] at hquote
    obtain rfl : quote = '"' := by simpa using hquote
    exact .text hbody

/-- The reader takes a lexeme off a bare text. -/
theorem correct_split {c : Char} {cs : List Char} (h : Bare (c :: cs)) :
    (split c cs).1.Correct (split c cs).2 := by
  obtain ⟨hspace, hslash⟩ := h
  -- in the order of the reader: two characters, one character, then the class of the first
  unfold split
  split
  · next kind hdouble =>
    obtain ⟨d, ds, rfl⟩ : ∃ d ds, cs = d :: ds := by cases cs <;> simp_all
    exact .double (doubleOperator_eq_some_iff.1 hdouble)
  · next hdouble =>
    have halone : ∀ d ∈ cs.head?, ∀ kind, ((c, d), kind) ∉ doubleMarks := by
      intro d hd
      rw [Option.mem_def.1 hd] at hdouble
      exact doubleOperator_eq_none_iff.1 hdouble
    split
    · next kind hsingle => exact .single (singleOperator_eq_some_iff.1 hsingle) halone hslash
    · next hsingle =>
      split_ifs with hquote hletter hdigit
      · exact correct_splitText cs
      · exact spells_word (.takeWhile_dropWhile hletter)
      · exact .integer (.takeWhile_dropWhile hdigit)
      · exact .illegal ⟨hspace, by simpa using hletter, by simpa using hdigit, hquote,
          singleOperator_eq_none_iff.1 hsingle⟩

/-- Behind no operator, the class of the first character decides. -/
theorem split_of_not_operator {c : Char} {cs : List Char} (h : singleOperator c = none) :
    split c cs =
      if c = '"' then splitText cs
      else if isLetter c then splitRun isLetter Kind.ofWord (c :: cs)
      else if isDigit c then splitRun isDigit (fun _ => .integer) (c :: cs)
      else (verbatim .illegal [c], cs) := by
  have hdouble : cs.head?.bind (doubleOperator c) = none := by
    cases cs with
    | nil => rfl
    | cons d ds => exact doubleOperator_of_not_singleOperator h d
  unfold split
  rw [hdouble, h]

theorem splitRun_of_longest {p : Char → Bool} {kind : String → Kind} {run rest : List Char}
    (h : Longest p run rest) :
    splitRun p kind (run ++ rest) = (verbatim (kind (String.ofList run)) run, rest) := by
  unfold splitRun
  rw [h.takeWhile_eq, h.dropWhile_eq]

theorem splitText_of_not_mem {body rest : List Char} (h : '"' ∉ body) :
    splitText (body ++ '"' :: rest) =
      (⟨.text, String.ofList body, '"' :: (body ++ ['"'])⟩, rest) := by
  have hbody : ∀ c ∈ body, (c != '"') = true := fun c hc => by
    simpa using fun hq : c = '"' => h (hq ▸ hc)
  unfold splitText
  simp [List.takeWhile_append_of_pos hbody, List.dropWhile_append_of_pos hbody]

theorem splitText_of_cut {body : List Char} (h : '"' ∉ body) :
    splitText body = (⟨.text, String.ofList body, '"' :: body⟩, []) := by
  have hbody : ∀ c ∈ body, (c != '"') = true := fun c hc => by
    simpa using fun hq : c = '"' => h (hq ▸ hc)
  unfold splitText
  rw [List.takeWhile_eq_self_iff.2 hbody, List.dropWhile_eq_nil_iff.2 hbody]

end Lexeme

namespace Spells

variable {kind : Kind} {literal : String} {spelling rest : List Char}

theorem word_split {word : List Char} (h : Longest isLetter word rest) :
    ∃ c cs, word ++ rest = c :: cs ∧ Bare (c :: cs) ∧
      Lexeme.split c cs =
        (⟨Kind.ofWord (String.ofList word), String.ofList word, word⟩, rest) := by
  obtain ⟨c, cs, rfl, hc⟩ := h.exists_cons
  obtain ⟨hspace, hoperator, hquote⟩ := classes_of_isLetter hc
  refine ⟨c, cs ++ rest, rfl, bare_of_not_operator hspace hoperator, ?_⟩
  rw [Lexeme.split_of_not_operator hoperator, if_neg hquote, if_pos hc, ← List.cons_append,
    Lexeme.splitRun_of_longest h]
  rfl

/-- A lexeme in front of a text is what the reader takes off. -/
theorem split_eq (h : Spells kind literal spelling rest) :
    ∃ c cs, spelling ++ rest = c :: cs ∧ Bare (c :: cs) ∧
      Lexeme.split c cs = (⟨kind, literal, spelling⟩, rest) := by
  cases h with
  | keyword hword hrun =>
    rw [← ofWord_of_mem_keywords hword]
    exact word_split hrun
  | identifier hword hrun =>
    rw [← ofWord_of_not_mem_keywords hword]
    exact word_split hrun
  | integer hrun =>
    obtain ⟨c, cs, rfl, hc⟩ := hrun.exists_cons
    obtain ⟨hspace, hoperator, hquote, hletter⟩ := classes_of_isDigit hc
    refine ⟨c, cs ++ rest, rfl, bare_of_not_operator hspace hoperator, ?_⟩
    rw [Lexeme.split_of_not_operator hoperator, if_neg hquote, if_neg (by simp [hletter]),
      if_pos hc, ← List.cons_append, Lexeme.splitRun_of_longest hrun]
    rfl
  | @text body rest hbody =>
    refine ⟨'"', body ++ '"' :: rest, by simp, bare_of_not_operator rfl rfl, ?_⟩
    rw [Lexeme.split_of_not_operator rfl, if_pos rfl, Lexeme.splitText_of_not_mem hbody]
  | @cutText body hbody =>
    refine ⟨'"', body, by simp, bare_of_not_operator rfl rfl, ?_⟩
    rw [Lexeme.split_of_not_operator rfl, if_pos rfl, Lexeme.splitText_of_cut hbody]
  | @double c d kind rest hdouble =>
    obtain ⟨⟨mark, hmark, rfl⟩, hslash, -⟩ := first_of_mem_doubleMarks hdouble
    refine ⟨mark.1, d :: rest, rfl,
      ⟨(classes_of_mem_marks hmark).1, fun h => absurd h hslash⟩, ?_⟩
    simp [Lexeme.split, Lexeme.verbatim, doubleOperator_eq_some_iff.2 hdouble]
  | @single c kind rest hmark halone hslash =>
    refine ⟨c, rest, rfl, ⟨(classes_of_mem_marks hmark).1, hslash⟩, ?_⟩
    have hdouble : rest.head?.bind (doubleOperator c) = none := by
      cases rest with
      | nil => rfl
      | cons d ds => exact doubleOperator_eq_none_iff.2 (halone d rfl)
    unfold Lexeme.split
    rw [hdouble, singleOperator_eq_some_iff.2 hmark]
    rfl
  | @illegal c rest hstray =>
    have hoperator := singleOperator_eq_none_iff.2 hstray.operator
    refine ⟨c, rest, rfl, bare_of_not_operator hstray.space hoperator, ?_⟩
    rw [Lexeme.split_of_not_operator hoperator, if_neg hstray.quote,
      if_neg (by simp [hstray.letter]), if_neg (by simp [hstray.digit])]
    rfl

theorem spelling_ne_nil (h : Spells kind literal spelling rest) : spelling ≠ [] := by
  cases h with
  | keyword _ hrun => exact hrun.ne_nil
  | identifier _ hrun => exact hrun.ne_nil
  | integer hrun => exact hrun.ne_nil
  | _ => simp

/-- No lexeme is that of the end token. -/
theorem kind_ne (h : Spells kind literal spelling rest) : kind ≠ .endOfInput := by
  cases h with
  | keyword hword _ =>
    rintro rfl
    simp [keywords] at hword
  | double hdouble => exact (first_of_mem_doubleMarks hdouble).2.2
  | single hmark => exact (classes_of_mem_marks hmark).2.2.2.2
  | _ => simp

end Spells

/-! ### Tokens -/

namespace Cursor

/-- At a bare end of the text stands the end token. -/
theorem next_of_end {position line : Nat} {gap : List Char} (h : Gap gap []) :
    (Cursor.mk position line gap).next.1 = ⟨.endOfInput, "", line + gap.count '\n'⟩ := by
  have hsplit : splitTrivia .space gap = (gap, []) := by
    simpa using splitTrivia_of_gap h trivial
  unfold next skipTrivia read
  rw [hsplit]
  rfl

/-- Behind a gap the reader finds the lexeme that stands there. -/
theorem next_of_spells {position line : Nat} {gap spelling rest : List Char} {kind : Kind}
    {literal : String} (hgap : Gap gap (spelling ++ rest))
    (hspells : Spells kind literal spelling rest) :
    (Cursor.mk position line (gap ++ (spelling ++ rest))).next =
      (⟨kind, literal, line + gap.count '\n'⟩,
        ⟨position + gap.length + spelling.length, line + (gap ++ spelling).count '\n', rest⟩) := by
  obtain ⟨c, cs, htext, hbare, hsplit⟩ := hspells.split_eq
  rw [htext] at hgap ⊢
  unfold next skipTrivia read
  rw [splitTrivia_of_gap hgap hbare]
  dsimp only [advance]
  rw [hsplit, List.count_append, ← Nat.add_assoc]

/-- The tokens of a text with a layout are those of the layout. -/
theorem tokens_of_layout {line : Nat} {text : List Char} {tokens : List Token}
    (h : Layout line text tokens) : ∀ position, (Cursor.mk position line text).tokens = tokens := by
  induction h with
  | finish hgap =>
    intro position
    unfold Cursor.tokens
    dsimp only
    rw [next_of_end hgap, if_pos rfl]
  | token hgap hspells _ ih =>
    intro position
    unfold Cursor.tokens
    rw [next_of_spells hgap hspells]
    dsimp only
    rw [if_neg hspells.kind_ne, ih]

end Cursor

/-- Every text has a layout: cutting off a gap and a lexeme in turn reaches its end. -/
theorem exists_layout (line : Nat) (text : List Char) : ∃ tokens, Layout line text tokens := by
  have hgap : Gap (splitTrivia .space text).1 (splitTrivia .space text).2 :=
    inside_splitTrivia .space text
  -- the gap is as long as it can be, so that a lexeme or the end stands behind it
  have hbare := bare_splitTrivia .space text
  have htext := splitTrivia_append .space text
  generalize (splitTrivia .space text).1 = gap at hgap htext
  generalize (splitTrivia .space text).2 = bare at hgap hbare htext
  cases bare with
  | nil =>
    rw [List.append_nil] at htext
    subst htext
    exact ⟨_, .finish hgap⟩
  | cons c cs =>
    have hspells := Lexeme.correct_split hbare
    have happend := Lexeme.split_append c cs
    have hshorter : (Lexeme.split c cs).2.length < text.length := by
      have := Lexeme.length_split_lt c cs
      rw [← htext, List.length_append]
      omega
    obtain ⟨tokens, htokens⟩ := exists_layout _ (Lexeme.split c cs).2
    rw [← happend] at hgap htext
    rw [← htext]
    exact ⟨_, .token hgap hspells htokens⟩
termination_by text.length

theorem tokenize_of_layout {source : String} {tokens : List Token}
    (h : Layout 1 source.toList tokens) : tokenize source = tokens :=
  Cursor.tokens_of_layout h 0

theorem layout_tokenize (source : String) : Layout 1 source.toList (tokenize source) := by
  obtain ⟨tokens, h⟩ := exists_layout 1 source.toList
  rwa [tokenize_of_layout h]

/-- The tokens of a source text are those of its only layout: trivia and lexemes in turn make up
the text, and each token stands for one lexeme, on the line where that begins. The end token stands
at the end and nowhere else. -/
theorem layout_iff_tokenize (source : String) :
    Terminated (tokenize source) ∧
      ∀ tokens, Layout 1 source.toList tokens ↔ tokenize source = tokens := by
  refine ⟨terminated_tokenize source, fun tokens => ⟨fun h => Cursor.tokens_of_layout h 0, ?_⟩⟩
  rintro rfl
  obtain ⟨tokens, h⟩ := exists_layout 1 source.toList
  rwa [show tokenize source = tokens from Cursor.tokens_of_layout h 0]

end MonkeyLang
