import MonkeyLang.Proofs.Lexing.Writing
import MonkeyLang.Proofs.Parsing.Lines

/-!
# Tokens of texts put together

A line end between two texts keeps them apart: the tokens of the whole are those of the first, up to
its end, and those of the second, further down. The first text must not leave anything open that the
line end does not close. That can be a block comment (`EndsInComment`) or a text literal, which is
then the last token.
-/

namespace MonkeyLang

/-- The number of lines of a text. -/
def lineCount (s : String) : Nat := s.toList.count '\n' + 1

/-- The text ends inside a comment that only its closing mark would have closed: behind the last
token stand closed comments and blanks, and then an open comment. -/
inductive EndsInComment : List Char → Prop
  | here {filler body} : Filler filler → Unclosed body →
      EndsInComment (filler ++ '/' :: '*' :: body)
  | token {gap kind literal spelling rest} : Gap gap (spelling ++ rest) →
      Spells kind literal spelling rest → EndsInComment rest →
      EndsInComment (gap ++ (spelling ++ rest))

/-- An open comment has an opening mark. -/
theorem EndsInComment.mem {text : List Char} (h : EndsInComment text) : '*' ∈ text := by
  induction h with
  | here => simp
  | token _ _ _ ih => simp [ih]

/-! ### Trivia -/

section Gaps

variable {gap rest more text : List Char} {tokens : List Token} {line : Nat}

/-- Trivia at the end of a text are closed by a line end, unless a block comment is open. -/
theorem filler_of_gap (h : Gap gap rest) (hrest : rest = []) : Filler (gap ++ ['\n']) ∨
    ∃ filler body, gap = filler ++ '/' :: '*' :: body ∧ Filler filler ∧ Unclosed body := by
  induction h with
  | nil => exact .inl (.blank isSpace_newline .nil)
  | blank hc _ ih =>
    obtain ih | ⟨filler, body, rfl, hfiller, hbody⟩ := ih hrest
    · exact .inl (.blank hc ih)
    · exact .inr ⟨_ :: filler, body, rfl, .blank hc hfiller, hbody⟩
  | @line comment gap rest hcomment hhead _ ih =>
    subst hrest
    -- the comment ends with its line, or with the line end that is put behind the text
    have hends : ∀ c ∈ gap.head?, c = '\n' := by simpa using hhead
    obtain ih | ⟨filler, body, rfl, hfiller, hbody⟩ := ih rfl
    · left
      cases gap with
      | nil => simpa using Filler.line hcomment .nil
      | cons c gap =>
        obtain rfl : c = '\n' := hends c rfl
        rw [List.cons_append, List.cons_append, List.append_assoc, List.cons_append]
        cases ih with
        | blank _ ih => exact .line hcomment ih
    · right
      cases hfiller with
      | nil => exact absurd (hends '/' rfl) (by decide)
      | @blank c filler _ hfiller =>
        obtain rfl : c = '\n' := hends c rfl
        exact ⟨'/' :: '/' :: (comment ++ '\n' :: filler), body, by simp, .line hcomment hfiller,
          hbody⟩
      | line => exact absurd (hends '/' rfl) (by decide)
      | block => exact absurd (hends '/' rfl) (by decide)
  | block hcomment _ ih =>
    obtain ih | ⟨filler, body, rfl, hfiller, hbody⟩ := ih hrest
    · left
      simpa using Filler.block hcomment ih
    · exact .inr ⟨_, body, by simp, .block hcomment hfiller, hbody⟩
  | unclosed hbody => exact .inr ⟨[], _, rfl, .nil, hbody⟩

/-- Trivia in front of a token are trivia whatever follows the token. -/
theorem Gap.append (h : Gap gap rest) (hrest : rest ≠ []) (more : List Char) :
    Gap gap (rest ++ more) := by
  induction h with
  | nil => exact .nil
  | blank hc _ ih => exact .blank hc (ih hrest)
  | @line comment gap rest hcomment hhead _ ih =>
    obtain ⟨d, ds, hcons⟩ := List.exists_cons_of_ne_nil (show gap ++ rest ≠ [] by simp [hrest])
    refine .line hcomment ?_ (ih hrest)
    rw [hcons] at hhead
    rw [← List.append_assoc, hcons]
    exact hhead
  | block hcomment _ ih => exact .block hcomment (ih hrest)
  | unclosed => exact absurd rfl hrest

/-- Closed trivia are part of the gap that follows them. -/
theorem Filler.append_gap {filler : List Char} (h : Filler filler) (hgap : Gap gap rest) :
    Gap (filler ++ gap) rest := by
  induction h with
  | nil => exact hgap
  | blank hc _ ih => exact .blank hc ih
  | @line comment filler hcomment _ ih =>
    have hline : Gap ('\n' :: (filler ++ gap)) rest := .blank isSpace_newline ih
    simpa using Gap.line hcomment (by simp) hline
  | block hcomment _ ih => simpa using Gap.block hcomment ih

/-- Closed trivia in front of a text move it down by their line ends. -/
theorem Filler.layout {filler : List Char} (h : Filler filler)
    (htext : Layout (line + filler.count '\n') text tokens) :
    Layout line (filler ++ text) tokens := by
  cases htext with
  | finish hgap =>
    rw [Nat.add_assoc, ← List.count_append]
    exact .finish (h.append_gap hgap)
  | token hgap hspells htokens =>
    rw [Nat.add_assoc, ← List.count_append, ← List.append_assoc] at htokens
    rw [Nat.add_assoc, ← List.count_append, ← List.append_assoc]
    exact .token (h.append_gap hgap) hspells htokens

end Gaps

/-! ### Lexemes -/

theorem Longest.append {p : Char → Bool} {run rest more : List Char} (h : Longest p run rest)
    (hmore : ∀ c ∈ more.head?, p c = false) : Longest p run (rest ++ more) where
  ne_nil := h.ne_nil
  all := h.all
  maximal := by
    cases rest with
    | nil => exact hmore
    | cons c cs => exact h.maximal

/-- A lexeme goes no further when a blank is put behind the text, unless it is a text literal that
is cut off there. -/
theorem Spells.append {kind : Kind} {literal : String} {spelling rest more : List Char}
    (h : Spells kind literal spelling rest) (hmore : BlankAhead more)
    (hopen : rest = [] → kind ≠ .text) : Spells kind literal spelling (rest ++ more) := by
  have hclasses : ∀ c ∈ more.head?, isLetter c = false ∧ isDigit c = false :=
    fun c hc => classes_of_isSpace (hmore c hc)
  cases h with
  | keyword hword hrun => exact .keyword hword (hrun.append fun c hc => (hclasses c hc).1)
  | identifier hword hrun => exact .identifier hword (hrun.append fun c hc => (hclasses c hc).1)
  | integer hrun => exact .integer (hrun.append fun c hc => (hclasses c hc).2)
  | text hbody => exact .text hbody
  | cutText => exact absurd rfl (hopen rfl)
  | double hdouble => exact .double hdouble
  | single hsingle halone hslash =>
    cases rest with
    | nil =>
      exact .single hsingle (fun d hd => (apart_of_isSpace (hmore d hd)).1 _)
        fun _ d hd => (apart_of_isSpace (hmore d hd)).2
    | cons => exact .single hsingle halone hslash
  | illegal hstray => exact .illegal hstray

/-! ### Layouts -/

namespace Layout

variable {line : Nat} {text text' : List Char} {tokens tokens' : List Token}

/-- A text further down has the same tokens, further down. -/
theorem mapLines (h : Layout line text tokens) (k : Nat) :
    Layout (line + k) text (tokens.map (Token.mapLines (· + k))) := by
  induction h with
  | @finish line gap hgap =>
    have hend : Layout (line + k) gap _ := .finish hgap
    rwa [Nat.add_right_comm] at hend
  | @token line gap kind literal spelling rest tokens hgap hspells _ ih =>
    rw [Nat.add_right_comm] at ih
    have htoken := Layout.token hgap hspells ih
    rwa [Nat.add_right_comm] at htoken

/-- A text without characters has no token but the end token. -/
theorem dropLast_of_nil (h : Layout line [] tokens) : tokens.dropLast = [] := by
  generalize htext : [] = text at h
  cases h with
  | finish => rfl
  | token _ hspells =>
    obtain ⟨c, cs, hcons, -⟩ := hspells.split_eq
    simp [hcons] at htext

/-- A line end between two texts keeps their tokens apart. -/
theorem append (h : Layout line text tokens) (hcomment : ¬ EndsInComment text)
    (hlast : ∀ t ∈ tokens.dropLast.getLast?, t.kind ≠ .text)
    (h' : Layout (line + text.count '\n' + 1) text' tokens') :
    Layout line (text ++ '\n' :: text') (tokens.dropLast ++ tokens') := by
  induction h with
  | @finish line gap hgap =>
    obtain hfiller | ⟨filler, body, rfl, hfiller, hbody⟩ := filler_of_gap hgap rfl
    · rw [List.append_cons]
      refine hfiller.layout ?_
      rwa [List.count_append, List.count_singleton_self, ← Nat.add_assoc]
    · exact absurd (.here hfiller hbody) hcomment
  | @token line gap kind literal spelling rest tokens hgap hspells hrest ih =>
    have hne : tokens ≠ [] := by rintro rfl; cases hrest
    rw [List.dropLast_cons_of_ne_nil hne] at hlast ⊢
    -- a token that ends the text is the last one, so that it is no text literal cut off
    have hopen : rest = [] → kind ≠ .text := by
      rintro rfl
      rw [hrest.dropLast_of_nil] at hlast
      exact hlast _ rfl
    have hlater : ∀ t ∈ tokens.dropLast.getLast?, t.kind ≠ .text := fun t ht => by
      refine hlast t ?_
      rw [List.getLast?_cons, Option.mem_def.1 ht]
      rfl
    obtain ⟨c, cs, hcons, -⟩ := hspells.split_eq
    have hgap' := hgap.append (by simp [hcons]) ('\n' :: text')
    rw [List.append_assoc] at hgap'
    have hblank : BlankAhead ('\n' :: text') := by simp [BlankAhead, isSpace_newline]
    have hspells' := hspells.append hblank hopen
    rw [← List.append_assoc, List.count_append, ← Nat.add_assoc] at h'
    have hrest' := ih (fun hrest => hcomment (.token hgap hspells hrest)) hlater h'
    rw [List.append_assoc, List.append_assoc]
    exact .token hgap' hspells' hrest'

end Layout

/-- The tokens of two texts with a line end between them, when the first leaves nothing open. -/
theorem tokenize_append {s₁ s₂ : String} (hcomment : ¬ EndsInComment s₁.toList)
    (hlast : ∀ t ∈ (tokenize s₁).dropLast.getLast?, t.kind ≠ .text) :
    tokenize (s₁ ++ "\n" ++ s₂) =
      (tokenize s₁).dropLast ++ (tokenize s₂).map (Token.mapLines (· + lineCount s₁)) := by
  have h₂ := (layout_tokenize s₂).mapLines (lineCount s₁)
  rw [lineCount, ← Nat.add_assoc] at h₂
  have h := (layout_tokenize s₁).append hcomment hlast h₂
  refine tokenize_of_layout ?_
  rwa [String.toList_append, String.toList_append, List.append_assoc]

end MonkeyLang
