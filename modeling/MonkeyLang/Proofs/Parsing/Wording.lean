import MonkeyLang.Proofs.Parsing.Draining
import MonkeyLang.Proofs.Parsing.Relabeling

/-!
# The words of a text

The parser sees a text as its words: the kinds and the literals of its tokens. Two texts of the same
words may differ in blanks, in comments, and in where their lines end. What the parser makes of them
differs in lines only: in those of the tokens in the trees, in those that errors are reported for, and
in the line of the first illegal character.

* `SameWords s s'`: the texts consist of the same words.
* `parse_mapLines_of_words`: with all lines moved to the first one, they are parsed alike.
-/

namespace MonkeyLang

/-- What a token is without its line. -/
def Token.word (t : Token) : Kind × String := (t.kind, t.literal)

/-- The texts consist of the same words. -/
def SameWords (s s' : String) : Prop := (tokenize s).map Token.word = (tokenize s').map Token.word

instance (s s' : String) : Decidable (SameWords s s') :=
  inferInstanceAs (Decidable ((tokenize s).map Token.word = (tokenize s').map Token.word))

/-- The errors differ at most in the line, with which their messages end. -/
structure SyntaxError.Alike (e e' : SyntaxError) : Prop where
  cause : e.cause = e'.cause
  message : ∃ text, e.message = text ++ toString e.line ∧ e'.message = text ++ toString e'.line

theorem SyntaxError.alike_of_mapLines {e e' : SyntaxError}
    (h : e.mapLines firstLine = e'.mapLines firstLine) : e.Alike e' := by
  have hmoved := congrArg SyntaxError.cause h
  have hcause : e.cause = e'.cause := hmoved
  exact ⟨hcause, e.cause.text ++ " at line: ", rfl, by rw [SyntaxError.message, ← hcause]⟩

/-- What is parsed, with all lines moved. -/
def Parsed.mapLines (f : Nat → Nat) (parsed : Parsed) : Parsed :=
  ⟨parsed.program.mapLines f, parsed.errors.map (SyntaxError.mapLines f)⟩

namespace Parsing

/-- What the tokens are parsed as. -/
def ofTokens (ts : List Token) : Except Halt Parsed :=
  match fill.run (Window.before ts) with
  | .error halt _ => .error halt
  | .ok _ w =>
    let trace := readStatements (stepsFor ts) (stepsFor ts) w
    match trace.halt with
    | some halt => .error halt
    | none => .ok ⟨trace.program, trace.window.errors⟩

/-- The outcome of parsing, with all lines moved. -/
def outcomeOn (f : Nat → Nat) : Except Halt Parsed → Except Halt Parsed
  | .error halt => .error (halt.mapLines f)
  | .ok parsed => .ok (parsed.mapLines f)

theorem parse_eq_ofTokens (source : String) : parse source = ofTokens (tokenize source) :=
  parse_eq source

theorem relabels_fill (f : Nat → Nat) : Relabels f id fill fill :=
  relabels_bind relabels_advance fun _ => relabels_advance

/-- Tokens that are all moved to the first line are parsed as before, but on the first line. -/
theorem ofTokens_firstLine {ts : List Token} (h : ofTokens ts ≠ .error .outOfSteps) :
    ofTokens (ts.map (Token.mapLines firstLine)) = outcomeOn firstLine (ofTokens ts) := by
  have hbefore : Window.before (ts.map (Token.mapLines firstLine)) =
    (Window.before ts).mapLines firstLine := rfl
  have hsteps : stepsFor (ts.map (Token.mapLines firstLine)) = stepsFor ts := by
    rw [stepsFor, stepsFor, List.length_map]
  unfold ofTokens at h ⊢
  rw [hbefore, hsteps]
  cases hrun : fill.run (Window.before ts) with
  | error halt w =>
    rw [hrun] at h
    rcases (relabels_fill firstLine _).of_error hrun with rfl | hrun'
    · exact absurd rfl h
    · rw [hrun']
      rfl
  | ok u w =>
    rw [hrun] at h
    rw [(relabels_fill firstLine _).of_ok hrun]
    dsimp only at h ⊢
    rcases readStatements_mapLines firstLine (Nat.le_refl _) _ w _ (Nat.le_refl _) with hout | htrace
    · rw [hout] at h
      exact absurd rfl h
    · rw [htrace, Trace.mapLines]
      cases hhalt : (readStatements (stepsFor ts) (stepsFor ts) w).halt with
      | some halt => rfl
      | none =>
        show Except.ok (Parsed.mk (Trace.program (Trace.mapLines firstLine _)) _) = _
        rw [program_mapLines]
        rfl

end Parsing

open Parsing

theorem mapLines_eq_of_words {ts ts' : List Token} (h : ts.map Token.word = ts'.map Token.word) :
    ts.map (Token.mapLines firstLine) = ts'.map (Token.mapLines firstLine) := by
  have hword : Token.mapLines firstLine = (fun word => ⟨word.1, word.2, 1⟩) ∘ Token.word := rfl
  rw [hword, ← List.map_map, h, List.map_map]

/-- The steps given to the parser are enough. -/
theorem parse_ne_outOfSteps (source : String) : parse source ≠ .error .outOfSteps := by
  rcases parse_outcome source with ⟨t, -, hparse⟩ | ⟨-, trace, -, -, -, -, hparse⟩ <;>
    rw [hparse] <;> exact nofun

/-- Two texts of the same words are parsed alike, up to lines. -/
theorem parse_mapLines_of_words {s s' : String} (h : SameWords s s') :
    outcomeOn firstLine (parse s) = outcomeOn firstLine (parse s') := by
  have hparse := parse_ne_outOfSteps s
  have hparse' := parse_ne_outOfSteps s'
  rw [parse_eq_ofTokens] at hparse hparse' ⊢
  rw [parse_eq_ofTokens, ← ofTokens_firstLine hparse, ← ofTokens_firstLine hparse',
    mapLines_eq_of_words h]

end MonkeyLang
