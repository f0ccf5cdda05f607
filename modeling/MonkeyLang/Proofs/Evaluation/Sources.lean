import Mathlib.Data.List.Forall2
import MonkeyLang.Proofs.Evaluation.Independence
import MonkeyLang.Proofs.Evaluation.Pipeline
import MonkeyLang.Proofs.Parsing.Wording

/-!
# What is seen of a source text

A source text that runs in a new top-level scope comes to one of three ends. It has an illegal
character, or it has syntax errors, and then all that happens is that there is a new scope; or it is
the text of a program, and then what is seen of it is what is seen of that program.

Nothing of the layout of the text goes into this: two texts of the same words are parsed alike
(`ParsedAlike`), and what is seen of one is seen of the other.
-/

namespace MonkeyLang

/-- The machine with a new top-level scope. -/
def Machine.withScope (m : Machine) : Machine := { m with scopes := m.scopes.push ⟨[], none⟩ }

/-- What is seen of a source text that runs in a new top-level scope of the machine. -/
def observeRun (limit : Nat) (source : String) (m : Machine) : Observation :=
  match (runAlone limit source).run m with
  | .ok result last => .between m last result.value
  | .error _ last => .between m last none

section Ends

variable {m : Machine} {limit : Nat} {source : String} {program : Program}

theorem runAlone_of_halt {halt : Halt} (h : parse source = .error halt) :
    (runAlone limit source).run m = .error (.halted halt) m.withScope := by
  show (run limit m.scopes.size source).run m.withScope = _
  unfold run
  rw [h]
  rfl

/-- A source text with syntax errors is not evaluated. -/
theorem run_of_errors {scope : ScopeId} {errors : List SyntaxError}
    (h : parse source = .ok ⟨program, errors⟩) (herrors : errors ≠ []) :
    (run limit scope source).run m = .ok ⟨program, errors, none⟩ m := by
  unfold run
  rw [h]
  cases errors with
  | nil => exact absurd rfl herrors
  | cons error errors => rfl

theorem runAlone_of_errors {errors : List SyntaxError} (h : parse source = .ok ⟨program, errors⟩)
    (herrors : errors ≠ []) :
    (runAlone limit source).run m = .ok ⟨program, errors, none⟩ m.withScope :=
  run_of_errors h herrors

theorem runAlone_of_parse (h : parse source = .ok ⟨program, []⟩) :
    (runAlone limit source).run m = runOutcome program
      ((program.evalAlone (.ofTable m.supply limit)).run { m with supply := m.supply + 1 }) :=
  run_of_parse h

/-- What is seen of the text of a program is what is seen of the program, wherever it runs. -/
theorem observeRun_of_parse (h : parse source = .ok ⟨program, []⟩) :
    observeRun limit source m = program.observe 0 limit .initial := by
  rw [← program.observe_eq m.supply limit { m with supply := m.supply + 1 }]
  unfold observeRun Program.observe
  rw [runAlone_of_parse h]
  cases (program.evalAlone (.ofTable m.supply limit)).run { m with supply := m.supply + 1 } <;> rfl

end Ends

/-! ### Layout -/

/-- Two texts are parsed alike: the same character is illegal, or the trees are the same up to
lines, and so are the errors. -/
inductive ParsedAlike : Except Halt Parsed → Except Halt Parsed → Prop
  | illegal (character : String) (line line' : Nat) :
      ParsedAlike (.error (.illegalCharacter character line))
        (.error (.illegalCharacter character line'))
  | parsed {parsed parsed' : Parsed}
      (program : parsed.program.mapLines firstLine = parsed'.program.mapLines firstLine)
      (errors : List.Forall₂ SyntaxError.Alike parsed.errors parsed'.errors) :
      ParsedAlike (.ok parsed) (.ok parsed')

theorem alike_of_map {es es' : List SyntaxError}
    (h : es.map (SyntaxError.mapLines firstLine) = es'.map (SyntaxError.mapLines firstLine)) :
    List.Forall₂ SyntaxError.Alike es es' := by
  have hmoved := List.forall₂_eq_eq_eq ▸ h
  rw [List.forall₂_map_left_iff, List.forall₂_map_right_iff] at hmoved
  exact hmoved.imp fun _ _ => SyntaxError.alike_of_mapLines

theorem parsedAlike_of_words {s s' : String} (h : SameWords s s') :
    ParsedAlike (parse s) (parse s') := by
  have hmoved := parse_mapLines_of_words h
  have hsteps := parse_ne_outOfSteps s
  have hsteps' := parse_ne_outOfSteps s'
  cases hparse : parse s with
  | error halt =>
    cases hparse' : parse s' with
    | ok parsed' => rw [hparse, hparse'] at hmoved; cases hmoved
    | error halt' =>
      rw [hparse] at hmoved hsteps
      rw [hparse'] at hmoved hsteps'
      cases halt with
      | outOfSteps => exact absurd rfl hsteps
      | illegalCharacter character line =>
        cases halt' with
        | outOfSteps => exact absurd rfl hsteps'
        | illegalCharacter character' line' =>
          cases hmoved
          exact .illegal character line line'
  | ok parsed =>
    cases hparse' : parse s' with
    | error halt' => rw [hparse, hparse'] at hmoved; cases hmoved
    | ok parsed' =>
      rw [hparse, hparse'] at hmoved
      injection hmoved with hmoved
      injection hmoved with hprogram herrors
      exact .parsed hprogram (alike_of_map herrors)

/-- Programs that are the same up to lines show the same. -/
theorem Program.observe_eq_of_mapLines {program program' : Program}
    (h : program.mapLines firstLine = program'.mapLines firstLine)
    (hwhole : ∀ st ∈ program.statements, (Node.statement st).Whole)
    (hwhole' : ∀ st ∈ program'.statements, (Node.statement st).Whole) (limit : Nat) :
    program.observe 0 limit .initial = program'.observe 0 limit .initial := by
  let ρ : Relocation := ⟨.initial, id, firstLine, fun _ _ h => h⟩
  have hmoved : ∀ program : Program, (∀ st ∈ program.statements, (Node.statement st).Whole) →
      (program.mapLines firstLine).observe 0 limit .initial = program.observe 0 limit .initial :=
    fun program hwhole => Program.observe_relocate (ρ := ρ) 0 limit fun st hst =>
      .inr (hwhole st hst)
  rw [← hmoved program hwhole, h, hmoved program' hwhole']

/-- Layout has no meaning. Texts of the same words are parsed alike; and if one of them has no
syntax errors, both show the same, whatever machines they run on. -/
theorem layout_meaningless {s s' : String} (h : SameWords s s') :
    ParsedAlike (parse s) (parse s') ∧
      ∀ parsed, parse s = .ok parsed → parsed.errors = [] →
        ∀ limit m m', observeRun limit s m = observeRun limit s' m' := by
  have halike := parsedAlike_of_words h
  refine ⟨halike, ?_⟩
  rintro ⟨program, errors⟩ hparse rfl limit m m'
  rw [hparse] at halike
  cases hparse' : parse s' with
  | error halt => rw [hparse'] at halike; cases halike
  | ok parsed' =>
    rw [hparse'] at halike
    obtain ⟨program', errors'⟩ := parsed'
    cases halike with
    | parsed hprogram herrors =>
      cases herrors
      rw [observeRun_of_parse hparse, observeRun_of_parse hparse']
      exact Program.observe_eq_of_mapLines hprogram (whole_of_parse hparse) (whole_of_parse hparse')
        limit

/-- A program on one line. -/
def onOneLine : String := "var f = fun(x) \x7b return x + 1; \x7d; print(f(1)); f;"

/-- The same program on many lines, with comments. -/
def onManyLines : String :=
  "var f = // adds one\nfun(x)\n\x7b\n  return x + 1;\n\x7d;\n\nprint(/* two */ f(1));\nf;\n"

/-- A function is shown in full, but not as it is laid out. -/
theorem layout_meaningless_of_print : SameWords onOneLine onManyLines ∧
    ParsedAlike (parse onOneLine) (parse onManyLines) ∧
    ∀ limit m m', observeRun limit onOneLine m = observeRun limit onManyLines m' := by
  have hwords : SameWords onOneLine onManyLines := by decide +kernel
  obtain ⟨program, hparse⟩ := exists_of_accepted onOneLine (by decide +kernel)
  obtain ⟨halike, hsame⟩ := layout_meaningless hwords
  exact ⟨hwords, halike, hsame ⟨program, []⟩ hparse rfl⟩

end MonkeyLang
