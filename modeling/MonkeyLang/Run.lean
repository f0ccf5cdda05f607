import MonkeyLang.Evaluation
import MonkeyLang.Parsing.Program

/-!
# Running source text

`run` parses a source text and, if it has no syntax errors, evaluates it. A run ends early at an
illegal character or when calls nest too deeply; the machine keeps what was done before.
-/

namespace MonkeyLang

/-- Why a run ends without a result. -/
inductive Interruption where
  | halted (halt : Halt)
  | overflowed (overflow : Overflow)

/-- A computation on the machine that can be interrupted. -/
abbrev Run := EStateM Interruption Machine

/-- Evaluation as part of a run. -/
def Eval.toRun {α : Type} (eval : Eval α) : Run α := EStateM.adaptExcept .overflowed eval

/-- The result of a run: the program, its syntax errors, and its value if there were none. -/
structure RunResult where
  program : Program
  errors : List SyntaxError
  value : Option Value

/-- A run is good when the program has neither a syntax error nor an error for its value. -/
def RunResult.isOk (result : RunResult) : Bool :=
  result.errors.isEmpty && !(result.value.map Value.isError).getD false

/-- Runs a source text in a scope, when `limit` calls may be nested. -/
def run (limit : Nat) (scope : ScopeId) (source : String) : Run RunResult := do
  match parse source with
  | .error halt => throw (.halted halt)
  | .ok parsed =>
    if parsed.errors.isEmpty then
      let value ← Eval.toRun do parsed.program.eval (← Context.new limit) scope
      return ⟨parsed.program, [], some value⟩
    else return ⟨parsed.program, parsed.errors, none⟩

/-- Runs a source text in a new top-level scope. -/
def runAlone (limit : Nat) (source : String) : Run RunResult := do
  run limit (← Eval.toRun (Eval.newScope none)) source

end MonkeyLang
