import MonkeyLang.Builtin
import MonkeyLang.Builtin.Apply
import MonkeyLang.Cli
import MonkeyLang.Dict
import MonkeyLang.Evaluation
import MonkeyLang.Fault
import MonkeyLang.Machine
import MonkeyLang.Main
import MonkeyLang.Parsing.Grammar
import MonkeyLang.Parsing.Precedence
import MonkeyLang.Parsing.Program
import MonkeyLang.Parsing.Window
import MonkeyLang.Proofs.Outcome
import MonkeyLang.Proofs.Parsing.Derivation
import MonkeyLang.Proofs.Parsing.Stream
import MonkeyLang.Repl
import MonkeyLang.Run
import MonkeyLang.SyntaxError
import MonkeyLang.Text.Blank
import MonkeyLang.Text.Printable
import MonkeyLang.Text.Quoted
import MonkeyLang.Token
import MonkeyLang.Token.Cursor
import MonkeyLang.Token.Lexeme
import MonkeyLang.Token.Scanner
import MonkeyLang.Tree
import MonkeyLang.Tree.Equality
import MonkeyLang.Tree.Render
import MonkeyLang.Value
import MonkeyLang.Value.Operation
import MonkeyLang.Word
import MonkeyLang.Proofs.Parsing.Soundness
import MonkeyLang.Proofs.Parsing.Acceptance
import MonkeyLang.Proofs.Parsing.Draining
import MonkeyLang.Proofs.Evaluation.Parts
import MonkeyLang.Proofs.Evaluation.Session
import MonkeyLang.Proofs.Evaluation.Throwing
import MonkeyLang.Proofs.Evaluation.Calls
import MonkeyLang.Proofs.Evaluation.Agreement
import MonkeyLang.Proofs.Evaluation.Invariant
import MonkeyLang.Proofs.Evaluation.Frame
import MonkeyLang.Proofs.Evaluation.Trace
import MonkeyLang.Proofs.Evaluation.Discipline
import MonkeyLang.Proofs.Evaluation.Lexical
import MonkeyLang.Proofs.Evaluation.History
import MonkeyLang.Proofs.Evaluation.Scoping
import MonkeyLang.Proofs.Lexing.Layout
import MonkeyLang.Proofs.Lexing.Reading
import MonkeyLang.Proofs.Lexing.Writing
import MonkeyLang.Proofs.Evaluation.Policy
import MonkeyLang.Proofs.Parsing.Whole
import MonkeyLang.Proofs.Evaluation.Pipeline
import MonkeyLang.Proofs.Evaluation.Plan
import MonkeyLang.Proofs.Evaluation.Standard
import MonkeyLang.Proofs.Evaluation.Limit
import MonkeyLang.Proofs.Evaluation.Words
import MonkeyLang.Proofs.Parsing.Lines
import MonkeyLang.Proofs.Parsing.Relabeling
import MonkeyLang.Proofs.Lexing.Concatenation
import MonkeyLang.Proofs.Parsing.Concatenation
import MonkeyLang.Proofs.Parsing.Rendering
import MonkeyLang.Proofs.Parsing.Unlined
import MonkeyLang.Proofs.Evaluation.Relocation
import MonkeyLang.Proofs.Evaluation.Correspondence
import MonkeyLang.Proofs.Evaluation.Independence
import MonkeyLang.Proofs.Parsing.Wording
import MonkeyLang.Proofs.Evaluation.Sources
import MonkeyLang.Proofs.FrontEnds
import MonkeyLang.Proofs.Evaluation.Registry
import MonkeyLang.Proofs.Evaluation.Identity
import MonkeyLang.Proofs.Evaluation.Storing
import MonkeyLang.Proofs.Transcript
import MonkeyLang.Proofs.Evaluation.Arithmetic
import MonkeyLang.Proofs.Evaluation.Dictionary
import MonkeyLang.Proofs.Parsing.Literals
import MonkeyLang.Proofs.Evaluation.Readback
import MonkeyLang.Proofs.Evaluation.TextKeys
import MonkeyLang.Proofs.CommandLine
import MonkeyLang.Proofs.Evaluation.Jobs
import MonkeyLang.Proofs.Evaluation.Returning
import MonkeyLang.Proofs.Evaluation.CallBoundary
import MonkeyLang.Proofs.Evaluation.FunctionContract
import MonkeyLang.Proofs.Evaluation.Symbolic
import MonkeyLang.Proofs.Evaluation.ArrayLoops
import MonkeyLang.Proofs.Evaluation.HigherOrder
import MonkeyLang.Proofs.Lexing.Scanning
