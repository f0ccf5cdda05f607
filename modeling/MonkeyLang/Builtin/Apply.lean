import MonkeyLang.Machine

/-!
# What the built-in functions do

`len` counts the bytes of a text in UTF-8 or the elements of an array; `first`, `last` and `rest`
take an array apart, with `null` for the empty one; `push` makes a longer array; `print` writes its
arguments on one line.
-/

namespace MonkeyLang.Builtin

/-- Runs `f` on the only argument. -/
def withOne (arguments : List Value) (f : Value → Eval Value) : Eval Value :=
  match arguments with
  | [argument] => f argument
  | _ => Eval.raise (.builtinArgumentCount arguments.length 1)

/-- Runs `f` on the elements of an array. -/
def withArray (builtin : Builtin) (argument : Value) (f : List Value → Eval Value) : Eval Value :=
  match argument with
  | .array _ elements => f elements
  | _ => Eval.raise (.arrayExpected builtin argument.type)

/-- Calls a built-in function. -/
def apply (builtin : Builtin) (arguments : List Value) : Eval Value :=
  match builtin with
  | len => withOne arguments fun
    | .text s => return .integer s.utf8ByteSize
    | .array _ elements => return .integer elements.length
    | argument => Eval.raise (.lengthUnsupported argument.type)
  | first => withOne arguments fun argument => withArray first argument fun elements =>
    return elements.head?.getD .null
  | last => withOne arguments fun argument => withArray last argument fun elements =>
    return elements.getLast?.getD .null
  | rest => withOne arguments fun argument => withArray rest argument fun
    | [] => return .null
    | _ :: elements => Eval.newArray elements
  | push =>
    match arguments with
    | [argument, value] => withArray push argument fun elements =>
      Eval.newArray (elements ++ [value])
    | _ => Eval.raise (.builtinArgumentCount arguments.length 2)
  | print => do
    Eval.print (" ".intercalate (arguments.map Value.inspect) ++ "\n")
    return .void

end MonkeyLang.Builtin
