import MonkeyLang.Dict
import MonkeyLang.Fault
import MonkeyLang.Tree.Render
import MonkeyLang.Word

/-!
# Values

What expressions evaluate to. Errors and returns are values too: they travel through evaluation
like any other result until something stops at them.

Values that are made anew, such as arrays and functions, have an identity, by which `==` compares
them (`Value.same`). Numbers, booleans, texts, `null` and `void` have none: they are the same when
they are equal.
-/

namespace MonkeyLang

/-- The identity of a value or of a table of built-in functions. -/
abbrev ObjectId := Nat

/-- The place of a scope in the machine. -/
abbrev ScopeId := Nat

/-- What identifies an entry of a hash: the type of its key, and a 64-bit word. -/
structure HashKey where
  type : ValueType
  word : UInt64
deriving DecidableEq

/-- A value. -/
inductive Value where
  | integer (value : Int)
  | boolean (value : Bool)
  | text (value : String)
  | null
  /-- the result of a bare `return` -/
  | void
  /-- the value of a return statement on its way to the enclosing call -/
  | ret (id : ObjectId) (value : Value)
  | error (id : ObjectId) (fault : Fault)
  /-- a function literal with the scope in which it was evaluated -/
  | function (id : ObjectId) (parameters : List Ident) (body : Block) (scope : ScopeId)
  /-- a built-in function of one table -/
  | builtin (table : ObjectId) (builtin : Builtin)
  | array (id : ObjectId) (elements : List Value)
  /-- a hash: under each hash key, the key itself and its value -/
  | hash (id : ObjectId) (entries : List (HashKey × Value × Value))

namespace Value

/-- The type of a value. -/
def type : Value → ValueType
  | integer _ => .integer
  | boolean _ => .boolean
  | text _ => .text
  | null => .null
  | void => .void
  | ret .. => .ret
  | error .. => .error
  | function .. => .function
  | builtin .. => .builtin
  | array .. => .array
  | hash .. => .hash

/-- Whether a value is an error. -/
def isError : Value → Bool
  | error .. => true
  | _ => false

/-- Whether a value ends the statements it occurs among: a return or an error. -/
def isExit : Value → Bool
  | ret .. | error .. => true
  | _ => false

/-- Whether two values are the same one, for values whose type is not compared by content. -/
def same : Value → Value → Bool
  | integer a, integer b => a == b
  | boolean a, boolean b => a == b
  | text a, text b => a == b
  | null, null => true
  | void, void => true
  | ret i _, ret j _ => i == j
  | error i _, error j _ => i == j
  | function i .., function j .. => i == j
  | builtin i a, builtin j b => i == j && a == b
  | array i _, array j _ => i == j
  | hash i _, hash j _ => i == j
  | _, _ => false

/-- The hash key of a value that can be one: a number by its 64-bit word, a boolean by one or zero,
and a text by the hash of its UTF-8 bytes. -/
def hashKey? : Value → Option HashKey
  | integer n => some ⟨.integer, Word.ofInt n⟩
  | boolean b => some ⟨.boolean, if b then 1 else 0⟩
  | text s => some ⟨.text, Word.fnv1a s.toUTF8.data.toList⟩
  | _ => none

mutual

/-- The text that shows a value. -/
def inspect : Value → String
  | integer n => toString n
  | boolean b => if b then "true" else "false"
  | text s => s
  | null => "null"
  | void => "null"
  | ret _ value => value.inspect
  | error _ fault => "ERROR: " ++ fault.message
  | function _ parameters body _ => "fun(" ++ renderParameters parameters ++ ") " ++ body.render
  | builtin .. => "builtin function"
  | array _ elements => "[" ++ ", ".intercalate (inspectList elements) ++ "]"
  | hash _ entries => "\x7b" ++ ", ".intercalate (inspectEntries entries) ++ "\x7d"

/-- The texts that show values. -/
def inspectList : List Value → List String
  | [] => []
  | value :: values => value.inspect :: inspectList values

/-- The texts that show the entries of a hash. -/
def inspectEntries : List (HashKey × Value × Value) → List String
  | [] => []
  | (_, key, value) :: entries => (key.inspect ++ ": " ++ value.inspect) :: inspectEntries entries

end

end Value

end MonkeyLang
