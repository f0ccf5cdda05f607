/-!
# Names of the built-in functions
-/

namespace MonkeyLang

/-- A function that every program can call without declaring it. -/
inductive Builtin where
  | len
  | first
  | last
  | rest
  | push
  | print
deriving DecidableEq

namespace Builtin

/-- The name under which a program finds a built-in function. -/
def name : Builtin → String
  | len => "len"
  | first => "first"
  | last => "last"
  | rest => "rest"
  | push => "push"
  | print => "print"

/-- Every built-in function. -/
def all : List Builtin := [len, first, last, rest, push, print]

/-- The built-in function of a name. -/
def ofName? (name : String) : Option Builtin := all.find? fun builtin => builtin.name == name

end Builtin

end MonkeyLang
