import MonkeyLang.Text.Printable

/-!
# Quoted text

Diagnostics show a piece of source text between quotes, so that blanks and control characters
can be seen.

* The quote is `'`, or `"` when the text holds a `'` and no `"`.
* The backslash and the quote in use are written after a backslash.
* Line feed, carriage return and tab have the short forms `\n`, `\r`, `\t`; any other character
  that is not printable is written by its code point in two, four or eight hexadecimal digits.
-/

namespace MonkeyLang.Text

/-- The lower-case hexadecimal digits of `n`, filled with zeros to at least `width` places. -/
def hexDigits (width n : Nat) : List Char :=
  let digits := Nat.toDigits 16 n
  List.replicate (width - digits.length) '0' ++ digits

/-- A character by its code point, in the shortest of the three fixed widths. -/
def codePointEscape (c : Char) : List Char :=
  let n := c.toNat
  if n < 0x100 then '\\' :: 'x' :: hexDigits 2 n
  else if n < 0x10000 then '\\' :: 'u' :: hexDigits 4 n
  else '\\' :: 'U' :: hexDigits 8 n

/-- One character as it stands between two marks `quote`. -/
def escapeChar (quote c : Char) : List Char :=
  if c = quote ∨ c = '\\' then ['\\', c]
  else if c = '\n' then ['\\', 'n']
  else if c = '\r' then ['\\', 'r']
  else if c = '\t' then ['\\', 't']
  else if isPrintable c then [c]
  else codePointEscape c

/-- The mark that needs fewer escapes: `"` only for a text with `'` and without `"`. -/
def quoteMark (cs : List Char) : Char :=
  if cs.contains '\x27' && !cs.contains '"' then '"' else '\x27'

/-- A text between quotes, with everything that cannot be seen spelled out. -/
def quoted (s : String) : String :=
  let cs := s.toList
  let mark := quoteMark cs
  String.ofList (mark :: cs.flatMap (escapeChar mark) ++ [mark])

end MonkeyLang.Text
