/-!
# Blank characters

The Unicode characters that count as white space when a line is trimmed: those of bidirectional
class WS, B or S, or of general category space separator. The zero width space is not among them.
-/

namespace MonkeyLang.Text

/-- Closed ranges of the code points of blank characters, ascending and disjoint. -/
def blankRanges : List (Nat × Nat) :=
  [(0x9, 0xd), (0x1c, 0x20), (0x85, 0x85), (0xa0, 0xa0), (0x1680, 0x1680), (0x2000, 0x200a),
   (0x2028, 0x2029), (0x202f, 0x202f), (0x205f, 0x205f), (0x3000, 0x3000)]

/-- A character is blank when a range of `blankRanges` holds its code point. -/
def isBlank (c : Char) : Bool :=
  blankRanges.any fun (first, last) => first ≤ c.toNat && c.toNat ≤ last

/-- Removes the characters satisfying `p` from the end of a list. -/
def dropWhileEnd (p : Char → Bool) (cs : List Char) : List Char :=
  (cs.reverse.dropWhile p).reverse

/-- Removes blank characters from both ends of a text. -/
def trim (s : String) : String :=
  String.ofList (dropWhileEnd isBlank (s.toList.dropWhile isBlank))

end MonkeyLang.Text
