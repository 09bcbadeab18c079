/-!
Two sets of blank characters, and trimming by a set.
-/

namespace LuaMachine.Text

/-- The six blanks around a numeral: space, tab, newline, carriage return, vertical tab, form feed. -/
def isSpace (c : Char) : Bool :=
  c == ' ' || ('\t' ≤ c && c ≤ '\r')

/-- The characters with the Unicode property White_Space. -/
def isWhite (c : Char) : Bool :=
  isSpace c || c == '\u0085' || c == '\u00a0' || c == '\u1680'
    || ('\u2000' ≤ c && c ≤ '\u200a') || c == '\u2028' || c == '\u2029'
    || c == '\u202f' || c == '\u205f' || c == '\u3000'

/-- The text without the characters of a set at either end. -/
def trim (p : Char → Bool) (s : List Char) : List Char :=
  ((s.dropWhile p).reverse.dropWhile p).reverse

end LuaMachine.Text
