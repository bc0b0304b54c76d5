/-!
# Classes of characters

The characters of identifiers, the white space of the Unicode standard, trimming
by it, and comparison that ignores the case of ASCII letters.
-/

namespace ConcreteSyntax.Text

/-- Characters that glue to a neighbouring word: ASCII letters and digits, `_` and `$`. -/
def isIdentifier (c : Char) : Bool := c.isAlphanum || c == '_' || c == '$'

/-- Line feed and carriage return. -/
def isLineBreak (c : Char) : Bool := c == '\n' || c == '\r'

/-- Space and tab. -/
def isBlank (c : Char) : Bool := c == ' ' || c == '\t'

/-- The code points with the Unicode property `White_Space`, as inclusive intervals. -/
def whitespaceIntervals : List (Nat × Nat) :=
  [(0x09, 0x0d), (0x20, 0x20), (0x85, 0x85), (0xa0, 0xa0), (0x1680, 0x1680),
   (0x2000, 0x200a), (0x2028, 0x2029), (0x202f, 0x202f), (0x205f, 0x205f),
   (0x3000, 0x3000)]

/-- Characters with the Unicode property `White_Space`. -/
def isWhitespace (c : Char) : Bool :=
  whitespaceIntervals.any fun (low, high) => low ≤ c.toNat && c.toNat ≤ high

/-- White space of the core library is white space. -/
theorem isWhitespace_of_isWhitespace {c : Char} (h : c.isWhitespace = true) :
    isWhitespace c = true := by
  simp only [Char.isWhitespace, Bool.or_eq_true, decide_eq_true_eq] at h
  rcases h with ((rfl | rfl) | rfl) | rfl <;> decide

/-- Hexadecimal digits of either case. -/
def isHexDigit (c : Char) : Bool :=
  c.isDigit || ('a' ≤ c && c ≤ 'f') || ('A' ≤ c && c ≤ 'F')

/-- The value of a hexadecimal digit. -/
def hexValue? (c : Char) : Option Nat :=
  if c.isDigit then some (c.toNat - '0'.toNat)
  else if 'a' ≤ c && c ≤ 'f' then some (c.toNat - 'a'.toNat + 10)
  else if 'A' ≤ c && c ≤ 'F' then some (c.toNat - 'A'.toNat + 10)
  else none

/-- A text without the white space it begins with. -/
def trimStart (text : List Char) : List Char := text.dropWhile isWhitespace

theorem length_dropWhile_le (test : Char → Bool) (text : List Char) :
    (text.dropWhile test).length ≤ text.length :=
  (List.dropWhile_suffix test).length_le

theorem length_trimStart_le (text : List Char) : (trimStart text).length ≤ text.length :=
  length_dropWhile_le _ text

/-- A text without the white space it ends with. -/
def trimEnd (text : List Char) : List Char := (text.reverse.dropWhile isWhitespace).reverse

/-- A text without the white space at either end. -/
def trim (text : List Char) : List Char := trimEnd (trimStart text)

/-- Whether two texts differ at most in the case of ASCII letters. -/
def equalIgnoringCase (a b : List Char) : Bool := a.map Char.toLower == b.map Char.toLower

/-- A text without `opening` in front, or unchanged when it does not begin so. -/
def dropOpening (opening text : List Char) : List Char :=
  (opening.isPrefixOf? text).getD text

/-- A text without `closing` at its end, or unchanged when it does not end so. -/
def dropClosing (closing text : List Char) : List Char :=
  (closing.isSuffixOf? text).getD text

end ConcreteSyntax.Text
