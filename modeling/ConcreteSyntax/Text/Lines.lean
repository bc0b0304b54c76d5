import ConcreteSyntax.Text.Range
import ConcreteSyntax.Text.Character

/-!
# Lines of a text

A line ends at `\n`, at the pair `\r\n`, and at a `\r` that stands alone.  A
`LineIndex` keeps the places right after each line ending, so that the line of
an offset is the number of endings at or before it.
-/

namespace ConcreteSyntax

/-- The first and the last line of a stretch of text, counted from 1. -/
structure LineSpan where
  first : Nat
  last : Nat
deriving DecidableEq, Inhabited

/-- Lines as listings show them: `[1:3]`. -/
def LineSpan.render (lines : LineSpan) : String :=
  "[" ++ toString lines.first ++ ":" ++ toString lines.last ++ "]"

/-- A text with the places right after its line endings, in rising order. -/
structure LineIndex where
  text : List Char
  starts : List Nat
deriving Inhabited

namespace LineIndex

/-- A text with `\n` for each `\r` that stands alone. -/
def feedLone : List Char → List Char
  | [] => []
  | c :: rest =>
      (if c = '\r' ∧ rest.head? ≠ some '\n' then '\n' else c) :: feedLone rest

/-- The places right after each `\n` of a text that begins at `offset`. -/
def afterFeeds (offset : Nat) : List Char → List Nat
  | [] => []
  | c :: rest =>
      if c = '\n' then (offset + 1) :: afterFeeds (offset + 1) rest
      else afterFeeds (offset + c.utf8Size) rest

/-- The line index of a text.  A `\r` that stands alone counts as a `\n` of its own, and that of
a pair as a part of its line. -/
def ofText (text : List Char) : LineIndex := ⟨text, afterFeeds 0 (feedLone text)⟩

/-- The number of line endings at or before `offset`, which is its line counted from 0. -/
def line (index : LineIndex) (offset : Nat) : Nat := index.starts.countP (· ≤ offset)

/-- The place where the line of `offset` begins. -/
def lineStart (index : LineIndex) (offset : Nat) : Nat :=
  (index.starts.filter (· ≤ offset)).getLastD 0

/-- The number of bytes between the beginning of its line and `offset`. -/
def column (index : LineIndex) (offset : Nat) : Nat := offset - index.lineStart offset

/-- The lines of the first byte and of the end of a range. -/
def span (index : LineIndex) (range : Range) : LineSpan :=
  ⟨index.line range.start + 1, index.line range.stop + 1⟩

/-- Line and column of `offset`, counted from 0; nothing for an offset beyond the
text or inside a character. -/
def lineColumn? (index : LineIndex) (offset : Nat) : Option (Nat × Nat) :=
  if Text.isBoundary index.text offset then
    some (index.line offset, index.column offset)
  else none

/-- The lines of a range whose ends lie between characters of the text. -/
def span? (index : LineIndex) (range : Range) : Option LineSpan :=
  if Text.isBoundary index.text range.start && Text.isBoundary index.text range.stop then
    some (index.span range)
  else none

end LineIndex

end ConcreteSyntax
