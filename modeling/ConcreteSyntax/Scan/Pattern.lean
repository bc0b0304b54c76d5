import ConcreteSyntax.Scan.Context

/-!
# Patterns

A `Pattern` recognises the opening or the closing marker of a kind.  Matches are
measured in characters, so that they always end between two characters;
`Pattern.byteLength?` gives the same match in bytes.
-/

namespace ConcreteSyntax

/-- A way to recognise a marker at a place of a text. -/
inductive Pattern where
  /-- The exact text. -/
  | literal (text : List Char)
  /-- The exact text with no identifier character glued to either side. -/
  | keyword (word : List Char)
  /-- A rule that gives the number of characters of its match. -/
  | custom (length? : Context → Option Nat)

namespace Pattern

/-- The number of characters that a pattern matches at a place. -/
def length? (pattern : Pattern) (cx : Context) : Option Nat :=
  match pattern with
  | .literal text => if text.isPrefixOf cx.rest then some text.length else none
  | .keyword word =>
      if cx.atWordBoundary && word.isPrefixOf cx.rest
          && !(cx.rest.drop word.length).head?.any Text.isIdentifier then
        some word.length
      else none
  | .custom rule => rule cx

/-- The number of bytes that a pattern matches at a place. -/
def byteLength? (pattern : Pattern) (cx : Context) : Option Nat :=
  (pattern.length? cx).map fun n => Text.byteLength (cx.rest.take n)

/-- From a place on, the number of characters before the first match of a closing
marker, and the number of characters of that match.  The character after an
escape is passed over.  Without a match the rest of the text comes before an
empty marker. -/
def seek (closing : Pattern) (escape : Option Char) : LeftContext → List Char → Nat × Nat
  | _, [] => (0, 0)
  | left, [c] =>
      match closing.length? ⟨left, [c]⟩ with
      | some n => (0, n)
      | none => (1, 0)
  | left, c :: d :: rest =>
      match closing.length? ⟨left, c :: d :: rest⟩ with
      | some n => (0, n)
      | none =>
          if some c = escape then
            let (before, n) := seek closing escape ((left.push c).push d) rest
            (before + 2, n)
          else
            let (before, n) := seek closing escape (left.push c) (d :: rest)
            (before + 1, n)

end Pattern

end ConcreteSyntax
