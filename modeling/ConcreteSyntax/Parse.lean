import ConcreteSyntax.Language
import ConcreteSyntax.Pairing

/-!
# Parsing

A text is prepared for its language, scanned, paired into a tree, and then analysed
by the passes of the language.
-/

namespace ConcreteSyntax

/-- A parsed text. -/
structure Parse where
  /-- The prepared text and its lines. -/
  lines : LineIndex
  root : Node
  /-- The index of the next node. -/
  next : Nat
  /-- What pairing recovered from, in the order in which it did. -/
  notes : List Diagnostic
deriving Inhabited

namespace Parse

/-- A text scanned and paired by a grammar, without analysis. -/
def build (grammar : Grammar) (text : List Char) : Parse :=
  let lines := LineIndex.ofText text
  let (root, next, notes) := grammar.pair lines
  { lines, root, next, notes }

/-- A parsed text after further passes. -/
def analyse (parse : Parse) (passes : List Pass) : Parse :=
  let (root, next) := Pass.runAll passes parse.lines parse.next parse.root
  { parse with root, next }

end Parse

/-- Parses a text in a language, with or without the passes of analysis. -/
def Language.parse (language : Language) (analysis : Bool) (text : List Char) : Parse :=
  let built := Parse.build language.grammar (language.prepare text)
  if analysis then built.analyse language.grammar.passes else built

end ConcreteSyntax
