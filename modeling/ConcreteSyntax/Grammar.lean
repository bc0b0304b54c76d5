import ConcreteSyntax.Analysis.Pass
import ConcreteSyntax.Markup.Rules
import ConcreteSyntax.Scan.Span

/-!
# Grammars

All that parsing needs to know about a language: what to scan for, which passes of
analysis to run, and, for markup, how tags pair.
-/

namespace ConcreteSyntax

/-- What a language is parsed with. -/
structure Grammar where
  table : Table
  passes : List Pass
  markup : Option Markup.Rules

namespace Grammar

/-- A summary of a grammar: the number of its kinds, its passes, and whether it has
markup rules. -/
def render (grammar : Grammar) : String :=
  "Grammar \x7b kinds: " ++ toString grammar.table.specs.length
    ++ ", passes: ["
    ++ String.intercalate ", " (grammar.passes.map fun pass => "\"" ++ pass.name ++ "\"")
    ++ "], markup: " ++ (if grammar.markup.isSome then "true" else "false") ++ " \x7d"

end Grammar

end ConcreteSyntax
