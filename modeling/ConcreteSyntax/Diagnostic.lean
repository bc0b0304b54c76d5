import ConcreteSyntax.Error
import ConcreteSyntax.Text.Range

/-!
# Diagnostics

A diagnostic is a problem of a text, how severe it is, and where it stands.
Problems that a parser recovers from are warnings: the tree is complete all the
same.
-/

namespace ConcreteSyntax

/-- How severe a diagnostic is. -/
inductive Severity where
  | error
  | warning
deriving DecidableEq, Inhabited

/-- The name of a severity. -/
def Severity.name : Severity → String
  | .error => "error"
  | .warning => "warning"

/-- What is wrong with a text. -/
inductive Problem where
  /-- A closing marker that closes nothing. -/
  | unmatched (marker : List Char)
  /-- An opening marker that nothing closes. -/
  | unclosed (marker : List Char)
  /-- An opening tag that nothing closes. -/
  | unclosedElement (name : List Char)
  /-- A closing tag that closes nothing. -/
  | strayTag (name : List Char)
  /-- The text cannot be parsed at all. -/
  | noDocument (error : DocumentError)
deriving DecidableEq, Inhabited

/-- The wording of a problem. -/
def Problem.message : Problem → String
  | .unmatched marker => "unmatched `" ++ String.ofList marker ++ "`"
  | .unclosed marker => "unclosed `" ++ String.ofList marker ++ "`"
  | .unclosedElement name => "unclosed element `<" ++ String.ofList name ++ ">`"
  | .strayTag name => "`</" ++ String.ofList name ++ ">` does not close any open element"
  | .noDocument error => error.message

/-- A problem of a text, how severe it is, and where it stands. -/
structure Diagnostic where
  severity : Severity
  problem : Problem
  range : Range
deriving DecidableEq, Inhabited

namespace Diagnostic

/-- A problem that the parser recovers from. -/
def warning (problem : Problem) (range : Range) : Diagnostic := ⟨.warning, problem, range⟩

/-- A problem that leaves no tree. -/
def error (problem : Problem) (range : Range) : Diagnostic := ⟨.error, problem, range⟩

/-- The wording of a diagnostic. -/
def message (diagnostic : Diagnostic) : String := diagnostic.problem.message

end Diagnostic

end ConcreteSyntax
