import ConcreteSyntax.Path
import ConcreteSyntax.Parse
import ConcreteSyntax.Tree.Basic

/-!
# Checks

What parsing recovers from in a source file, with the place of each problem in the
file, on one line or as an excerpt.
-/

namespace ConcreteSyntax

/-- A text and the path it is known by. -/
structure SourceFile where
  path : String
  text : List Char
deriving Inhabited

namespace SourceFile

/-- A source file with its text prepared as its language scans it. -/
def ofPath (path : String) (text : List Char) : Except DocumentError SourceFile := do
  let language ← Path.language path
  return ⟨path, language.prepare text⟩

/-- The place of an offset as `path:line:column`, both counted from 1. -/
def location (file : SourceFile) (offset : Nat) : Except Fault String :=
  match (LineIndex.ofText file.text).lineColumn? offset with
  | some (line, column) =>
      .ok (file.path ++ ":" ++ toString (line + 1) ++ ":" ++ toString (column + 1))
  | none => .error .invalidOffset

/-- The problems of a source file.  A file without a language has only that problem. -/
def check (file : SourceFile) : List Diagnostic :=
  match Path.language file.path with
  | .ok language => (language.parse true file.text).notes
  | .error error => [.error (.noDocument error) (.empty 0)]

end SourceFile

namespace Diagnostic

/-- A diagnostic on one line, with the place of its first byte. -/
def line (diagnostic : Diagnostic) (file : SourceFile) : Except Fault String := do
  let place ← file.location diagnostic.range.start
  return place ++ ": " ++ diagnostic.severity.name ++ ": " ++ diagnostic.message

/-- The mark that underlines a problem. -/
def mark (severity : Severity) : Char :=
  match severity with
  | .error => '^'
  | .warning => '-'

/-- The line of a text up to its line feed, without a carriage return in front of it. -/
def lineText (text : List Char) : List Char :=
  Text.dropClosing ['\r'] (text.takeWhile (· != '\n'))

/-- A line of an excerpt behind its gutter.  Nothing follows the bar of an empty line. -/
def gutterLine (gutter : String) (text : List Char) : String :=
  gutter ++ " |" ++ (if text.isEmpty then "" else " " ++ String.ofList text)

/-- A diagnostic with the line that it stands on and its bytes underlined. -/
def excerpt (diagnostic : Diagnostic) (path : String) (text : List Char) : String :=
  let before := Text.takeBytes diagnostic.range.start text
  let lineNumber := toString (before.count '\n' + 1)
  let onLine := (before.reverse.takeWhile (· != '\n')).reverse
  let width := max 1 (Text.slice text diagnostic.range).length
  let gutter := String.ofList (List.replicate lineNumber.length ' ')
  let underline := List.replicate onLine.length ' '
    ++ (List.replicate width (mark diagnostic.severity) ++ " here".toList)
  String.intercalate "\n" [
    diagnostic.severity.name ++ ": " ++ diagnostic.message,
    gutter ++ "--> " ++ path ++ ":" ++ lineNumber ++ ":" ++ toString (onLine.length + 1),
    gutterLine gutter [],
    gutterLine lineNumber (lineText (onLine ++ Text.dropBytes diagnostic.range.start text)),
    gutterLine gutter underline,
    gutterLine gutter []]

end Diagnostic

end ConcreteSyntax
