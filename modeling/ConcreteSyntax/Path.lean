import ConcreteSyntax.Language

/-!
# Paths and languages

The extension of a path, and the language that it names.
-/

namespace ConcreteSyntax.Path

/-- The parts of a path between its slashes. -/
def parts : List Char → List (List Char)
  | [] => [[]]
  | c :: rest =>
      if c = '/' then [] :: parts rest
      else
        match parts rest with
        | [] => [[c]]
        | first :: others => (c :: first) :: others

/-- The components of a path.  Empty parts, and `.` behind the first place, do not
count. -/
def components (path : List Char) : List (List Char) :=
  match parts path with
  | [] => []
  | first :: rest => first :: rest.filter fun part => !part.isEmpty && part != ['.']

/-- The last component of a path, if it names a file or directory. -/
def fileName? (path : List Char) : Option (List Char) :=
  match (components path).getLast? with
  | none | some [] | some ['.'] | some ['.', '.'] => none
  | some name => some name

/-- What follows the last point of a file name.  A point that begins the name belongs
to its stem. -/
def extension? (path : List Char) : Option (List Char) := do
  let name ← fileName? path
  guard ((name.drop 1).contains '.')
  return (name.reverse.takeWhile (· != '.')).reverse

/-- The language of a path; nothing when it has no extension, or an unknown one. -/
def language? (path : String) : Option Language := do
  let extension ← extension? path.toList
  Language.ofExtension? (String.ofList extension)

/-- The language of a path, or why it has none. -/
def language (path : String) : Except DocumentError Language :=
  match extension? path.toList with
  | none => .error (.missingExtension path)
  | some extension =>
      match Language.ofExtension? (String.ofList extension) with
      | some language => .ok language
      | none => .error (.unsupportedExtension (String.ofList extension))

end ConcreteSyntax.Path
