import ConcreteSyntax.Error
import ConcreteSyntax.Path

/-!
# Files

The files below one directory, as a value: paths that are read and written from
there, and the text that bytes spell.
-/

namespace ConcreteSyntax

/-- The text that bytes spell in UTF-8. -/
def decodeUtf8 (bytes : List UInt8) : Except FileError (List Char) :=
  match String.fromUTF8? ⟨bytes.toArray⟩ with
  | some text => .ok text.toList
  | none => .error .notUtf8

/-- The files below a directory, by the names on the way to them. -/
structure Files where
  entries : List (List (List Char) × List UInt8) := []
deriving Inhabited

namespace Files

/-- The content of the file with these names on the way to it. -/
def content? (files : Files) (names : List (List Char)) : Option (List UInt8) :=
  (files.entries.find? (·.1 == names)).map (·.2)

/-- Whether the names lead to a directory. -/
def isDirectory (files : Files) (names : List (List Char)) : Bool :=
  names.isEmpty ||
    files.entries.any fun entry => names.isPrefixOf entry.1 && entry.1 != names

/-- The names on the way to a part of the directory that `names` lead to.  Only a
directory has parts. -/
def enter (files : Files) (names : List (List Char)) (part : List Char) :
    Except FileError (List (List Char)) :=
  if files.isDirectory names then
    if part.isEmpty || part = ['.'] then .ok names
    else if part = ['.', '.'] then
      if names.isEmpty then .error .notFound else .ok names.dropLast
    else .ok (names ++ [part])
  else if (files.content? names).isSome then .error .notDirectory
  else .error .notFound

/-- The names on the way that a path describes.  Nothing is found on a path that leads
out of the directory. -/
def resolve (files : Files) (path : String) : Except FileError (List (List Char)) :=
  match path.toList with
  | [] | '/' :: _ => .error .notFound
  | path => (Path.parts path).foldlM files.enter []

/-- The bytes of the file at a path. -/
def read (files : Files) (path : String) : Except FileError (List UInt8) := do
  let names ← files.resolve path
  match files.content? names with
  | some bytes => return bytes
  | none => throw (if files.isDirectory names then .isDirectory else .notFound)

/-- The text of the file at a path. -/
def readText (files : Files) (path : String) : Except FileError (List Char) := do
  decodeUtf8 (← files.read path)

/-- The files with these bytes behind these names. -/
def put (files : Files) (names : List (List Char)) (bytes : List UInt8) : Files :=
  ⟨(names, bytes) :: files.entries.filter (·.1 != names)⟩

/-- The files after writing bytes at a path.  The directory of the path must be there. -/
def write (files : Files) (path : String) (bytes : List UInt8) : Except FileError Files := do
  let names ← files.resolve path
  if files.isDirectory names then throw .isDirectory
  return files.put names bytes

/-- The files with one more at a path, and the directories on the way to it. -/
def add (files : Files) (path : String) (bytes : List UInt8) : Files :=
  files.put ((Path.parts path.toList).filter fun part => !part.isEmpty && part != ['.']) bytes

end Files

end ConcreteSyntax
