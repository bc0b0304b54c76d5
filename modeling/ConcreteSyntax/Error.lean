/-!
# Errors of documents

Why a document cannot be read, parsed or written.
-/

namespace ConcreteSyntax

/-- Why the content of a file cannot be had, or not be stored. -/
inductive FileError where
  | notFound
  | notDirectory
  | isDirectory
  | notUtf8
deriving DecidableEq, Inhabited

/-- The wording of a file error. -/
def FileError.message : FileError → String
  | .notFound => "No such file or directory (os error 2)"
  | .notDirectory => "Not a directory (os error 20)"
  | .isDirectory => "Is a directory (os error 21)"
  | .notUtf8 => "stream did not contain valid UTF-8"

/-- Why there is no document. -/
inductive DocumentError where
  | unknownLanguage (name : String)
  | unsupportedExtension (extension : String)
  | missingExtension (path : String)
  | inaccessible (path : String) (cause : FileError)
deriving DecidableEq, Inhabited

namespace DocumentError

/-- The wording of a document error. -/
def message : DocumentError → String
  | .unknownLanguage name => "unknown language `" ++ name ++ "`"
  | .unsupportedExtension extension => "no language handles `." ++ extension ++ "` files"
  | .missingExtension path =>
      "cannot infer the language of `" ++ path ++ "`, it has no extension"
  | .inaccessible path _ => "failed to access `" ++ path ++ "`"

/-- What led to a document error. -/
def cause? : DocumentError → Option FileError
  | .inaccessible _ cause => some cause
  | _ => none

end DocumentError

end ConcreteSyntax
