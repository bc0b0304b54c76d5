import ConcreteSyntax.CommandLine
import ConcreteSyntax.Files

/-!
# The program

Reads the file that the arguments name and prints what the command answers with.
-/

namespace ConcreteSyntax

/-- The content of a file of the system. -/
def readSystemFile (path : String) : IO (Except FileError (List Char)) := do
  try
    return decodeUtf8 (← IO.FS.readBinFile path).toList
  catch _ =>
    return .error .notFound

end ConcreteSyntax

open ConcreteSyntax in
/-- Runs the command that the arguments describe. -/
def main (arguments : List String) : IO UInt32 := do
  let outcome ← match Command.ofArguments arguments with
    | .error interruption => pure interruption.outcome
    | .ok invocation => do
        let content ← match invocation.command.path? with
          | some path => readSystemFile path
          | none => pure (.error .notFound)
        pure (invocation.run content)
  IO.print outcome.output
  IO.eprint outcome.errors
  return outcome.code
