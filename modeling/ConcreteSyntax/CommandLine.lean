import ConcreteSyntax.Check
import ConcreteSyntax.CommandLine.Arguments
import ConcreteSyntax.Document
import ConcreteSyntax.Node.Dump
import ConcreteSyntax.Node.View

/-!
# Command line

The commands that show the tree of a file, report what parsing recovered from, and
list the languages.  A command is read from arguments, and its outcome is a
function of the content of the file that it names.
-/

namespace ConcreteSyntax

/-- How a tree is shown. -/
inductive Format where
  | tree
  | json
deriving DecidableEq, Inhabited

/-- What is to be done. -/
inductive Command where
  | parse (path : String) (language : Option String) (analysis : Bool) (format : Format)
  | check (path : String) (short : Bool)
  | languages
deriving DecidableEq, Inhabited

/-- A command, and how often a more detailed log of it was asked for. -/
structure Invocation where
  command : Command
  detail : Nat
deriving DecidableEq, Inhabited

/-- What a command answers with. -/
structure Outcome where
  code : UInt32 := 0
  output : String := ""
  errors : String := ""
deriving Inhabited

namespace Command

/-! ## Reading a command -/

/-- The option that asks for a more detailed log, which all commands have. -/
def verboseRule : OptionRule := ⟨"verbose", some 'v', .repeated⟩

/-- The option that asks for a description, which all commands have. -/
def helpRule : OptionRule := ⟨"help", some 'h', .interrupting .help⟩

/-- What stands in front of a command. -/
def generalForm : ArgumentForm where
  options := [verboseRule, helpRule, ⟨"version", some 'V', .interrupting .version⟩]
  words := 0

/-- The format that goes by a name. -/
def formatOf? (name : String) : Option Format :=
  if name = "tree" then some .tree else if name = "json" then some .json else none

/-- The arguments of the command that shows a tree. -/
def parseForm : ArgumentForm where
  options := [
    verboseRule, helpRule, ⟨"language", some 'l', .valued fun _ => true⟩,
    ⟨"no-analysis", none, .single⟩,
    ⟨"format", none, .valued fun name => (formatOf? name).isSome⟩]
  words := 1

/-- The arguments of the command that reports problems. -/
def checkForm : ArgumentForm where
  options := [verboseRule, helpRule, ⟨"short", none, .single⟩]
  words := 1

/-- The arguments of the command that lists the languages. -/
def languagesForm : ArgumentForm where
  options := [verboseRule, helpRule]
  words := 0

/-- The command that shows a tree, from its arguments. -/
def ofParseReading (reading : Reading) : Except Interruption Command :=
  match reading.words with
  | [path] =>
      .ok (.parse path (reading.value? "language") (!reading.has "no-analysis")
        (((reading.value? "format").bind formatOf?).getD .tree))
  | _ => .error .misuse

/-- The command that reports problems, from its arguments. -/
def ofCheckReading (reading : Reading) : Except Interruption Command :=
  match reading.words with
  | [path] => .ok (.check path (reading.has "short"))
  | _ => .error .misuse

/-- The names of the commands. -/
def names : List String := ["parse", "check", "languages", "help"]

/-- The command of a name with the arguments behind it.  A description can be asked for
of one command, or of all of them. -/
def ofName (name : String) (rest : List String) : Except Interruption Invocation :=
  match name, rest with
  | "parse", rest => do
      let reading ← parseForm.read rest
      return ⟨← ofParseReading reading, reading.count "verbose"⟩
  | "check", rest => do
      let reading ← checkForm.read rest
      return ⟨← ofCheckReading reading, reading.count "verbose"⟩
  | "languages", rest => do
      let reading ← languagesForm.read rest
      return ⟨.languages, reading.count "verbose"⟩
  | "help", [] => .error .help
  | "help", [name] => .error (if names.contains name then .help else .misuse)
  | _, _ => .error .misuse

/-- The command that the arguments after a reading describe.  The first of them that is
the name of a command begins it.  The detail that is asked for behind the name counts,
and that in front of it only when none is. -/
def ofRest (reading : Reading) : List String → Except Interruption Invocation
  | [] => .error .misuse
  | argument :: rest =>
      if !reading.wordsOnly && names.contains argument then do
        let invocation ← ofName argument rest
        return if invocation.detail = 0 then
          { invocation with detail := reading.count "verbose" }
        else invocation
      else do ofRest (← generalForm.readArgument reading argument) rest

/-- The command that arguments describe. -/
def ofArguments (arguments : List String) : Except Interruption Invocation :=
  ofRest {} arguments

/-! ## Outcomes -/

/-- The path of the file that a command reads. -/
def path? : Command → Option String
  | .parse path _ _ _ => some path
  | .check path _ => some path
  | _ => none

/-- The outcome of a failure, with what led to it. -/
def failure (message : String) (cause : Option FileError) : Outcome where
  code := 1
  errors := "Error: " ++ message ++ "\n"
    ++ (match cause with
        | some cause => "\nCaused by:\n    " ++ cause.message ++ "\n"
        | none => "")

/-- The line of a listing for one language. -/
def languageLine (language : Language) : String :=
  let name := language.name.toList
  String.ofList (name ++ List.replicate (16 - name.length) ' ')
    ++ String.intercalate ", " language.extensions ++ "\n"

/-- Shows a document. -/
def showDocument (format : Format) (document : Document) : String :=
  match format with
  | .tree => document.tree.rootNode.dump
  | .json => (View.ofNode none document.tree.rootNode).toJson.pretty 0 ++ "\n"

/-- Shows the tree of a file. -/
def runParse (path : String) (language : Option String) (analysis : Bool) (format : Format)
    (content : Except FileError (List Char)) : Outcome :=
  let document : Except DocumentError Document := do
    let language ← language.mapM Language.ofName
    Document.ofFile path language analysis content
  match document with
  | .ok document => { output := showDocument format document }
  | .error error => failure error.message error.cause?

/-- Reports the problems of a file. -/
def runCheck (path : String) (short : Bool) (content : Except FileError (List Char)) :
    Outcome :=
  match Path.language path, content with
  | .error error, _ => failure error.message error.cause?
  | .ok _, .error cause => failure ("failed to read `" ++ path ++ "`") (some cause)
  | .ok language, .ok text =>
      let file : SourceFile := ⟨path, language.prepare text⟩
      if short then
        match file.check.mapM (·.line file) with
        | .ok lines => { output := String.join (lines.map (· ++ "\n")) }
        | .error fault => failure fault.message none
      else
        { errors := String.join (file.check.map (·.excerpt path file.text ++ "\n")) }

/-- What a command answers with, given the content of the file that it names. -/
def run (command : Command) (content : Except FileError (List Char)) : Outcome :=
  match command with
  | .parse path language analysis format => runParse path language analysis format content
  | .check path short => runCheck path short content
  | .languages => { output := String.join (Language.all.map languageLine) }

/-- The path whose extension a command looks at for a language. -/
def inferredPath? : Command → Option String
  | .parse path none _ _ => some path
  | .check path _ => some path
  | _ => none

end Command

namespace Invocation

/-- A text in a style of a terminal. -/
def styled (style text : String) : String := "\x1b[" ++ style ++ "m" ++ text ++ "\x1b[0m"

/-- A line of the log that tells which language a path has. -/
def languageNote (path : String) (language : Language) : String :=
  let field (name value : String) := styled "3" name ++ styled "2" "=" ++ value
  styled "34" "DEBUG" ++ " " ++ styled "2" "strata::document" ++ styled "2" ":"
    ++ " resolved language " ++ field "path" path ++ " " ++ field "language" language.name
    ++ "\n"

/-- What the log tells before the file is read.  It tells about languages when more
detail was asked for at least twice. -/
def log (invocation : Invocation) : String :=
  if invocation.detail < 2 then ""
  else
    match invocation.command.inferredPath? with
    | none => ""
    | some path =>
        match Path.language path with
        | .ok language => languageNote path language
        | .error _ => ""

/-- What a command answers with and logs, given the content of the file that it names. -/
def run (invocation : Invocation) (content : Except FileError (List Char)) : Outcome :=
  let outcome := invocation.command.run content
  { outcome with errors := invocation.log ++ outcome.errors }

end Invocation

/-- How the program is called. -/
def usageText : String := "usage: strata [-v] <parse|check|languages> ...\n"

/-- What arguments answer with that describe no command. -/
def Interruption.outcome : Interruption → Outcome
  | .misuse => { code := 2, errors := usageText }
  | .help => { output := usageText }
  | .version => { output := "strata 0.1.0\n" }

/-- What arguments answer with, given the contents of files. -/
def answerArguments (arguments : List String) (read : String → Except FileError (List Char)) :
    Outcome :=
  match Command.ofArguments arguments with
  | .ok invocation => invocation.run (read (invocation.command.path?.getD ""))
  | .error interruption => interruption.outcome

end ConcreteSyntax
