import ConcreteSyntax.Path
import ConcreteSyntax.Tree.Basic

/-!
# Documents

A document is a parsed text that can be edited and written back.
-/

namespace ConcreteSyntax

/-- A parsed text: its language, its tree, and what parsing recovered from. -/
structure Document where
  language : Language
  tree : Tree
  notes : List Diagnostic
deriving Inhabited

namespace Document

/-- Parses a text. -/
def ofText (language : Language) (analysis : Bool) (text : List Char) : Document :=
  let parse := language.parse analysis text
  { language, tree := .ofParse parse, notes := parse.notes }

/-- Parses a text in the language that goes by a name. -/
def ofNamed (name : String) (analysis : Bool) (text : List Char) :
    Except DocumentError Document := do
  return ofText (← Language.ofName name) analysis text

/-- Parses the file at a path, whose content is `content`, in a language or in that of
its extension. -/
def ofFile (path : String) (language : Option Language) (analysis : Bool)
    (content : Except FileError (List Char)) : Except DocumentError Document := do
  let language ←
    match language with
    | some language => pure language
    | none => Path.language path
  match content with
  | .ok text => return ofText language analysis text
  | .error cause => .error (.inaccessible path cause)

/-- The text of a document as its tree spells it now. -/
def text (document : Document) : List Char := document.tree.text

/-- The bytes that a document is written as: those of its leaves, one after the other. -/
def bytes (document : Document) : List UInt8 :=
  document.tree.rootNode.leaves.flatMap fun leaf =>
    (String.ofList (leaf.text?.getD [])).toUTF8.toList

end Document

end ConcreteSyntax
