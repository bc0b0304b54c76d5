import ConcreteSyntax.CFamily.Calls
import ConcreteSyntax.CFamily.Catalogue
import ConcreteSyntax.CFamily.Declarations
import ConcreteSyntax.CFamily.Statements
import ConcreteSyntax.Error
import ConcreteSyntax.Grammar
import ConcreteSyntax.Markup.Catalogue

/-!
# Languages

The languages, the names and file extensions that they go by, what is done to
their line endings, and the grammar of each.
-/

namespace ConcreteSyntax

/-- A language that can be parsed. -/
inductive Language where
  | c | cpp | objc | objcpp | html | xml | feed | propertyList
deriving DecidableEq, Inhabited

/-- What is done to `\r\n` and to a lone `\r` before scanning. -/
inductive LineEndings where
  /-- Each line ending becomes `\n`. -/
  | normalize
  /-- The text is scanned as it is. -/
  | preserve
deriving DecidableEq, Inhabited

/-- The name of a treatment of line endings. -/
def LineEndings.name : LineEndings → String
  | .normalize => "Normalize"
  | .preserve => "Preserve"

namespace LineEndings

/-- Each `\r\n` of a text as `\n`. -/
def joinPairs : List Char → List Char
  | [] => []
  | '\r' :: '\n' :: rest => '\n' :: joinPairs rest
  | c :: rest => c :: joinPairs rest

/-- A `\r` as `\n`, and any other character as it is. -/
def feed (c : Char) : Char := if c = '\r' then '\n' else c

/-- Every line ending of a text as `\n`: first the pairs, then what is left of `\r`. -/
def unify (text : List Char) : List Char := (joinPairs text).map feed

/-- The text that a treatment of line endings leaves to scan. -/
def apply (endings : LineEndings) (text : List Char) : List Char :=
  match endings with
  | .normalize => unify text
  | .preserve => text

end LineEndings

namespace CFamily

/-- The passes of C and C++. -/
def passes : List Pass := [
  ⟨"preprocessor", conditional⟩, ⟨"types", types⟩, ⟨"functions", function⟩,
  ⟨"flow", flow⟩, ⟨"labels", labels⟩, ⟨"calls", call⟩]

/-- The passes of Objective-C and Objective-C++. -/
def objcPasses : List Pass := [
  ⟨"preprocessor", conditional⟩, ⟨"declarations", classes⟩, ⟨"types", types⟩,
  ⟨"functions", function⟩, ⟨"flow", flow⟩, ⟨"labels", labels⟩, ⟨"calls", messages⟩]

/-- The grammar of C. -/
def cGrammar : Grammar := ⟨.ofCatalogue cSpecs, passes, none⟩

/-- The grammar of C++. -/
def cppGrammar : Grammar := ⟨.ofCatalogue cppSpecs, passes, none⟩

/-- The grammar of Objective-C. -/
def objcGrammar : Grammar := ⟨.ofCatalogue objcSpecs, objcPasses, none⟩

/-- The grammar of Objective-C++. -/
def objcppGrammar : Grammar := ⟨.ofCatalogue objcppSpecs, objcPasses, none⟩

end CFamily

namespace Markup

/-- The table that all markup languages share. -/
def table : Table := .ofCatalogue specs

/-- The grammar of a markup language. -/
def grammar (rules : Rules) : Grammar := ⟨table, [], some rules⟩

end Markup

namespace Language

/-- All languages. -/
def all : List Language := [.c, .cpp, .objc, .objcpp, .html, .xml, .feed, .propertyList]

theorem mem_all (language : Language) : language ∈ all := by
  cases language <;> decide

/-- The name of a language. -/
def name : Language → String
  | .c => "C"
  | .cpp => "C++"
  | .objc => "Objective-C"
  | .objcpp => "Objective-C++"
  | .html => "HTML"
  | .xml => "XML"
  | .feed => "RSS"
  | .propertyList => "PropertyList"

/-- Other names of a language, in lower case. -/
def aliases : Language → List String
  | .c => ["c"]
  | .cpp => ["c++", "cpp", "cxx"]
  | .objc => ["objective-c", "objc", "obj-c"]
  | .objcpp => ["objective-c++", "objc++", "objcpp", "obj-c++"]
  | .html => ["html", "htm", "sgml"]
  | .xml => ["xml"]
  | .feed => ["rss", "atom"]
  | .propertyList => ["propertylist", "plist", "property-list"]

/-- The file extensions of a language. -/
def extensions : Language → List String
  | .c => ["c", "h"]
  | .cpp => ["cc", "cpp", "cxx", "c++", "hh", "hpp", "hxx"]
  | .objc => ["m"]
  | .objcpp => ["mm"]
  | .html => ["html", "htm", "shtml"]
  | .xml => ["xml", "xsl", "xslt", "svg", "xhtml"]
  | .feed => ["rss", "atom"]
  | .propertyList => ["plist"]

/-- What a language does to line endings. -/
def lineEndings : Language → LineEndings
  | .c | .cpp | .objc | .objcpp => .normalize
  | .html | .xml | .feed | .propertyList => .preserve

/-- The language that goes by a name, in any case and with white space around it. -/
def ofName? (name : String) : Option Language :=
  let wanted := Text.trim name.toList
  all.find? fun language =>
    (language.name :: language.aliases).any (Text.equalIgnoringCase ·.toList wanted)

/-- The language that goes by a name, or an error that gives the name as it is. -/
def ofName (name : String) : Except DocumentError Language :=
  match ofName? name with
  | some language => .ok language
  | none => .error (.unknownLanguage name)

/-- The language of files with an extension, in any case. -/
def ofExtension? (extension : String) : Option Language :=
  all.find? fun language =>
    language.extensions.any (Text.equalIgnoringCase ·.toList extension.toList)

/-- The grammar of a language. -/
def grammar : Language → Grammar
  | .c => CFamily.cGrammar
  | .cpp => CFamily.cppGrammar
  | .objc => CFamily.objcGrammar
  | .objcpp => CFamily.objcppGrammar
  | .html => Markup.grammar .html
  | .xml => Markup.grammar .xml
  | .feed => Markup.grammar .feed
  | .propertyList => Markup.grammar .propertyList

/-- A text as a language scans it. -/
def prepare (language : Language) (text : List Char) : List Char :=
  language.lineEndings.apply text

end Language

end ConcreteSyntax
