import ConcreteSyntax.Kind
import ConcreteSyntax.Text.Character

/-!
# How tags pair

The rules of a markup language: whether names of elements differ in their case,
which elements never have content, and which elements have a kind of their own.
-/

namespace ConcreteSyntax.Markup

/-- How the tags of a markup language pair into elements. -/
structure Rules where
  caseSensitive : Bool
  /-- Elements that never have content. -/
  voidElements : List (List Char)
  /-- Elements with a kind of their own. -/
  elementKinds : List (List Char × Kind)
deriving Inhabited

namespace Rules

/-- Whether two names name the same element. -/
def sameName (rules : Rules) (a b : List Char) : Bool :=
  if rules.caseSensitive then a == b else Text.equalIgnoringCase a b

/-- Whether an element never has content. -/
def isVoid (rules : Rules) (name : List Char) : Bool :=
  rules.voidElements.any (rules.sameName · name)

/-- The kind of an element. -/
def elementKind (rules : Rules) (name : List Char) : Kind :=
  ((rules.elementKinds.find? (rules.sameName ·.1 name)).map (·.2)).getD .element

/-- Rules from their parts as strings. -/
def ofStrings (caseSensitive : Bool) (voidElements : List String)
    (elementKinds : List (String × Kind)) : Rules where
  caseSensitive
  voidElements := voidElements.map (·.toList)
  elementKinds := elementKinds.map fun (name, kind) => (name.toList, kind)

/-- HTML ignores case and has void elements. -/
def html : Rules :=
  ofStrings false
    ["area", "base", "br", "col", "embed", "hr", "img", "input", "link", "meta", "param",
      "source", "track", "wbr"]
    []

/-- XML has no elements of its own. -/
def xml : Rules := ofStrings true [] []

/-- The elements of RSS and Atom feeds. -/
def feed : Rules := ofStrings true [] [
  ("channel", .rssChannel), ("item", .rssItem), ("category", .rssCategory),
  ("title", .rssTitle), ("link", .rssLink), ("description", .rssDescription),
  ("language", .rssLanguage), ("author", .rssAuthor), ("enclosure", .rssEnclosure),
  ("guid", .rssGuid), ("pubDate", .rssPublicationDate), ("feed", .atomFeed),
  ("entry", .atomEntry), ("subtitle", .atomSubtitle), ("id", .atomId),
  ("summary", .atomSummary), ("name", .atomName), ("email", .atomEmail),
  ("updated", .atomUpdated)]

/-- The elements of property lists. -/
def propertyList : Rules := ofStrings true [] [
  ("plist", .plist), ("dict", .plistDictionary), ("array", .plistArray),
  ("key", .plistKey), ("string", .plistString), ("integer", .plistInteger),
  ("real", .plistReal), ("true", .plistTrue), ("false", .plistFalse),
  ("date", .plistDate), ("data", .plistData)]

end Rules

end ConcreteSyntax.Markup
