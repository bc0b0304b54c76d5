import ConcreteSyntax.JsonValue
import ConcreteSyntax.Node.Attributes
import ConcreteSyntax.Node.Cleaned

/-!
# Views

A view shows a node and all below it as data for other programs: kinds by their
display names, tags, attributes, texts and places.
-/

namespace ConcreteSyntax

/-- What a view tells about one node. -/
structure Facts where
  kind : Kind
  tag : Option Markup.Tag
  attributes : List Attribute
  /-- The text of a leaf. -/
  content : Option (List Char)
  /-- The text of a leaf without literal syntax, where that differs. -/
  clean : Option (List Char)
  range : Range
  lines : LineSpan
  parent : Option Kind

/-- A node and all below it as data. -/
inductive View where
  | mk (facts : Facts) (children : List View)

namespace View

instance : Inhabited View := ⟨⟨⟨default, none, [], none, none, default, default, none⟩, []⟩⟩

/-- What a view tells about a node under a parent. -/
def factsOf (parent : Option Kind) (node : Node) : Facts where
  kind := node.kind
  tag := node.tag?
  attributes := node.attributes
  content := node.text?
  clean := node.text?.bind fun text =>
    if node.cleaned = text then none else some node.cleaned
  range := node.range
  lines := node.label.lines
  parent

mutual

/-- The view of a node under a parent. -/
def ofNode (parent : Option Kind) : Node → View
  | ⟨label, children⟩ =>
      ⟨factsOf parent ⟨label, children⟩, ofNodes (some label.kind) children⟩

/-- The views of several nodes under a parent. -/
def ofNodes (parent : Option Kind) : List Node → List View
  | [] => []
  | node :: rest => ofNode parent node :: ofNodes parent rest

end

end View

namespace Facts

/-- The members that come before the children in the object of a view.  What a node
does not have is left out. -/
def toMembers (facts : Facts) : List (String × JsonValue) :=
  [("kind", .string facts.kind.name.toList)]
    ++ (facts.tag.map fun tag =>
        ("tag", .object
          [("name", .string tag.name), ("form", .string tag.form.name.toList)])).toList
    ++ (if facts.attributes.isEmpty then []
        else [("attributes", .object (facts.attributes.map fun found =>
          (String.ofList found.name, .string found.value)))])
    ++ (facts.content.map fun text => ("content", .string text)).toList
    ++ (facts.clean.map fun text => ("clean", .string text)).toList
    ++ [("start", .number facts.range.start), ("end", .number facts.range.stop),
        ("lines", .array [.number facts.lines.first, .number facts.lines.last])]
    ++ (facts.parent.map fun kind => ("parent", .string kind.name.toList)).toList

end Facts

namespace View

mutual

/-- A view as an object. -/
def toJson : View → JsonValue
  | ⟨facts, children⟩ =>
      .object (facts.toMembers
        ++ (if children.isEmpty then [] else [("children", .array (toJsonAll children))]))

/-- Several views as objects. -/
def toJsonAll : List View → List JsonValue
  | [] => []
  | view :: rest => toJson view :: toJsonAll rest

end

end View

end ConcreteSyntax
