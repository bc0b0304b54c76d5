/-!
# Attributes

A named value that belongs to a node.
-/

namespace ConcreteSyntax

/-- A named value. -/
structure Attribute where
  name : List Char
  value : List Char
deriving DecidableEq, Inhabited

namespace Attribute

/-- An attribute with a fixed name. -/
def named (name : String) (value : List Char) : Attribute := ⟨name.toList, value⟩

/-- The attributes with the first of each name kept, in their order. -/
def keepFirst (attributes : List Attribute) : List Attribute :=
  attributes.foldl (fun kept found =>
    if kept.any (·.name == found.name) then kept else kept ++ [found]) []

end Attribute

end ConcreteSyntax
