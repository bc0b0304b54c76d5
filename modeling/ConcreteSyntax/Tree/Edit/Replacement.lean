import ConcreteSyntax.Tree.Edit.Insertion
import ConcreteSyntax.Tree.Edit.Removal

/-!
# Replacements

A detached node can take the place of another, which is freed, and may keep the
children of the other.  A text can take the place of a node: it becomes a leaf of
its own.
-/

namespace ConcreteSyntax.Edit

/-- Moves the children of a node behind those of another, whose revision grows. -/
def moveChildren (source target : NodeId) : Edit Unit := do
  let moved := (← record source).children
  update source fun node => { node with children := [] }
  moved.forM fun child => update child fun node => { node with parent := some target }
  update target fun node =>
    { node with children := node.children ++ moved, revision := node.revision + 1 }

/-- Puts a detached node in the place of another, which is freed.  The children of the
other node move to the new one when they are kept. -/
def replace (id new : NodeId) (keepChildren : Bool) : Edit Unit := do
  let (parent, index) ← position id
  if new = (← get).root then refuse .root
  let made ← live new
  if made.parent.isSome then refuse (.attached new)
  if new ∈ (← lineage parent) then refuse (.cycle new)
  if keepChildren && made.kind.isAtomic && !(← record id).children.isEmpty then
    refuse (.atomic made.kind)
  if keepChildren then moveChildren id new
  update parent fun node => { node with children := node.children.set index new }
  update new fun node => { node with parent := some parent }
  free id
  touch parent

/-- Puts a text leaf in the place of a node, with its range and lines.  The empty text
removes the node. -/
def replaceWithText (id : NodeId) (text : List Char) : Edit (Option NodeId) := do
  if text.isEmpty then
    remove id
    return none
  let _ ← position id
  let old ← record id
  let leaf ← newLeaf .text text
  update leaf fun made => { made with range := old.range, lines := old.lines }
  replace id leaf false
  return some leaf

end ConcreteSyntax.Edit
