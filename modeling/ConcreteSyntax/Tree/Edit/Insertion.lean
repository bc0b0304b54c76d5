import ConcreteSyntax.Tree.Edit

/-!
# Insertions

New nodes have neither a parent nor a place in the source.  A node without a parent
can be put among the children of a container, but never below itself.
-/

namespace ConcreteSyntax.Edit

/-- Adds a node without a parent and without a place in the source. -/
def allocDetached (kind : Kind) (text : Option (List Char)) : Edit NodeId := do
  let range := Range.empty 0
  alloc { kind, range, lines := (← get).index.span range, text }

/-- Makes a leaf that holds a text and has no parent. -/
def newLeaf (kind : Kind) (text : List Char) : Edit NodeId := do
  if !kind.isAtomic then refuse (.notAtomic kind)
  allocDetached kind (some text)

/-- Makes an empty container that has no parent. -/
def newNode (kind : Kind) : Edit NodeId := do
  if kind.isAtomic then refuse (.atomic kind)
  allocDetached kind none

/-- Puts a detached node among the children of another, at an index. -/
def insertChild (parent : NodeId) (index : Nat) (child : NodeId) : Edit Unit := do
  let above ← live parent
  if above.kind.isAtomic then refuse (.atomic above.kind)
  if above.children.length < index then refuse (.outOfBounds index above.children.length)
  if child = (← get).root then refuse .root
  if (← live child).parent.isSome then refuse (.attached child)
  if child ∈ (← lineage parent) then refuse (.cycle child)
  update parent fun node => { node with children := node.children.insertIdx index child }
  update child fun node => { node with parent := some parent }
  touch parent

/-- Puts a detached node behind the children of another. -/
def appendChild (parent child : NodeId) : Edit Unit := do
  insertChild parent (← live parent).children.length child

/-- Puts a detached node right before another. -/
def insertBefore (id sibling : NodeId) : Edit Unit := do
  let (parent, index) ← position id
  insertChild parent index sibling

/-- Puts a detached node right after another. -/
def insertAfter (id sibling : NodeId) : Edit Unit := do
  let (parent, index) ← position id
  insertChild parent (index + 1) sibling

end ConcreteSyntax.Edit
