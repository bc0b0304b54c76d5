import ConcreteSyntax.Tree.Edit

/-!
# Removals

A node that is removed is freed with all that is below it.  A node that is detached
stays in the tree, without a parent.
-/

namespace ConcreteSyntax

namespace Tree

/-- A node and all nodes below it in the order in which they are freed: a parent before
its children, and children from the last to the first. -/
def freeOrderWithin (tree : Tree) : Nat → NodeId → List NodeId
  | 0, _ => []
  | fuel + 1, id => id :: (tree.children id).reverse.flatMap (freeOrderWithin tree fuel)

/-- The tree without a node and all nodes below it. -/
def free (tree : Tree) (id : NodeId) : Tree :=
  let order := tree.freeOrderWithin (tree.size + 1) id
  { tree with nodes := order.foldl Arena.remove tree.nodes }

end Tree

namespace Edit

/-- Frees a node and all nodes below it. -/
def free (id : NodeId) : Edit Unit := modify (·.free id)

/-- Removes the child at an index, with all that is below it. -/
def removeChild (parent : NodeId) (index : Nat) : Edit Unit := do
  let above ← live parent
  match above.children[index]? with
  | none => refuse (.outOfBounds index above.children.length)
  | some child =>
      update parent fun node => { node with children := node.children.eraseIdx index }
      free child
      touch parent

/-- Removes a node, with all that is below it. -/
def remove (id : NodeId) : Edit Unit := do
  let (parent, index) ← position id
  removeChild parent index

/-- Takes a node from its parent and keeps it. -/
def detach (id : NodeId) : Edit Unit := do
  let (parent, index) ← position id
  update parent fun node => { node with children := node.children.eraseIdx index }
  update id fun node => { node with parent := none }
  touch parent

end Edit

end ConcreteSyntax
