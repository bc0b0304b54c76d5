import ConcreteSyntax.Tree.Basic

/-!
# Navigation

The siblings and the ancestors of a node, searches among them, and walks.
-/

namespace ConcreteSyntax.Tree

/-- The kind of a node. -/
def kind? (tree : Tree) (id : NodeId) : Option Kind := (tree.record? id).map (·.kind)

/-- Whether a node is of one of several kinds. -/
def isAny (tree : Tree) (kinds : KindSet) (id : NodeId) : Bool :=
  (tree.kind? id).any kinds.contains

/-- Whether a node is trivia. -/
def isTrivia (tree : Tree) (id : NodeId) : Bool := (tree.kind? id).any (·.isTrivia)

/-! ## Siblings -/

/-- The index of a node among the children of its parent. -/
def index? (tree : Tree) (id : NodeId) : Option Nat := do
  let parent ← tree.parent? id
  (tree.children parent).idxOf? id

/-- The siblings of a node, and its index among them. -/
def siblings? (tree : Tree) (id : NodeId) : Option (List NodeId × Nat) := do
  let parent ← tree.parent? id
  let index ← (tree.children parent).idxOf? id
  return (tree.children parent, index)

/-- The siblings before a node, the nearest first. -/
def previousSiblings (tree : Tree) (id : NodeId) : List NodeId :=
  match tree.siblings? id with
  | some (siblings, index) => (siblings.take index).reverse
  | none => []

/-- The siblings after a node, the nearest first. -/
def nextSiblings (tree : Tree) (id : NodeId) : List NodeId :=
  match tree.siblings? id with
  | some (siblings, index) => siblings.drop (index + 1)
  | none => []

/-- The sibling right before a node. -/
def previousSibling? (tree : Tree) (id : NodeId) : Option NodeId :=
  (tree.previousSiblings id).head?

/-- The sibling right after a node. -/
def nextSibling? (tree : Tree) (id : NodeId) : Option NodeId := (tree.nextSiblings id).head?

/-- The nearest sibling before a node that is no trivia. -/
def previousNonTrivia? (tree : Tree) (id : NodeId) : Option NodeId :=
  (tree.previousSiblings id).find? (!tree.isTrivia ·)

/-- The nearest sibling after a node that is no trivia. -/
def nextNonTrivia? (tree : Tree) (id : NodeId) : Option NodeId :=
  (tree.nextSiblings id).find? (!tree.isTrivia ·)

/-- The nearest sibling before a node of one of several kinds. -/
def findPreviousSibling? (tree : Tree) (kinds : KindSet) (id : NodeId) : Option NodeId :=
  (tree.previousSiblings id).find? (tree.isAny kinds)

/-- The nearest sibling after a node of one of several kinds. -/
def findNextSibling? (tree : Tree) (kinds : KindSet) (id : NodeId) : Option NodeId :=
  (tree.nextSiblings id).find? (tree.isAny kinds)

/-! ## Children and ancestors -/

/-- The first child of one of several kinds. -/
def findFirstChild? (tree : Tree) (kinds : KindSet) (id : NodeId) : Option NodeId :=
  (tree.children id).find? (tree.isAny kinds)

/-- The last child of one of several kinds. -/
def findLastChild? (tree : Tree) (kinds : KindSet) (id : NodeId) : Option NodeId :=
  (tree.children id).reverse.find? (tree.isAny kinds)

/-- The parent, the parent of the parent, and so on. -/
def ancestors (tree : Tree) (id : NodeId) : List NodeId := (tree.lineage id).drop 1

/-- The nearest ancestor of one of several kinds. -/
def ancestor? (tree : Tree) (kinds : KindSet) (id : NodeId) : Option NodeId :=
  (tree.ancestors id).find? (tree.isAny kinds)

/-- The number of ancestors. -/
def depth (tree : Tree) (id : NodeId) : Nat := (tree.ancestors id).length

/-- The number of steps up to the nearest ancestor of one of several kinds. -/
def depthTo? (tree : Tree) (kinds : KindSet) (id : NodeId) : Option Nat :=
  ((tree.ancestors id).findIdx? (tree.isAny kinds)).map (· + 1)

/-! ## Traversal -/

/-- A step of a traversal. -/
inductive Step where
  | enter (id : NodeId)
  | leave (id : NodeId)
deriving DecidableEq, Inhabited

/-- A traversal that can be told to pass over what is below a node: the node to start
at, then the nodes entered, the innermost first, each with the index of the child to
visit next. -/
structure Preorder where
  start : Option NodeId
  stack : List (NodeId × Nat)
deriving Inhabited

namespace Preorder

/-- The traversal from a node. -/
def new (start : NodeId) : Preorder := ⟨some start, []⟩

/-- The next step of a traversal, and the traversal after it. -/
def next? (tree : Tree) (walk : Preorder) : Option (Step × Preorder) :=
  match walk.start, walk.stack with
  | some id, stack => some (.enter id, ⟨none, (id, 0) :: stack⟩)
  | none, [] => none
  | none, (id, index) :: outer =>
      match (tree.children id)[index]? with
      | some child => some (.enter child, ⟨none, (child, 0) :: (id, index + 1) :: outer⟩)
      | none => some (.leave id, ⟨none, outer⟩)

/-- Passes over the children of the node entered last. -/
def skipSubtree (tree : Tree) (walk : Preorder) : Preorder :=
  match walk.stack with
  | [] => walk
  | (id, _) :: outer => { walk with stack := (id, (tree.children id).length) :: outer }

/-- At most `fuel` steps of a traversal that passes over what is below the nodes that
`skip` accepts. -/
def collect (tree : Tree) (skip : NodeId → Bool) : Nat → Preorder → List Step
  | 0, _ => []
  | fuel + 1, walk =>
      match walk.next? tree with
      | none => []
      | some (.enter id, after) =>
          .enter id :: collect tree skip fuel (if skip id then after.skipSubtree tree else after)
      | some (.leave id, after) => .leave id :: collect tree skip fuel after

end Preorder

/-- The steps of a traversal from a node that passes over what is below the nodes that
`skip` accepts.  Each node is entered and left once. -/
def steps (tree : Tree) (skip : NodeId → Bool) (start : NodeId) : List Step :=
  Preorder.collect tree skip (2 * tree.size + 2) (.new start)

/-- The node that a step enters. -/
def Step.entered? : Step → Option NodeId
  | .enter id => some id
  | .leave _ => none

/-- A node and everything below it, each node before what is below it. -/
def descendants (tree : Tree) (start : NodeId) : List NodeId :=
  (tree.steps (fun _ => false) start).filterMap Step.entered?

/-! ## Walks -/

/-- At most `fuel` visits of a walk over the nodes of a stack.  A visit may change the
tree, and gives the node whose children come next. -/
def walkWithin {σ : Type} (visit : σ → Tree → NodeId → σ × Tree × Option NodeId) :
    Nat → σ → Tree → List NodeId → σ × Tree
  | 0, state, tree, _ => (state, tree)
  | _, state, tree, [] => (state, tree)
  | fuel + 1, state, tree, id :: stack =>
      if tree.contains id then
        match visit state tree id with
        | (state, tree, none) => walkWithin visit fuel state tree stack
        | (state, tree, some next) =>
            walkWithin visit fuel state tree (tree.children next ++ stack)
      else walkWithin visit fuel state tree stack

/-- Walks over a node and what is below it, each node before its children.  In a walk
that ends no node is met again below itself, so the nodes that lead to a visit are
distinct, and there are no more such chains than sets of nodes. -/
def walk {σ : Type} (tree : Tree) (start : NodeId) (state : σ)
    (visit : σ → Tree → NodeId → σ × Tree × Option NodeId) : σ × Tree :=
  walkWithin visit (Nat.pow 2 (tree.size + 2)) state tree [start]

end ConcreteSyntax.Tree
