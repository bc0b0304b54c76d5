import ConcreteSyntax.Tree.Basic

/-!
# Edits of trees

An `Edit` reads and changes a tree, and may stop before its end: it is refused, or
it breaks because a name leads nowhere.  Where it stops, the tree is what it had
become by then, so that nothing an edit does is hidden by its failure.
-/

namespace ConcreteSyntax

/-- Why an edit is refused. -/
inductive EditError where
  | stale (id : NodeId)
  | atomic (kind : Kind)
  | notAtomic (kind : Kind)
  | attached (id : NodeId)
  | detached (id : NodeId)
  | outOfBounds (index length : Nat)
  | cycle (id : NodeId)
  | root
deriving DecidableEq, Inhabited

/-- The wording of an edit error. -/
def EditError.message : EditError → String
  | .stale id => id.render ++ " is no longer part of the tree"
  | .atomic kind => "`" ++ kind.name ++ "` nodes are atomic and cannot have children"
  | .notAtomic kind => "`" ++ kind.name ++ "` nodes are containers and cannot hold text"
  | .attached id => id.render ++ " already has a parent"
  | .detached id => id.render ++ " has no parent"
  | .outOfBounds index length =>
      "index " ++ toString index ++ " is out of bounds for " ++ toString length ++ " children"
  | .cycle id => "inserting " ++ id.render ++ " would make it its own ancestor"
  | .root => "the root node cannot be moved, replaced or removed"

/-- Why an edit stops before its end. -/
inductive Halt where
  | refused (error : EditError)
  | broken (fault : Fault)
deriving DecidableEq, Inhabited

/-- What reads and changes a tree, and may stop before its end. -/
abbrev Edit (α : Type) := EStateM Halt Tree α

namespace Edit

/-- Stops an edit that may not be made. -/
def refuse {α : Type} (error : EditError) : Edit α := throw (.refused error)

/-- Stops an edit that has met what no tree should hold. -/
def fail {α : Type} (fault : Fault) : Edit α := throw (.broken fault)

/-- The node that a name leads to, which has to be there. -/
def record (id : NodeId) : Edit Record := do
  match (← get).record? id with
  | some record => return record
  | none => fail (.staleKey id)

/-- The node that the caller of an edit has named, which may be gone. -/
def live (id : NodeId) : Edit Record := do
  match (← get).record? id with
  | some record => return record
  | none => refuse (.stale id)

/-- Changes a node, which has to be there. -/
def update (id : NodeId) (change : Record → Record) : Edit Unit := do
  let _ ← record id
  modify (·.modify id change)

/-- Adds a node without a parent. -/
def alloc (record : Record) : Edit NodeId := do
  let tree ← get
  let (id, nodes) := tree.nodes.alloc record
  set { tree with nodes }
  return id

/-- A node and the nodes above it, `fuel` of them at most.  Nodes that are above
themselves would have no end of them. -/
def lineageWithin : Nat → Option NodeId → Edit (List NodeId)
  | _, none => return []
  | 0, some id => fail (.endless id)
  | fuel + 1, some id => do
      let node ← record id
      return id :: (← lineageWithin fuel node.parent)

/-- A node and the nodes above it.  There are no more of them than nodes in the tree. -/
def lineage (id : NodeId) : Edit (List NodeId) := do
  lineageWithin ((← get).size + 1) (some id)

/-- Raises the revisions of a node and of all nodes above it. -/
def touch (id : NodeId) : Edit Unit := do
  (← lineage id).forM fun above =>
    update above fun node => { node with revision := node.revision + 1 }

/-- The parent of an attached node, and the index of the node among its children. -/
def position (id : NodeId) : Edit (NodeId × Nat) := do
  if id = (← get).root then refuse .root
  match (← live id).parent with
  | none => refuse (.detached id)
  | some parent =>
      match (← record parent).children.idxOf? id with
      | some index => return (parent, index)
      | none => refuse (.detached id)

/-! ## What the steps of an edit do -/

/-- One edit after another: the second goes on with the tree that the first has left. -/
theorem run_bind {α β : Type} (edit : Edit α) (next : α → Edit β) (tree : Tree) :
    (edit >>= next).run tree =
      match edit.run tree with
      | .ok value after => (next value).run after
      | .error halt after => .error halt after := by
  change EStateM.bind edit next tree = _
  unfold EStateM.bind EStateM.run
  cases edit tree <;> rfl

/-- Reading a node leaves the tree as it is. -/
theorem run_record (id : NodeId) (tree : Tree) :
    (record id).run tree =
      match tree.record? id with
      | some node => .ok node tree
      | none => .error (.broken (.staleKey id)) tree := by
  change (match tree.record? id with
    | some node => (pure node : Edit Record)
    | none => fail (.staleKey id)).run tree = _
  cases tree.record? id <;> rfl

/-- Looking up a node that the caller has named leaves the tree as it is. -/
theorem run_live (id : NodeId) (tree : Tree) :
    (live id).run tree =
      match tree.record? id with
      | some node => .ok node tree
      | none => .error (.refused (.stale id)) tree := by
  change (match tree.record? id with
    | some node => (pure node : Edit Record)
    | none => refuse (.stale id)).run tree = _
  cases tree.record? id <;> rfl

/-- Changing a node that is there succeeds. -/
theorem run_update {tree : Tree} {id : NodeId} {node : Record} (change : Record → Record)
    (h : tree.record? id = some node) :
    (update id change).run tree = .ok () (tree.modify id change) := by
  rw [update, run_bind, run_record, h]
  rfl

end Edit

end ConcreteSyntax
