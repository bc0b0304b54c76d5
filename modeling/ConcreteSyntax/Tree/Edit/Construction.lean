import ConcreteSyntax.Tree.Edit

/-!
# Construction of trees

The operations that build a tree over its source: leaves and containers are added
behind the children of a node, containers are closed, and runs of siblings get a
parent of their own.  They leave revisions untouched, and break where they are
misused.
-/

namespace ConcreteSyntax.Edit

/-- The lines of a range of the source, whose ends lie between characters. -/
def linesOf (range : Range) : Edit LineSpan := do
  match (← get).index.span? range with
  | some lines => return lines
  | none => fail .invalidOffset

/-- Adds a node over a range of the source that has no parent. -/
def allocOver (kind : Kind) (range : Range) : Edit NodeId := do
  alloc { kind, range, lines := ← linesOf range }

/-- Makes a node the last child of another. -/
def attach (parent child : NodeId) : Edit Unit := do
  let above ← record parent
  if above.kind.isAtomic then fail (.atomicParent above.kind)
  update child (.under parent)
  update parent fun node => node.over (node.children ++ [child])

/-- Adds a leaf over a range of the source behind the children of a node. -/
def addLeaf (parent : NodeId) (kind : Kind) (range : Range) : Edit NodeId := do
  let leaf ← allocOver kind range
  attach parent leaf
  return leaf

/-- Adds an empty container at an offset behind the children of a node. -/
def addContainer (parent : NodeId) (kind : Kind) (start : Nat) : Edit NodeId :=
  addLeaf parent kind (.empty start)

/-- Ends a node at an offset, or where it starts when the offset comes before. -/
def endAt (id : NodeId) (stop : Nat) : Edit Unit := do
  let range := Range.upTo (← record id).range.start stop
  let lines ← linesOf range
  update id fun node => { node with range, lines }

/-- The nodes of a run of siblings, from the index `start` to the index `stop`. -/
def runOf (parent : NodeId) (start stop : Nat) : Edit (List NodeId) := do
  if stop < start then fail (.invalidRun start stop)
  let children := (← record parent).children
  if children.length ≤ stop then fail (.invalidRun start stop)
  return (children.take (stop + 1)).drop start

/-- Wraps the children of a node from the index `start` to the index `stop` into a new
node, which stands where they stood. -/
def wrapRun (parent : NodeId) (start stop : Nat) (kind : Kind) : Edit NodeId := do
  let run ← runOf parent start stop
  let first ← record (run.head?.getD parent)
  let last ← record (run.getLast?.getD parent)
  let id ← allocOver kind (first.range.cover last.range)
  run.forM fun child => update child (.under id)
  update id fun node => (node.under parent).over run
  update parent fun node =>
    node.over (node.children.take start ++ id :: node.children.drop (stop + 1))
  return id

end ConcreteSyntax.Edit
