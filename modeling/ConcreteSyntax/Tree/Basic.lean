import ConcreteSyntax.Fault
import ConcreteSyntax.Parse
import ConcreteSyntax.Tree.Arena

/-!
# Trees that can be edited

A `Tree` keeps the nodes of a syntax tree in an arena, each with the name of its
parent and the names of its children, over the text that was parsed.  Nodes that
were detached stay in the arena.  `Tree.node?` gives the node that a name leads to
as a value, with all that is below it.
-/

namespace ConcreteSyntax

/-- A node in an arena. -/
structure Record where
  kind : Kind
  range : Range
  lines : LineSpan
  parent : Option NodeId := none
  children : List NodeId := []
  revision : Nat := 0
  /-- The text of a leaf that was made by an edit; other leaves read the source. -/
  text : Option (List Char) := none
deriving Inhabited

/-- A record under another parent. -/
def Record.under (parent : NodeId) (record : Record) : Record :=
  { record with parent := some parent }

/-- A record over other children. -/
def Record.over (children : List NodeId) (record : Record) : Record := { record with children }

/-- A syntax tree over a text, in an arena. -/
structure Tree where
  /-- The text that the tree was built from, and its lines. -/
  index : LineIndex
  nodes : Arena Record
  root : NodeId
deriving Inhabited

namespace Tree

/-- The text that a tree was built from.  Edits never change it. -/
def source (tree : Tree) : List Char := tree.index.text

/-- The number of nodes, detached ones included. -/
def size (tree : Tree) : Nat := tree.nodes.size

/-- Whether a name leads to a node. -/
def contains (tree : Tree) (id : NodeId) : Bool := tree.nodes.contains id

/-- The node that a name leads to, without what is below it. -/
def record? (tree : Tree) (id : NodeId) : Option Record := tree.nodes.get? id

/-- Refuses a name that leads nowhere. -/
def require (tree : Tree) (id : NodeId) : Except Fault Unit :=
  if tree.contains id then .ok () else .error (.notInTree id)

/-- Changes the node that a name leads to. -/
def modify (tree : Tree) (id : NodeId) (change : Record → Record) : Tree :=
  { tree with nodes := tree.nodes.modify id change }

/-- The names of the children of a node. -/
def children (tree : Tree) (id : NodeId) : List NodeId :=
  ((tree.record? id).map (·.children)).getD []

/-- The name of the parent of a node. -/
def parent? (tree : Tree) (id : NodeId) : Option NodeId := (tree.record? id).bind (·.parent)

/-- The text of a leaf: its own, or what the source holds in its range. -/
def leafText? (tree : Tree) (record : Record) : Option (List Char) :=
  if record.kind.isAtomic then
    some (record.text.getD (Text.slice tree.source record.range))
  else none

/-- The label of a node. -/
def labelOf (tree : Tree) (id : NodeId) (record : Record) : Label where
  id
  kind := record.kind
  range := record.range
  lines := record.lines
  revision := record.revision
  text? := tree.leafText? record

/-- The label of the node that a name leads to. -/
def label? (tree : Tree) (id : NodeId) : Option Label :=
  (tree.record? id).map (tree.labelOf id)

/-- The node that a name leads to, down to the depth of `fuel`. -/
def nodeWithin (tree : Tree) : Nat → NodeId → Option Node
  | 0, _ => none
  | fuel + 1, id =>
      match tree.record? id with
      | none => none
      | some record =>
          some ⟨tree.labelOf id record, record.children.filterMap (nodeWithin tree fuel)⟩

/-- The node that a name leads to, with all that is below it.  No path downwards is
longer than the number of nodes. -/
def node? (tree : Tree) (id : NodeId) : Option Node := tree.nodeWithin (tree.size + 1) id

/-- The root with all that is below it. -/
def rootNode (tree : Tree) : Node := (tree.node? tree.root).getD default

/-- What the leaves of a tree spell. -/
def text (tree : Tree) : List Char := tree.rootNode.spelling

/-- A summary of a tree: the bytes of its source and the number of its nodes. -/
def summary (tree : Tree) : String :=
  "Tree \x7b source_len: " ++ toString (Text.byteLength tree.source) ++ ", nodes: "
    ++ toString tree.size ++ ", .. \x7d"

/-- A node and its parents, from the node upwards, `fuel` of them at most. -/
def lineageWithin (tree : Tree) : Nat → Option NodeId → List NodeId
  | 0, _ => []
  | _, none => []
  | fuel + 1, some id =>
      match tree.record? id with
      | none => []
      | some record => id :: lineageWithin tree fuel record.parent

/-- A node, its parent, and so on up to a node without a parent. -/
def lineage (tree : Tree) (id : NodeId) : List NodeId :=
  tree.lineageWithin (tree.size + 1) (some id)

/-- The tree of a text that has nothing but its root. -/
def new (source : List Char) : Tree :=
  let index := LineIndex.ofText source
  let range := Range.ofLength 0 (Text.byteLength source)
  let (root, nodes) :=
    Arena.empty.alloc { kind := .root, range, lines := index.span range : Record }
  { index, nodes, root }

mutual

/-- The records of a node under a parent, and of all nodes below it. -/
def recordsOf (parent : Option NodeId) : Node → List (NodeId × Record)
  | ⟨label, children⟩ =>
      (label.id,
        { kind := label.kind, range := label.range, lines := label.lines, parent
          children := children.map Node.id, revision := label.revision })
        :: recordsOfAll (some label.id) children

/-- The records of several nodes under a parent, and of all nodes below them. -/
def recordsOfAll (parent : Option NodeId) : List Node → List (NodeId × Record)
  | [] => []
  | node :: rest => recordsOf parent node ++ recordsOfAll parent rest

end

/-- Slots after records were put into them, each under its name. -/
def fill (slots : Array (Slot Record)) (records : List (NodeId × Record)) :
    Array (Slot Record) :=
  records.foldl
    (fun slots (id, record) => slots.setIfInBounds id.index ⟨id.generation, some record⟩) slots

/-- The tree of a parsed text. -/
def ofParse (parse : Parse) : Tree :=
  let slots := fill (Array.replicate parse.next ⟨0, none⟩) (recordsOf none parse.root)
  { index := parse.lines, nodes := ⟨slots, [], parse.next⟩, root := parse.root.id }

end Tree

end ConcreteSyntax
