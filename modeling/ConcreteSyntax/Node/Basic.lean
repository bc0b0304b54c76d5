import ConcreteSyntax.Kind.Set
import ConcreteSyntax.Text.Lines

/-!
# Nodes of a concrete syntax tree

A `Node` is a syntax tree as a value: a label and the nodes below.  Parsing builds
nodes, and everything that is read off a tree is a function of them.  Leaves
carry their text, so the text of a node is what its leaves spell, from left to
right (`Node.spelling`).
-/

namespace ConcreteSyntax

/-- The name of a node: a slot, and how often the slot had been freed before. -/
structure NodeId where
  index : Nat
  generation : UInt32
deriving DecidableEq, Inhabited

namespace NodeId

/-- The name that the `index`-th slot gives to its first node. -/
def fresh (index : Nat) : NodeId := ⟨index, 0⟩

/-- The slot and the generation of a name: `7v0`. -/
def key (id : NodeId) : String := toString id.index ++ "v" ++ toString id.generation.toNat

/-- A name as listings show it: `NodeId(7v0)`. -/
def render (id : NodeId) : String := "NodeId(" ++ id.key ++ ")"

end NodeId

/-- What a node is, apart from the nodes below it. -/
structure Label where
  id : NodeId
  kind : Kind
  range : Range
  lines : LineSpan
  revision : Nat := 0
  /-- The text of a leaf. -/
  text? : Option (List Char) := none
deriving Inhabited

namespace Label

/-- A label as listings show it: `TEXT@3..7`. -/
def render (label : Label) : String := label.kind.code ++ "@" ++ label.range.render

/-- A label with its name in front. -/
def renderNamed (label : Label) : String := label.id.render ++ " " ++ label.render

/-- The label of a new leaf that holds `text`.  Only atomic kinds hold text. -/
def ofFragment (index : LineIndex) (id : NodeId) (kind : Kind) (text : Fragment) : Label where
  id
  kind
  range := text.range
  lines := index.span text.range
  text? := if kind.isAtomic then some text.chars else none

/-- The label of a new node over `range`. -/
def ofRange (index : LineIndex) (id : NodeId) (kind : Kind) (range : Range) : Label where
  id
  kind
  range
  lines := index.span range
  text? := if kind.isAtomic then some (Text.slice index.text range) else none

end Label

/-- A syntax tree: a label and the trees below it, from left to right. -/
inductive Node where
  | mk (label : Label) (children : List Node)

namespace Node

instance : Inhabited Node := ⟨⟨default, []⟩⟩

/-- The label of the topmost node. -/
def label : Node → Label
  | ⟨label, _⟩ => label

/-- The nodes right below. -/
def children : Node → List Node
  | ⟨_, children⟩ => children

/-- Induction on nodes: a property that passes from the children to a node holds of
all nodes. -/
@[elab_as_elim, induction_eliminator]
theorem induction {motive : Node → Prop}
    (mk : ∀ label children, (∀ child ∈ children, motive child) → motive ⟨label, children⟩)
    (node : Node) : motive node :=
  match node with
  | ⟨label, children⟩ => mk label children fun child _ => induction mk child

/-- The name of a node. -/
def id (node : Node) : NodeId := node.label.id

/-- The kind of a node. -/
def kind (node : Node) : Kind := node.label.kind

/-- The bytes that a node takes. -/
def range (node : Node) : Range := node.label.range

/-- The text of a leaf. -/
def text? (node : Node) : Option (List Char) := node.label.text?

mutual

/-- The number of nodes of a tree. -/
def size : Node → Nat
  | ⟨_, children⟩ => 1 + sizeAll children

/-- The number of nodes of several trees. -/
def sizeAll : List Node → Nat
  | [] => 0
  | node :: rest => size node + sizeAll rest

end

mutual

/-- A node at `depth` and all nodes below it, each before its children, with their
depths. -/
def descendantsFrom (depth : Nat) : Node → List (Nat × Node)
  | ⟨label, children⟩ => (depth, ⟨label, children⟩) :: forestFrom (depth + 1) children

/-- Several nodes at `depth` and all nodes below them. -/
def forestFrom (depth : Nat) : List Node → List (Nat × Node)
  | [] => []
  | node :: rest => descendantsFrom depth node ++ forestFrom depth rest

end

theorem sizeAll_append (a b : List Node) : sizeAll (a ++ b) = sizeAll a + sizeAll b := by
  induction a with
  | nil => simp [sizeAll]
  | cons node rest ih => simp [sizeAll, ih, Nat.add_assoc]

theorem forestFrom_eq (depth : Nat) (nodes : List Node) :
    forestFrom depth nodes = nodes.flatMap (descendantsFrom depth) := by
  induction nodes with
  | nil => rfl
  | cons node rest ih => simp [forestFrom, ih]

/-- A node and all nodes below it, each before its children. -/
def descendants (node : Node) : List Node := (node.descendantsFrom 0).map (·.2)

/-- The leaves of a tree from left to right. -/
def leaves (node : Node) : List Node := node.descendants.filter (·.kind.isAtomic)

/-- What the leaves of a tree spell. -/
def spelling (node : Node) : List Char :=
  node.leaves.flatMap fun leaf => leaf.text?.getD []

/-- The text of a node: that of a leaf, or what the leaves below spell. -/
def content (node : Node) : List Char := node.text?.getD node.spelling

/-- The children that are neither trivia nor comments. -/
def significantChildren (node : Node) : List Node :=
  node.children.filter (·.kind.isSignificant)

/-- What a traversal does: it enters each node, visits the children, and leaves it. -/
inductive Event where
  | enter (label : Label)
  | leave (label : Label)

mutual

/-- The events of a traversal of a tree. -/
def events : Node → List Event
  | ⟨label, children⟩ => .enter label :: (eventsAll children ++ [.leave label])

/-- The events of a traversal of several trees. -/
def eventsAll : List Node → List Event
  | [] => []
  | node :: rest => events node ++ eventsAll rest

end

end Node

end ConcreteSyntax
