import ConcreteSyntax.Proofs.Tree.Representation

/-!
# Well-formed trees

In a well-formed tree the links of parents and children agree, every node is reached from the
root by one path, and the children of a container take its range side by side.  An arena that
represents a tree in which all nodes fit their text is well-formed, and spells its text.
-/

namespace ConcreteSyntax

namespace Node

/-- Nodes with names of their own have children with names of their own. -/
theorem nodup_children {node : Node} (h : node.ids.Nodup) :
    (node.children.map Node.id).Nodup := by
  obtain ⟨label, children⟩ := node
  rw [ids_mk, List.nodup_cons] at h
  exact h.2.sublist (map_id_sublist children)

end Node

namespace Tree

/-- Children that stand side by side from `start` to `stop`. -/
def Tiles (tree : Tree) (start : Nat) : List NodeId → Nat → Prop
  | [], stop => start = stop
  | id :: rest, stop =>
      ∃ record, tree.record? id = some record ∧ record.range.start = start
        ∧ tree.Tiles record.range.stop rest stop

/-- Whether the nodes of an arena make one tree: the links of parents and children agree, and
each node is reached from the root once. -/
structure Linked (tree : Tree) : Prop where
  root : ∃ record, tree.record? tree.root = some record ∧ record.parent = none
  child : ∀ id record, tree.record? id = some record →
    ∀ child ∈ record.children, tree.parent? child = some id
  nodup : ∀ id record, tree.record? id = some record → record.children.Nodup
  reached : ∀ id, tree.contains id = true → id ∈ tree.rootNode.ids
  once : tree.rootNode.ids.Nodup

/-- Whether the nodes of an arena make one tree, in which the children of each container take
its range side by side and leaves have no children. -/
structure WellFormed (tree : Tree) : Prop extends tree.Linked where
  tiled : ∀ id record, tree.record? id = some record → record.kind.isAtomic = false →
    tree.Tiles record.range.start record.children record.range.stop
  leaf : ∀ id record, tree.record? id = some record → record.kind.isAtomic = true →
    record.children = []

/-- Whether a tree spells a text, and its root takes all of it. -/
structure Spells (tree : Tree) (text : List Char) : Prop where
  source : tree.source = text
  spelling : tree.text = text
  root : ∃ record, tree.record? tree.root = some record ∧ record.kind = .root
    ∧ record.range = .ofLength 0 (Text.byteLength text)

variable {tree : Tree} {parent : Option NodeId} {node : Node} {parse : Parse} {sound : Prop}

/-- An arena that shows a tree shows all that is below it. -/
theorem Shows.below (h : tree.Shows parent node) {below : Node} (hbelow : below ∈ node.descendants) :
    ∃ above, tree.Shows above below := by
  induction node generalizing parent with
  | mk label children ih =>
      rw [Node.descendants_mk, List.mem_cons, List.mem_flatMap] at hbelow
      rcases hbelow with rfl | ⟨child, hchild, hbelow⟩
      · exact ⟨parent, h⟩
      · exact ih child hchild ((shows_mk.1 h).2 child hchild) hbelow

theorem Shows.parent?_child (h : tree.Shows parent node) {child : Node}
    (hchild : child ∈ node.children) : tree.parent? child.id = some node.id := by
  obtain ⟨label, children⟩ := node
  rw [parent?, ((shows_mk.1 h).2 child hchild).record?_eq]
  rfl

theorem Shows.tiles {nodes : List Node} (h : ∀ node ∈ nodes, tree.Shows parent node)
    {start stop : Nat} (habut : Abut start nodes stop) :
    tree.Tiles start (nodes.map Node.id) stop := by
  induction nodes generalizing start with
  | nil => exact habut
  | cons node rest ih =>
      rw [List.forall_mem_cons] at h
      exact ⟨_, h.1.record?_eq, habut.1, ih h.2 habut.2⟩

/-- A name that leads somewhere in an arena is that of a node of the tree it represents. -/
theorem Represents.exists_node (h : tree.Represents parse)
    (hnumbered : parse.root.Numbered parse.next) {id : NodeId} {record : Record}
    (hrecord : tree.record? id = some record) :
    ∃ node ∈ parse.root.descendants, node.id = id ∧
      ∃ parent, tree.Shows parent node
        ∧ record = recordOf parent node.label (node.children.map Node.id) := by
  obtain ⟨index, rfl, _⟩ := h.compact.record?_eq_some.1 hrecord
  have hid := hnumbered.mem_iff.2 ⟨index, h.compact.record?_lt hrecord, rfl⟩
  obtain ⟨node, hnode, hname⟩ := List.mem_map.1 hid
  obtain ⟨parent, hshows⟩ := h.shows.below hnode
  rw [← hname] at hrecord ⊢
  exact ⟨node, hnode, rfl, parent, hshows, Option.some.inj (hrecord.symm.trans hshows.record?_eq)⟩

/-- An arena that represents a tree is linked. -/
theorem Represents.linked (h : tree.Represents parse)
    (hnumbered : parse.root.Numbered parse.next)
    (hfits : parse.root.All (Node.Fits parse.lines sound)) : tree.Linked := by
  have hroot := h.rootNode_eq hnumbered hfits
  constructor
  case root => exact ⟨_, h.root ▸ h.shows.record?_eq, rfl⟩
  case child =>
      intro id record hrecord child hchild
      obtain ⟨node, _, rfl, parent, hshows, rfl⟩ := h.exists_node hnumbered hrecord
      obtain ⟨below, hbelow, rfl⟩ := List.mem_map.1 hchild
      exact hshows.parent?_child hbelow
  case nodup =>
      intro id record hrecord
      obtain ⟨node, hnode, rfl, parent, _, rfl⟩ := h.exists_node hnumbered hrecord
      exact Node.nodup_children (hnumbered.nodup.sublist (Node.ids_sublist hnode))
  case reached =>
      intro id hid
      obtain ⟨record, hrecord⟩ := Option.isSome_iff_exists.1 hid
      obtain ⟨node, hnode, rfl, _⟩ := h.exists_node hnumbered hrecord
      rw [hroot]
      exact List.mem_map_of_mem hnode
  case once => exact hroot ▸ hnumbered.nodup

/-- An arena that represents a tree in which all nodes fit is well-formed. -/
theorem Represents.wellFormed (h : tree.Represents parse)
    (hnumbered : parse.root.Numbered parse.next)
    (hfits : parse.root.All (Node.Fits parse.lines sound)) (hsound : sound) :
    tree.WellFormed where
  toLinked := h.linked hnumbered hfits
  tiled := by
    intro id record hrecord hkind
    obtain ⟨node, hnode, rfl, parent, hshows, rfl⟩ := h.exists_node hnumbered hrecord
    obtain ⟨label, children⟩ := node
    exact Shows.tiles (shows_mk.1 hshows).2 ((hfits _ hnode).abut hsound hkind)
  leaf := by
    intro id record hrecord hkind
    obtain ⟨node, hnode, rfl, parent, _, rfl⟩ := h.exists_node hnumbered hrecord
    change node.children.map Node.id = []
    rw [(hfits _ hnode).leaf hsound hkind, List.map_nil]

/-- An arena that represents a tree over a whole text spells the text. -/
theorem Represents.spells (h : tree.Represents parse)
    (hnumbered : parse.root.Numbered parse.next)
    (hfits : parse.root.All (Node.Fits parse.lines sound)) (hsound : sound)
    (hkind : parse.root.kind = .root)
    (hrange : parse.root.range = .ofLength 0 (Text.byteLength parse.lines.text)) :
    tree.Spells parse.lines.text where
  spelling := by
    rw [Tree.text, h.rootNode_eq hnumbered hfits, Node.spelling_eq_slice hsound hfits, hrange,
      Text.slice_whole]
  source := by rw [source, h.index]
  root := ⟨_, h.root ▸ h.shows.record?_eq, hkind, hrange⟩

end Tree

end ConcreteSyntax
