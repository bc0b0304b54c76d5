import ConcreteSyntax.Proofs.Node.Place
import ConcreteSyntax.Proofs.Tree.Arena
import ConcreteSyntax.Proofs.Tree.Representation

/-!
# Forests in arenas

After edits an arena holds several trees: the one at its root, and those that are detached.
Every node is in one of them (`Tree.IsForest`), so that it is read with all that is below it
(`Tree.IsForest.node?_eq`), and trees with different topmost nodes share no node
(`Tree.Holds.eq_of_mem`).
-/

namespace ConcreteSyntax.Tree

/-- Whether an arena holds a node under a parent, and all that is below it. -/
inductive Holds (tree : Tree) : Option NodeId → Node → Prop
  | mk {parent : Option NodeId} {label : Label} {children : List Node} {record : Record}
      (hrecord : tree.record? label.id = some record) (hparent : record.parent = parent)
      (hchildren : record.children = children.map Node.id)
      (hlabel : tree.labelOf label.id record = label)
      (hbelow : ∀ child ∈ children, Holds tree (some label.id) child) :
      Holds tree parent ⟨label, children⟩

variable {tree tree' : Tree} {parent : Option NodeId} {node top : Node} {id : NodeId}

theorem labelOf_congr (hindex : tree'.index = tree.index) (id : NodeId) (record : Record) :
    tree'.labelOf id record = tree.labelOf id record := by
  simp only [labelOf, leafText?, source, hindex]

namespace Holds

theorem record (h : tree.Holds parent node) :
    ∃ record, tree.record? node.id = some record ∧ record.parent = parent
      ∧ record.children = node.children.map Node.id ∧ tree.labelOf node.id record = node.label := by
  cases h with
  | mk hrecord hparent hchildren hlabel hbelow => exact ⟨_, hrecord, hparent, hchildren, hlabel⟩

theorem child (h : tree.Holds parent node) :
    ∀ child ∈ node.children, tree.Holds (some node.id) child := by
  cases h with
  | mk hrecord hparent hchildren hlabel hbelow => exact hbelow

theorem exists_record (h : tree.Holds parent node) (hid : id ∈ node.ids) :
    ∃ record, tree.record? id = some record := by
  induction h with
  | @mk parent label children record hrecord hparent hchildren hlabel hbelow ih =>
      rw [Node.ids_mk, List.mem_cons, List.mem_flatMap] at hid
      rcases hid with rfl | ⟨child, hchild, hid⟩
      · exact ⟨record, hrecord⟩
      · exact ih child hchild hid

theorem contains (h : tree.Holds parent node) (hid : id ∈ node.ids) : tree.contains id = true :=
  Arena.contains_iff.2 (h.exists_record hid)

/-- A change elsewhere does not matter. -/
theorem frame (h : tree.Holds parent node) (hindex : tree'.index = tree.index)
    (hsame : ∀ id ∈ node.ids, tree'.record? id = tree.record? id) : tree'.Holds parent node := by
  induction h with
  | @mk parent label children record hrecord hparent hchildren hlabel hbelow ih =>
      simp only [Node.ids_mk, List.forall_mem_cons, List.mem_flatMap, forall_exists_index,
        and_imp] at hsame
      refine .mk (hsame.1.trans hrecord) hparent hchildren ?_ fun child hchild =>
        ih child hchild fun id hid => hsame.2 id child hchild hid
      rw [labelOf_congr hindex, hlabel]

/-- A node whose own record may change, with nothing else below it changed. -/
theorem relabel {parent' : Option NodeId} {label label' : Label} {children : List Node}
    {record' : Record} (h : tree.Holds parent ⟨label, children⟩)
    (hindex : tree'.index = tree.index) (hid : label'.id = label.id)
    (hrecord : tree'.record? label.id = some record') (hparent : record'.parent = parent')
    (hchildren : record'.children = children.map Node.id)
    (hlabel : tree.labelOf label.id record' = label')
    (hsame : ∀ id ∈ children.flatMap Node.ids, tree'.record? id = tree.record? id) :
    tree'.Holds parent' ⟨label', children⟩ := by
  refine .mk (hid ▸ hrecord) hparent hchildren ?_ fun child hchild => ?_
  · rw [labelOf_congr hindex, hid, hlabel]
  · rw [hid]
    exact (h.child child hchild).frame hindex fun id hid =>
      hsame id (List.mem_flatMap.2 ⟨child, hchild, hid⟩)

/-- A tree that gets another parent. -/
theorem reparent {parent' : Option NodeId} (h : tree.Holds parent node)
    (hindex : tree'.index = tree.index) (hnodup : node.ids.Nodup)
    (hrecord : tree'.record? node.id =
      (tree.record? node.id).map fun record => { record with parent := parent' })
    (hsame : ∀ id ∈ node.ids, id ≠ node.id → tree'.record? id = tree.record? id) :
    tree'.Holds parent' node := by
  obtain ⟨record, hfound, _, hchildren, hlabel⟩ := h.record
  obtain ⟨label, children⟩ := node
  rw [Node.ids_mk, List.nodup_cons] at hnodup
  rw [hfound] at hrecord
  refine h.relabel hindex rfl hrecord rfl hchildren hlabel fun id hid => ?_
  refine hsame id (by rw [Node.ids_mk]; exact List.mem_cons_of_mem _ hid) ?_
  rintro rfl
  exact hnodup.1 hid

/-- Reading a node gives the node. -/
theorem nodeWithin_eq (h : tree.Holds parent node) {fuel : Nat} (hfuel : node.size ≤ fuel) :
    tree.nodeWithin fuel node.id = some node := by
  induction h generalizing fuel with
  | @mk parent label children record hrecord hparent hchildren hlabel hbelow ih =>
      cases fuel with
      | zero => simp [Node.size] at hfuel
      | succ fuel =>
          have hread : (children.map Node.id).filterMap (tree.nodeWithin fuel) = children :=
            filterMap_map_id fun child hchild => ih child hchild (by
              have := Node.size_le_sizeAll hchild
              simp only [Node.size] at hfuel
              omega)
          simp only [nodeWithin, Node.id, Node.label, hrecord, hchildren, hread, hlabel]

theorem unique {parent' : Option NodeId} {node' : Node} (h : tree.Holds parent node)
    (h' : tree.Holds parent' node') (hid : node.id = node'.id) : node = node' := by
  have hread := h.nodeWithin_eq (Nat.le_max_left node.size node'.size)
  have hread' := h'.nodeWithin_eq (Nat.le_max_right node.size node'.size)
  rw [hid] at hread
  exact Option.some.inj (hread.symm.trans hread')

end Holds

/-! ## Around a place -/

/-- The parent of what is at a place. -/
def above (parent : Option NodeId) : List Crumb → Option NodeId
  | [] => parent
  | crumb :: _ => some crumb.label.id

/-- Whether an arena holds the nodes around a place, where a name stands. -/
def Surrounds (tree : Tree) (parent : Option NodeId) : List Crumb → NodeId → Prop
  | [], _ => True
  | crumb :: outer, id =>
      (∃ record, tree.record? crumb.label.id = some record
        ∧ record.parent = above parent outer
        ∧ record.children = crumb.before.map Node.id ++ (id :: crumb.after.map Node.id)
        ∧ tree.labelOf crumb.label.id record = crumb.label)
      ∧ (∀ sibling ∈ crumb.siblings, tree.Holds (some crumb.label.id) sibling)
      ∧ tree.Surrounds parent outer crumb.label.id

theorem holds_plug {crumbs : List Crumb} :
    tree.Holds parent (.plug crumbs node) ↔
      tree.Surrounds parent crumbs node.id ∧ tree.Holds (above parent crumbs) node := by
  induction crumbs generalizing node with
  | nil => simp [Node.plug, Surrounds, above]
  | cons crumb outer ih =>
      rw [Node.plug, ih]
      constructor
      · rintro ⟨hsurrounds, hholds⟩
        obtain ⟨record, hrecord, hparent, hchildren, hlabel⟩ := hholds.record
        have hbelow := hholds.child
        refine ⟨⟨⟨record, hrecord, hparent, ?_, hlabel⟩, fun sibling hsibling => ?_, hsurrounds⟩, ?_⟩
        · simpa [Node.children] using hchildren
        · refine hbelow sibling ?_
          rcases List.mem_append.1 hsibling with h | h <;> simp [Node.children, h]
        · exact hbelow node (by simp [Node.children])
      · rintro ⟨⟨⟨record, hrecord, hparent, hchildren, hlabel⟩, hsiblings, hsurrounds⟩, hholds⟩
        refine ⟨hsurrounds, .mk hrecord hparent (by simpa using hchildren) hlabel ?_⟩
        intro child hchild
        rcases List.mem_append.1 hchild with hchild | hchild
        · exact hsiblings child (List.mem_append_left _ hchild)
        · rcases List.mem_cons.1 hchild with rfl | hchild
          · exact hholds
          · exact hsiblings child (List.mem_append_right _ hchild)

theorem Holds.exists_above (h : tree.Holds parent top) (hnode : node ∈ top.descendants) :
    ∃ above, tree.Holds above node := by
  obtain ⟨crumbs, rfl⟩ := Node.exists_plug hnode
  exact ⟨_, (holds_plug.1 h).2⟩

/-- A name in a tree is that of its topmost node, or its parent is in the tree too. -/
theorem Holds.parent_of_mem (h : tree.Holds parent top) (hid : id ∈ top.ids) {record : Record}
    (hrecord : tree.record? id = some record) :
    id = top.id ∧ record.parent = parent ∨ ∃ above ∈ top.ids, record.parent = some above := by
  obtain ⟨crumbs, node, rfl, rfl⟩ := Node.exists_plug_of_mem_ids hid
  obtain ⟨found, hfound, hparent, _⟩ := (holds_plug.1 h).2.record
  have hsame : found = record := Option.some.inj (hfound.symm.trans hrecord)
  cases crumbs with
  | nil => exact .inl ⟨rfl, by rw [← hsame, hparent]; rfl⟩
  | cons crumb outer =>
      refine .inr ⟨crumb.label.id, Node.names_subset_ids_plug _ _ (by simp [Crumb.names]), ?_⟩
      rw [← hsame, hparent]
      rfl

/-- What has no parent is on top of its tree. -/
theorem Holds.id_eq_of_parent_eq_none (h : tree.Holds parent top) (hid : id ∈ top.ids)
    {record : Record} (hrecord : tree.record? id = some record) (hnone : record.parent = none) :
    id = top.id := by
  rcases h.parent_of_mem hid hrecord with ⟨hid, _⟩ | ⟨above, _, habove⟩
  · exact hid
  · rw [hnone] at habove
    cases habove

/-- Trees that share a node are the same. -/
theorem Holds.eq_of_mem {other : Node} (h : tree.Holds none top) (h' : tree.Holds none other)
    (hid : id ∈ top.ids) (hid' : id ∈ other.ids) : top = other := by
  -- The parents of the shared node are in both trees, up to the topmost ones.
  have hclimb : ∀ crumbs node, tree.Holds none (.plug crumbs node) → node.id ∈ other.ids →
      (Node.plug crumbs node).id ∈ other.ids := by
    intro crumbs
    induction crumbs with
    | nil => exact fun node _ hmem => hmem
    | cons crumb outer ih =>
        intro node hholds hmem
        obtain ⟨record, hrecord, hparent, _⟩ := (holds_plug.1 hholds).2.record
        refine ih _ hholds ?_
        rcases h'.parent_of_mem hmem hrecord with ⟨_, hnone⟩ | ⟨above, habove, hsome⟩
        · rw [hparent] at hnone
          cases hnone
        · have hsame : some crumb.label.id = some above := hparent.symm.trans hsome
          obtain rfl := Option.some.inj hsame
          exact habove
  obtain ⟨crumbs, node, rfl, rfl⟩ := Node.exists_plug_of_mem_ids hid
  obtain ⟨record, hrecord, hnone, _⟩ := h.record
  have hmem := hclimb crumbs node h hid'
  exact h.unique h' (h'.id_eq_of_parent_eq_none hmem hrecord hnone)

theorem contains_of_node? (hnode : tree.node? id = some node) : tree.contains id = true := by
  unfold node? nodeWithin at hnode
  cases hrecord : tree.record? id with
  | none => simp [hrecord] at hnode
  | some record => exact Arena.contains_of_get? hrecord

/-! ## Forests -/

/-- Whether all nodes of an arena are in trees, one of which is at the root, and leaves have
no children. -/
structure IsForest (tree : Tree) : Prop where
  kept : tree.nodes.IsKept
  root : ∃ node, node.id = tree.root ∧ node.kind = .root ∧ tree.Holds none node
  top : ∀ id, tree.contains id = true →
    ∃ node, tree.Holds none node ∧ node.ids.Nodup ∧ id ∈ node.ids
  leaf : ∀ id record, tree.record? id = some record → record.kind.isAtomic = true →
    record.children = []

namespace IsForest

/-- Every node is at a place in a tree. -/
theorem exists_place (h : tree.IsForest) (hid : tree.contains id = true) :
    ∃ crumbs node, node.id = id ∧ tree.Holds none (.plug crumbs node)
      ∧ (Node.plug crumbs node).ids.Nodup := by
  obtain ⟨top, hholds, hnodup, hmem⟩ := h.top id hid
  obtain ⟨crumbs, node, rfl, rfl⟩ := Node.exists_plug_of_mem_ids hmem
  exact ⟨crumbs, node, rfl, hholds, hnodup⟩

/-- What has no parent is on top of a tree. -/
theorem exists_top (h : tree.IsForest) {record : Record} (hrecord : tree.record? id = some record)
    (hnone : record.parent = none) : ∃ top, top.id = id ∧ tree.Holds none top := by
  obtain ⟨top, hholds, _, hmem⟩ := h.top id (Arena.contains_of_get? hrecord)
  exact ⟨top, (hholds.id_eq_of_parent_eq_none hmem hrecord hnone).symm, hholds⟩

theorem nodup (h : tree.IsForest) (hholds : tree.Holds none top) : top.ids.Nodup := by
  obtain ⟨other, hother, hnodup, hmem⟩ := h.top top.id (hholds.contains top.id_mem_ids)
  rwa [hholds.eq_of_mem hother top.id_mem_ids hmem]

theorem size_le (h : tree.IsForest) (hholds : tree.Holds none top) : top.size ≤ tree.size := by
  rw [← Node.length_ids]
  exact h.kept.length_le_size (h.nodup hholds) fun id hid => hholds.contains hid

theorem size_plug_le (crumbs : List Crumb) (node : Node) :
    node.size + crumbs.length ≤ (Node.plug crumbs node).size := by
  rw [← Node.length_ids, ← Node.length_ids, (Node.ids_plug crumbs node).length_eq,
    List.length_append]
  have hcount : crumbs.length ≤ (crumbs.flatMap Crumb.ids).length := by
    induction crumbs with
    | nil => simp
    | cons crumb outer ih =>
        simp only [List.flatMap_cons, List.length_cons, List.length_append, Crumb.ids]
        omega
  omega

/-- Reading a node of a tree gives all that is below it. -/
theorem node?_eq (h : tree.IsForest) {crumbs : List Crumb}
    (hholds : tree.Holds none (.plug crumbs node)) : tree.node? node.id = some node := by
  have hsize := h.size_le hholds
  have hle := size_plug_le crumbs node
  exact (holds_plug.1 hholds).2.nodeWithin_eq (by omega)

theorem node?_eq_top (h : tree.IsForest) (hholds : tree.Holds none top) :
    tree.node? top.id = some top :=
  h.node?_eq (show tree.Holds none (.plug [] top) from hholds)

theorem node?_eq_of_mem (h : tree.IsForest) (hholds : tree.Holds none top)
    (hnode : node ∈ top.descendants) : tree.node? node.id = some node := by
  obtain ⟨crumbs, rfl⟩ := Node.exists_plug hnode
  exact h.node?_eq hholds

theorem node?_eq_of_holds (h : tree.IsForest) (hholds : tree.Holds parent node) :
    tree.node? node.id = some node := by
  obtain ⟨crumbs, found, hid, hplace, _⟩ := h.exists_place (hholds.contains node.id_mem_ids)
  rw [← (holds_plug.1 hplace).2.unique hholds hid]
  exact h.node?_eq hplace

/-- Leaves have no children. -/
theorem children_eq_nil (h : tree.IsForest) (hholds : tree.Holds parent node)
    (hatomic : node.kind.isAtomic = true) : node.children = [] := by
  obtain ⟨record, hrecord, _, hchildren, hlabel⟩ := hholds.record
  have hkind : node.kind = record.kind := by rw [Node.kind, ← hlabel]; rfl
  rw [h.leaf _ _ hrecord (hkind ▸ hatomic)] at hchildren
  exact List.map_eq_nil_iff.1 hchildren.symm

/-- The nodes around a place are containers. -/
theorem isAtomic_of_surrounds (h : tree.IsForest) {crumbs : List Crumb}
    (hsurrounds : tree.Surrounds parent crumbs id) :
    ∀ crumb ∈ crumbs, crumb.label.kind.isAtomic = false := by
  induction crumbs generalizing id with
  | nil => simp
  | cons crumb outer ih =>
      obtain ⟨⟨record, hrecord, _, hchildren, hlabel⟩, _, houter⟩ := hsurrounds
      rw [List.forall_mem_cons]
      refine ⟨?_, ih houter⟩
      have hkind : crumb.label.kind = record.kind := by rw [← hlabel]; rfl
      cases hatomic : crumb.label.kind.isAtomic with
      | false => rfl
      | true =>
          have hnil := h.leaf _ _ hrecord (hkind ▸ hatomic)
          simp [hchildren] at hnil

end IsForest

end ConcreteSyntax.Tree
