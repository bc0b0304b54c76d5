import Mathlib.Data.List.Nodup
import ConcreteSyntax.Proofs.Analysis.Growth
import ConcreteSyntax.Tree.Basic

/-!
# Trees in arenas

The arena of a parsed text holds a record for every node, under the name of the node
(`Tree.Represents`).  An arena without gaps that holds these records is the one that
`Tree.ofParse` makes, and reading it from the root gives the tree as a value back.
-/

namespace ConcreteSyntax

namespace Node

theorem size_le_sizeAll {node : Node} {nodes : List Node} (h : node ∈ nodes) :
    node.size ≤ sizeAll nodes := by
  induction nodes with
  | nil => simp at h
  | cons head rest ih =>
      simp only [sizeAll]
      rcases List.mem_cons.1 h with rfl | h
      · omega
      · have := ih h
        omega

theorem length_ids (node : Node) : node.ids.length = node.size := by
  induction node with
  | mk label children ih =>
      have hchildren : (children.flatMap ids).length = sizeAll children := by
        induction children with
        | nil => rfl
        | cons child rest ihRest =>
            have hchild := ih child (by simp)
            have hrest := ihRest fun other hother => ih other (by simp [hother])
            rw [List.flatMap_cons, List.length_append, hchild, hrest, sizeAll]
      rw [ids_mk, List.length_cons, hchildren, size, Nat.add_comm]

/-- The names of a numbered tree are there exactly once, and are the first ones. -/
theorem Numbered.nodup {node : Node} {next : Nat} (h : node.Numbered next) : node.ids.Nodup := by
  refine h.nodup_iff.2 ?_
  refine List.Nodup.map (fun a b hab => ?_) List.nodup_range
  simpa [NodeId.fresh] using hab

theorem Numbered.mem_iff {node : Node} {next : Nat} (h : node.Numbered next) {id : NodeId} :
    id ∈ node.ids ↔ ∃ index < next, id = .fresh index := by
  rw [List.Perm.mem_iff h]
  simp [eq_comm]

theorem Numbered.size_eq {node : Node} {next : Nat} (h : node.Numbered next) :
    node.size = next := by
  rw [← length_ids, h.length_eq]
  simp

end Node

namespace Tree

/-- The record of a node under a parent, over children with some names. -/
def recordOf (parent : Option NodeId) (label : Label) (children : List NodeId) : Record where
  kind := label.kind
  range := label.range
  lines := label.lines
  parent
  children
  revision := label.revision

theorem recordsOfAll_eq (parent : Option NodeId) (nodes : List Node) :
    recordsOfAll parent nodes = nodes.flatMap (recordsOf parent) := by
  induction nodes with
  | nil => rfl
  | cons node rest ih => simp [recordsOfAll, ih]

theorem recordsOf_mk (parent : Option NodeId) (label : Label) (children : List Node) :
    recordsOf parent ⟨label, children⟩ =
      (label.id, recordOf parent label (children.map Node.id)) ::
        children.flatMap (recordsOf (some label.id)) := by
  rw [recordsOf, recordsOfAll_eq]
  rfl

theorem map_fst_recordsOf (parent : Option NodeId) (node : Node) :
    (recordsOf parent node).map (·.1) = node.ids := by
  induction node generalizing parent with
  | mk label children ih =>
      rw [recordsOf_mk, List.map_cons, List.map_flatMap, Node.ids_mk]
      congr 1
      exact List.flatMap_congr fun child hchild => ih child hchild _

/-! ## Showing a tree -/

/-- Whether an arena holds the records of a node under a parent, and of all below it. -/
def Shows (tree : Tree) (parent : Option NodeId) (node : Node) : Prop :=
  ∀ id record, (id, record) ∈ recordsOf parent node → tree.record? id = some record

variable {tree : Tree} {parent : Option NodeId} {node : Node}

theorem shows_mk {label : Label} {children : List Node} :
    tree.Shows parent ⟨label, children⟩ ↔
      tree.record? label.id = some (recordOf parent label (children.map Node.id))
        ∧ ∀ child ∈ children, tree.Shows (some label.id) child := by
  unfold Shows
  simp only [recordsOf_mk, List.mem_cons, Prod.mk.injEq, List.mem_flatMap]
  constructor
  · intro h
    exact ⟨h _ _ (.inl ⟨rfl, rfl⟩), fun child hchild id record hrecord =>
      h id record (.inr ⟨child, hchild, hrecord⟩)⟩
  · rintro ⟨hself, hchildren⟩ id record (⟨rfl, rfl⟩ | ⟨child, hchild, hrecord⟩)
    · exact hself
    · exact hchildren child hchild id record hrecord

theorem Shows.record?_eq (h : tree.Shows parent node) :
    tree.record? node.id = some (recordOf parent node.label (node.children.map Node.id)) := by
  cases node
  exact (shows_mk.1 h).1

theorem Shows.parent_eq {parent' : Option NodeId} (h : tree.Shows parent node)
    (h' : tree.Shows parent' node) : parent = parent' :=
  congrArg Record.parent (Option.some.inj (h.record?_eq.symm.trans h'.record?_eq))

/-- Every name in a tree that an arena shows leads to a record. -/
theorem Shows.exists_record (h : tree.Shows parent node) {id : NodeId} (hid : id ∈ node.ids) :
    ∃ record, tree.record? id = some record := by
  rw [← map_fst_recordsOf parent] at hid
  obtain ⟨⟨_, record⟩, hmem, rfl⟩ := List.mem_map.1 hid
  exact ⟨record, h _ _ hmem⟩

/-- A change elsewhere does not matter to a tree. -/
theorem Shows.frame {tree' : Tree} (h : tree.Shows parent node)
    (hsame : ∀ id ∈ node.ids, tree'.record? id = tree.record? id) :
    tree'.Shows parent node := by
  intro id record hrecord
  have hid : id ∈ node.ids := by
    rw [← map_fst_recordsOf parent]
    exact List.mem_map.2 ⟨_, hrecord, rfl⟩
  rw [hsame id hid]
  exact h id record hrecord

theorem filterMap_map_id {nodes : List Node} {find : NodeId → Option Node}
    (h : ∀ node ∈ nodes, find node.id = some node) : (nodes.map Node.id).filterMap find = nodes := by
  induction nodes with
  | nil => rfl
  | cons node rest ih =>
      rw [List.forall_mem_cons] at h
      rw [List.map_cons, List.filterMap_cons, h.1, ih h.2]

theorem labelOf_recordOf (tree : Tree) (parent : Option NodeId) {label : Label}
    (children : List NodeId)
    (htext : label.text? =
      if label.kind.isAtomic then some (Text.slice tree.index.text label.range) else none) :
    tree.labelOf label.id (recordOf parent label children) = label := by
  cases label
  exact congrArg (Label.mk _ _ _ _ _) htext.symm

/-- Reading a tree that an arena shows gives the tree back, its leaves with the text that
they have in the source. -/
theorem Shows.nodeWithin_eq (h : tree.Shows parent node) {sound : Prop}
    (hfits : node.All (Node.Fits tree.index sound)) {fuel : Nat} (hfuel : node.size ≤ fuel) :
    tree.nodeWithin fuel node.id = some node := by
  induction node generalizing parent fuel with
  | mk label children ih =>
      obtain ⟨hrecord, hchildren⟩ := shows_mk.1 h
      obtain ⟨hself, hbelow⟩ := Node.all_mk.1 hfits
      cases fuel with
      | zero => simp [Node.size] at hfuel
      | succ fuel =>
          have hlabel : tree.labelOf label.id (recordOf parent label (children.map Node.id)) =
              label := labelOf_recordOf tree parent _ hself.text_eq
          have hread : ((children.map Node.id).filterMap (tree.nodeWithin fuel)) = children :=
            filterMap_map_id fun child hchild =>
              ih child hchild (hchildren child hchild) (hbelow child hchild) (by
                have := Node.size_le_sizeAll hchild
                simp only [Node.size] at hfuel
                omega)
          simp only [nodeWithin, Node.id, Node.label, hrecord]
          rw [hlabel]
          exact congrArg (fun below => some (Node.mk label below)) hread

/-! ## Arenas without gaps -/

/-- An arena of `next` slots that never lost a node: all slots hold their first one. -/
structure Compact (tree : Tree) (next : Nat) : Prop where
  free : tree.nodes.free = []
  size : tree.nodes.size = next
  length : tree.nodes.slots.size = next
  slot : ∀ index < next, ∃ record, tree.nodes.slots[index]? = some ⟨0, some record⟩

variable {next : Nat}

/-- In an arena without gaps, a name leads to what the slot of its index holds. -/
theorem Compact.record?_eq_some (h : tree.Compact next) {id : NodeId} {record : Record} :
    tree.record? id = some record ↔
      ∃ index, id = .fresh index ∧ tree.nodes.slots[index]? = some ⟨0, some record⟩ := by
  constructor
  · intro hrecord
    have hlt : id.index < next := h.length ▸ Arena.index_lt_of_get? hrecord
    obtain ⟨found, hslot⟩ := h.slot id.index hlt
    simp only [record?, Arena.get?, hslot, Option.ite_none_right_eq_some] at hrecord
    obtain ⟨hgeneration, hvalue⟩ := hrecord
    obtain ⟨index, generation⟩ := id
    exact ⟨index, congrArg (NodeId.mk index) hgeneration.symm, hvalue ▸ hslot⟩
  · rintro ⟨index, rfl, hslot⟩
    simp [record?, Arena.get?, NodeId.fresh, hslot]

theorem Compact.record?_lt (h : tree.Compact next) {id : NodeId} {record : Record}
    (hrecord : tree.record? id = some record) : id.index < next :=
  h.length ▸ Arena.index_lt_of_get? hrecord

theorem Compact.record?_next (h : tree.Compact next) : tree.record? (.fresh next) = none := by
  cases hrecord : tree.record? (.fresh next) with
  | none => rfl
  | some record => exact absurd (h.record?_lt hrecord) (Nat.lt_irrefl next)

/-- What is there has another name than the next new node. -/
theorem Compact.ne_fresh (h : tree.Compact next) {id : NodeId} {record : Record}
    (hrecord : tree.record? id = some record) : id ≠ .fresh next := by
  rintro rfl
  rw [h.record?_next] at hrecord
  cases hrecord

theorem Compact.slot_eq {index : Nat} {record : Record} (h : tree.Compact next)
    (hrecord : tree.record? (.fresh index) = some record) :
    tree.nodes.slots[index]? = some ⟨0, some record⟩ := by
  obtain ⟨other, hname, hslot⟩ := h.record?_eq_some.1 hrecord
  have hindex : index = other := congrArg NodeId.index hname
  exact hindex ▸ hslot

/-- An arena that holds a parsed text, and nothing else. -/
structure Represents (tree : Tree) (parse : Parse) : Prop where
  index : tree.index = parse.lines
  root : tree.root = parse.root.id
  compact : tree.Compact parse.next
  shows : tree.Shows none parse.root

/-- Only one arena represents a parsed text. -/
theorem Represents.unique {parse : Parse} {tree' : Tree} (h : tree.Represents parse)
    (h' : tree'.Represents parse) (hnumbered : parse.root.Numbered parse.next) : tree = tree' := by
  have hslots : tree.nodes.slots = tree'.nodes.slots := by
    refine Array.ext_getElem? fun index => ?_
    by_cases hlt : index < parse.next
    · have hid : NodeId.fresh index ∈ parse.root.ids := hnumbered.mem_iff.2 ⟨index, hlt, rfl⟩
      rw [← map_fst_recordsOf none] at hid
      obtain ⟨⟨_, record⟩, hmem, hname⟩ := List.mem_map.1 hid
      simp only at hname
      subst hname
      rw [h.compact.slot_eq (h.shows _ _ hmem), h'.compact.slot_eq (h'.shows _ _ hmem)]
    · rw [Array.getElem?_eq_none (by rw [h.compact.length]; omega),
        Array.getElem?_eq_none (by rw [h'.compact.length]; omega)]
  obtain ⟨index, ⟨slots, free, size⟩, root⟩ := tree
  obtain ⟨index', ⟨slots', free', size'⟩, root'⟩ := tree'
  have hindex : index = index' := h.index.trans h'.index.symm
  have hroot : root = root' := h.root.trans h'.root.symm
  have hfree : free = free' := h.compact.free.trans h'.compact.free.symm
  have hsize : size = size' := h.compact.size.trans h'.compact.size.symm
  simp only at hslots
  subst hindex hroot hfree hsize hslots
  rfl

theorem size_fill (slots : Array (Slot Record)) (records : List (NodeId × Record)) :
    (fill slots records).size = slots.size := by
  induction records generalizing slots with
  | nil => rfl
  | cons head rest ih =>
      obtain ⟨id, record⟩ := head
      rw [fill, List.foldl_cons]
      exact (ih _).trans (Array.size_setIfInBounds)

theorem getElem?_fill_of_notMem {slots : Array (Slot Record)}
    {records : List (NodeId × Record)} {index : Nat}
    (h : ∀ id record, (id, record) ∈ records → id.index ≠ index) :
    (fill slots records)[index]? = slots[index]? := by
  induction records generalizing slots with
  | nil => rfl
  | cons head rest ih =>
      obtain ⟨id, record⟩ := head
      rw [fill, List.foldl_cons]
      refine (ih fun other record hmem => h other record (by simp [hmem])).trans ?_
      exact Array.getElem?_setIfInBounds_ne (h id record (by simp))

/-- Records with names of their own all find their place. -/
theorem getElem?_fill {slots : Array (Slot Record)} {records : List (NodeId × Record)}
    (hnodup : (records.map (·.1.index)).Nodup) {id : NodeId} {record : Record}
    (hmem : (id, record) ∈ records) (hlt : id.index < slots.size) :
    (fill slots records)[id.index]? = some ⟨id.generation, some record⟩ := by
  induction records generalizing slots with
  | nil => simp at hmem
  | cons head rest ih =>
      obtain ⟨first, value⟩ := head
      rw [List.map_cons, List.nodup_cons] at hnodup
      rw [fill, List.foldl_cons]
      rcases List.mem_cons.1 hmem with heq | hmem
      · simp only [Prod.mk.injEq] at heq
        obtain ⟨rfl, rfl⟩ := heq
        refine (getElem?_fill_of_notMem fun other found hother hsame => ?_).trans
          (Array.getElem?_setIfInBounds_self_of_lt hlt)
        exact hnodup.1 (List.mem_map.2 ⟨(other, found), hother, hsame⟩)
      · exact ih hnodup.2 hmem (by rwa [Array.size_setIfInBounds])

/-- The tree of a parsed text represents it. -/
theorem represents_ofParse {parse : Parse} (hnumbered : parse.root.Numbered parse.next) :
    (ofParse parse).Represents parse := by
  have hnames : (recordsOf none parse.root).map (·.1) = parse.root.ids := map_fst_recordsOf _ _
  have hnodup : ((recordsOf none parse.root).map (·.1.index)).Nodup := by
    have hperm := hnumbered.map NodeId.index
    rw [← hnames, List.map_map, List.map_map] at hperm
    refine hperm.nodup_iff.2 ?_
    exact List.Nodup.map (fun a b hab => hab) List.nodup_range
  have hfound : ∀ id record, (id, record) ∈ recordsOf none parse.root →
      ∃ index < parse.next, id = .fresh index
        ∧ (ofParse parse).nodes.slots[index]? = some ⟨0, some record⟩ := by
    intro id record hmem
    have hid : id ∈ parse.root.ids := hnames ▸ List.mem_map.2 ⟨_, hmem, rfl⟩
    obtain ⟨index, hlt, rfl⟩ := hnumbered.mem_iff.1 hid
    exact ⟨index, hlt, rfl, getElem?_fill hnodup hmem (by simpa [NodeId.fresh] using hlt)⟩
  refine ⟨rfl, rfl, ⟨rfl, rfl, ?_, fun index hlt => ?_⟩, fun id record hmem => ?_⟩
  · exact (size_fill _ _).trans Array.size_replicate
  · have hid : NodeId.fresh index ∈ parse.root.ids := hnumbered.mem_iff.2 ⟨index, hlt, rfl⟩
    rw [← hnames] at hid
    obtain ⟨⟨id, record⟩, hmem, hname⟩ := List.mem_map.1 hid
    obtain ⟨index', _, hindex, hslot⟩ := hfound id record hmem
    have hsame : index' = index := congrArg NodeId.index (hindex.symm.trans hname)
    exact ⟨record, hsame ▸ hslot⟩
  · obtain ⟨index, _, rfl, hslot⟩ := hfound id record hmem
    simp [record?, Arena.get?, NodeId.fresh, hslot]

/-- An arena that represents a parsed text is the one made of it. -/
theorem Represents.eq_ofParse {parse : Parse} (h : tree.Represents parse)
    (hnumbered : parse.root.Numbered parse.next) : tree = ofParse parse :=
  h.unique (represents_ofParse hnumbered) hnumbered

/-- Reading an arena from its root gives the parsed text back. -/
theorem Represents.rootNode_eq {parse : Parse} (h : tree.Represents parse)
    (hnumbered : parse.root.Numbered parse.next) {sound : Prop}
    (hfits : parse.root.All (Node.Fits parse.lines sound)) : tree.rootNode = parse.root := by
  have hsize : parse.root.size ≤ tree.size + 1 := by
    rw [hnumbered.size_eq, size, h.compact.size]
    omega
  rw [rootNode, node?, h.root, h.shows.nodeWithin_eq (h.index ▸ hfits) hsize]
  rfl

end Tree

end ConcreteSyntax
