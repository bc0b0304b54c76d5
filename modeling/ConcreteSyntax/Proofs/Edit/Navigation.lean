import ConcreteSyntax.Proofs.Analysis.Walk
import ConcreteSyntax.Proofs.Edit.History
import ConcreteSyntax.Proofs.Tree.Traversal

/-!
# Ways through trees

The children of a node are listed at the node, and each of them names its parent.  As long as an
arena is a forest, both say the same (`Tree.IsForest.siblings?_eq_some_iff`), and so do all the
questions that are answered by one or by the other: which nodes stand beside a node, which are
below it, and how far it is to a node above it (`Tree.Navigates`).
-/

namespace ConcreteSyntax

namespace Tree

variable {tree : Tree} {parent : Option NodeId} {node : Node} {id other : NodeId}

/-! ## Upwards -/

/-- The node some steps up. -/
def climb? (tree : Tree) : Nat → NodeId → Option NodeId
  | 0, id => some id
  | steps + 1, id => (tree.parent? id).bind (tree.climb? steps)

/-- Whether the node some steps up is of one of several kinds, and no nearer one is. -/
structure IsNearest (tree : Tree) (kinds : KindSet) (id : NodeId) (steps : Nat)
    (above : NodeId) : Prop where
  pos : 0 < steps
  climb : tree.climb? steps id = some above
  kind : tree.isAny kinds above = true
  nearest : ∀ nearer < steps, 0 < nearer → ∀ other, tree.climb? nearer id = some other →
    tree.isAny kinds other = false

theorem Climbs.getElem? {ids : List NodeId} (h : tree.Climbs (some id) ids) (steps : Nat) :
    ids[steps]? = tree.climb? steps id := by
  induction steps generalizing id ids with
  | zero =>
      cases ids with
      | nil => cases h
      | cons first rest => exact h.1.symm
  | succ steps ih =>
      cases ids with
      | nil => cases h
      | cons first rest =>
          obtain ⟨hfirst, record, hrecord, hrest⟩ := h
          obtain rfl := Option.some.inj hfirst
          have hparent : tree.parent? id = record.parent := by simp [parent?, hrecord]
          rw [List.getElem?_cons_succ, climb?, hparent]
          cases habove : record.parent with
          | none =>
              rw [habove] at hrest
              cases rest with
              | nil => rfl
              | cons second rest => cases hrest.1
          | some above => exact ih (habove ▸ hrest)

namespace IsForest

theorem getElem?_ancestors (h : tree.IsForest) (hid : tree.contains id = true) (index : Nat) :
    (tree.ancestors id)[index]? = tree.climb? (index + 1) id := by
  obtain ⟨crumbs, node, rfl, hplace, _⟩ := h.exists_place hid
  rw [ancestors, List.getElem?_drop, Nat.add_comm, h.lineage_eq hplace]
  exact hplace.climbs.getElem? (index + 1)

/-- A node has one ancestor more than its parent. -/
theorem ancestors_eq (h : tree.IsForest) (hid : tree.contains id = true) :
    tree.ancestors id = ((tree.parent? id).map tree.lineage).getD [] := by
  obtain ⟨crumbs, node, rfl, hplace, _⟩ := h.exists_place hid
  rw [ancestors, h.lineage_eq hplace, List.drop_one, List.tail_cons]
  cases crumbs with
  | nil =>
      obtain ⟨record, hrecord, hparent, _⟩ := (holds_plug.1 hplace).2.record
      have hnone : record.parent = none := hparent
      simp [parent?, hrecord, hnone, Crumb.names]
  | cons crumb outer =>
      have howner : tree.Holds none
          (.plug outer ⟨crumb.label, crumb.before ++ node :: crumb.after⟩) := hplace
      rw [Call.parent?_of_place crumb outer hplace, Option.map_some, Option.getD_some]
      exact (h.lineage_eq howner).symm

theorem depth_eq (h : tree.IsForest) (hid : tree.contains id = true) :
    tree.depth id = ((tree.parent? id).map fun above => tree.depth above + 1).getD 0 := by
  rw [depth, h.ancestors_eq hid]
  cases habove : tree.parent? id with
  | none => rfl
  | some above =>
      obtain ⟨crumbs, node, rfl, hplace, _⟩ := h.exists_place (h.count_children habove).1
      simp [depth, ancestors, h.lineage_eq hplace]

/-- The nearest ancestor of one of several kinds is the first in the list of ancestors. -/
theorem isNearest_iff (h : tree.IsForest) (hid : tree.contains id = true) {kinds : KindSet}
    {index : Nat} {above : NodeId} :
    tree.IsNearest kinds id (index + 1) above ↔
      (tree.ancestors id).findIdx? (tree.isAny kinds) = some index
        ∧ (tree.ancestors id)[index]? = some above := by
  have hclimb := h.getElem?_ancestors hid
  constructor
  · intro hnearest
    obtain ⟨hlt, habove⟩ := List.getElem?_eq_some_iff.1 ((hclimb index).trans hnearest.climb)
    refine ⟨List.findIdx?_eq_some_iff_getElem.2 ⟨hlt, habove ▸ hnearest.kind, ?_⟩,
      (hclimb index).trans hnearest.climb⟩
    intro nearer hnearer
    have hother := (hclimb nearer).symm.trans (List.getElem?_eq_getElem (Nat.lt_trans hnearer hlt))
    rw [hnearest.nearest (nearer + 1) (Nat.succ_lt_succ hnearer) (Nat.succ_pos _) _ hother]
    exact Bool.false_ne_true
  · rintro ⟨hindex, habove⟩
    obtain ⟨hlt, hkind, hnone⟩ := List.findIdx?_eq_some_iff_getElem.1 hindex
    obtain ⟨_, rfl⟩ := List.getElem?_eq_some_iff.1 habove
    refine ⟨Nat.succ_pos _, (hclimb index).symm.trans habove, hkind, ?_⟩
    intro nearer hnearer hpos other hother
    obtain ⟨nearer, rfl⟩ := Nat.exists_eq_succ_of_ne_zero (Nat.ne_of_gt hpos)
    obtain ⟨hlt', rfl⟩ := List.getElem?_eq_some_iff.1 ((hclimb nearer).trans hother)
    exact Bool.eq_false_iff.2 (hnone nearer (Nat.lt_of_succ_lt_succ hnearer))

theorem depthTo?_eq_some_iff (h : tree.IsForest) (hid : tree.contains id = true)
    {kinds : KindSet} {steps : Nat} :
    tree.depthTo? kinds id = some steps ↔ ∃ above, tree.IsNearest kinds id steps above := by
  rw [depthTo?, Option.map_eq_some_iff]
  constructor
  · rintro ⟨index, hindex, rfl⟩
    obtain ⟨hlt, _⟩ := List.findIdx?_eq_some_iff_getElem.1 hindex
    exact ⟨_, (h.isNearest_iff hid).2 ⟨hindex, List.getElem?_eq_getElem hlt⟩⟩
  · rintro ⟨above, hnearest⟩
    obtain ⟨index, rfl⟩ := Nat.exists_eq_succ_of_ne_zero (Nat.ne_of_gt hnearest.pos)
    exact ⟨index, ((h.isNearest_iff hid).1 hnearest).1, rfl⟩

theorem ancestor?_eq_some_iff (h : tree.IsForest) (hid : tree.contains id = true)
    {kinds : KindSet} {above : NodeId} :
    tree.ancestor? kinds id = some above ↔ ∃ steps, tree.IsNearest kinds id steps above := by
  rw [ancestor?, List.find?_eq_bind_findIdx?_getElem?, Option.bind_eq_some_iff]
  constructor
  · rintro ⟨index, hindex, habove⟩
    exact ⟨index + 1, (h.isNearest_iff hid).2 ⟨hindex, habove⟩⟩
  · rintro ⟨steps, hnearest⟩
    obtain ⟨index, rfl⟩ := Nat.exists_eq_succ_of_ne_zero (Nat.ne_of_gt hnearest.pos)
    exact ⟨index, (h.isNearest_iff hid).1 hnearest⟩

end IsForest

/-! ## Sidewards -/

namespace IsForest

theorem nodup_children (h : tree.IsForest) (id : NodeId) : (tree.children id).Nodup := by
  cases hrecord : tree.record? id with
  | none => simp [Tree.children, hrecord]
  | some record =>
      obtain ⟨crumbs, node, rfl, hplace, _⟩ := h.exists_place (Arena.contains_of_get? hrecord)
      rw [(holds_plug.1 hplace).2.links node node.self_mem_descendants]
      exact Node.nodup_children (h.nodup_of_place hplace)

/-- The siblings of a node are the children of the node that lists it. -/
theorem siblings?_eq_some_iff (h : tree.IsForest) {siblings : List NodeId} {index : Nat} :
    tree.siblings? id = some (siblings, index) ↔
      ∃ above, tree.children above = siblings ∧ siblings[index]? = some id := by
  simp only [siblings?, Option.bind_eq_bind, Option.bind_eq_some_iff, Option.pure_def,
    Option.some.injEq, Prod.mk.injEq]
  constructor
  · rintro ⟨above, habove, found, hfound, rfl, rfl⟩
    obtain ⟨hlt, hid, _⟩ := List.idxOf?_eq_some_iff.1 hfound
    exact ⟨above, rfl, List.getElem?_eq_some_iff.2 ⟨hlt, hid⟩⟩
  · rintro ⟨above, rfl, hid⟩
    obtain ⟨hlt, rfl⟩ := List.getElem?_eq_some_iff.1 hid
    refine ⟨above, (h.parent?_child (List.getElem_mem hlt)).2, index, ?_, rfl, rfl⟩
    refine List.idxOf?_eq_some_iff.2 ⟨hlt, rfl, fun earlier hearlier hsame => ?_⟩
    exact Nat.ne_of_lt hearlier ((h.nodup_children above).getElem_inj_iff.1 hsame)

theorem nextSibling?_eq_some_iff (h : tree.IsForest) :
    tree.nextSibling? id = some other ↔
      ∃ above index, (tree.children above)[index]? = some id
        ∧ (tree.children above)[index + 1]? = some other := by
  constructor
  · intro hnext
    cases hsiblings : tree.siblings? id with
    | none => simp [nextSibling?, nextSiblings, hsiblings] at hnext
    | some found =>
        obtain ⟨above, hchildren, hid⟩ := h.siblings?_eq_some_iff.1 hsiblings
        rw [nextSibling?, nextSiblings, hsiblings, List.head?_drop] at hnext
        exact ⟨above, found.2, hchildren ▸ hid, hchildren ▸ hnext⟩
  · rintro ⟨above, index, hid, hother⟩
    have hsiblings := h.siblings?_eq_some_iff.2 ⟨above, rfl, hid⟩
    rwa [nextSibling?, nextSiblings, hsiblings, List.head?_drop]

theorem previousSibling?_eq_some_iff (h : tree.IsForest) :
    tree.previousSibling? other = some id ↔
      ∃ above index, (tree.children above)[index]? = some id
        ∧ (tree.children above)[index + 1]? = some other := by
  constructor
  · intro hprevious
    cases hsiblings : tree.siblings? other with
    | none => simp [previousSibling?, previousSiblings, hsiblings] at hprevious
    | some found =>
        obtain ⟨siblings, index⟩ := found
        obtain ⟨above, rfl, hother⟩ := h.siblings?_eq_some_iff.1 hsiblings
        rw [previousSibling?, previousSiblings, hsiblings, List.head?_reverse,
          List.getLast?_take] at hprevious
        cases index with
        | zero => cases hprevious
        | succ index =>
            obtain ⟨hlt, _⟩ := List.getElem?_eq_some_iff.1 hother
            refine ⟨above, index, ?_, hother⟩
            simpa [List.getElem?_eq_getElem (Nat.lt_of_succ_lt hlt)] using hprevious
  · rintro ⟨above, index, hid, hother⟩
    have hsiblings := h.siblings?_eq_some_iff.2 ⟨above, rfl, hother⟩
    rw [previousSibling?, previousSiblings, hsiblings, List.head?_reverse, List.getLast?_take]
    simp [hid]

/-- The siblings on both sides of a node, and the node, are the children of its parent. -/
theorem children_eq_siblings (h : tree.IsForest) {above : NodeId}
    (habove : tree.parent? id = some above) :
    tree.children above = (tree.previousSiblings id).reverse ++ id :: tree.nextSiblings id
      ∧ tree.index? id = some (tree.previousSiblings id).length := by
  have hmem : id ∈ tree.children above :=
    List.count_pos_iff.1 ((h.count_children habove).2 ▸ Nat.one_pos)
  obtain ⟨index, hlt, hid⟩ := List.getElem_of_mem hmem
  have hsiblings := h.siblings?_eq_some_iff.2 ⟨above, rfl, List.getElem?_eq_some_iff.2 ⟨hlt, hid⟩⟩
  rw [previousSiblings, nextSiblings, hsiblings]
  constructor
  · rw [List.reverse_reverse, ← hid, ← List.drop_eq_getElem_cons hlt, List.take_append_drop]
  · simp only [siblings?, habove, Option.bind_eq_bind, Option.bind_some, Option.bind_eq_some_iff,
      Option.pure_def, Option.some.injEq, Prod.mk.injEq] at hsiblings
    obtain ⟨_, hindex, _, rfl⟩ := hsiblings
    simp [index?, habove, hindex, Nat.min_eq_left (Nat.le_of_lt hlt)]

end IsForest

/-! ## Downwards -/

theorem filterMap_entered? (node : Node) : node.steps.filterMap Step.entered? = node.ids := by
  induction node with
  | mk label children ih =>
      rw [Node.steps_mk, Node.ids_mk, List.filterMap_cons, List.filterMap_append,
        List.filterMap_flatMap, List.flatMap_congr ih]
      simp [Step.entered?]

namespace IsForest

theorem descendants_eq (h : tree.IsForest) (hholds : tree.Holds parent node) :
    tree.descendants node.id = node.ids := by
  rw [descendants, (h.traverses hholds).steps_eq]
  exact filterMap_entered? node

/-- What is below a node is what the node is above of. -/
theorem mem_descendants_iff (h : tree.IsForest) (hid : tree.contains id = true)
    (hother : tree.contains other = true) :
    other ∈ tree.descendants id ↔ id ∈ tree.lineage other := by
  obtain ⟨outer, node, rfl, hplace, _⟩ := h.exists_place hid
  have hnode := (holds_plug.1 hplace).2
  rw [h.descendants_eq hnode]
  constructor
  · intro hbelow
    obtain ⟨inner, below, rfl, rfl⟩ := Node.exists_plug_of_mem_ids hbelow
    rw [← Node.plug_append] at hplace
    rw [h.lineage_eq hplace, Crumb.names, List.map_append, ← List.cons_append]
    exact List.mem_append_left _ (id_plug_mem inner below)
  · intro habove
    obtain ⟨crumbs, below, rfl, hplace', _⟩ := h.exists_place hother
    rw [h.lineage_eq hplace', List.mem_cons] at habove
    rcases habove with hsame | habove
    · exact hsame ▸ node.id_mem_ids
    · -- the node around the place that has the name is the node
      obtain ⟨crumb, hcrumb, hname⟩ := List.mem_map.1 habove
      obtain ⟨inner, rest, rfl⟩ := List.append_of_mem hcrumb
      rw [← List.singleton_append, ← List.append_assoc, Node.plug_append, Node.plug_concat]
        at hplace'
      obtain rfl := (holds_plug.1 hplace').2.unique hnode hname
      rw [← Node.plug_concat]
      exact (Node.ids_plug _ below).symm.subset (List.mem_append_left _ below.id_mem_ids)

end IsForest

/-! ## Agreement -/

/-- What the questions about a node say of each other.  The siblings on both sides are the children
of the parent before and behind the index of the node.  Another node comes right behind it where it
comes right before the other, and the other is below it where it is above the other.  The depth
counts the parents, and the distance to an ancestor of one of several kinds is that to the nearest
one, which is the one that is found. -/
structure Navigates (tree : Tree) (id : NodeId) : Prop where
  siblings : ∀ above, tree.parent? id = some above →
    tree.children above = (tree.previousSiblings id).reverse ++ id :: tree.nextSiblings id
      ∧ tree.index? id = some (tree.previousSiblings id).length
  neighbour : ∀ other, tree.contains other = true →
    (tree.nextSibling? id = some other ↔ tree.previousSibling? other = some id)
  below : ∀ other, tree.contains other = true →
    (other ∈ tree.descendants id ↔ id ∈ tree.lineage other)
  depth : tree.depth id = ((tree.parent? id).map fun above => tree.depth above + 1).getD 0
  distance : ∀ kinds steps,
    tree.depthTo? kinds id = some steps ↔ ∃ above, tree.IsNearest kinds id steps above
  found : ∀ kinds steps above, tree.IsNearest kinds id steps above →
    tree.ancestor? kinds id = some above
  missed : ∀ kinds, (∀ steps above, ¬ tree.IsNearest kinds id steps above) →
    tree.depthTo? kinds id = none ∧ tree.ancestor? kinds id = none

theorem IsForest.navigates (h : tree.IsForest) (hid : tree.contains id = true) :
    tree.Navigates id where
  siblings _ := h.children_eq_siblings
  neighbour _ _ := h.nextSibling?_eq_some_iff.trans h.previousSibling?_eq_some_iff.symm
  below _ := h.mem_descendants_iff hid
  depth := h.depth_eq hid
  distance _ _ := h.depthTo?_eq_some_iff hid
  found _ steps _ hnearest := (h.ancestor?_eq_some_iff hid).2 ⟨steps, hnearest⟩
  missed kinds hnone := by
    refine ⟨Option.eq_none_iff_forall_ne_some.2 fun steps hsteps => ?_,
      Option.eq_none_iff_forall_ne_some.2 fun above habove => ?_⟩
    · exact ((h.depthTo?_eq_some_iff hid).1 hsteps).elim (hnone steps)
    · exact ((h.ancestor?_eq_some_iff hid).1 habove).elim (hnone · above)

end Tree

/-- Whatever calls were made on the tree of a text, the questions about the nodes around a node
agree, also in a tree that was detached. -/
theorem Language.navigates_edited (language : Language) (analysis : Bool) (text : List Char)
    (calls : List Call) {id : NodeId}
    (hid : (language.edited analysis text calls).contains id = true) :
    (language.edited analysis text calls).Navigates id :=
  (language.isForest_edited analysis text calls).navigates hid

/-- A leaf in a container behind the only leaf of a text, all of them below the root. -/
theorem Language.navigates_edited_letter :
    let tree := Language.c.edited false ['a']
      [.newNode .braces, .newLeaf .text ['b'], .appendChild (.fresh 2) (.fresh 3),
        .appendChild (.fresh 0) (.fresh 2)]
    tree.contains (.fresh 3) = true
      ∧ tree.Navigates (.fresh 3)
      ∧ tree.previousSibling? (.fresh 2) = some (.fresh 1)
      ∧ tree.lineage (.fresh 3) = [.fresh 3, .fresh 2, .fresh 0]
      ∧ tree.descendants (.fresh 0) = [.fresh 0, .fresh 1, .fresh 2, .fresh 3]
      ∧ tree.depthTo? (.singleton .root) (.fresh 3) = some 2 := by
  intro tree
  have hparse : Language.c.parse false ['a'] = Parse.build CFamily.cGrammar ['a'] := rfl
  have htree : tree = (Tree.ofParse (Parse.build CFamily.cGrammar ['a'])).after
      [.newNode .braces, .newLeaf .text ['b'], .appendChild (.fresh 2) (.fresh 3),
        .appendChild (.fresh 0) (.fresh 2)] := by rw [← hparse]; rfl
  have hleaf : tree.contains (.fresh 3) = true := by
    rw [htree, Walk.build_letter]
    decide +kernel
  refine ⟨hleaf, navigates_edited .c false ['a'] _ hleaf, ?_⟩
  rw [htree, Walk.build_letter]
  decide +kernel

end ConcreteSyntax
