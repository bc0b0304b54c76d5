import ConcreteSyntax.Proofs.Edit.Splices

/-!
# Replacements are splices

A detached tree takes the place of a child, which is freed (`Edit.succeeds_replacement`).  Where
the children of the child are to be kept, they are moved behind those of the tree before
(`Edit.isReady_move`).
-/

namespace ConcreteSyntax

variable {tree mid : Tree} {crumb : Crumb} {outer : List Crumb} {node made : Node}

namespace Edit

open Splice

/-- Whether a detached tree may take the place of a child. -/
structure MayReplace (tree : Tree) (outer : List Crumb) (crumb : Crumb) (node made : Node)
    (keep : Bool) : Prop where
  place : tree.Holds none (.plug (crumb :: outer) node)
  detached : tree.Holds none made
  root : made.id ≠ tree.root
  cycle : made.id ∉ crumb.label.id :: Crumb.names outer
  leaf : keep = true → made.kind.isAtomic = true → node.children = []

namespace MayReplace

variable {keep : Bool}

theorem apart (h : MayReplace tree outer crumb node made keep) :
    (Node.plug (crumb :: outer) node).id ≠ made.id := fun hid =>
  h.cycle (hid ▸ Tree.id_plug_mem outer ⟨crumb.label, crumb.before ++ node :: crumb.after⟩)

theorem notMem_made (h : MayReplace tree outer crumb node made keep) {id : NodeId}
    (hid : id ∈ (Node.plug (crumb :: outer) node).ids) : id ∉ made.ids := fun hmem =>
  h.apart (congrArg Node.id (h.place.eq_of_mem h.detached hid hmem))

theorem notMem_made_of_node (h : MayReplace tree outer crumb node made keep) {id : NodeId}
    (hid : id ∈ node.ids) : id ∉ made.ids :=
  h.notMem_made ((Node.ids_plug _ _).symm.subset (List.mem_append_left _ hid))

theorem notMem_made_owner (h : MayReplace tree outer crumb node made keep) :
    crumb.label.id ∉ made.ids :=
  h.notMem_made (Node.names_subset_ids_plug _ _ (List.mem_cons_self ..))

theorem notMem_node (h : MayReplace tree outer crumb node made keep) (hforest : tree.IsForest) :
    crumb.label.id ∉ node.ids := fun hmem =>
  hforest.notMem_names h.place hmem (List.mem_cons_self ..)

end MayReplace

/-- Whether what replaces a child, and what is left of it, are ready in an arena. -/
structure IsReady (tree mid : Tree) (crumb : Crumb) (node made : Node) (keep : Bool) : Prop where
  index : mid.index = tree.index
  root : mid.root = tree.root
  kept : mid.nodes.IsKept
  old : mid.Holds (some crumb.label.id) (remains keep node)
  new : mid.Holds none (adopting keep node made)
  frame : ∀ id, id ∉ node.ids → id ∉ made.ids → mid.record? id = tree.record? id

theorem id_remains (keep : Bool) (node : Node) : (remains keep node).id = node.id := by
  cases keep <;> rfl

theorem id_adopting (keep : Bool) (node made : Node) : (adopting keep node made).id = made.id := by
  cases keep <;> rfl

/-- Replacing keeps all names. -/
theorem ids_adopting_perm (keep : Bool) (node made : Node) :
    ((remains keep node).ids ++ (adopting keep node made).ids).Perm (node.ids ++ made.ids) := by
  cases keep with
  | false => exact List.Perm.refl _
  | true =>
      obtain ⟨label, children⟩ := node
      obtain ⟨label', children'⟩ := made
      simp only [remains, adopting, if_true, Node.ids_mk, Node.label, Node.children,
        List.flatMap_append, List.flatMap_nil, Label.id_raise, List.cons_append, List.nil_append]
      refine List.Perm.cons _ ?_
      exact (List.Perm.cons _ List.perm_append_comm).trans List.perm_middle.symm

theorem ids_remains_subset (keep : Bool) (node : Node) : (remains keep node).ids ⊆ node.ids := by
  cases keep with
  | false => exact List.Subset.refl _
  | true =>
      obtain ⟨label, children⟩ := node
      simp [remains, Node.ids_mk, Node.label]

theorem set_map (before after : List Node) (node made : Node) :
    (before.map Node.id ++ (node.id :: after.map Node.id)).set before.length made.id =
      (before ++ ([made] ++ after)).map Node.id := by
  simp

namespace MayReplace

variable {keep : Bool}

/-- What is in the tree that takes a place was in it or in the place, or it is on top of the
tree and has its revision raised. -/
theorem moved (h : MayReplace tree outer crumb node made keep)
    (hforest : tree.IsForest) {below : Node}
    (hbelow : below ∈ (adopting keep node made).descendants) :
    below.id ∉ (replacement outer crumb node made keep).raised
        ∧ below ∈ ([node] ++ [made]).flatMap Node.descendants
      ∨ below.id ∈ (replacement outer crumb node made keep).raised
        ∧ (below.kind.isAtomic = true → below.children = [])
        ∧ ∃ top ∈ [made], top.id = below.id ∧ below.label = top.label.raise := by
  cases keep with
  | false => exact .inl ⟨List.not_mem_nil, by simpa [adopting] using Or.inr hbelow⟩
  | true =>
      have hraised : (replacement outer crumb node made true).raised = [made.id] := rfl
      have hparts : below ∈ (Node.mk made.label.raise (made.children ++ node.children)).descendants :=
        hbelow
      rw [hraised, List.mem_singleton]
      rw [Node.descendants_mk, List.mem_cons, List.flatMap_append, List.mem_append] at hparts
      rcases hparts with rfl | hmade | hnode
      · refine .inr ⟨rfl, fun hatomic => ?_, made, List.mem_singleton_self _, rfl, rfl⟩
        have hkind : made.kind.isAtomic = true := hatomic
        have hnil := hforest.children_eq_nil h.detached hkind
        rw [Node.children, hnil, h.leaf rfl hkind]
        rfl
      · have hnodup := hforest.nodup h.detached
        obtain ⟨label, children⟩ := made
        rw [Node.ids_mk, List.nodup_cons] at hnodup
        rw [Node.children] at hmade
        refine .inl ⟨fun hid => hnodup.1 ?_, ?_⟩
        · obtain ⟨child, hchild, hmem⟩ := List.mem_flatMap.1 hmade
          have hname : below.id ∈ child.ids := List.mem_map_of_mem hmem
          rw [hid] at hname
          exact List.mem_flatMap.2 ⟨child, hchild, hname⟩
        · simpa [Node.descendants_mk] using Or.inr (Or.inr (List.mem_flatMap.1 hmade))
      · have hmem : below ∈ node.descendants := by
          obtain ⟨label, children⟩ := node
          rw [Node.descendants_mk]
          exact List.mem_cons_of_mem _ hnode
        refine .inl ⟨fun hid => ?_, by simpa using Or.inl hmem⟩
        exact h.notMem_made_of_node (List.mem_map_of_mem hmem) (hid ▸ made.id_mem_ids)

theorem nodup (h : MayReplace tree outer crumb node made keep) (hforest : tree.IsForest) :
    ((remains keep node).ids ++ (adopting keep node made).ids).Nodup := by
  refine (ids_adopting_perm keep node made).nodup_iff.2 (List.nodup_append.2
    ⟨hforest.nodup_of_place h.place, hforest.nodup h.detached, fun id hid other hother => ?_⟩)
  rintro rfl
  exact h.notMem_made_of_node hid hother

theorem notMem_remains (h : MayReplace tree outer crumb node made keep)
    (hforest : tree.IsForest) :
    made.id ∉ (remains keep node).ids ∧ crumb.label.id ∉ (remains keep node).ids :=
  ⟨fun hmem => h.notMem_made_of_node (ids_remains_subset keep node hmem) made.id_mem_ids,
    fun hmem => h.notMem_node hforest (ids_remains_subset keep node hmem)⟩

theorem notMem_adopting (h : MayReplace tree outer crumb node made keep)
    (hforest : tree.IsForest) : crumb.label.id ∉ (adopting keep node made).ids := by
  intro hmem
  have hperm := ids_adopting_perm keep node made
  rcases List.mem_append.1 (hperm.subset (List.mem_append_right _ hmem)) with hmem | hmem
  · exact h.notMem_node hforest hmem
  · exact h.notMem_made_owner hmem

theorem id_made_ne (h : MayReplace tree outer crumb node made keep) :
    made.id ≠ crumb.label.id := fun hid => h.notMem_made_owner (hid ▸ made.id_mem_ids)

end MayReplace

/-- The arena in which a tree stands in the place of a child, which is still there. -/
def put (mid : Tree) (crumb : Crumb) (made : NodeId) : Tree :=
  (mid.modify crumb.label.id fun above =>
    { above with children := above.children.set crumb.before.length made }).modify made
      fun node => { node with parent := some crumb.label.id }

theorem record?_put {id : NodeId} (howner : id ≠ crumb.label.id) (hid : id ≠ made.id) :
    (put mid crumb made.id).record? id = mid.record? id := by
  rw [put, Tree.record?_modify_of_ne _ hid, Tree.record?_modify_of_ne _ howner]

namespace IsReady

variable {keep : Bool}

theorem holds_remains (hready : IsReady tree mid crumb node made keep) (hforest : tree.IsForest)
    (h : MayReplace tree outer crumb node made keep) :
    (put mid crumb made.id).Holds (some crumb.label.id) (remains keep node) := by
  obtain ⟨hmade, howner⟩ := h.notMem_remains hforest
  refine hready.old.frame rfl fun id hid => record?_put ?_ ?_
  · rintro rfl
    exact howner hid
  · rintro rfl
    exact hmade hid

theorem holds_adopting (hready : IsReady tree mid crumb node made keep) (hforest : tree.IsForest)
    (h : MayReplace tree outer crumb node made keep) :
    (put mid crumb made.id).Holds (some crumb.label.id) (adopting keep node made) := by
  have hnodup := (List.nodup_append.1 (h.nodup hforest)).2.1
  refine hready.new.reparent rfl hnodup ?_ fun id hid hne => record?_put ?_ ?_
  · rw [id_adopting, put, Tree.record?_modify_self, Tree.record?_modify_of_ne _ h.id_made_ne]
  · rintro rfl
    exact h.notMem_adopting hforest hid
  · rwa [id_adopting] at hne

theorem owner (hready : IsReady tree mid crumb node made keep) (hforest : tree.IsForest)
    (h : MayReplace tree outer crumb node made keep) :
    (put mid crumb made.id).record? crumb.label.id = (tree.record? crumb.label.id).map
      (Record.over ((crumb.before ++ ([adopting keep node made] ++ crumb.after)).map Node.id)) := by
  obtain ⟨⟨above, habove, _, hchildren, _⟩, _, _⟩ := (Tree.holds_plug.1 h.place).1
  rw [put, Tree.record?_modify_of_ne _ h.id_made_ne.symm, Tree.record?_modify_self,
    hready.frame _ (h.notMem_node hforest) h.notMem_made_owner, habove, Option.map_some,
    Option.map_some, hchildren, ← id_adopting keep node made, set_map]
  rfl

end IsReady

/-- A tree that is ready takes the place of a child. -/
theorem succeeds_replacement {keep : Bool} (hforest : tree.IsForest)
    (h : MayReplace tree outer crumb node made keep)
    (hready : IsReady tree mid crumb node made keep) :
    (do
      update crumb.label.id fun above =>
        { above with children := above.children.set crumb.before.length made.id }
      update made.id fun node => { node with parent := some crumb.label.id }
      free node.id
      touch crumb.label.id : Edit Unit).Succeeds mid
        fun _ tree' => (replacement outer crumb node made keep).Applies tree tree' := by
  obtain ⟨⟨above, habove, _⟩, _⟩ := (Tree.holds_plug.1 h.place).1
  obtain ⟨record, hrecord, _⟩ := hready.new.record
  have hparent : mid.record? crumb.label.id = some above := by
    rw [hready.frame _ (h.notMem_node hforest) h.notMem_made_owner, habove]
  have hmade : (mid.modify crumb.label.id fun above =>
      { above with children := above.children.set crumb.before.length made.id }).record? made.id =
        some record := by
    rw [Tree.record?_modify_of_ne _ h.id_made_ne, ← id_adopting keep node made, hrecord]
  refine .step (run_update _ hparent) (.step (run_update _ hmade) (.step rfl
    (Rearranges.touch (s := replacement outer crumb node made keep) ?_ hforest)))
  have hkept : (put mid crumb made.id).nodes.IsKept := (hready.kept.modify _ _).modify _ _
  have hfree := Tree.record?_free hkept (hready.holds_remains hforest h)
    (List.nodup_append.1 (h.nodup hforest)).1
  rw [id_remains] at hfree
  -- freeing touches what remains of the old child only
  have hsame : ∀ id ∉ (remains keep node).ids,
      ((put mid crumb made.id).free node.id).record? id = (put mid crumb made.id).record? id :=
    fun id hid => (hfree id).trans (if_neg hid)
  refine {
    index := hready.index
    root := hready.root
    kept := hkept.foldl_remove _
    container := hforest.isAtomic_of_surrounds (Tree.holds_plug.1 h.place).1 crumb (by simp)
    source := h.place
    used := List.forall_mem_singleton.2 h.detached
    apart := by
      have hne : (replacement outer crumb node made keep).source.id ≠ made.id := h.apart
      simpa [replacement] using hne
    unrooted := by simpa [replacement] using h.root.symm
    new := List.forall_mem_singleton.2 ((hready.holds_adopting hforest h).frame rfl ?_)
    loose := fun node hnode => nomatch hnode
    gone := fun id hid => (hfree id).trans (if_pos hid)
    ids := by simpa [replacement] using ids_adopting_perm keep node made
    raised := by cases keep <;> simp [replacement]
    moved := fun below hbelow => h.moved hforest (by simpa [replacement] using hbelow)
    owner := (hsame _ (h.notMem_remains hforest).2).trans (hready.owner hforest h)
    frame := fun id howner hold hused => ?_ }
  · intro id hid
    have hdisjoint := (List.nodup_append.1 (h.nodup hforest)).2.2
    exact hsame id fun hmem => hdisjoint id hmem id hid rfl
  · have hnode : id ∉ node.ids := by simpa [replacement] using hold
    have hmade : id ∉ made.ids := by simpa [replacement] using hused
    refine (hsame id fun hmem => hnode (ids_remains_subset keep node hmem)).trans ?_
    rw [record?_put howner fun hid => hmade (hid ▸ made.id_mem_ids), hready.frame id hnode hmade]

/-! ## Moving children -/

/-- The arena in which the children of a node were moved behind those of another. -/
def move (tree : Tree) (node made : Node) : Tree :=
  ((tree.modify node.id fun node => { node with children := [] }).modifyEach
    (node.children.map Node.id) fun child => { child with parent := some made.id }).modify made.id
      fun above => { above with
        children := above.children ++ node.children.map Node.id, revision := above.revision + 1 }

/-- Without children to keep, all is ready from the start. -/
theorem isReady_drop (hforest : tree.IsForest)
    (h : MayReplace tree outer crumb node made false) :
    IsReady tree tree crumb node made false where
  index := rfl
  root := rfl
  kept := hforest.kept
  old := (Tree.holds_plug.1 h.place).2
  new := h.detached
  frame _ _ _ := rfl

/-- The names that moving children is about differ. -/
structure MovesApart (node made : Node) : Prop where
  nodup : (node.children.map Node.id).Nodup
  notMem : node.id ∉ node.children.map Node.id
  notMemMade : made.id ∉ node.children.map Node.id
  ne : node.id ≠ made.id

theorem MayReplace.movesApart {keep : Bool} (h : MayReplace tree outer crumb node made keep)
    (hforest : tree.IsForest) : MovesApart node made := by
  have hnodup := hforest.nodup_of_place h.place
  have hmade : made.id ∉ node.ids := fun hmem => h.notMem_made_of_node hmem made.id_mem_ids
  obtain ⟨label, children⟩ := node
  rw [Node.ids_mk] at hnodup hmade
  obtain ⟨hnode, hbelow⟩ := List.nodup_cons.1 hnodup
  have hsub := Node.map_id_sublist children
  exact ⟨hbelow.sublist hsub, fun hmem => hnode (hsub.subset hmem),
    fun hmem => hmade (List.mem_cons_of_mem _ (hsub.subset hmem)),
    fun hid => hmade (hid ▸ List.mem_cons_self ..)⟩

namespace MovesApart

theorem record?_move_of_ne (h : MovesApart node made) {id : NodeId} (hnode : id ≠ node.id)
    (hchild : id ∉ node.children.map Node.id) (hmade : id ≠ made.id) :
    (move tree node made).record? id = tree.record? id := by
  rw [move, Tree.record?_modify_of_ne _ hmade,
    Tree.record?_modifyEach_of_nodup _ _ h.nodup, if_neg hchild,
    Tree.record?_modify_of_ne _ hnode]

theorem record?_move_node (tree : Tree) (h : MovesApart node made) :
    (move tree node made).record? node.id =
      (tree.record? node.id).map fun record => { record with children := [] } := by
  rw [move, Tree.record?_modify_of_ne _ h.ne, Tree.record?_modifyEach_of_nodup _ _ h.nodup,
    if_neg h.notMem, Tree.record?_modify_self]

theorem record?_move_child (h : MovesApart node made) {child : Node}
    (hchild : child ∈ node.children) :
    (move tree node made).record? child.id =
      (tree.record? child.id).map fun record => { record with parent := some made.id } := by
  have hmem : child.id ∈ node.children.map Node.id := List.mem_map_of_mem hchild
  have hnode : child.id ≠ node.id := fun hid => h.notMem (hid ▸ hmem)
  have hmade : child.id ≠ made.id := fun hid => h.notMemMade (hid ▸ hmem)
  rw [move, Tree.record?_modify_of_ne _ hmade, Tree.record?_modifyEach_of_nodup _ _ h.nodup,
    if_pos hmem, Tree.record?_modify_of_ne _ hnode]

theorem record?_move_made (tree : Tree) (h : MovesApart node made) :
    (move tree node made).record? made.id = (tree.record? made.id).map fun record =>
      (record.over (record.children ++ node.children.map Node.id)).raise := by
  rw [move, Tree.record?_modify_self, Tree.record?_modifyEach_of_nodup _ _ h.nodup,
    if_neg h.notMemMade, Tree.record?_modify_of_ne _ h.ne.symm]
  rfl

end MovesApart

theorem run_moveChildren {parent : Option NodeId} (hnode : tree.Holds parent node)
    (hmade : tree.Holds none made) (h : MovesApart node made) :
    (moveChildren node.id made.id).run tree = .ok () (move tree node made) := by
  obtain ⟨record, hrecord, _, hchildren, _⟩ := hnode.record
  obtain ⟨record', hrecord', _⟩ := hmade.record
  have hlive : ∀ id ∈ node.children.map Node.id, ∃ child,
      (tree.modify node.id fun node => { node with children := [] }).record? id = some child := by
    intro id hid
    obtain ⟨child, hchild, rfl⟩ := List.mem_map.1 hid
    obtain ⟨found, hfound, _⟩ := (hnode.child child hchild).record
    have hne : child.id ≠ node.id := fun hsame => h.notMem (hsame ▸ hid)
    exact ⟨found, by rw [Tree.record?_modify_of_ne _ hne, hfound]⟩
  have hmove := run_forM_update (fun child => { child with parent := some made.id }) hlive
  have hkept : ((tree.modify node.id fun node => { node with children := [] }).modifyEach
      (node.children.map Node.id) fun child =>
        { child with parent := some made.id }).record? made.id = some record' := by
    rw [Tree.record?_modifyEach_of_nodup _ _ h.nodup, if_neg h.notMemMade,
      Tree.record?_modify_of_ne _ h.ne.symm, hrecord']
  rw [moveChildren, run_bind, run_record, hrecord]
  dsimp only
  rw [run_bind, run_update _ hrecord]
  dsimp only
  rw [hchildren, run_bind, hmove]
  exact run_update _ hkept

namespace MayReplace

variable {keep : Bool}

/-- The children that a tree has had stay as they are when others are moved behind them. -/
theorem holds_child_of_made (h : MayReplace tree outer crumb node made keep)
    (hforest : tree.IsForest) (hindex : (move tree node made).index = tree.index) {child : Node}
    (hchild : child ∈ made.children) : (move tree node made).Holds (some made.id) child := by
  refine (h.detached.child child hchild).frame hindex fun id hid => ?_
  have hmem : id ∈ made.children.flatMap Node.ids := List.mem_flatMap.2 ⟨child, hchild, hid⟩
  have hnodup := hforest.nodup h.detached
  rw [made.ids_eq, List.nodup_cons] at hnodup
  have hout : id ∉ node.ids := by
    intro hnode
    refine h.notMem_made_of_node hnode ?_
    rw [made.ids_eq]
    exact List.mem_cons_of_mem _ hmem
  rw [node.ids_eq, List.mem_cons, not_or] at hout
  refine (h.movesApart hforest).record?_move_of_ne hout.1 (fun hname => hout.2 ?_) ?_
  · exact (Node.map_id_sublist _).subset hname
  · rintro rfl
    exact hnodup.1 hmem

/-- A child that is moved goes with all that is below it. -/
theorem holds_child_of_node (h : MayReplace tree outer crumb node made keep)
    (hforest : tree.IsForest) (hindex : (move tree node made).index = tree.index) {child : Node}
    (hchild : child ∈ node.children) : (move tree node made).Holds (some made.id) child := by
  have hapart := h.movesApart hforest
  have hnode := (Tree.holds_plug.1 h.place).2
  have hheld := hnode.child child hchild
  have hnodup := hforest.nodup_of_place h.place
  rw [node.ids_eq, List.nodup_cons] at hnodup
  have hbelow : ∀ id ∈ child.ids, id ∈ node.children.flatMap Node.ids := fun id hid =>
    List.mem_flatMap.2 ⟨child, hchild, hid⟩
  refine hheld.reparent hindex ?_ (hapart.record?_move_child hchild) fun id hid hne => ?_
  · exact hnodup.2.sublist (List.sublist_flatten_of_mem (List.mem_map_of_mem hchild))
  · refine hapart.record?_move_of_ne ?_ (fun hname => ?_) ?_
    · rintro rfl
      exact hnodup.1 (hbelow _ hid)
    · -- what is below a child has another parent than the child
      obtain ⟨other, hother, rfl⟩ := List.mem_map.1 hname
      obtain ⟨found, hfound, hparent, _⟩ := (hnode.child other hother).record
      rcases hheld.parent_of_mem hid hfound with ⟨hsame, _⟩ | ⟨above, habove, hsome⟩
      · exact hne hsame
      · obtain rfl := Option.some.inj (hparent.symm.trans hsome)
        exact hnodup.1 (hbelow _ habove)
    · rintro rfl
      refine h.notMem_made_of_node ?_ made.id_mem_ids
      rw [node.ids_eq]
      exact List.mem_cons_of_mem _ (hbelow _ hid)

end MayReplace

/-- Moving the children of a node makes ready what keeps them. -/
theorem isReady_move (hforest : tree.IsForest)
    (h : MayReplace tree outer crumb node made true) :
    IsReady tree (move tree node made) crumb node made true := by
  have hapart := h.movesApart hforest
  obtain ⟨record, hrecord, hparent, _, hlabel⟩ := (Tree.holds_plug.1 h.place).2.record
  obtain ⟨record', hrecord', hnone, hchildren, hlabel'⟩ := h.detached.record
  have hold := hapart.record?_move_node tree
  have hnew := hapart.record?_move_made tree
  rw [hrecord] at hold
  rw [hrecord'] at hnew
  obtain ⟨hindex, hroot⟩ := Tree.index_modifyEach
    (tree.modify node.id fun node => { node with children := [] }) (node.children.map Node.id)
      fun child => { child with parent := some made.id }
  refine {
    index := hindex
    root := hroot
    kept := (Tree.kept_modifyEach (hforest.kept.modify _ _) _ _).modify _ _
    old := .mk hold hparent rfl ?_ fun child hchild => nomatch hchild
    new := .mk hnew hnone ?_ ?_ fun child hchild => ?_
    frame := fun id hid hmade => hapart.record?_move_of_ne ?_ ?_ ?_ }
  · exact (Tree.labelOf_congr hindex _ _).trans hlabel
  · simp [Record.raise, Record.over, hchildren]
  · exact (Tree.labelOf_congr hindex _ _).trans (congrArg Label.raise hlabel')
  · rcases List.mem_append.1 hchild with hchild | hchild
    · exact h.holds_child_of_made hforest hindex hchild
    · exact h.holds_child_of_node hforest hindex hchild
  · rintro rfl
    exact hid node.id_mem_ids
  · intro hmem
    rw [node.ids_eq] at hid
    exact hid (List.mem_cons_of_mem _ ((Node.map_id_sublist _).subset hmem))
  · rintro rfl
    exact hmade made.id_mem_ids

end Edit

end ConcreteSyntax
