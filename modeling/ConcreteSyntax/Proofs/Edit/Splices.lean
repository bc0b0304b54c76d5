import ConcreteSyntax.Proofs.Edit.Steps

/-!
# Edits are splices

Every edit of a child list is a splice: an insertion, a removal, a detachment or a replacement.
What puts a tree among the children of a node, frees a child or takes it from its parent is the
splice that it should be.
-/

namespace ConcreteSyntax

variable {tree tree' mid : Tree} {crumb : Crumb} {outer : List Crumb} {node child made : Node}

namespace Splice

/-- A detached tree is put between the children of a node. -/
def insertion (outer : List Crumb) (crumb : Crumb) (child : Node) : Splice where
  outer
  label := crumb.label
  before := crumb.before
  old := []
  new := [child]
  after := crumb.after
  used := [child]
  loose := []
  gone := []
  raised := []

/-- A child is freed with all that is below it. -/
def removal (outer : List Crumb) (crumb : Crumb) (node : Node) : Splice where
  outer
  label := crumb.label
  before := crumb.before
  old := [node]
  new := []
  after := crumb.after
  used := []
  loose := []
  gone := node.ids
  raised := []

/-- A child is taken from its parent. -/
def detachment (outer : List Crumb) (crumb : Crumb) (node : Node) : Splice where
  outer
  label := crumb.label
  before := crumb.before
  old := [node]
  new := []
  after := crumb.after
  used := []
  loose := [node]
  gone := []
  raised := []

/-- What is left of a node that is replaced when its children are kept, or not. -/
def remains (keep : Bool) (node : Node) : Node := if keep then ⟨node.label, []⟩ else node

/-- What takes the place of a node when the children of the node are kept, or not. -/
def adopting (keep : Bool) (node made : Node) : Node :=
  if keep then ⟨made.label.raise, made.children ++ node.children⟩ else made

/-- A detached tree takes the place of a child. -/
def replacement (outer : List Crumb) (crumb : Crumb) (node made : Node) (keep : Bool) : Splice where
  outer
  label := crumb.label
  before := crumb.before
  old := [node]
  new := [adopting keep node made]
  after := crumb.after
  used := [made]
  loose := []
  gone := (remains keep node).ids
  raised := if keep then [made.id] else []

variable {s : Splice}

/-- The way up from the node whose children an edit has rearranged is what it was. -/
theorem Rearranges.climbs (h : s.Rearranges tree mid) (hforest : tree.IsForest) :
    mid.Climbs (some s.label.id) s.lineage := by
  have hsource : tree.Holds none (.plug s.outer s.owner) := h.source
  have hclimbs := hsource.climbs
  refine hclimbs.frame fun id hid => ?_
  by_cases howner : id = s.label.id
  · rw [howner, h.owner, Option.map_map]
    rfl
  · obtain ⟨hold, hused⟩ := h.notMem_of_mem_rest hforest (List.mem_append_left _ hid)
    rw [h.frame id howner hold hused]

/-- Raising revisions after children were rearranged completes a splice. -/
theorem Rearranges.touch (h : s.Rearranges tree mid) (hforest : tree.IsForest) :
    (Edit.touch s.label.id).Succeeds mid fun _ tree' => s.Applies tree tree' := by
  have hnodup : s.lineage.Nodup :=
    (List.nodup_append.1 (List.nodup_append.1 (h.nodup hforest)).1).1
  have hrecord := fun id => Tree.record?_modifyEach_of_nodup mid Record.raise hnodup id
  obtain ⟨hindex, hroot⟩ := Tree.index_modifyEach mid s.lineage Record.raise
  have hsame : ∀ id, id ∉ s.lineage →
      (mid.modifyEach s.lineage Record.raise).record? id = mid.record? id := by
    intro id hid
    rw [hrecord, if_neg hid]
  refine ⟨(), mid.modifyEach s.lineage Record.raise,
    Edit.run_touch h.kept (h.climbs hforest) hnodup, ?_⟩
  refine {
    index := hindex.trans h.index
    root := hroot.trans h.root
    kept := Tree.kept_modifyEach h.kept _ _
    container := h.container
    source := h.source
    used := h.used
    apart := h.apart
    unrooted := h.unrooted
    ids := h.ids
    raised := h.raised
    moved := h.moved
    new := fun node hnode => ?_
    loose := fun node hnode => ?_
    gone := fun id hid => ?_
    owner := ?_
    above := fun id hid => ?_
    frame := fun id hlineage hold hused => ?_ }
  · refine (h.new node hnode).frame hindex fun id hid => hsame id ?_
    exact h.notMem_lineage_of_new hforest (.inl (List.mem_flatMap.2 ⟨node, hnode, hid⟩))
  · refine (h.loose node hnode).frame hindex fun id hid => hsame id ?_
    exact h.notMem_lineage_of_new hforest (.inr (List.mem_flatMap.2 ⟨node, hnode, hid⟩))
  · rw [hrecord, h.gone id hid]
    simp
  · have hmem : s.label.id ∈ s.lineage := List.mem_cons_self ..
    rw [hrecord, if_pos hmem, h.owner, Option.map_map]
    rfl
  · have hmem : id ∈ s.lineage := List.mem_cons_of_mem _ hid
    have hne : id ≠ s.label.id := by
      rintro rfl
      exact (List.nodup_cons.1 hnodup).1 hid
    obtain ⟨hold, hused⟩ := h.notMem_of_mem_rest hforest (List.mem_append_left _ hmem)
    rw [hrecord, if_pos hmem, h.frame id hne hold hused]
  · have hne : id ≠ s.label.id := by
      rintro rfl
      exact hlineage (List.mem_cons_self ..)
    rw [hsame id hlineage, h.frame id hne hold hused]

end Splice

namespace Edit

open Splice

/-! ## Insertion -/

theorem insertIdx_map (before after : List Node) (child : Node) :
    ((before ++ after).map Node.id).insertIdx before.length child.id =
      (before ++ ([child] ++ after)).map Node.id := by
  induction before with
  | nil => simp
  | cons first rest ih => simpa using ih

/-- Putting a detached tree among the children of a container. -/
theorem succeeds_insertion (crumb : Crumb) (hforest : tree.IsForest)
    (howner : tree.Holds none (.plug outer ⟨crumb.label, crumb.before ++ crumb.after⟩))
    (hcontainer : crumb.label.kind.isAtomic = false) (hchild : tree.Holds none child)
    (hroot : child.id ≠ tree.root) (hcycle : child.id ∉ crumb.label.id :: Crumb.names outer) :
    (do
      update crumb.label.id fun node =>
        { node with children := node.children.insertIdx crumb.before.length child.id }
      update child.id fun node => { node with parent := some crumb.label.id }
      touch crumb.label.id : Edit Unit).Succeeds tree
        fun _ tree' => (insertion outer crumb child).Applies tree tree' := by
  obtain ⟨above, habove, _, hchildren, _⟩ := (Tree.holds_plug.1 howner).2.record
  obtain ⟨record, hrecord, _⟩ := hchild.record
  have hparent : tree.record? crumb.label.id = some above := habove
  have hapart : (insertion outer crumb child).source.id ≠ child.id := by
    intro hid
    exact hcycle (hid ▸ Tree.id_plug_mem outer ⟨crumb.label, crumb.before ++ crumb.after⟩)
  -- the container is not below the tree that it gets: both have tops of their own
  have houtside : crumb.label.id ∉ child.ids := by
    intro hmem
    refine hapart (congrArg Node.id (howner.eq_of_mem hchild ?_ hmem))
    exact List.mem_map_of_mem (Node.mem_descendants_plug outer _)
  have hne : child.id ≠ crumb.label.id := fun hid => hcycle (hid ▸ List.mem_cons_self ..)
  have hrecord' : (tree.modify crumb.label.id fun node =>
      { node with children := node.children.insertIdx crumb.before.length child.id }).record?
        child.id = some record := by
    rw [Tree.record?_modify_of_ne _ hne]
    exact hrecord
  -- two records are written, and then revisions are raised
  refine .step (run_update _ hparent) (.step (run_update _ hrecord')
    (Rearranges.touch (s := insertion outer crumb child) ?_ hforest))
  have hframe : ∀ id, id ≠ crumb.label.id → id ≠ child.id →
      ((tree.modify crumb.label.id fun node =>
          { node with children := node.children.insertIdx crumb.before.length child.id }).modify
        child.id fun node => { node with parent := some crumb.label.id }).record? id =
        tree.record? id := by
    intro id howner hid
    rw [Tree.record?_modify_of_ne _ hid, Tree.record?_modify_of_ne _ howner]
  refine {
    index := rfl
    root := rfl
    kept := (hforest.kept.modify _ _).modify _ _
    container := hcontainer
    source := howner
    used := List.forall_mem_singleton.2 hchild
    apart := by simpa [insertion] using hapart
    unrooted := by simpa [insertion] using hroot.symm
    new := List.forall_mem_singleton.2 ?_
    loose := fun node hnode => nomatch hnode
    gone := fun id hid => nomatch hid
    ids := by simp [insertion]
    raised := fun id hid => nomatch hid
    moved := fun node hnode => .inl ⟨List.not_mem_nil, by simpa [insertion] using hnode⟩
    owner := ?_
    frame := fun id hid _ hused => hframe id hid ?_ }
  · refine hchild.reparent rfl (hforest.nodup hchild) ?_ fun id hid hne => hframe id ?_ hne
    · rw [Tree.record?_modify_self, hrecord', hrecord]
      rfl
    · rintro rfl
      exact houtside hid
  · change (Tree.modify _ _ _).record? crumb.label.id = (tree.record? crumb.label.id).map _
    rw [Tree.record?_modify_of_ne _ hne.symm, Tree.record?_modify_self, hparent, Option.map_some,
      Option.map_some, hchildren, Node.children, insertIdx_map]
    rfl
  · rintro rfl
    simp [insertion, child.id_mem_ids] at hused

/-! ## Removal and detachment -/

theorem eraseIdx_map (before after : List Node) (node : Node) :
    (before.map Node.id ++ (node.id :: after.map Node.id)).eraseIdx before.length =
      (before ++ ([] ++ after)).map Node.id := by
  induction before with
  | nil => simp
  | cons first rest ih => simpa using ih

/-- Freeing a child with all that is below it. -/
theorem succeeds_removal (crumb : Crumb) (hforest : tree.IsForest)
    (hholds : tree.Holds none (.plug (crumb :: outer) node)) :
    (do
      update crumb.label.id fun above =>
        { above with children := above.children.eraseIdx crumb.before.length }
      free node.id
      touch crumb.label.id : Edit Unit).Succeeds tree
        fun _ tree' => (removal outer crumb node).Applies tree tree' := by
  obtain ⟨hsurrounds, hnode⟩ := Tree.holds_plug.1 hholds
  obtain ⟨⟨above, hparent, _, hchildren, _⟩, _, _⟩ := hsurrounds
  have hnotMem : crumb.label.id ∉ node.ids := fun hmem =>
    hforest.notMem_names hholds hmem (List.mem_cons_self ..)
  have hkept := hforest.kept.modify crumb.label.id fun above : Record =>
    { above with children := above.children.eraseIdx crumb.before.length }
  have hheld : (tree.modify crumb.label.id fun above =>
      { above with children := above.children.eraseIdx crumb.before.length }).Holds
        (some crumb.label.id) node := by
    refine hnode.frame rfl fun id hid => Tree.record?_modify_of_ne _ ?_
    rintro rfl
    exact hnotMem hid
  -- what is freed is read off the arena in which the container has lost its child
  have hfree := Tree.record?_free hkept hheld (hforest.nodup_of_place hholds)
  refine .step (run_update _ hparent) (.step rfl
    (Rearranges.touch (s := removal outer crumb node) ?_ hforest))
  refine {
    index := rfl
    root := rfl
    kept := hkept.foldl_remove _
    container := hforest.isAtomic_of_surrounds (Tree.holds_plug.1 hholds).1 crumb (by simp)
    source := hholds
    used := fun top htop => nomatch htop
    apart := by simp [removal]
    unrooted := by simp [removal]
    new := fun node hnode => nomatch hnode
    loose := fun node hnode => nomatch hnode
    gone := fun id hid => ?_
    ids := by simp [removal]
    raised := fun id hid => nomatch hid
    moved := fun node hnode => nomatch hnode
    owner := ?_
    frame := fun id howner hold _ => ?_ }
  · exact (hfree id).trans (if_pos hid)
  · refine (hfree _).trans ((if_neg hnotMem).trans ?_)
    change (Tree.modify _ _ _).record? crumb.label.id = (tree.record? crumb.label.id).map _
    rw [Tree.record?_modify_self, hparent, Option.map_some, Option.map_some, hchildren]
    exact congrArg some (congrArg (Record.over · above) (eraseIdx_map _ _ _))
  · have hid : id ∉ node.ids := by simpa [removal] using hold
    exact (hfree id).trans ((if_neg hid).trans (Tree.record?_modify_of_ne _ howner))

/-- Taking a child from its parent. -/
theorem succeeds_detachment (hforest : tree.IsForest)
    (hholds : tree.Holds none (.plug (crumb :: outer) node)) :
    (do
      update crumb.label.id fun above =>
        { above with children := above.children.eraseIdx crumb.before.length }
      update node.id fun node => { node with parent := none }
      touch crumb.label.id : Edit Unit).Succeeds tree
        fun _ tree' => (detachment outer crumb node).Applies tree tree' := by
  obtain ⟨hsurrounds, hnode⟩ := Tree.holds_plug.1 hholds
  obtain ⟨⟨above, hparent, _, hchildren, _⟩, _, _⟩ := hsurrounds
  obtain ⟨record, hrecord, _⟩ := hnode.record
  have hnotMem : crumb.label.id ∉ node.ids := fun hmem =>
    hforest.notMem_names hholds hmem (List.mem_cons_self ..)
  have hne : node.id ≠ crumb.label.id := fun hid => hnotMem (hid ▸ node.id_mem_ids)
  have hrecord' : (tree.modify crumb.label.id fun above =>
      { above with children := above.children.eraseIdx crumb.before.length }).record? node.id =
        some record := by
    rw [Tree.record?_modify_of_ne _ hne]
    exact hrecord
  refine .step (run_update _ hparent) (.step (run_update _ hrecord')
    (Rearranges.touch (s := detachment outer crumb node) ?_ hforest))
  have hframe : ∀ id, id ≠ crumb.label.id → id ≠ node.id →
      ((tree.modify crumb.label.id fun above =>
          { above with children := above.children.eraseIdx crumb.before.length }).modify
        node.id fun node => { node with parent := none }).record? id = tree.record? id := by
    intro id howner hid
    rw [Tree.record?_modify_of_ne _ hid, Tree.record?_modify_of_ne _ howner]
  refine {
    index := rfl
    root := rfl
    kept := (hforest.kept.modify _ _).modify _ _
    container := hforest.isAtomic_of_surrounds (Tree.holds_plug.1 hholds).1 crumb (by simp)
    source := hholds
    used := fun top htop => nomatch htop
    apart := by simp [detachment]
    unrooted := by simp [detachment]
    new := fun node hnode => nomatch hnode
    loose := List.forall_mem_singleton.2 ?_
    gone := fun id hid => nomatch hid
    ids := by simp [detachment]
    raised := fun id hid => nomatch hid
    moved := fun below hbelow => .inl ⟨List.not_mem_nil, by simpa [detachment] using hbelow⟩
    owner := ?_
    frame := fun id howner hold _ => hframe id howner ?_ }
  · refine hnode.reparent rfl (hforest.nodup_of_place hholds) ?_ fun id hid hne => hframe id ?_ hne
    · rw [Tree.record?_modify_self, hrecord', hrecord]
    · rintro rfl
      exact hnotMem hid
  · change (Tree.modify _ _ _).record? crumb.label.id = (tree.record? crumb.label.id).map _
    rw [Tree.record?_modify_of_ne _ hne.symm, Tree.record?_modify_self, hparent, Option.map_some,
      Option.map_some, hchildren]
    exact congrArg some (congrArg (Record.over · above) (eraseIdx_map _ _ _))
  · rintro rfl
    simp [detachment, node.id_mem_ids] at hold

end Edit

end ConcreteSyntax
