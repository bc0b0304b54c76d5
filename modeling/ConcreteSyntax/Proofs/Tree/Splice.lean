import ConcreteSyntax.Proofs.Tree.Forest

/-!
# Splices

Every edit of a child list is a splice: among the children of a node, some nodes give way to
others, and the revisions of the node and of all nodes above it are raised.  What an edit does
to the records of an arena (`Splice.Applies`) says what it does to the trees: the arena stays
a forest, and the nodes that are not around the place are what they were, or gone.
-/

namespace ConcreteSyntax

/-- A record after a change below it. -/
def Record.raise (record : Record) : Record := { record with revision := record.revision + 1 }

/-- Nodes among the children of a node that give way to others. -/
structure Splice where
  /-- The nodes around the node. -/
  outer : List Crumb
  label : Label
  before : List Node
  old : List Node
  new : List Node
  after : List Node
  /-- The detached trees that become part of this one. -/
  used : List Node
  /-- The trees that are detached from this one. -/
  loose : List Node
  /-- The names that lead nowhere afterwards. -/
  gone : List NodeId
  /-- The names of nodes beside the place whose revisions are raised too. -/
  raised : List NodeId

namespace Splice

/-- The node with its children before the splice. -/
def owner (s : Splice) : Node := ⟨s.label, s.before ++ (s.old ++ s.after)⟩

/-- The node with its children after the splice. -/
def changed (s : Splice) : Node := ⟨s.label.raise, s.before ++ (s.new ++ s.after)⟩

/-- The node and the nodes above it. -/
def lineage (s : Splice) : List NodeId := s.label.id :: Crumb.names s.outer

/-- The names beside the place. -/
def beside (s : Splice) : List NodeId :=
  (s.before ++ s.after).flatMap Node.ids ++ Crumb.beside s.outer

/-- The tree before the splice. -/
def source (s : Splice) : Node := .plug s.outer s.owner

/-- The tree after the splice. -/
def target (s : Splice) : Node := .plug (s.outer.map Crumb.raise) s.changed

/-- Which nodes give way to which, in an arena and the arena after it. -/
structure Moves (s : Splice) (tree tree' : Tree) : Prop where
  index : tree'.index = tree.index
  root : tree'.root = tree.root
  kept : tree'.nodes.IsKept
  container : s.label.kind.isAtomic = false
  source : tree.Holds none s.source
  used : ∀ top ∈ s.used, tree.Holds none top
  apart : (s.source.id :: s.used.map Node.id).Nodup
  unrooted : tree.root ∉ s.used.map Node.id
  new : ∀ node ∈ s.new, tree'.Holds (some s.label.id) node
  loose : ∀ node ∈ s.loose, tree'.Holds none node
  gone : ∀ id ∈ s.gone, tree'.record? id = none
  ids : (s.gone ++ (s.new.flatMap Node.ids ++ s.loose.flatMap Node.ids)).Perm
    (s.old.flatMap Node.ids ++ s.used.flatMap Node.ids)
  raised : ∀ id ∈ s.raised, id ∈ s.used.map Node.id
  moved : ∀ node ∈ (s.new ++ s.loose).flatMap Node.descendants,
    node.id ∉ s.raised ∧ node ∈ (s.old ++ s.used).flatMap Node.descendants
      ∨ node.id ∈ s.raised ∧ (node.kind.isAtomic = true → node.children = [])
        ∧ ∃ top ∈ s.used, top.id = node.id ∧ node.label = top.label.raise

/-- What an edit does to the records of an arena before it raises revisions. -/
structure Rearranges (s : Splice) (tree tree' : Tree) : Prop extends s.Moves tree tree' where
  owner : tree'.record? s.label.id = (tree.record? s.label.id).map
    (Record.over ((s.before ++ (s.new ++ s.after)).map Node.id))
  frame : ∀ id, id ≠ s.label.id → id ∉ s.old.flatMap Node.ids → id ∉ s.used.flatMap Node.ids →
    tree'.record? id = tree.record? id

/-- What a splice does to the records of an arena. -/
structure Applies (s : Splice) (tree tree' : Tree) : Prop extends s.Moves tree tree' where
  owner : tree'.record? s.label.id = (tree.record? s.label.id).map fun record =>
    (record.over ((s.before ++ (s.new ++ s.after)).map Node.id)).raise
  above : ∀ id ∈ Crumb.names s.outer, tree'.record? id = (tree.record? id).map Record.raise
  frame : ∀ id, id ∉ s.lineage → id ∉ s.old.flatMap Node.ids → id ∉ s.used.flatMap Node.ids →
    tree'.record? id = tree.record? id

variable {s : Splice} {tree tree' : Tree} {id : NodeId} {node : Node}

theorem ids_owner_perm (label : Label) (before middle after : List Node) (outer : List Crumb) :
    (Node.plug outer ⟨label, before ++ (middle ++ after)⟩).ids.Perm (middle.flatMap Node.ids ++
      ((label.id :: Crumb.names outer) ++
        ((before ++ after).flatMap Node.ids ++ Crumb.beside outer))) := by
  refine (Node.ids_plug outer _).trans ?_
  have hinner : (Node.mk label (before ++ (middle ++ after))).ids.Perm
      (middle.flatMap Node.ids ++ (label.id :: (before ++ after).flatMap Node.ids)) := by
    rw [Node.ids_mk, List.flatMap_append, List.flatMap_append, List.flatMap_append]
    refine (List.Perm.cons _ (List.perm_append_comm_assoc _ _ _)).trans ?_
    exact List.perm_middle.symm
  refine (hinner.append (Crumb.ids_perm outer)).trans ?_
  rw [List.append_assoc]
  refine List.Perm.append_left _ ?_
  exact List.Perm.cons _ (List.perm_append_comm_assoc _ _ _)

/-- The names of the tree are the old ones, those around the place, and those beside it. -/
theorem ids_source (s : Splice) :
    s.source.ids.Perm (s.old.flatMap Node.ids ++ (s.lineage ++ s.beside)) :=
  ids_owner_perm s.label s.before s.old s.after s.outer

theorem ids_target (s : Splice) :
    s.target.ids.Perm (s.new.flatMap Node.ids ++ (s.lineage ++ s.beside)) := by
  have hperm := ids_owner_perm s.label.raise s.before s.new s.after (s.outer.map Crumb.raise)
  rwa [Crumb.names_map_raise, Crumb.beside_map_raise] at hperm

theorem id_target (s : Splice) : s.target.id = s.source.id :=
  (Node.id_plug_congr s.outer (show s.owner.id = s.changed.id from rfl)).symm

namespace Moves

/-! ## Names -/

/-- All names that take part in a splice are there once. -/
theorem nodup (h : s.Moves tree tree') (hforest : tree.IsForest) :
    ((s.lineage ++ s.beside) ++ (s.old.flatMap Node.ids ++ s.used.flatMap Node.ids)).Nodup := by
  have hall : ∀ tops : List Node, (∀ top ∈ tops, tree.Holds none top) →
      (tops.map Node.id).Nodup → (tops.flatMap Node.ids).Nodup := by
    intro tops htops hnodup
    induction tops with
    | nil => exact List.nodup_nil
    | cons top rest ih =>
        rw [List.forall_mem_cons] at htops
        rw [List.map_cons, List.nodup_cons] at hnodup
        rw [List.flatMap_cons, List.nodup_append]
        refine ⟨hforest.nodup htops.1, ih htops.2 hnodup.2, fun id hid other hother => ?_⟩
        rintro rfl
        obtain ⟨second, hsecond, hmem⟩ := List.mem_flatMap.1 hother
        have hsame := htops.1.eq_of_mem (htops.2 second hsecond) hid hmem
        exact hnodup.1 (hsame ▸ List.mem_map_of_mem hsecond)
  have htops : ∀ top ∈ s.source :: s.used, tree.Holds none top := by
    rw [List.forall_mem_cons]
    exact ⟨h.source, h.used⟩
  have hnodup := hall (s.source :: s.used) htops h.apart
  have hperm := (ids_source s).append_right (s.used.flatMap Node.ids)
  rw [List.append_assoc] at hperm
  exact ((hperm.trans (List.perm_append_comm_assoc _ _ _)).nodup_iff).1 hnodup

/-- What stands around or beside the place is neither old nor used. -/
theorem notMem_of_mem_rest (h : s.Moves tree tree') (hforest : tree.IsForest)
    (hid : id ∈ s.lineage ++ s.beside) :
    id ∉ s.old.flatMap Node.ids ∧ id ∉ s.used.flatMap Node.ids := by
  have hdisjoint := (List.nodup_append.1 (h.nodup hforest)).2.2
  exact ⟨fun hold => hdisjoint id hid id (List.mem_append_left _ hold) rfl,
    fun hused => hdisjoint id hid id (List.mem_append_right _ hused) rfl⟩

theorem notMem_lineage_of_beside (h : s.Moves tree tree') (hforest : tree.IsForest)
    (hid : id ∈ s.beside) : id ∉ s.lineage := by
  have hrest := (List.nodup_append.1 (h.nodup hforest)).1
  exact fun hmem => (List.nodup_append.1 hrest).2.2 id hmem id hid rfl

theorem notMem_raised (h : s.Moves tree tree') (hid : id ∉ s.used.flatMap Node.ids) :
    id ∉ s.raised := by
  intro hmem
  obtain ⟨top, htop, rfl⟩ := List.mem_map.1 (h.raised id hmem)
  exact hid (List.mem_flatMap.2 ⟨top, htop, top.id_mem_ids⟩)

theorem mem_old_or_used (h : s.Moves tree tree')
    (hid : id ∈ s.new.flatMap Node.ids ∨ id ∈ s.loose.flatMap Node.ids) :
    id ∈ s.old.flatMap Node.ids ++ s.used.flatMap Node.ids := by
  refine h.ids.subset (List.mem_append_right _ ?_)
  exact List.mem_append.2 hid

theorem notMem_lineage_of_new (h : s.Moves tree tree') (hforest : tree.IsForest)
    (hid : id ∈ s.new.flatMap Node.ids ∨ id ∈ s.loose.flatMap Node.ids) : id ∉ s.lineage := by
  intro hmem
  obtain ⟨hold, hused⟩ := h.notMem_of_mem_rest hforest (List.mem_append_left _ hmem)
  rcases List.mem_append.1 (h.mem_old_or_used hid) with hid | hid
  · exact hold hid
  · exact hused hid

theorem nodup_target (h : s.Moves tree tree') (hforest : tree.IsForest) :
    s.target.ids.Nodup ∧ (s.loose.flatMap Node.ids).Nodup := by
  have hall := (h.ids.symm.append_left (s.lineage ++ s.beside)).nodup_iff.1 (h.nodup hforest)
  have hnew := (List.nodup_append.1 (List.nodup_append.1 hall).2.1).2.1
  refine ⟨?_, (List.nodup_append.1 hnew).2.1⟩
  have hperm := (ids_target s).trans List.perm_append_comm
  refine hperm.nodup_iff.2 (hall.sublist (List.Sublist.append_left ?_ _))
  exact (List.sublist_append_left _ _).trans (List.sublist_append_right _ _)

end Moves

namespace Applies

/-! ## The tree after the splice -/

/-- What stands beside the place does not change. -/
theorem holds_beside (h : s.Applies tree tree') (hforest : tree.IsForest)
    {parent : Option NodeId} (hholds : tree.Holds parent node)
    (hbeside : ∀ id ∈ node.ids, id ∈ s.beside) : tree'.Holds parent node := by
  refine hholds.frame h.index fun id hid => ?_
  have hmem := hbeside id hid
  obtain ⟨hold, hused⟩ := h.notMem_of_mem_rest hforest (List.mem_append_right _ hmem)
  exact h.frame id (h.notMem_lineage_of_beside hforest hmem) hold hused

theorem surrounds (h : s.Applies tree tree') (hforest : tree.IsForest) :
    tree'.Surrounds none (s.outer.map Crumb.raise) s.label.id := by
  have hwithin : ∀ outer id, outer ⊆ s.outer → tree.Surrounds none outer id →
      tree'.Surrounds none (outer.map Crumb.raise) id := by
    intro outer
    induction outer with
    | nil => intros; trivial
    | cons crumb outer ih =>
        rintro id hsub ⟨⟨record, hrecord, hparent, hchildren, hlabel⟩, hsiblings, houter⟩
        obtain ⟨hcrumb, hsub⟩ := List.cons_subset.1 hsub
        refine ⟨⟨record.raise, ?_, ?_, hchildren, ?_⟩, fun sibling hsibling => ?_,
          ih _ hsub houter⟩
        · have habove := h.above crumb.label.id (List.mem_map_of_mem hcrumb)
          rw [hrecord] at habove
          exact habove
        · exact hparent.trans (by cases outer <;> rfl)
        · rw [Tree.labelOf_congr h.index]
          exact congrArg Label.raise hlabel
        · refine h.holds_beside hforest (hsiblings sibling hsibling) fun id hid => ?_
          exact List.mem_append_right _ (List.mem_flatMap.2 ⟨crumb, hcrumb,
            List.mem_flatMap.2 ⟨sibling, hsibling, hid⟩⟩)
  exact hwithin s.outer _ (List.Subset.refl _) (Tree.holds_plug.1 h.source).1

/-- The arena holds the tree after the splice. -/
theorem target (h : s.Applies tree tree') (hforest : tree.IsForest) :
    tree'.Holds none s.target := by
  refine Tree.holds_plug.2 ⟨h.surrounds hforest, ?_⟩
  have howner := (Tree.holds_plug.1 h.source).2
  obtain ⟨record, hrecord, hparent, _, hlabel⟩ := howner.record
  have hchanged := h.owner
  have hname : tree.record? s.label.id = some record := hrecord
  rw [hname, Option.map_some] at hchanged
  refine .mk hchanged ?_ rfl ?_ fun child hchild => ?_
  · exact hparent.trans (by cases s.outer <;> rfl)
  · rw [Tree.labelOf_congr h.index]
    exact congrArg Label.raise hlabel
  · have hold : child ∈ s.before ++ s.after → tree'.Holds (some s.label.id) child := by
      intro hmem
      have hheld := howner.child child (by
        rcases List.mem_append.1 hmem with hmem | hmem <;> simp [Splice.owner, Node.children, hmem])
      refine h.holds_beside hforest hheld fun id hid => ?_
      exact List.mem_append_left _ (List.mem_flatMap.2 ⟨child, hmem, hid⟩)
    rcases List.mem_append.1 hchild with hchild | hchild
    · exact hold (List.mem_append_left _ hchild)
    · rcases List.mem_append.1 hchild with hchild | hchild
      · exact h.new child hchild
      · exact hold (List.mem_append_right _ hchild)

/-! ## All trees -/

theorem mem_target_or (h : s.Applies tree tree')
    (hid : id ∈ s.source.ids ∨ id ∈ s.used.flatMap Node.ids) :
    id ∈ s.target.ids ∨ id ∈ s.loose.flatMap Node.ids ∨ id ∈ s.gone := by
  have hold : id ∈ s.old.flatMap Node.ids ++ s.used.flatMap Node.ids →
      id ∈ s.target.ids ∨ id ∈ s.loose.flatMap Node.ids ∨ id ∈ s.gone := by
    intro hmem
    rcases List.mem_append.1 (h.ids.symm.subset hmem) with hmem | hmem
    · exact .inr (.inr hmem)
    · rcases List.mem_append.1 hmem with hmem | hmem
      · exact .inl ((ids_target s).symm.subset (List.mem_append_left _ hmem))
      · exact .inr (.inl hmem)
  rcases hid with hid | hid
  · rcases List.mem_append.1 ((ids_source s).subset hid) with hid | hid
    · exact hold (List.mem_append_left _ hid)
    · exact .inl ((ids_target s).symm.subset (List.mem_append_right _ hid))
  · exact hold (List.mem_append_right _ hid)

/-- Trees that take no part in a splice are what they were. -/
theorem frame_top (h : s.Applies tree tree') {top : Node} (htop : tree.Holds none top)
    (hsource : top.id ≠ s.source.id) (hused : top.id ∉ s.used.map Node.id) :
    tree'.Holds none top ∧ ∀ id ∈ top.ids, id ∉ s.lineage ∧ id ∉ s.raised := by
  have hout : ∀ id ∈ top.ids, id ∉ s.source.ids ∧ id ∉ s.used.flatMap Node.ids := by
    intro id hid
    constructor
    · intro hmem
      exact hsource (congrArg Node.id (htop.eq_of_mem h.source hid hmem))
    · intro hmem
      obtain ⟨other, hother, hmem⟩ := List.mem_flatMap.1 hmem
      rw [htop.eq_of_mem (h.used other hother) hid hmem] at hused
      exact hused (List.mem_map_of_mem hother)
  have hlineage : ∀ id ∈ top.ids, id ∉ s.lineage := fun id hid hmem => (hout id hid).1
    ((ids_source s).symm.subset (List.mem_append_right _ (List.mem_append_left _ hmem)))
  refine ⟨htop.frame h.index fun id hid => ?_, fun id hid => ?_⟩
  · obtain ⟨hnotSource, hnotUsed⟩ := hout id hid
    refine h.frame id (hlineage id hid) (fun hmem => hnotSource ?_) hnotUsed
    exact (ids_source s).symm.subset (List.mem_append_left _ hmem)
  · exact ⟨hlineage id hid, h.notMem_raised (hout id hid).2⟩

/-- Where a name leads afterwards: into the tree of the splice, into one that it has detached,
or into one that took no part. -/
theorem cases_contains (h : s.Applies tree tree') (hforest : tree.IsForest)
    (hid : tree'.contains id = true) :
    id ∈ s.target.ids ∨ id ∈ s.loose.flatMap Node.ids
      ∨ ∃ top, tree.Holds none top ∧ id ∈ top.ids ∧ top.id ≠ s.source.id
        ∧ top.id ∉ s.used.map Node.id := by
  by_cases hpart : id ∈ s.source.ids ∨ id ∈ s.used.flatMap Node.ids
  · rcases h.mem_target_or hpart with hmem | hmem | hmem
    · exact .inl hmem
    · exact .inr (.inl hmem)
    · obtain ⟨record, hrecord⟩ := Arena.contains_iff.1 hid
      have hnone := h.gone id hmem
      rw [Tree.record?, hrecord] at hnone
      cases hnone
  · rw [not_or] at hpart
    have hsame := h.frame id
      (fun hmem => hpart.1 ((ids_source s).symm.subset
        (List.mem_append_right _ (List.mem_append_left _ hmem))))
      (fun hmem => hpart.1 ((ids_source s).symm.subset (List.mem_append_left _ hmem))) hpart.2
    have hcontains : tree.contains id = true := by
      obtain ⟨record, hrecord⟩ := Arena.contains_iff.1 hid
      exact Arena.contains_of_get? (hsame.symm.trans hrecord)
    obtain ⟨top, htop, _, hmem⟩ := hforest.top id hcontains
    refine .inr (.inr ⟨top, htop, hmem, fun hsource => ?_, fun hused => ?_⟩)
    · exact hpart.1 (htop.unique h.source hsource ▸ hmem)
    · obtain ⟨other, hother, hsame⟩ := List.mem_map.1 hused
      rw [(h.used other hother).unique htop hsame] at hother
      exact hpart.2 (List.mem_flatMap.2 ⟨top, hother, hmem⟩)

/-! ## What becomes of a node -/

/-- What a splice makes of a node that is there before and after. -/
inductive Fate (s : Splice) (id : NodeId) : Node → Node → Prop
  | above {node node' : Node} (hid : id ∈ s.lineage) (hlabel : node'.label = node.label.raise) :
      Fate s id node node'
  | raised {node node' : Node} (hid : id ∈ s.raised) (hlineage : id ∉ s.lineage)
      (hlabel : node'.label = node.label.raise) : Fate s id node node'
  | same {node : Node} (hlineage : id ∉ s.lineage) (hraised : id ∉ s.raised) :
      Fate s id node node

/-- Where a node was before, and that it is no leaf with children now. -/
def Stems (s : Splice) (tree : Tree) (node' : Node) : Prop :=
  (node'.kind.isAtomic = true → node'.children = [])
    ∧ ∃ parent node, tree.Holds parent node ∧ node.id = node'.id ∧ Fate s node'.id node node'

theorem stems_of_same (hforest : tree.IsForest) {parent : Option NodeId}
    (hholds : tree.Holds parent node) (hlineage : node.id ∉ s.lineage)
    (hraised : node.id ∉ s.raised) : Stems s tree node :=
  ⟨hforest.children_eq_nil hholds, parent, node, hholds, rfl, .same hlineage hraised⟩

theorem stems_of_beside (h : s.Applies tree tree') (hforest : tree.IsForest)
    {parent : Option NodeId} (hholds : tree.Holds parent node) (hid : node.id ∈ s.beside) :
    Stems s tree node :=
  stems_of_same hforest hholds (h.notMem_lineage_of_beside hforest hid)
    (h.notMem_raised (h.notMem_of_mem_rest hforest (List.mem_append_right _ hid)).2)

/-- A node that was moved. -/
theorem stems_of_moved (h : s.Applies tree tree') (hforest : tree.IsForest)
    (hnode : node ∈ (s.new ++ s.loose).flatMap Node.descendants) : Stems s tree node := by
  have hlineage : node.id ∉ s.lineage := by
    refine h.notMem_lineage_of_new hforest ?_
    have hid : node.id ∈ (s.new ++ s.loose).flatMap Node.ids := by
      obtain ⟨top, htop, hnode⟩ := List.mem_flatMap.1 hnode
      exact List.mem_flatMap.2 ⟨top, htop, List.mem_map_of_mem hnode⟩
    rwa [List.flatMap_append, List.mem_append] at hid
  rcases h.moved node hnode with ⟨hraised, hmem⟩ | ⟨hraised, hleaf, top, htop, hid, hlabel⟩
  · obtain ⟨top, htop, hnode⟩ := List.mem_flatMap.1 hmem
    have hheld : ∃ parent, tree.Holds parent top := by
      rcases List.mem_append.1 htop with htop | htop
      · refine ⟨_, (Tree.holds_plug.1 h.source).2.child top ?_⟩
        simp [Splice.owner, Node.children, htop]
      · exact ⟨none, h.used top htop⟩
    obtain ⟨parent, hheld⟩ := hheld
    obtain ⟨above, habove⟩ := hheld.exists_above hnode
    exact stems_of_same hforest habove hlineage hraised
  · exact ⟨hleaf, none, top, h.used top htop, hid, .raised hraised hlineage hlabel⟩

/-- A node of the tree after the splice. -/
theorem stems_of_target (h : s.Applies tree tree') (hforest : tree.IsForest)
    (hnode : node ∈ s.target.descendants) : Stems s tree node := by
  obtain ⟨hsurrounds, howner⟩ := Tree.holds_plug.1 h.source
  -- a node is at or below the owner, below a sibling on the way up, or above the owner
  rcases Node.mem_descendants_plug_iff.1 hnode with hnode | ⟨crumb, hcrumb, sibling, hsibling, hnode⟩
    | ⟨inner, rest, hsplit, hne, rfl⟩
  · rw [changed, Node.descendants_mk, List.mem_cons, List.mem_flatMap] at hnode
    rcases hnode with rfl | ⟨child, hchild, hnode⟩
    · refine ⟨fun hatomic => ?_, _, s.owner, howner, rfl, .above (List.mem_cons_self ..) rfl⟩
      have hcontainer : s.label.raise.kind.isAtomic = false := h.container
      rw [Node.kind, Node.label, hcontainer] at hatomic
      cases hatomic
    · have hold : child ∈ s.before ++ s.after → Stems s tree node := by
        intro hmem
        have hheld := howner.child child (by
          rcases List.mem_append.1 hmem with hmem | hmem <;>
            simp [Splice.owner, Node.children, hmem])
        obtain ⟨above, habove⟩ := hheld.exists_above hnode
        refine h.stems_of_beside hforest habove (List.mem_append_left _ ?_)
        exact List.mem_flatMap.2 ⟨child, hmem, List.mem_map_of_mem hnode⟩
      rcases List.mem_append.1 hchild with hchild | hchild
      · exact hold (List.mem_append_left _ hchild)
      · rcases List.mem_append.1 hchild with hchild | hchild
        · refine h.stems_of_moved hforest (List.mem_flatMap.2 ⟨child, ?_, hnode⟩)
          exact List.mem_append_left _ hchild
        · exact hold (List.mem_append_right _ hchild)
  · obtain ⟨old, hold, rfl⟩ := List.mem_map.1 hcrumb
    have hheld : ∃ above, tree.Holds above sibling := by
      obtain ⟨before, after, hsplit⟩ := List.append_of_mem hold
      refine h.source.exists_above ?_
      rw [Splice.source, Node.mem_descendants_plug_iff]
      exact .inr (.inl ⟨old, hold, sibling, hsibling, sibling.self_mem_descendants⟩)
    obtain ⟨parent, hheld⟩ := hheld
    obtain ⟨above, habove⟩ := hheld.exists_above hnode
    refine h.stems_of_beside hforest habove (List.mem_append_right _ ?_)
    exact List.mem_flatMap.2 ⟨old, hold, List.mem_flatMap.2 ⟨sibling, hsibling,
      List.mem_map_of_mem hnode⟩⟩
  · obtain ⟨inner, rest, houter, rfl, rfl⟩ := List.map_eq_append_iff.1 hsplit
    have hheld : tree.Holds (Tree.above none rest) (.plug inner s.owner) := by
      have hsource := h.source
      rw [Splice.source, houter, Node.plug_append] at hsource
      exact (Tree.holds_plug.1 hsource).2
    have hid := Node.id_plug_congr inner (show s.owner.id = s.changed.id from rfl)
    have hlabel := Node.label_plug_raise inner (show s.changed.label = s.owner.label.raise from rfl)
    rcases List.eq_nil_or_concat inner with rfl | ⟨inner, crumb, rfl⟩
    · exact absurd rfl hne
    · have hcrumb : crumb ∈ s.outer := by simp [houter]
      have hcontainer := hforest.isAtomic_of_surrounds hsurrounds crumb hcrumb
      refine ⟨fun hatomic => ?_, _, _, hheld, hid, .above ?_ hlabel⟩
      · rw [Node.kind, hlabel, List.concat_eq_append, Node.plug_concat] at hatomic
        rw [Node.label, Label.kind_raise, hcontainer] at hatomic
        cases hatomic
      · rw [← hid, List.concat_eq_append, Node.plug_concat]
        exact List.mem_cons_of_mem _ (List.mem_map_of_mem hcrumb)

/-! ## The forest after the splice -/

/-- Every node of the arena after the splice is read with all that is below it, was there
before, and is no leaf with children. -/
theorem stems (h : s.Applies tree tree') (hforest : tree.IsForest)
    (hid : tree'.contains id = true) :
    ∃ top node, tree'.Holds none top ∧ top.ids.Nodup ∧ node ∈ top.descendants ∧ node.id = id
      ∧ Stems s tree node := by
  obtain ⟨hnodup, hloose⟩ := h.nodup_target hforest
  rcases h.cases_contains hforest hid with hmem | hmem | ⟨top, htop, hmem, hsource, hused⟩
  · obtain ⟨node, hnode, rfl⟩ := List.mem_map.1 hmem
    exact ⟨s.target, node, h.target hforest, hnodup, hnode, rfl, h.stems_of_target hforest hnode⟩
  · obtain ⟨top, htop, hmem⟩ := List.mem_flatMap.1 hmem
    obtain ⟨node, hnode, rfl⟩ := List.mem_map.1 hmem
    refine ⟨top, node, h.loose top htop, ?_, hnode, rfl, h.stems_of_moved hforest ?_⟩
    · exact hloose.sublist (List.sublist_flatten_of_mem (List.mem_map_of_mem htop))
    · exact List.mem_flatMap.2 ⟨top, List.mem_append_right _ htop, hnode⟩
  · obtain ⟨hholds, hout⟩ := h.frame_top htop hsource hused
    obtain ⟨node, hnode, rfl⟩ := List.mem_map.1 hmem
    obtain ⟨above, habove⟩ := htop.exists_above hnode
    obtain ⟨hlineage, hraised⟩ := hout _ hmem
    exact ⟨top, node, hholds, hforest.nodup htop, hnode, rfl,
      stems_of_same hforest habove hlineage hraised⟩

/-- A splice keeps an arena a forest. -/
theorem isForest (h : s.Applies tree tree') (hforest : tree.IsForest) : tree'.IsForest where
  kept := h.kept
  root := by
    obtain ⟨node, hroot, hkind, hholds⟩ := hforest.root
    by_cases hsource : node.id = s.source.id
    · have hsame := hholds.unique h.source hsource
      refine ⟨s.target, ?_, ?_, h.target hforest⟩
      · rw [s.id_target, ← hsource, hroot, h.root]
      · have hkinds := Node.kind_plug_congr s.outer (show s.owner.kind = s.changed.kind from rfl)
        rw [hsame] at hkind
        exact hkinds.symm.trans hkind
    · have hused : node.id ∉ s.used.map Node.id := hroot ▸ h.unrooted
      exact ⟨node, hroot.trans h.root.symm, hkind, (h.frame_top hholds hsource hused).1⟩
  top id hid := by
    obtain ⟨top, node, hholds, hnodup, hnode, rfl, _⟩ := h.stems hforest hid
    exact ⟨top, hholds, hnodup, List.mem_map_of_mem hnode⟩
  leaf id record hrecord hatomic := by
    obtain ⟨top, node, hholds, _, hnode, rfl, hleaf, _⟩ :=
      h.stems hforest (Arena.contains_of_get? hrecord)
    obtain ⟨above, habove⟩ := hholds.exists_above hnode
    obtain ⟨found, hfound, _, hchildren, hlabel⟩ := habove.record
    have hsame : found = record := Option.some.inj (hfound.symm.trans hrecord)
    have hkind : node.kind = record.kind := by rw [Node.kind, ← hlabel, hsame]; rfl
    rw [← hsame, hchildren, hleaf (hkind ▸ hatomic)]
    rfl

/-- Every node that a splice leaves was there before, and is the same, or has its revision
raised. -/
theorem fate (h : s.Applies tree tree') (hforest : tree.IsForest)
    (hid : tree'.contains id = true) :
    ∃ node node', tree.node? id = some node ∧ tree'.node? id = some node' ∧ Fate s id node node' := by
  obtain ⟨top, node', hholds', _, hnode', rfl, _, parent, node, hholds, hsame, hfate⟩ :=
    h.stems hforest hid
  refine ⟨node, node', ?_, (h.isForest hforest).node?_eq_of_mem hholds' hnode', hfate⟩
  rw [← hsame]
  exact hforest.node?_eq_of_holds hholds

/-- The names that lead nowhere after a splice are those that are gone. -/
theorem contains_iff (h : s.Applies tree tree') (hforest : tree.IsForest) :
    tree'.contains id = true ↔ tree.contains id = true ∧ id ∉ s.gone := by
  constructor
  · intro hid
    obtain ⟨node, node', hnode, _⟩ := h.fate hforest hid
    refine ⟨Tree.contains_of_node? hnode, fun hgone => ?_⟩
    obtain ⟨record, hrecord⟩ := Arena.contains_iff.1 hid
    have hnone := h.gone id hgone
    rw [Tree.record?, hrecord] at hnone
    cases hnone
  · rintro ⟨hid, hgone⟩
    by_cases hpart : id ∈ s.source.ids ∨ id ∈ s.used.flatMap Node.ids
    · rcases h.mem_target_or hpart with hmem | hmem | hmem
      · exact (h.target hforest).contains hmem
      · obtain ⟨top, htop, hmem⟩ := List.mem_flatMap.1 hmem
        exact (h.loose top htop).contains hmem
      · exact absurd hmem hgone
    · rw [not_or] at hpart
      obtain ⟨record, hrecord⟩ := Arena.contains_iff.1 hid
      refine Arena.contains_of_get? ((h.frame id ?_ ?_ hpart.2).trans hrecord)
      · exact fun hmem => hpart.1 ((ids_source s).symm.subset
          (List.mem_append_right _ (List.mem_append_left _ hmem)))
      · exact fun hmem => hpart.1 ((ids_source s).symm.subset (List.mem_append_left _ hmem))

end Applies

end Splice

end ConcreteSyntax
