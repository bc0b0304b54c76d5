import ConcreteSyntax.Proofs.Tree.Splice
import ConcreteSyntax.Proofs.Tree.Wrap
import ConcreteSyntax.Tree.Edit.Replacement

/-!
# Steps of edits

What the steps that edits are made of do to a forest: looking for the place of a node,
climbing to the top of its tree, raising revisions on the way, and freeing a tree.
-/

namespace ConcreteSyntax

namespace Tree

variable {tree tree' : Tree} {start parent : Option NodeId} {id : NodeId} {ids : List NodeId}
  {crumb : Crumb} {crumbs outer : List Crumb} {node : Node}

/-! ## Climbing -/

/-- Whether names lead upwards, each to the parent of the one before, up to a node without a
parent. -/
def Climbs (tree : Tree) : Option NodeId → List NodeId → Prop
  | start, [] => start = none
  | start, id :: rest =>
      start = some id ∧ ∃ record, tree.record? id = some record ∧ tree.Climbs record.parent rest

theorem Climbs.contains (h : tree.Climbs start ids) : ∀ id ∈ ids, tree.contains id = true := by
  induction ids generalizing start with
  | nil => simp
  | cons first rest ih =>
      obtain ⟨_, record, hrecord, hrest⟩ := h
      exact List.forall_mem_cons.2 ⟨Arena.contains_of_get? hrecord, ih hrest⟩

/-- What keeps the parents keeps the way up. -/
theorem Climbs.frame (h : tree.Climbs start ids)
    (hsame : ∀ id ∈ ids, (tree'.record? id).map (·.parent) = (tree.record? id).map (·.parent)) :
    tree'.Climbs start ids := by
  induction ids generalizing start with
  | nil => exact h
  | cons first rest ih =>
      obtain ⟨hstart, record, hrecord, hrest⟩ := h
      rw [List.forall_mem_cons, hrecord] at hsame
      obtain ⟨record', hrecord', hparent⟩ := Option.map_eq_some_iff.1 hsame.1
      exact ⟨hstart, record', hrecord', hparent ▸ ih hrest hsame.2⟩

theorem Surrounds.climbs (h : tree.Surrounds none crumbs id) :
    tree.Climbs (above none crumbs) (Crumb.names crumbs) := by
  induction crumbs generalizing id with
  | nil => rfl
  | cons crumb outer ih =>
      obtain ⟨⟨record, hrecord, hparent, _⟩, _, houter⟩ := h
      exact ⟨rfl, record, hrecord, hparent ▸ ih houter⟩

theorem Holds.climbs (h : tree.Holds none (.plug crumbs node)) :
    tree.Climbs (some node.id) (node.id :: Crumb.names crumbs) := by
  obtain ⟨hsurrounds, hholds⟩ := holds_plug.1 h
  obtain ⟨record, hrecord, hparent, _⟩ := hholds.record
  exact ⟨rfl, record, hrecord, hparent ▸ hsurrounds.climbs⟩

theorem Climbs.length_le (h : tree.Climbs start ids) (hkept : tree.nodes.IsKept)
    (hnodup : ids.Nodup) : ids.length ≤ tree.size + 1 := by
  have hle := hkept.length_le_size hnodup h.contains
  have hsize : tree.size = tree.nodes.size := rfl
  omega

theorem Climbs.lineageWithin_eq (h : tree.Climbs start ids) {fuel : Nat}
    (hfuel : ids.length ≤ fuel) : tree.lineageWithin fuel start = ids := by
  induction ids generalizing start fuel with
  | nil =>
      rw [show start = none from h]
      cases fuel <;> rfl
  | cons first rest ih =>
      obtain ⟨rfl, record, hrecord, hrest⟩ := h
      cases fuel with
      | zero => simp at hfuel
      | succ fuel =>
          have hread := ih hrest (Nat.le_of_succ_le_succ hfuel)
          simp only [lineageWithin, hrecord, hread]

/-- The names around a place and that of the node there differ. -/
theorem nodup_lineage (h : (Node.plug crumbs node).ids.Nodup) :
    (node.id :: Crumb.names crumbs).Nodup := by
  have hparts := (Node.ids_plug crumbs node).nodup_iff.1 h
  have hnames := (hparts.perm ((Crumb.ids_perm crumbs).append_left _))
  have hid : [node.id].Sublist node.ids := List.singleton_sublist.2 node.id_mem_ids
  exact hnames.sublist (hid.append (List.sublist_append_left _ _))

theorem id_plug_mem (crumbs : List Crumb) (node : Node) :
    (Node.plug crumbs node).id ∈ node.id :: Crumb.names crumbs := by
  induction crumbs generalizing node with
  | nil => exact List.mem_cons_self ..
  | cons crumb outer ih => exact List.mem_cons_of_mem _ (ih ⟨crumb.label, _⟩)

/-- What is in a place is not around it. -/
theorem IsForest.notMem_names (h : tree.IsForest) (hholds : tree.Holds none (.plug crumbs node))
    (hid : id ∈ node.ids) : id ∉ Crumb.names crumbs := by
  have hparts := (Node.ids_plug crumbs node).nodup_iff.1 (h.nodup hholds)
  intro hmem
  have hrest := (Crumb.ids_perm crumbs).symm.subset (List.mem_append_left _ hmem)
  exact (List.nodup_append.1 hparts).2.2 id hid id hrest rfl

/-- The index of a node among the children of its parent is the number of those before it. -/
theorem IsForest.idxOf?_children (h : tree.IsForest)
    (hholds : tree.Holds none (.plug (crumb :: outer) node)) :
    (tree.children crumb.label.id).idxOf? node.id = some crumb.before.length := by
  obtain ⟨⟨⟨above, habove, _, hchildren, _⟩, _, _⟩, _⟩ := holds_plug.1 hholds
  have hnotMem : node.id ∉ crumb.before.map Node.id := by
    have hnodup := (Node.ids_plug (crumb :: outer) node).nodup_iff.1 (h.nodup hholds)
    intro hmem
    obtain ⟨sibling, hsibling, hid⟩ := List.mem_map.1 hmem
    refine (List.nodup_append.1 hnodup).2.2 node.id node.id_mem_ids node.id ?_ rfl
    refine List.mem_flatMap.2 ⟨crumb, List.mem_cons_self .., List.mem_cons_of_mem _ ?_⟩
    exact List.mem_flatMap.2 ⟨sibling, List.mem_append_left _ hsibling, hid ▸ sibling.id_mem_ids⟩
  simp only [Tree.children, habove, Option.map_some, Option.getD_some, hchildren]
  rw [List.idxOf?_eq_some_iff]
  refine ⟨by simp, by simp, fun index hlt hmem => hnotMem ?_⟩
  rw [List.getElem_append_left (by simpa using hlt)] at hmem
  exact hmem ▸ List.getElem_mem _

theorem IsForest.nodup_of_place (h : tree.IsForest)
    (hholds : tree.Holds none (.plug crumbs node)) : node.ids.Nodup :=
  (List.nodup_append.1 ((Node.ids_plug crumbs node).nodup_iff.1 (h.nodup hholds))).1

theorem IsForest.lineage_eq (h : tree.IsForest) (hholds : tree.Holds none (.plug crumbs node)) :
    tree.lineage node.id = node.id :: Crumb.names crumbs :=
  hholds.climbs.lineageWithin_eq
    (hholds.climbs.length_le h.kept (nodup_lineage (h.nodup hholds)))

/-! ## Records after changes -/

theorem record?_modify (tree : Tree) (id other : NodeId) (change : Record → Record) :
    (tree.modify id change).record? other =
      if other = id then (tree.record? other).map change else tree.record? other := by
  by_cases hother : other = id
  · rw [if_pos hother, hother, record?_modify_self]
  · rw [if_neg hother, record?_modify_of_ne change hother]

theorem record?_modifyEach_of_nodup (tree : Tree) (change : Record → Record)
    (hnodup : ids.Nodup) (id : NodeId) :
    (tree.modifyEach ids change).record? id =
      if id ∈ ids then (tree.record? id).map change else tree.record? id := by
  induction ids generalizing tree with
  | nil => rfl
  | cons first rest ih =>
      obtain ⟨hfirst, hrest⟩ := List.nodup_cons.1 hnodup
      change ((tree.modify first change).modifyEach rest change).record? id = _
      rw [ih _ hrest, record?_modify]
      by_cases hid : id = first
      · subst hid
        simp [hfirst]
      · simp [hid]

theorem kept_modifyEach (h : tree.nodes.IsKept) (ids : List NodeId) (change : Record → Record) :
    (tree.modifyEach ids change).nodes.IsKept := by
  induction ids generalizing tree with
  | nil => exact h
  | cons first rest ih => exact ih (h.modify first change)

/-! ## Refusals -/

/-- Why a node has no place below another, if it has none. -/
def placeRefusal? (tree : Tree) (id : NodeId) : Option EditError :=
  if id = tree.root then some .root
  else
    match tree.record? id with
    | none => some (.stale id)
    | some record => if record.parent.isNone then some (.detached id) else none

/-- Why a node cannot have a child at an index. -/
def holdRefusal? (tree : Tree) (parent : NodeId) (index : Nat) : Option EditError :=
  match tree.record? parent with
  | none => some (.stale parent)
  | some record =>
      if record.kind.isAtomic then some (.atomic record.kind)
      else if record.children.length < index then
        some (.outOfBounds index record.children.length)
      else none

/-- Why a node cannot be put below another. -/
def joinRefusal? (tree : Tree) (parent child : NodeId) : Option EditError :=
  if child = tree.root then some .root
  else
    match tree.record? child with
    | none => some (.stale child)
    | some record =>
        if record.parent.isSome then some (.attached child)
        else if child ∈ tree.lineage parent then some (.cycle child)
        else none

/-! ## Freeing -/

/-- The names that are freed with a node are those in its tree. -/
theorem Holds.mem_freeOrderWithin (h : tree.Holds parent node) {fuel : Nat}
    (hfuel : node.size ≤ fuel) : id ∈ tree.freeOrderWithin fuel node.id ↔ id ∈ node.ids := by
  induction h generalizing fuel with
  | @mk parent label children record hrecord hparent hchildren hlabel hbelow ih =>
      cases fuel with
      | zero => simp [Node.size] at hfuel
      | succ fuel =>
          have hnames : tree.children label.id = children.map Node.id := by
            simp [Tree.children, hrecord, hchildren]
          have hmem : ∀ child ∈ children,
              (id ∈ tree.freeOrderWithin fuel child.id ↔ id ∈ child.ids) := by
            intro child hchild
            refine ih child hchild ?_
            have hsize := Node.size_le_sizeAll hchild
            simp only [Node.size] at hfuel
            omega
          change id ∈ label.id :: (tree.children label.id).reverse.flatMap
            (tree.freeOrderWithin fuel) ↔ _
          rw [hnames, Node.ids_mk, List.mem_cons, List.mem_cons, List.mem_flatMap, List.mem_flatMap]
          refine or_congr_right ⟨?_, ?_⟩
          · rintro ⟨name, hname, hid⟩
            obtain ⟨child, hchild, rfl⟩ := List.mem_map.1 (List.mem_reverse.1 hname)
            exact ⟨child, hchild, (hmem child hchild).1 hid⟩
          · rintro ⟨child, hchild, hid⟩
            exact ⟨child.id, List.mem_reverse.2 (List.mem_map_of_mem hchild),
              (hmem child hchild).2 hid⟩

theorem record?_free (hkept : tree.nodes.IsKept) (hholds : tree.Holds parent node)
    (hnodup : node.ids.Nodup) (id : NodeId) :
    (tree.free node.id).record? id = if id ∈ node.ids then none else tree.record? id := by
  have hsize : node.size ≤ tree.size := by
    rw [← Node.length_ids]
    exact hkept.length_le_size hnodup fun id hid => hholds.contains hid
  have horder : id ∈ tree.freeOrderWithin (tree.size + 1) node.id ↔ id ∈ node.ids :=
    hholds.mem_freeOrderWithin (Nat.le_succ_of_le hsize)
  change ((tree.freeOrderWithin (tree.size + 1) node.id).foldl Arena.remove tree.nodes).get? id = _
  rw [Arena.get?_foldl_remove]
  by_cases hid : id ∈ node.ids
  · rw [if_pos hid, if_pos (horder.2 hid)]
  · rw [if_neg hid, if_neg (fun hmem => hid (horder.1 hmem))]
    rfl

end Tree

namespace Edit

variable {tree tree' : Tree} {start : Option NodeId} {id : NodeId} {ids : List NodeId}
  {crumb : Crumb} {crumbs outer : List Crumb} {node : Node}

theorem run_lineageWithin (h : tree.Climbs start ids) {fuel : Nat} (hfuel : ids.length ≤ fuel) :
    (lineageWithin fuel start).run tree = .ok ids tree := by
  induction ids generalizing start fuel with
  | nil =>
      rw [show start = none from h]
      cases fuel <;> rfl
  | cons first rest ih =>
      obtain ⟨rfl, record, hrecord, hrest⟩ := h
      cases fuel with
      | zero => simp at hfuel
      | succ fuel =>
          rw [lineageWithin, run_bind, run_record, hrecord]
          dsimp only
          rw [run_bind, ih hrest (Nat.le_of_succ_le_succ hfuel)]
          rfl

theorem run_lineage (hkept : tree.nodes.IsKept) (h : tree.Climbs (some id) ids)
    (hnodup : ids.Nodup) : (lineage id).run tree = .ok ids tree := by
  have hget : (get : Edit Tree).run tree = .ok tree tree := rfl
  rw [lineage, run_bind, hget]
  exact run_lineageWithin h (h.length_le hkept hnodup)

/-- Raising revisions from a node upwards. -/
theorem run_touch (hkept : tree.nodes.IsKept) (h : tree.Climbs (some id) ids)
    (hnodup : ids.Nodup) : (touch id).run tree = .ok () (tree.modifyEach ids Record.raise) := by
  rw [touch, run_bind, run_lineage hkept h hnodup]
  exact run_forM_update Record.raise fun id hid => Arena.contains_iff.1 (h.contains id hid)

/-- Looking for the place of a node. -/
theorem run_position (h : tree.IsForest)
    (hholds : tree.Holds none (.plug (crumb :: outer) node)) :
    (position node.id).run tree = .ok (crumb.label.id, crumb.before.length) tree := by
  obtain ⟨⟨⟨above, habove, _, hchildren, _⟩, _, _⟩, hnode⟩ := Tree.holds_plug.1 hholds
  obtain ⟨record, hrecord, hparent, _⟩ := hnode.record
  have hroot : node.id ≠ tree.root := by
    obtain ⟨top, htop, _, hheld⟩ := h.root
    obtain ⟨found, hfound, hnone, _⟩ := hheld.record
    intro hroot
    rw [htop, ← hroot, hrecord] at hfound
    rw [← Option.some.inj hfound, hparent] at hnone
    cases hnone
  have hindex := h.idxOf?_children hholds
  simp only [Tree.children, habove, Option.map_some, Option.getD_some] at hindex
  have hget : (get : Edit Tree).run tree = .ok tree tree := rfl
  rw [position, run_bind, hget]
  dsimp only
  rw [if_neg hroot]
  rw [run_bind, run_live, hrecord]
  dsimp only
  rw [show record.parent = some crumb.label.id from hparent]
  dsimp only
  rw [run_bind, run_record, habove]
  dsimp only
  rw [hindex]
  rfl

/-- A node has a place below another, or looking for its place is refused. -/
theorem position_cases (h : tree.IsForest) (id : NodeId) :
    (∃ error, tree.placeRefusal? id = some error
        ∧ (position id).run tree = .error (.refused error) tree)
      ∨ tree.placeRefusal? id = none
        ∧ ∃ crumb outer node, node.id = id ∧ tree.Holds none (.plug (crumb :: outer) node) := by
  have hget : (get : Edit Tree).run tree = .ok tree tree := rfl
  by_cases hroot : id = tree.root
  · refine .inl ⟨.root, by rw [Tree.placeRefusal?, if_pos hroot], ?_⟩
    rw [position, run_bind, hget]
    dsimp only
    rw [if_pos hroot]
    rfl
  · rw [Tree.placeRefusal?, if_neg hroot]
    cases hrecord : tree.record? id with
    | none =>
        refine .inl ⟨.stale id, rfl, ?_⟩
        rw [position, run_bind, hget]
        dsimp only
        rw [if_neg hroot, run_bind, run_live, hrecord]
    | some record =>
        obtain ⟨crumbs, node, rfl, hholds, _⟩ := h.exists_place (Arena.contains_of_get? hrecord)
        obtain ⟨found, hfound, hparent, _⟩ := (Tree.holds_plug.1 hholds).2.record
        obtain rfl : found = record := Option.some.inj (hfound.symm.trans hrecord)
        cases crumbs with
        | cons crumb outer =>
            exact .inr ⟨if_neg (by rw [hparent]; simp [Tree.above]), crumb, outer, node, rfl, hholds⟩
        | nil =>
            have hnone : found.parent = none := hparent
            refine .inl ⟨.detached node.id, if_pos (by simp [hnone]), ?_⟩
            rw [position, run_bind, hget]
            dsimp only
            rw [if_neg hroot, run_bind, run_live, hrecord]
            dsimp only
            rw [hnone]
            rfl

/-! ## Conditions on edits -/

/-- Whether an edit of a tree meets a condition where it succeeds, leaves the tree as it was
where it is refused, and never breaks. -/
def Yields {α : Type} (edit : Edit α) (tree : Tree) (post : α → Tree → Prop) : Prop :=
  match edit.run tree with
  | .ok value after => post value after
  | .error (.refused _) after => after = tree
  | .error (.broken _) _ => False

/-- Whether an edit of a tree succeeds and meets a condition. -/
def Succeeds {α : Type} (edit : Edit α) (tree : Tree) (post : α → Tree → Prop) : Prop :=
  ∃ value after, edit.run tree = .ok value after ∧ post value after

section Conditions

variable {α β : Type} {tree : Tree} {post : α → Tree → Prop} {id : NodeId}

theorem Succeeds.step {edit : Edit β} {value : β} {after : Tree} {next : β → Edit α}
    (hrun : edit.run tree = .ok value after) (h : (next value).Succeeds after post) :
    (edit >>= next).Succeeds tree post := by
  obtain ⟨result, last, hlast, hpost⟩ := h
  exact ⟨result, last, by rw [run_bind, hrun]; exact hlast, hpost⟩

theorem Succeeds.guard {c : Prop} [Decidable c] {error : EditError} {next : Unit → Edit α}
    (hc : ¬c) (h : (next ()).Succeeds tree post) :
    (if c then refuse error >>= next else next ()).Succeeds tree post := by
  rwa [if_neg hc]

theorem Succeeds.mono {edit : Edit α} {post' : α → Tree → Prop} (h : edit.Succeeds tree post)
    (himp : ∀ value after, post value after → post' value after) : edit.Succeeds tree post' := by
  obtain ⟨value, after, hrun, hpost⟩ := h
  exact ⟨value, after, hrun, himp value after hpost⟩

/-- Whether an edit of a tree is refused for just the reason that is given, if one is, and leaves
the tree as it was then; and succeeds and meets a condition where none is given. -/
def Answers (edit : Edit α) (tree : Tree) (refusal? : Option EditError)
    (post : α → Tree → Prop) : Prop :=
  match refusal? with
  | some error => edit.run tree = .error (.refused error) tree
  | none => edit.Succeeds tree post

variable {refusal? : Option EditError}

theorem Answers.of_succeeds {edit : Edit α} (hnone : refusal? = none)
    (h : edit.Succeeds tree post) : edit.Answers tree refusal? post := by
  rwa [hnone]

theorem Answers.of_refused {edit : Edit α} {error : EditError} (hsome : refusal? = some error)
    (hrun : edit.run tree = .error (.refused error) tree) : edit.Answers tree refusal? post := by
  rwa [hsome]

theorem Answers.yields {edit : Edit α} (h : edit.Answers tree refusal? post) :
    edit.Yields tree post := by
  unfold Yields
  cases refusal? with
  | some error => rw [show edit.run tree = _ from h]
  | none =>
      obtain ⟨value, after, hrun, hpost⟩ := h
      rwa [hrun]

theorem Answers.mono {edit : Edit α} {post' : α → Tree → Prop}
    (h : edit.Answers tree refusal? post)
    (himp : ∀ value after, post value after → post' value after) :
    edit.Answers tree refusal? post' := by
  cases refusal? with
  | some error => exact h
  | none => exact Succeeds.mono h himp

/-- A step that leaves the tree as it is. -/
theorem Answers.read {edit : Edit β} {value : β} {next : β → Edit α}
    (hrun : edit.run tree = .ok value tree) (h : (next value).Answers tree refusal? post) :
    (edit >>= next).Answers tree refusal? post := by
  cases refusal? with
  | some error =>
      have hsame : (edit >>= next).run tree = (next value).run tree := by rw [run_bind, hrun]
      exact hsame.trans h
  | none => exact .step hrun h

/-- A step that refuses what may not be done. -/
theorem Answers.guard {c : Prop} [Decidable c] {error : EditError} {next : Unit → Edit α}
    (hrefused : c → refusal? = some error) (h : ¬c → (next ()).Answers tree refusal? post) :
    (if c then refuse error >>= next else next ()).Answers tree refusal? post := by
  by_cases hc : c
  · rw [if_pos hc]
    exact .of_refused (hrefused hc) rfl
  · rw [if_neg hc]
    exact h hc

theorem Answers.live {next : Record → Edit α}
    (hstale : tree.record? id = none → refusal? = some (.stale id))
    (h : ∀ record, tree.record? id = some record →
      (next record).Answers tree refusal? post) :
    (Edit.live id >>= next).Answers tree refusal? post := by
  cases hrecord : tree.record? id with
  | none => exact .of_refused (hstale hrecord) (by rw [run_bind, run_live, hrecord])
  | some record => exact .read (by rw [run_live, hrecord]) (h record hrecord)

theorem Answers.position (hforest : tree.IsForest) {next : NodeId × Nat → Edit α}
    (hrefused : ∀ error, tree.placeRefusal? id = some error → refusal? = some error)
    (h : ∀ crumb outer node, node.id = id → tree.Holds none (.plug (crumb :: outer) node) →
      tree.placeRefusal? id = none →
      (next (crumb.label.id, crumb.before.length)).Answers tree refusal? post) :
    (Edit.position id >>= next).Answers tree refusal? post := by
  rcases position_cases hforest id with ⟨error, hplace, hrun⟩ | ⟨hplace, crumb, outer, node, rfl,
    hholds⟩
  · exact .of_refused (hrefused error hplace) (by rw [run_bind, hrun])
  · exact .read (run_position hforest hholds) (h crumb outer node rfl hholds hplace)

end Conditions

end Edit

end ConcreteSyntax
