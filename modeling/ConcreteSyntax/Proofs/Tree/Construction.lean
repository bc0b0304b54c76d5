import ConcreteSyntax.Proofs.Node.Place
import ConcreteSyntax.Proofs.Pairing
import ConcreteSyntax.Proofs.Tree.Wrap

/-!
# Construction in an arena

An arena that holds one tree and nothing else (`Tree.Keeps`) holds one again after a node was
added behind the children of another, after a node was given its end, and after a run of
siblings was wrapped.  None of these operations breaks on a tree that lies over its text.
-/

namespace ConcreteSyntax

namespace Tree

variable {tree tree' : Tree} {parent : Option NodeId} {lines : LineIndex} {next : Nat}
  {crumbs : List Crumb}

theorem Shows.at_place {node : Node} (h : tree.Shows parent (.plug crumbs node)) :
    ∃ above, tree.Shows above node := by
  induction crumbs generalizing node with
  | nil => exact ⟨parent, h⟩
  | cons crumb outer ih =>
      obtain ⟨above, habove⟩ := ih h
      exact ⟨_, (shows_mk.1 habove).2 node (by simp)⟩

/-- An arena that changes at a place shows the tree with the new node there. -/
theorem Shows.plug {node node' : Node} (h : tree.Shows parent (.plug crumbs node))
    (hid : node'.id = node.id) (hnode : ∀ above, tree.Shows above node → tree'.Shows above node')
    (hsame : ∀ id ∈ crumbs.flatMap Crumb.ids, tree'.record? id = tree.record? id) :
    tree'.Shows parent (.plug crumbs node') := by
  induction crumbs generalizing node node' with
  | nil => exact hnode parent h
  | cons crumb outer ih =>
      rw [List.flatMap_cons, List.forall_mem_append, Crumb.ids, List.forall_mem_cons] at hsame
      obtain ⟨⟨hself, hbeside⟩, houter⟩ := hsame
      refine ih h rfl (fun above habove => ?_) houter
      obtain ⟨hrecord, hchildren⟩ := shows_mk.1 habove
      refine shows_mk.2 ⟨?_, fun child hchild => ?_⟩
      · rw [hself, hrecord]
        simp [hid]
      · have hbeside : child ∈ crumb.before ∨ child ∈ crumb.after →
            tree'.Shows (some crumb.label.id) child := by
          intro hmem
          refine (hchildren child ?_).frame fun id hid =>
            hbeside id (List.mem_flatMap.2 ⟨child, List.mem_append.2 hmem, hid⟩)
          rcases hmem with hmem | hmem <;> simp [hmem]
        rcases List.mem_append.1 hchild with hchild | hchild
        · exact hbeside (.inl hchild)
        · rcases List.mem_cons.1 hchild with rfl | hchild
          · exact hnode _ (hchildren node (by simp))
          · exact hbeside (.inr hchild)

/-- An arena that holds a tree over a text, each of its nodes once, and nothing else. -/
structure Keeps (tree : Tree) (lines : LineIndex) (next : Nat) (top : Node) : Prop where
  index : tree.index = lines
  root : tree.root = top.id
  compact : tree.Compact next
  shows : tree.Shows none top
  numbered : top.Numbered next

variable {top node node' : Node}

theorem Keeps.represents (h : tree.Keeps lines next top) (notes : List Diagnostic) :
    tree.Represents ⟨lines, top, next, notes⟩ := ⟨h.index, h.root, h.compact, h.shows⟩

theorem Represents.keeps {parse : Parse} (h : tree.Represents parse)
    (hnumbered : parse.root.Numbered parse.next) :
    tree.Keeps parse.lines parse.next parse.root := ⟨h.index, h.root, h.compact, h.shows, hnumbered⟩

theorem Keeps.index_lt (h : tree.Keeps lines next top) {id : NodeId} (hid : id ∈ top.ids) :
    id.index < next := by
  obtain ⟨record, hrecord⟩ := h.shows.exists_record hid
  exact h.compact.record?_lt hrecord

theorem Keeps.record?_eq {label : Label} {children : List Node}
    (h : tree.Keeps lines next (.plug crumbs ⟨label, children⟩)) :
    ∃ above, tree.record? label.id = some (recordOf above label (children.map Node.id)) := by
  obtain ⟨above, habove⟩ := h.shows.at_place
  exact ⟨above, habove.record?_eq⟩

theorem Keeps.nodup_at (h : tree.Keeps lines next (.plug crumbs node)) : node.ids.Nodup :=
  (List.nodup_append.1 ((Node.ids_plug crumbs node).nodup_iff.1 h.numbered.nodup)).1

/-- A change at a place that takes the next names for new nodes. -/
theorem Keeps.change (h : tree.Keeps lines next (.plug crumbs node)) {next' : Nat}
    (hle : next ≤ next') (hindex : tree'.index = tree.index) (hroot : tree'.root = tree.root)
    (hcompact : tree'.Compact next') (hid : node'.id = node.id)
    (hids : node'.ids.Perm (freshIds next next' ++ node.ids))
    (hnode : ∀ above, tree.Shows above node → tree'.Shows above node')
    (hsame : ∀ id, id.index < next → id ∉ node.ids → tree'.record? id = tree.record? id) :
    tree'.Keeps lines next' (.plug crumbs node') := by
  have hperm := Node.ids_plug crumbs node
  have hout : ∀ id ∈ crumbs.flatMap Crumb.ids, id.index < next ∧ id ∉ node.ids := by
    intro id hmem
    have hnodup := hperm.nodup_iff.1 h.numbered.nodup
    refine ⟨h.index_lt (hperm.symm.subset (List.mem_append_right _ hmem)), fun hinside => ?_⟩
    exact (List.nodup_append.1 hnodup).2.2 id hinside id hmem rfl
  have hplug : (Node.plug crumbs node').ids.Perm
      (freshIds next next' ++ (Node.plug crumbs node).ids) := by
    refine (Node.ids_plug crumbs node').trans ((hids.append_right _).trans ?_)
    rw [List.append_assoc]
    exact hperm.symm.append_left _
  refine ⟨hindex.trans h.index, hroot.trans (h.root.trans (Node.id_plug crumbs hid).symm), hcompact,
    ?_, ?_⟩
  · exact h.shows.plug hid hnode fun id hmem => hsame id (hout id hmem).1 (hout id hmem).2
  · have hold : (Node.plug crumbs node).ids.Perm (freshIds 0 next) := by
      rw [freshIds, Nat.sub_zero, ← List.range_eq_range']
      exact h.numbered
    have hnew : (Node.plug crumbs node').ids.Perm (freshIds 0 next') := by
      rw [← freshIds_append (Nat.zero_le next) hle]
      exact (hplug.trans (hold.append_left _)).trans List.perm_append_comm
    rwa [freshIds, Nat.sub_zero, ← List.range_eq_range'] at hnew

end Tree

theorem Tree.keeps_new (text : List Char) :
    (Tree.new text).Keeps (.ofText text) 1
      ⟨.ofRange (.ofText text) (.fresh 0) .root (.ofLength 0 (Text.byteLength text)), []⟩ where
  index := rfl
  root := rfl
  compact := ⟨rfl, rfl, rfl, fun index hlt => by
    obtain rfl : index = 0 := by omega
    exact ⟨_, rfl⟩⟩
  shows := Tree.shows_mk.2 ⟨rfl, by simp⟩
  numbered := by
    rw [Node.Numbered, Node.ids_mk]
    exact List.Perm.refl _

theorem Wraps.plug {lines : LineIndex} {kinds : Kind → Prop} {next : Nat} {node node' : Node}
    (h : Wraps lines kinds next node node') (crumbs : List Crumb) :
    Wraps lines kinds next (.plug crumbs node) (.plug crumbs node') := by
  induction crumbs generalizing node node' with
  | nil => exact h
  | cons crumb outer ih => exact ih (.inside h)

/-! ## Steps -/

namespace Edit

variable {tree : Tree} {parent child : NodeId} {above node : Record}

/-- Making a node the last child of a container that is there succeeds. -/
theorem run_attach (habove : tree.record? parent = some above)
    (hkind : above.kind.isAtomic = false) (hchild : tree.record? child = some node)
    (hne : parent ≠ child) :
    (attach parent child).run tree =
      .ok () ((tree.modify child (.under parent)).modify parent fun node =>
        node.over (node.children ++ [child])) := by
  rw [attach, run_bind, run_record, habove]
  dsimp only
  rw [hkind]
  change (update child (.under parent) >>= fun _ => update parent _).run tree = _
  rw [run_bind, run_update _ hchild]
  dsimp only
  rw [run_update _ ((Tree.record?_modify_of_ne _ hne).trans habove)]

end Edit

namespace Tree

variable {tree : Tree} {lines : LineIndex} {next : Nat} {crumbs : List Crumb} {label : Label}
  {children : List Node}

/-- Adding a node behind the children of another. -/
theorem Keeps.run_addLeaf (h : tree.Keeps lines next (.plug crumbs ⟨label, children⟩))
    (hlabel : label.kind.isAtomic = false) (kind : Kind) {range : Range}
    (hstart : Text.isBoundary lines.text range.start = true)
    (hstop : Text.isBoundary lines.text range.stop = true) :
    ∃ tree', (Edit.addLeaf label.id kind range).run tree = .ok (.fresh next) tree'
      ∧ tree'.Keeps lines (next + 1)
        (.plug crumbs ⟨label, children ++ [⟨.ofRange lines (.fresh next) kind range, []⟩]⟩) := by
  obtain ⟨above, habove⟩ := h.record?_eq
  have hne : label.id ≠ .fresh next := h.compact.ne_fresh habove
  have hnodup := h.nodup_at
  rw [Node.ids_mk, List.nodup_cons] at hnodup
  have hindex := h.index
  subst hindex
  let leaf : Record := { kind, range, lines := tree.index.span range }
  have hgrown : ∀ id, (tree.grow leaf).record? id =
      if id = .fresh next then some leaf else tree.record? id := h.compact.record?_grow leaf
  have howner : (tree.grow leaf).record? label.id =
      some (recordOf above label (children.map Node.id)) := by rw [hgrown, if_neg hne, habove]
  have hleaf : (tree.grow leaf).record? (.fresh next) = some leaf := by rw [hgrown, if_pos rfl]
  -- the leaf is allocated first, and then put behind the children of its owner
  have hrun : (Edit.addLeaf label.id kind range).run tree = .ok (.fresh next)
      (((tree.grow leaf).modify (.fresh next) (.under label.id)).modify label.id fun node =>
        node.over (node.children ++ [.fresh next])) := by
    rw [Edit.addLeaf, Edit.run_bind, Edit.run_allocOver h.compact kind hstart hstop]
    dsimp only
    rw [Edit.run_bind, Edit.run_attach howner hlabel hleaf hne]
    rfl
  refine ⟨_, hrun, ?_⟩
  generalize htree : ((tree.grow leaf).modify (.fresh next) (.under label.id)).modify label.id
    (fun node => node.over (node.children ++ [.fresh next])) = tree'
  have hself : tree'.record? label.id =
      some (recordOf above label (children.map Node.id ++ [.fresh next])) := by
    rw [← htree, record?_modify_self, record?_modify_of_ne _ hne, howner]
    rfl
  have hnew : tree'.record? (.fresh next) = some (leaf.under label.id) := by
    rw [← htree, record?_modify_of_ne _ hne.symm, record?_modify_self, hleaf]
    rfl
  have hframe : ∀ id, id.index < next → id ≠ label.id → tree'.record? id = tree.record? id := by
    intro id hlt hid
    have hfresh : id ≠ .fresh next := by
      rintro rfl
      exact Nat.lt_irrefl next hlt
    rw [← htree, record?_modify_of_ne _ hid, record?_modify_of_ne _ hfresh, hgrown, if_neg hfresh]
  -- the arena differs at the owner and at the new leaf, and nowhere else
  refine h.change (Nat.le_succ next) (by rw [← htree]; rfl) (by rw [← htree]; rfl) ?_ rfl ?_ ?_ ?_
  · rw [← htree]
    exact ((h.compact.grow leaf).modify _ _).modify _ _
  · rw [freshIds_succ, Node.ids_mk, Node.ids_mk, List.flatMap_append]
    exact List.perm_append_singleton _ (label.id :: children.flatMap Node.ids)
  · intro parent hparent
    obtain ⟨hrecord, hchildren⟩ := shows_mk.1 hparent
    have hsame : above = parent :=
      congrArg Record.parent (Option.some.inj (habove.symm.trans hrecord))
    subst hsame
    refine shows_mk.2 ⟨by rw [hself, List.map_append]; rfl, fun child hchild => ?_⟩
    rcases List.mem_append.1 hchild with hchild | hchild
    · refine (hchildren child hchild).frame fun id hid => hframe id ?_ ?_
      · obtain ⟨record, hrecord⟩ := (hchildren child hchild).exists_record hid
        exact h.compact.record?_lt hrecord
      · rintro rfl
        exact hnodup.1 (List.mem_flatMap.2 ⟨child, hchild, hid⟩)
    · obtain rfl := List.mem_singleton.1 hchild
      exact shows_mk.2 ⟨hnew, by simp⟩
  · intro id hlt hid
    refine hframe id hlt fun heq => hid ?_
    rw [Node.ids_mk, heq]
    exact List.mem_cons_self ..

/-- Giving a node its end. -/
theorem Keeps.run_endAt (h : tree.Keeps lines next (.plug crumbs ⟨label, children⟩)) {stop : Nat}
    (hstart : Text.isBoundary lines.text label.range.start = true)
    (hstop : Text.isBoundary lines.text stop = true) :
    ∃ tree', (Edit.endAt label.id stop).run tree = .ok () tree'
      ∧ tree'.Keeps lines next (.plug crumbs
        ⟨{ label with
            range := .upTo label.range.start stop
            lines := lines.span (.upTo label.range.start stop) }, children⟩) := by
  obtain ⟨above, habove⟩ := h.record?_eq
  have hnodup := h.nodup_at
  rw [Node.ids_mk, List.nodup_cons] at hnodup
  have hindex := h.index
  subst hindex
  have hbegin : Text.isBoundary tree.index.text (Range.upTo label.range.start stop).start = true :=
    hstart
  have hend : Text.isBoundary tree.index.text (Range.upTo label.range.start stop).stop = true := by
    rcases Nat.le_total stop label.range.start with hle | hle
    · simpa [Range.upTo, Nat.max_eq_right hle] using hstart
    · simpa [Range.upTo, Nat.max_eq_left hle] using hstop
  have hrun : (Edit.endAt label.id stop).run tree = .ok () (tree.modify label.id fun node =>
      { node with
        range := .upTo label.range.start stop
        lines := tree.index.span (.upTo label.range.start stop) }) := by
    rw [Edit.endAt, Edit.run_bind, Edit.run_record, habove]
    dsimp only [recordOf]
    rw [Edit.run_bind, Edit.run_linesOf hbegin hend]
    exact Edit.run_update _ habove
  refine ⟨_, hrun, ?_⟩
  have hframe : ∀ id, id ≠ label.id → (tree.modify label.id fun node =>
      { node with
        range := .upTo label.range.start stop
        lines := tree.index.span (.upTo label.range.start stop) }).record? id =
      tree.record? id := fun id hid => record?_modify_of_ne _ hid
  refine h.change (Nat.le_refl next) rfl rfl (h.compact.modify label.id _) rfl ?_ ?_ ?_
  · rw [freshIds_self, Node.ids_mk, Node.ids_mk]
    exact List.Perm.refl _
  · intro parent hparent
    obtain ⟨hrecord, hchildren⟩ := shows_mk.1 hparent
    refine shows_mk.2 ⟨?_, fun child hchild => ?_⟩
    · refine (record?_modify_self ..).trans ?_
      rw [hrecord]
      rfl
    · refine (hchildren child hchild).frame fun id hid => hframe id ?_
      rintro rfl
      exact hnodup.1 (List.mem_flatMap.2 ⟨child, hchild, hid⟩)
  · intro id _ hid
    refine hframe id fun heq => hid ?_
    rw [Node.ids_mk, heq]
    exact List.mem_cons_self ..

/-- Wrapping a run of the children of a node. -/
theorem Keeps.run_wrapRun {before run after : List Node} {sound : Prop}
    (h : tree.Keeps lines next (.plug crumbs ⟨label, before ++ (run ++ after)⟩))
    (hfits : Node.All (Node.Fits lines sound) ⟨label, before ++ (run ++ after)⟩)
    (hrun : run ≠ []) (kind : Kind) :
    ∃ tree', (Edit.wrapRun label.id before.length (before.length + run.length - 1) kind).run tree =
        .ok (.fresh next) tree'
      ∧ tree'.Keeps lines (next + 1)
        (.plug crumbs ⟨label, before ++ (Node.wrap lines (.fresh next) kind run :: after)⟩) := by
  obtain ⟨above, hshows⟩ := h.shows.at_place
  have hindex := h.index
  subst hindex
  obtain ⟨tree', hedit, hindex, hroot, hcompact, hshows', hframe⟩ :=
    hshows.run_wrapRun kind h.compact h.nodup_at hfits hrun
  refine ⟨tree', hedit,
    h.change (Nat.le_succ next) hindex hroot hcompact rfl ?_ ?_ fun id hlt hid => ?_⟩
  · rw [freshIds_succ]
    have hwrap : Wraps tree.index (fun _ => True) next ⟨label, before ++ (run ++ after)⟩
        ⟨label, before ++ (Node.wrap tree.index (.fresh next) kind run :: after)⟩ :=
      .here hrun trivial
    exact hwrap.ids_perm
  · intro other hother
    exact hshows.parent_eq hother ▸ hshows'
  · refine hframe id ?_ hid
    rintro rfl
    exact Nat.lt_irrefl next hlt

end Tree

end ConcreteSyntax
