import ConcreteSyntax.Proofs.Tree.Representation
import ConcreteSyntax.Tree.Edit.Construction

/-!
# Wrapping runs in an arena

What `Edit.wrapRun` does to the records of an arena (`Tree.Wrapped`): the new node takes the
next slot, its children and its parent refer to it, and no other record changes.  An arena
that showed a tree then shows the tree with the run wrapped.
-/

namespace ConcreteSyntax

namespace Tree

variable {tree : Tree} {next : Nat}

theorem record?_modify_self (tree : Tree) (id : NodeId) (change : Record → Record) :
    (tree.modify id change).record? id = (tree.record? id).map change :=
  Arena.get?_modify_self _ _ _

theorem record?_modify_of_ne {id other : NodeId} (change : Record → Record) (h : other ≠ id) :
    (tree.modify id change).record? other = tree.record? other :=
  Arena.get?_modify_of_ne _ h

/-- The arena with one more node. -/
def grow (tree : Tree) (record : Record) : Tree :=
  { tree with nodes := (tree.nodes.alloc record).2 }

/-- The arena with several nodes changed. -/
def modifyEach (tree : Tree) (ids : List NodeId) (change : Record → Record) : Tree :=
  ids.foldl (fun tree id => tree.modify id change) tree

theorem Compact.alloc_eq (h : tree.Compact next) (record : Record) :
    tree.nodes.alloc record =
      (.fresh next, ⟨tree.nodes.slots.push ⟨0, some record⟩, [], next + 1⟩) := by
  rw [Arena.alloc, h.free]
  simp only [h.length, h.size]

theorem Compact.slots_grow (h : tree.Compact next) (record : Record) :
    (tree.grow record).nodes = ⟨tree.nodes.slots.push ⟨0, some record⟩, [], next + 1⟩ := by
  rw [Tree.grow, h.alloc_eq]

theorem Compact.grow (h : tree.Compact next) (record : Record) :
    (tree.grow record).Compact (next + 1) := by
  have hnodes := h.slots_grow record
  refine ⟨by rw [hnodes], by rw [hnodes], by simp [hnodes, h.length], fun index hlt => ?_⟩
  rw [hnodes]
  simp only [Array.getElem?_push, h.length]
  split
  · exact ⟨record, rfl⟩
  · exact h.slot index (by omega)

theorem Compact.record?_grow (h : tree.Compact next) (record : Record) (id : NodeId) :
    (tree.grow record).record? id = if id = .fresh next then some record else tree.record? id := by
  refine Option.ext fun found => ?_
  rw [(h.grow record).record?_eq_some]
  simp only [h.slots_grow, Array.getElem?_push, h.length]
  split
  · rename_i hid
    subst hid
    constructor
    · rintro ⟨index, hindex, hslot⟩
      have hsame : index = next := (congrArg NodeId.index hindex).symm
      simpa [hsame] using hslot
    · intro hfound
      exact ⟨next, rfl, by simpa using hfound⟩
  · rename_i hid
    rw [h.record?_eq_some]
    refine exists_congr fun index => and_congr_right fun hindex => ?_
    rw [if_neg]
    rintro rfl
    exact hid hindex

theorem Compact.modify (h : tree.Compact next) (id : NodeId) (change : Record → Record) :
    (tree.modify id change).Compact next := by
  cases hrecord : tree.record? id with
  | none =>
      have hsame : tree.modify id change = tree := by
        have hnone : tree.nodes.get? id = none := hrecord
        simp [Tree.modify, Arena.modify, hnone]
      exact hsame.symm ▸ h
  | some record =>
      obtain ⟨index, rfl, hslot⟩ := h.record?_eq_some.1 hrecord
      have hsome : tree.nodes.get? (.fresh index) = some record := hrecord
      have hnodes : (tree.modify (.fresh index) change).nodes = { tree.nodes with
          slots := tree.nodes.slots.setIfInBounds index ⟨0, some (change record)⟩ } := by
        simp only [Tree.modify, Arena.modify, hsome]
        rfl
      refine ⟨by rw [hnodes, h.free], by rw [hnodes, h.size], by simp [hnodes, h.length], ?_⟩
      intro other hlt
      rw [hnodes]
      simp only [Array.getElem?_setIfInBounds]
      split
      · exact ⟨change record, by simp [*, h.length]⟩
      · exact h.slot other hlt

end Tree

namespace Edit

variable {tree : Tree} {next : Nat}

theorem run_alloc (h : tree.Compact next) (record : Record) :
    (alloc record).run tree = .ok (.fresh next) (tree.grow record) := by
  change EStateM.Result.ok (tree.nodes.alloc record).1 (tree.grow record) = _
  rw [h.alloc_eq]

theorem run_linesOf {range : Range} (hstart : Text.isBoundary tree.index.text range.start = true)
    (hstop : Text.isBoundary tree.index.text range.stop = true) :
    (linesOf range).run tree = .ok (tree.index.span range) tree := by
  have hspan : tree.index.span? range = some (tree.index.span range) := by
    simp [LineIndex.span?, hstart, hstop]
  have hget : (get : Edit Tree).run tree = .ok tree tree := rfl
  rw [linesOf, run_bind, hget]
  dsimp only
  rw [hspan]
  rfl

theorem run_allocOver (h : tree.Compact next) (kind : Kind) {range : Range}
    (hstart : Text.isBoundary tree.index.text range.start = true)
    (hstop : Text.isBoundary tree.index.text range.stop = true) :
    (allocOver kind range).run tree =
      .ok (.fresh next) (tree.grow { kind, range, lines := tree.index.span range }) := by
  rw [allocOver, run_bind, run_linesOf hstart hstop]
  exact run_alloc h _

/-- Changing several nodes that are there succeeds. -/
theorem run_forM_update {ids : List NodeId} (change : Record → Record)
    (h : ∀ id ∈ ids, ∃ record, tree.record? id = some record) :
    (ids.forM fun id => update id change).run tree =
      .ok () (tree.modifyEach ids change) := by
  induction ids generalizing tree with
  | nil => rfl
  | cons id rest ih =>
      rw [List.forall_mem_cons] at h
      obtain ⟨⟨record, hrecord⟩, hrest⟩ := h
      change (update id change >>= fun _ => rest.forM fun id => update id change).run tree = _
      rw [run_bind, run_update change hrecord]
      refine ih fun other hother => ?_
      by_cases hid : other = id
      · exact ⟨change record, by rw [hid, Tree.record?_modify_self, hrecord]; rfl⟩
      · rw [Tree.record?_modify_of_ne change hid]
        exact hrest other hother

theorem run_runOf {parent : NodeId} {above : Record} {before run after : List NodeId}
    (h : tree.record? parent = some above) (hchildren : above.children = before ++ (run ++ after))
    (hrun : run ≠ []) :
    (runOf parent before.length (before.length + run.length - 1)).run tree = .ok run tree := by
  have hpos := List.length_pos_iff.2 hrun
  have hlength : above.children.length = before.length + (run.length + after.length) := by
    simp [hchildren]
  have htake : (above.children.take (before.length + run.length - 1 + 1)).drop before.length =
      run := by
    rw [Nat.sub_add_cancel (by omega), hchildren, List.take_length_add_append,
      List.drop_left, List.take_left]
  rw [runOf, if_neg (by omega)]
  dsimp only
  rw [run_bind, run_record, h]
  dsimp only
  rw [if_neg (by omega)]
  exact congrArg (EStateM.Result.ok · tree) htake

end Edit

namespace Tree

variable {tree : Tree} {next : Nat}

theorem record?_modifyEach (tree : Tree) {change : Record → Record}
    (hchange : ∀ record, change (change record) = change record) (ids : List NodeId)
    (id : NodeId) :
    (tree.modifyEach ids change).record? id =
      if id ∈ ids then (tree.record? id).map change else tree.record? id := by
  induction ids generalizing tree with
  | nil => rfl
  | cons head rest ih =>
      change ((tree.modify head change).modifyEach rest change).record? id = _
      rw [ih]
      by_cases hhead : id = head
      · subst hhead
        rw [record?_modify_self, if_pos (List.mem_cons_self ..)]
        cases tree.record? id <;> simp [hchange]
      · rw [record?_modify_of_ne change hhead]
        simp [hhead]

theorem Compact.modifyEach (h : tree.Compact next) (ids : List NodeId)
    (change : Record → Record) : (tree.modifyEach ids change).Compact next := by
  induction ids generalizing tree with
  | nil => exact h
  | cons head rest ih => exact ih (h.modify head change)

theorem index_modifyEach (tree : Tree) (ids : List NodeId) (change : Record → Record) :
    (tree.modifyEach ids change).index = tree.index
      ∧ (tree.modifyEach ids change).root = tree.root := by
  induction ids generalizing tree with
  | nil => exact ⟨rfl, rfl⟩
  | cons head rest ih => exact ih (tree.modify head change)

/-- What becomes of an arena when a run of the children of a node gets a parent of its own,
which takes the `next`-th name. -/
structure Wrapped (tree : Tree) (owner : NodeId) (before adopted after : List NodeId)
    (node : Record) (next : Nat) (tree' : Tree) : Prop where
  index : tree'.index = tree.index
  root : tree'.root = tree.root
  compact : tree'.Compact (next + 1)
  new : tree'.record? (.fresh next) = some node
  parent : tree'.record? owner =
    (tree.record? owner).map (.over (before ++ .fresh next :: after))
  run : ∀ id ∈ adopted, tree'.record? id = (tree.record? id).map (.under (.fresh next))
  frame : ∀ id, id ≠ .fresh next → id ≠ owner → id ∉ adopted →
    tree'.record? id = tree.record? id

end Tree

namespace Tree

variable {tree : Tree} {next : Nat} {owner : NodeId} {above : Record}
  {before adopted after : List NodeId}

/-- The arena in which a node was added over a run of the children of another. -/
def adopt (tree : Tree) (owner : NodeId) (start stop : Nat) (adopted : List NodeId)
    (node : Record) (next : Nat) : Tree :=
  (((tree.grow node).modifyEach adopted (.under (.fresh next))).modify (.fresh next) fun new =>
    (new.under owner).over adopted).modify owner fun above =>
      above.over (above.children.take start ++ .fresh next :: above.children.drop (stop + 1))

/-- The records between the two links that a wrap makes. -/
theorem Compact.record?_adopted (h : tree.Compact next)
    (hrecords : ∀ id ∈ adopted, ∃ record, tree.record? id = some record) (node : Record)
    (id : NodeId) :
    ((tree.grow node).modifyEach adopted (.under (.fresh next))).record? id =
      if id = .fresh next then some node
      else if id ∈ adopted then (tree.record? id).map (.under (.fresh next))
      else tree.record? id := by
  have hunder : ∀ record : Record, (record.under (.fresh next)).under (.fresh next) =
      record.under (.fresh next) := fun _ => rfl
  rw [record?_modifyEach _ hunder, h.record?_grow]
  by_cases hid : id = .fresh next
  · rw [if_neg, if_pos hid, if_pos hid]
    intro hmem
    obtain ⟨record, hrecord⟩ := hrecords id hmem
    exact h.ne_fresh hrecord hid
  · rw [if_neg hid, if_neg hid]

theorem Compact.wrapped_adopt (h : tree.Compact next) (habove : tree.record? owner = some above)
    (hchildren : above.children = before ++ (adopted ++ after)) (hadopted : adopted ≠ [])
    (hrecords : ∀ id ∈ adopted, ∃ record, tree.record? id = some record)
    (howner : owner ∉ adopted) (node : Record) :
    tree.Wrapped owner before adopted after
      ((node.under owner).over adopted) next
      (tree.adopt owner before.length (before.length + adopted.length - 1) adopted node next) := by
  have hmiddle := h.record?_adopted hrecords node
  have hne : owner ≠ .fresh next := h.ne_fresh habove
  have hpos := List.length_pos_iff.2 hadopted
  have hbefore : above.children.take before.length = before := by
    rw [hchildren, List.take_left]
  have hafter : above.children.drop (before.length + adopted.length - 1 + 1) = after := by
    rw [Nat.sub_add_cancel (by omega), hchildren, ← List.append_assoc, List.drop_left']
    simp
  obtain ⟨hindex, hroot⟩ := index_modifyEach (tree.grow node) adopted (.under (.fresh next))
  refine ⟨hindex, hroot, (((h.grow node).modifyEach _ _).modify _ _).modify _ _, ?_, ?_, ?_, ?_⟩
  · rw [adopt, record?_modify_of_ne _ (Ne.symm hne), record?_modify_self, hmiddle, if_pos rfl]
    rfl
  · rw [adopt, record?_modify_self, record?_modify_of_ne _ hne, hmiddle, if_neg hne,
      if_neg howner, habove]
    simp only [Option.map_some, Record.over, hbefore, hafter]
  · intro id hid
    obtain ⟨record, hrecord⟩ := hrecords id hid
    rw [adopt, record?_modify_of_ne _ (by rintro rfl; exact howner hid),
      record?_modify_of_ne _ (h.ne_fresh hrecord), hmiddle, if_neg (h.ne_fresh hrecord),
      if_pos hid]
  · intro id hfresh hid hmem
    rw [adopt, record?_modify_of_ne _ hid, record?_modify_of_ne _ hfresh, hmiddle,
      if_neg hfresh, if_neg hmem]

end Tree

namespace Edit

/-- Wrapping a run that is there succeeds. -/
theorem run_wrapRun {owner : NodeId} {above first last : Record}
    {before adopted after : List NodeId} (h : tree.Compact next)
    (habove : tree.record? owner = some above)
    (hchildren : above.children = before ++ (adopted ++ after)) (hadopted : adopted ≠ [])
    (hrecords : ∀ id ∈ adopted, ∃ record, tree.record? id = some record)
    (howner : owner ∉ adopted)
    (hfirst : tree.record? (adopted.head?.getD owner) = some first)
    (hlast : tree.record? (adopted.getLast?.getD owner) = some last)
    (hstart : Text.isBoundary tree.index.text (first.range.cover last.range).start = true)
    (hstop : Text.isBoundary tree.index.text (first.range.cover last.range).stop = true)
    (kind : Kind) :
    (wrapRun owner before.length (before.length + adopted.length - 1) kind).run tree =
      .ok (.fresh next) (tree.adopt owner before.length (before.length + adopted.length - 1)
        adopted { kind, range := first.range.cover last.range
                  lines := tree.index.span (first.range.cover last.range) } next) := by
  have hne := h.ne_fresh habove
  have hmiddle := h.record?_adopted hrecords
    { kind, range := first.range.cover last.range
      lines := tree.index.span (first.range.cover last.range) }
  rw [wrapRun, run_bind, run_runOf habove hchildren hadopted]
  dsimp only
  rw [run_bind, run_record, hfirst]
  dsimp only
  rw [run_bind, run_record, hlast]
  dsimp only
  rw [run_bind, run_allocOver h kind hstart hstop]
  dsimp only
  rw [run_bind, run_forM_update _ fun id hid => by
    obtain ⟨record, hrecord⟩ := hrecords id hid
    exact ⟨record, by rw [h.record?_grow, if_neg (h.ne_fresh hrecord), hrecord]⟩]
  dsimp only
  rw [run_bind, run_update _ (by rw [hmiddle, if_pos rfl])]
  dsimp only
  rw [run_bind, run_update _ (by
    rw [Tree.record?_modify_of_ne _ hne, hmiddle, if_neg hne, if_neg howner, habove])]
  rfl

end Edit

namespace Node

/-- Among nodes with names of their own, a name from below is not that of one of them. -/
theorem notMem_map_id {nodes : List Node} (h : (nodes.flatMap ids).Nodup) {node : Node}
    (hnode : node ∈ nodes) {id : NodeId} (hid : id ∈ node.children.flatMap ids) :
    id ∉ nodes.map Node.id := by
  have hself : id ∈ node.ids := by
    obtain ⟨label, children⟩ := node
    rw [ids_mk]
    exact List.mem_cons_of_mem _ hid
  induction nodes with
  | nil => simp at hnode
  | cons head rest ih =>
      rw [List.flatMap_cons, List.nodup_append] at h
      obtain ⟨hhead, hrest, hdisjoint⟩ := h
      rw [List.map_cons, List.mem_cons, not_or]
      rcases List.mem_cons.1 hnode with rfl | hnode
      · refine ⟨?_, fun hmem => hdisjoint id hself id ((map_id_sublist rest).subset hmem) rfl⟩
        obtain ⟨label, children⟩ := node
        rw [ids_mk, List.nodup_cons] at hhead
        rintro rfl
        exact hhead.1 hid
      · refine ⟨?_, ih hrest hnode⟩
        rintro rfl
        exact hdisjoint head.id (List.mem_map_of_mem head.self_mem_descendants) head.id
          (List.mem_flatMap.2 ⟨node, hnode, hself⟩) rfl

end Node

namespace Tree

variable {tree tree' : Tree} {next : Nat} {parent : Option NodeId}

/-- A tree whose root goes to another parent is still shown. -/
theorem Shows.under {node : Node} (h : tree.Shows parent node) {owner : NodeId}
    (hself : tree'.record? node.id = (tree.record? node.id).map (Record.under owner))
    (hsame : ∀ id ∈ node.children.flatMap Node.ids, tree'.record? id = tree.record? id) :
    tree'.Shows (some owner) node := by
  obtain ⟨label, children⟩ := node
  obtain ⟨hrecord, hchildren⟩ := shows_mk.1 h
  refine shows_mk.2 ⟨?_, fun child hchild => ?_⟩
  · exact hself.trans (congrArg (Option.map (Record.under owner)) hrecord)
  · exact (hchildren child hchild).frame fun id hid =>
      hsame id (List.mem_flatMap.2 ⟨child, hchild, hid⟩)

variable {label : Label} {before run after : List Node}

/-- An arena in which a run was wrapped shows the tree with the run wrapped. -/
theorem Wrapped.shows {kind : Kind} {lines : LineIndex}
    (h : tree.Wrapped label.id (before.map Node.id) (run.map Node.id) (after.map Node.id)
      (recordOf (some label.id) (Node.wrap lines (.fresh next) kind run).label (run.map Node.id))
      next tree')
    (hshows : tree.Shows parent ⟨label, before ++ (run ++ after)⟩)
    (hnodup : (Node.mk label (before ++ (run ++ after))).ids.Nodup)
    (hfresh : NodeId.fresh next ∉ (Node.mk label (before ++ (run ++ after))).ids) :
    tree'.Shows parent
      ⟨label, before ++ (Node.wrap lines (.fresh next) kind run :: after)⟩ := by
  obtain ⟨hrecord, hchildren⟩ := shows_mk.1 hshows
  simp only [Node.ids_mk, List.nodup_cons] at hnodup
  simp only [Node.ids_mk, List.mem_cons, not_or] at hfresh
  have hframe : ∀ id ∈ (before ++ (run ++ after)).flatMap Node.ids, id ∉ run.map Node.id →
      tree'.record? id = tree.record? id := fun id hid =>
    h.frame id (fun heq => hfresh.2 (heq ▸ hid)) (fun heq => hnodup.1 (heq ▸ hid))
  have hall := hnodup.2
  rw [List.flatMap_append, List.flatMap_append, List.nodup_append, List.nodup_append] at hall
  obtain ⟨-, ⟨hrunNodup, -, hrunAfter⟩, hbeforeRest⟩ := hall
  -- siblings of the run are not touched: identifiers are not repeated
  have hothers : ∀ child ∈ before ++ after, tree'.Shows (some label.id) child := by
    intro child hchild
    have hmem : child ∈ before ++ (run ++ after) := by
      rcases List.mem_append.1 hchild with hchild | hchild <;> simp [hchild]
    refine (hchildren child hmem).frame fun id hid => ?_
    refine hframe id (List.mem_flatMap.2 ⟨child, hmem, hid⟩) fun hrun => ?_
    have hrun := (Node.map_id_sublist run).subset hrun
    rcases List.mem_append.1 hchild with hchild | hchild
    · exact hbeforeRest id (List.mem_flatMap.2 ⟨child, hchild, hid⟩) id
        (List.mem_append_left _ hrun) rfl
    · exact hrunAfter id hrun id (List.mem_flatMap.2 ⟨child, hchild, hid⟩) rfl
  refine shows_mk.2 ⟨?_, fun child hchild => ?_⟩
  · rw [h.parent, hrecord]
    simp only [Option.map_some, Record.over, recordOf, List.map_append, List.map_cons]
    rfl
  · rcases List.mem_append.1 hchild with hchild | hchild
    · exact hothers child (List.mem_append_left _ hchild)
    · rcases List.mem_cons.1 hchild with rfl | hchild
      · refine shows_mk.2 ⟨h.new, fun below hbelow => ?_⟩
        refine (hchildren below (by simp [hbelow])).under ?_ fun id hid => ?_
        · exact h.run _ (List.mem_map_of_mem hbelow)
        · refine hframe id (List.mem_flatMap.2 ⟨below, by simp [hbelow], ?_⟩)
            (Node.notMem_map_id hrunNodup hbelow hid)
          obtain ⟨label, children⟩ := below
          rw [Node.ids_mk]
          exact List.mem_cons_of_mem _ hid
      · exact hothers child (List.mem_append_right _ hchild)

/-- Wrapping a run of the children of a node that an arena shows succeeds, and the arena then
shows the node with the run wrapped. -/
theorem Shows.run_wrapRun {sound : Prop}
    (h : tree.Shows parent ⟨label, before ++ (run ++ after)⟩) (kind : Kind)
    (hcompact : tree.Compact next)
    (hnodup : (Node.mk label (before ++ (run ++ after))).ids.Nodup)
    (hfits : Node.All (Node.Fits tree.index sound) ⟨label, before ++ (run ++ after)⟩)
    (hrun : run ≠ []) :
    ∃ tree', (Edit.wrapRun label.id before.length (before.length + run.length - 1) kind).run tree =
        .ok (.fresh next) tree'
      ∧ tree'.index = tree.index ∧ tree'.root = tree.root ∧ tree'.Compact (next + 1)
      ∧ tree'.Shows parent
        ⟨label, before ++ (Node.wrap tree.index (.fresh next) kind run :: after)⟩
      ∧ ∀ id, id ≠ .fresh next → id ∉ (Node.mk label (before ++ (run ++ after))).ids →
        tree'.record? id = tree.record? id := by
  obtain ⟨hrecord, hchildren⟩ := shows_mk.1 h
  obtain ⟨first, hfirst⟩ : ∃ first, run.head? = some first :=
    Option.isSome_iff_exists.1 (by simpa using hrun)
  obtain ⟨last, hlast⟩ : ∃ last, run.getLast? = some last :=
    Option.isSome_iff_exists.1 (by simpa using hrun)
  have hrecords : ∀ child ∈ run, tree.record? child.id = some _ := fun child hchild =>
    (hchildren child (by simp [hchild])).record?_eq
  have hrange : (Node.wrap tree.index (.fresh next) kind run).range =
      first.range.cover last.range := by
    simp only [Node.range, Node.wrap, Node.label, Label.ofRange, hfirst, hlast]
    rfl
  -- the new node fits its text because its run tiles it
  have hwrapped : (Node.wrap tree.index (.fresh next) kind run).Fits tree.index False := by
    have hwrap : Wraps tree.index (fun _ => True) next ⟨label, before ++ (run ++ after)⟩
        ⟨label, before ++ (Node.wrap tree.index (.fresh next) kind run :: after)⟩ :=
      .here hrun trivial
    have hall := hwrap.fits False.elim fun below hbelow => (hfits below hbelow).mono False.elim
    exact (hall.children _ (by simp [Node.children])).self
  have hfresh : NodeId.fresh next ∉ (Node.mk label (before ++ (run ++ after))).ids := by
    intro hmem
    obtain ⟨record, hrecord⟩ := h.exists_record hmem
    exact hcompact.ne_fresh hrecord rfl
  have howner : label.id ∉ run.map Node.id := by
    intro hmem
    rw [Node.ids_mk, List.nodup_cons] at hnodup
    refine hnodup.1 ?_
    simp only [List.flatMap_append, List.mem_append]
    exact .inr (.inl ((Node.map_id_sublist run).subset hmem))
  have hexists : ∀ id ∈ run.map Node.id, ∃ record, tree.record? id = some record := by
    intro id hid
    obtain ⟨child, hchild, rfl⟩ := List.mem_map.1 hid
    exact ⟨_, hrecords child hchild⟩
  have hsplit : (recordOf parent label ((before ++ (run ++ after)).map Node.id)).children =
      before.map Node.id ++ (run.map Node.id ++ after.map Node.id) := by
    simp [recordOf]
  have hnonempty : run.map Node.id ≠ [] := by simpa using hrun
  -- what the call does to the arena, and what the arena shows after it
  have hrunEdit := Edit.run_wrapRun hcompact hrecord hsplit hnonempty hexists howner
    (by rw [List.head?_map, hfirst]; exact hrecords first (List.mem_of_head? hfirst))
    (by rw [List.getLast?_map, hlast]; exact hrecords last (List.mem_of_getLast? hlast))
    (hrange ▸ hwrapped.start) (hrange ▸ hwrapped.stop) kind
  have hchanged := hcompact.wrapped_adopt hrecord hsplit hnonempty hexists howner
    { kind, range := first.range.cover last.range
      lines := tree.index.span (first.range.cover last.range) }
  rw [List.length_map, List.length_map] at hrunEdit hchanged
  refine ⟨_, hrunEdit, hchanged.index, hchanged.root, hchanged.compact, ?_, fun id hid hmem => ?_⟩
  · refine Wrapped.shows ?_ h hnodup hfresh
    have hnode : Record.over (run.map Node.id) (.under label.id
          { kind, range := first.range.cover last.range
            lines := tree.index.span (first.range.cover last.range) }) =
        recordOf (some label.id) (Node.wrap tree.index (.fresh next) kind run).label
          (run.map Node.id) := by
      rw [← hrange]
      rfl
    rw [hnode] at hchanged
    exact hchanged
  · rw [Node.ids_mk, List.mem_cons, not_or] at hmem
    refine hchanged.frame id hid hmem.1 fun hrunMem => hmem.2 ?_
    simp only [List.flatMap_append, List.mem_append]
    exact .inr (.inl ((Node.map_id_sublist run).subset hrunMem))

end Tree

end ConcreteSyntax
