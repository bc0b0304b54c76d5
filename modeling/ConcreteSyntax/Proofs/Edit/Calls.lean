import ConcreteSyntax.Proofs.Edit.Replacement

/-!
# Calls

The calls that edit a tree (`Call`), and all that each of them can do (`Call.Does`): a call
makes a node of its own, or it is a splice, or both, or it is refused and leaves the tree as it
was (`Call.yields`).
-/

namespace ConcreteSyntax

variable {tree tree' mid : Tree} {crumb : Crumb} {outer : List Crumb} {node child made : Node}
  {id : NodeId}

/-! ## New nodes -/

namespace Tree

/-- The name of the next new node. -/
def nextId (tree : Tree) : NodeId := (tree.nodes.alloc default).1

theorem fst_alloc (tree : Tree) (record : Record) : (tree.nodes.alloc record).1 = tree.nextId := by
  unfold nextId Arena.alloc
  cases tree.nodes.free <;> rfl

theorem record?_grow (h : tree.nodes.IsKept) (record : Record) (id : NodeId) :
    (tree.grow record).record? id = if id = tree.nextId then some record else tree.record? id := by
  have hget := Arena.get?_alloc h record id
  rwa [fst_alloc] at hget

theorem record?_nextId (h : tree.nodes.IsKept) : tree.record? tree.nextId = none :=
  Arena.get?_alloc_fst h default

theorem ne_nextId (h : tree.nodes.IsKept) (hid : tree.contains id = true) : id ≠ tree.nextId := by
  rintro rfl
  obtain ⟨record, hrecord⟩ := Arena.contains_iff.1 hid
  have hnone := record?_nextId h
  rw [record?, hrecord] at hnone
  cases hnone

/-- Changing a new node is making it so. -/
theorem modify_grow (h : tree.nodes.IsKept) (record : Record) (change : Record → Record) :
    (tree.grow record).modify tree.nextId change = tree.grow (change record) := by
  have hmodify := Arena.modify_alloc h record change
  rw [fst_alloc] at hmodify
  unfold modify grow
  rw [hmodify]

theorem Holds.grow {parent : Option NodeId} (h : tree.Holds parent node)
    (hkept : tree.nodes.IsKept) (record : Record) : (tree.grow record).Holds parent node := by
  refine h.frame rfl fun id hid => ?_
  rw [record?_grow hkept, if_neg (ne_nextId hkept (h.contains hid))]

/-- A new node, as it is read. -/
def newNode (tree : Tree) (record : Record) : Node := ⟨tree.labelOf tree.nextId record, []⟩

theorem holds_newNode (hkept : tree.nodes.IsKept) {record : Record} (hparent : record.parent = none)
    (hchildren : record.children = []) : (tree.grow record).Holds none (tree.newNode record) := by
  have hrecord : (tree.grow record).record? tree.nextId = some record :=
    (record?_grow hkept record _).trans (if_pos rfl)
  exact .mk hrecord hparent hchildren (labelOf_congr rfl _ _) fun child hchild => nomatch hchild

namespace IsForest

variable {record : Record}

/-- A new node keeps an arena a forest. -/
theorem grow (h : tree.IsForest) (hparent : record.parent = none)
    (hchildren : record.children = []) : (tree.grow record).IsForest where
  kept := h.kept.alloc record
  root := by
    obtain ⟨node, hroot, hkind, hholds⟩ := h.root
    exact ⟨node, hroot, hkind, hholds.grow h.kept record⟩
  top id hid := by
    obtain ⟨found, hfound⟩ := Arena.contains_iff.1 hid
    have hgrow := record?_grow h.kept record id
    by_cases hnew : id = tree.nextId
    · refine ⟨tree.newNode record, holds_newNode h.kept hparent hchildren, ?_, ?_⟩
      · simp [newNode, Node.ids_mk]
      · simp [newNode, Node.ids_mk, hnew, labelOf]
    · rw [if_neg hnew] at hgrow
      obtain ⟨top, hholds, hnodup, hmem⟩ :=
        h.top id (Arena.contains_of_get? (hgrow.symm.trans hfound))
      exact ⟨top, hholds.grow h.kept record, hnodup, hmem⟩
  leaf id found hfound hatomic := by
    rw [record?_grow h.kept] at hfound
    by_cases hnew : id = tree.nextId
    · rw [if_pos hnew] at hfound
      rw [← Option.some.inj hfound, hchildren]
    · rw [if_neg hnew] at hfound
      exact h.leaf id found hfound hatomic

/-- A new node changes no other. -/
theorem node?_grow (h : tree.IsForest) (hparent : record.parent = none)
    (hchildren : record.children = []) (hid : tree.contains id = true) :
    (tree.grow record).node? id = tree.node? id := by
  obtain ⟨crumbs, node, rfl, hholds, _⟩ := h.exists_place hid
  rw [h.node?_eq hholds]
  exact (h.grow hparent hchildren).node?_eq (hholds.grow h.kept record)

theorem contains_grow (h : tree.IsForest) (record : Record) :
    (tree.grow record).contains id = true ↔ id = tree.nextId ∨ tree.contains id = true := by
  have hgrow := record?_grow h.kept record id
  unfold record? at hgrow
  simp only [contains, Arena.contains, hgrow]
  by_cases hnew : id = tree.nextId <;> simp [hnew]

end IsForest

end Tree

/-! ## Calls -/

/-- A call that edits a tree. -/
inductive Call where
  | newLeaf (kind : Kind) (text : List Char)
  | newNode (kind : Kind)
  | insertChild (parent : NodeId) (index : Nat) (child : NodeId)
  | appendChild (parent child : NodeId)
  | insertBefore (id sibling : NodeId)
  | insertAfter (id sibling : NodeId)
  | removeChild (parent : NodeId) (index : Nat)
  | remove (id : NodeId)
  | detach (id : NodeId)
  | replace (id new : NodeId) (keepChildren : Bool)
  | replaceWithText (id : NodeId) (text : List Char)

namespace Call

/-- The edit that a call asks for, which may give the name of a new node. -/
def edit : Call → Edit (Option NodeId)
  | newLeaf kind text => some <$> Edit.newLeaf kind text
  | newNode kind => some <$> Edit.newNode kind
  | insertChild parent index child => (fun _ => none) <$> Edit.insertChild parent index child
  | appendChild parent child => (fun _ => none) <$> Edit.appendChild parent child
  | insertBefore id sibling => (fun _ => none) <$> Edit.insertBefore id sibling
  | insertAfter id sibling => (fun _ => none) <$> Edit.insertAfter id sibling
  | removeChild parent index => (fun _ => none) <$> Edit.removeChild parent index
  | remove id => (fun _ => none) <$> Edit.remove id
  | detach id => (fun _ => none) <$> Edit.detach id
  | replace id new keepChildren => (fun _ => none) <$> Edit.replace id new keepChildren
  | replaceWithText id text => Edit.replaceWithText id text

/-- The node whose children a call edits. -/
def edits? (tree : Tree) : Call → Option NodeId
  | newLeaf _ _ | newNode _ => none
  | insertChild parent _ _ | appendChild parent _ | removeChild parent _ => some parent
  | insertBefore id _ | insertAfter id _ | remove id | detach id | replace id _ _
  | replaceWithText id _ => tree.parent? id

/-- The node that keeps the children of the one it replaces. -/
def adopts : Call → List NodeId
  | replace _ new true => [new]
  | _ => []

/-- The nodes whose revisions a call raises: the node that keeps children, the node whose
children are edited, and all nodes above that. -/
def raises (tree : Tree) (call : Call) : List NodeId :=
  call.adopts ++ ((call.edits? tree).map tree.lineage).getD []

open Splice

/-- The record of a new node that is at no place in the source. -/
def detachedRecord (tree : Tree) (kind : Kind) (text : Option (List Char)) : Record where
  kind
  range := .empty 0
  lines := tree.index.span (.empty 0)
  text

/-- The record of the leaf that takes the place of a node. -/
def textRecord (node : Node) (text : List Char) : Record where
  kind := .text
  range := node.label.range
  lines := node.label.lines
  text := some text

/-- What a call does where it succeeds. -/
inductive Does (tree : Tree) : Call → Tree → Prop
  | newLeaf {kind : Kind} {text : List Char} (hkind : kind.isAtomic = true) :
      Does tree (.newLeaf kind text) (tree.grow (detachedRecord tree kind (some text)))
  | newNode {kind : Kind} (hkind : kind.isAtomic = false) :
      Does tree (.newNode kind) (tree.grow (detachedRecord tree kind none))
  | insertChild {tree' : Tree} {outer : List Crumb} {crumb : Crumb} {child : Node}
      (h : (insertion outer crumb child).Applies tree tree') :
      Does tree (.insertChild crumb.label.id crumb.before.length child.id) tree'
  | appendChild {tree' : Tree} {outer : List Crumb} {label : Label} {children : List Node}
      {child : Node} (h : (insertion outer ⟨label, children, []⟩ child).Applies tree tree') :
      Does tree (.appendChild label.id child.id) tree'
  | insertBefore {tree' : Tree} {outer : List Crumb} {crumb : Crumb} {node child : Node}
      (h : (insertion outer ⟨crumb.label, crumb.before, node :: crumb.after⟩ child).Applies
        tree tree') :
      Does tree (.insertBefore node.id child.id) tree'
  | insertAfter {tree' : Tree} {outer : List Crumb} {crumb : Crumb} {node child : Node}
      (h : (insertion outer ⟨crumb.label, crumb.before ++ [node], crumb.after⟩ child).Applies
        tree tree') :
      Does tree (.insertAfter node.id child.id) tree'
  | removeChild {tree' : Tree} {outer : List Crumb} {crumb : Crumb} {node : Node}
      (h : (removal outer crumb node).Applies tree tree') :
      Does tree (.removeChild crumb.label.id crumb.before.length) tree'
  | remove {tree' : Tree} {outer : List Crumb} {crumb : Crumb} {node : Node}
      (h : (removal outer crumb node).Applies tree tree') : Does tree (.remove node.id) tree'
  | detach {tree' : Tree} {outer : List Crumb} {crumb : Crumb} {node : Node}
      (h : (detachment outer crumb node).Applies tree tree') : Does tree (.detach node.id) tree'
  | replace {tree' : Tree} {outer : List Crumb} {crumb : Crumb} {node made : Node} {keep : Bool}
      (h : (replacement outer crumb node made keep).Applies tree tree') :
      Does tree (.replace node.id made.id keep) tree'
  | removeText {tree' : Tree} {outer : List Crumb} {crumb : Crumb} {node : Node}
      (h : (removal outer crumb node).Applies tree tree') :
      Does tree (.replaceWithText node.id []) tree'
  | replaceWithText {tree' : Tree} {outer : List Crumb} {crumb : Crumb} {node : Node}
      {text : List Char} (htext : text ≠ [])
      (hholds : tree.Holds none (.plug (crumb :: outer) node))
      (h : (replacement outer crumb node (tree.newNode (textRecord node text)) false).Applies
        (tree.grow (textRecord node text)) tree') :
      Does tree (.replaceWithText node.id text) tree'

/-- Why a node whose children would be kept cannot be replaced by another. -/
def keepRefusal? (tree : Tree) (id new : NodeId) (keepChildren : Bool) : Option EditError :=
  match tree.record? new with
  | none => none
  | some made =>
      if keepChildren && made.kind.isAtomic && !(tree.children id).isEmpty then
        some (.atomic made.kind)
      else none

/-- Why a call may not be made, if it may not: the first of its checks that fails. -/
def refusal? (tree : Tree) : Call → Option EditError
  | newLeaf kind _ => if kind.isAtomic then none else some (.notAtomic kind)
  | newNode kind => if kind.isAtomic then some (.atomic kind) else none
  | insertChild parent index child =>
      (tree.holdRefusal? parent index).or (tree.joinRefusal? parent child)
  | appendChild parent child =>
      (tree.holdRefusal? parent (tree.children parent).length).or
        (tree.joinRefusal? parent child)
  | insertBefore id sibling | insertAfter id sibling =>
      (tree.placeRefusal? id).or ((tree.parent? id).bind (tree.joinRefusal? · sibling))
  | removeChild parent index =>
      match tree.record? parent with
      | none => some (.stale parent)
      | some above =>
          if above.children.length ≤ index then
            some (.outOfBounds index above.children.length)
          else none
  | remove id | detach id | replaceWithText id _ => tree.placeRefusal? id
  | replace id new keepChildren =>
      ((tree.placeRefusal? id).or ((tree.parent? id).bind (tree.joinRefusal? · new))).or
        (keepRefusal? tree id new keepChildren)

end Call

namespace Edit

open Call

variable {α β : Type}

theorem Answers.map {edit : Edit α} {give : α → β} {refusal? : Option EditError}
    {post : Tree → Prop} (h : edit.Answers tree refusal? fun _ => post) :
    (give <$> edit).Answers tree refusal? fun _ => post := by
  have hrun : (give <$> edit).run tree = EStateM.map give edit tree := rfl
  cases refusal? with
  | some error =>
      have hedit : edit tree = .error (.refused error) tree := h
      change (give <$> edit).run tree = .error (.refused error) tree
      rw [hrun, EStateM.map, hedit]
  | none =>
      obtain ⟨value, after, hedit, hpost⟩ := h
      refine ⟨give value, after, ?_, hpost⟩
      rw [EStateM.run] at hedit
      rw [hrun, EStateM.map, hedit]

/-- A new node that may be made. -/
theorem answers_newLeaf (kind : Kind) (text : List Char) :
    (newLeaf kind text).Answers tree (refusal? tree (.newLeaf kind text)) fun _ tree' =>
      Does tree (.newLeaf kind text) tree' := by
  unfold newLeaf
  refine .guard (fun hkind => by simpa [refusal?] using hkind) fun hkind => ?_
  have hkind : kind.isAtomic = true := by simpa using hkind
  exact .of_succeeds (by simp [refusal?, hkind]) ⟨_, _, rfl, .newLeaf hkind⟩

theorem answers_newNode (kind : Kind) :
    (newNode kind).Answers tree (refusal? tree (.newNode kind)) fun _ tree' =>
      Does tree (.newNode kind) tree' := by
  unfold newNode
  refine .guard (fun hkind => by simp [refusal?, hkind]) fun hkind => ?_
  have hkind : kind.isAtomic = false := by simpa using hkind
  exact .of_succeeds (by simp [refusal?, hkind]) ⟨_, _, rfl, .newNode hkind⟩

theorem answers_insertChild (hforest : tree.IsForest) (parent : NodeId) (index : Nat)
    (child : NodeId) :
    (insertChild parent index child).Answers tree
      ((tree.holdRefusal? parent index).or (tree.joinRefusal? parent child)) fun _ tree' =>
      ∃ outer crumb top, (Splice.insertion outer crumb top).Applies tree tree'
        ∧ crumb.label.id = parent ∧ crumb.before.length = index ∧ top.id = child := by
  unfold insertChild
  refine .live (fun hstale => by simp [Tree.holdRefusal?, hstale]) fun above habove => ?_
  refine .guard (fun hkind => by simp [Tree.holdRefusal?, habove, hkind]) fun hkind => ?_
  refine .guard (fun hindex => by simp [Tree.holdRefusal?, habove, hkind, hindex])
    fun hindex => ?_
  -- the checks of the container come first, then those of the child
  have hhold : tree.holdRefusal? parent index = none := by
    simp [Tree.holdRefusal?, habove, hkind, hindex]
  rw [hhold, Option.none_or]
  refine .read rfl ?_
  refine .guard (fun hroot => by simp [Tree.joinRefusal?, hroot]) fun hroot => ?_
  refine .live (fun hstale => by simp [Tree.joinRefusal?, hroot, hstale])
    fun record hrecord => ?_
  refine .guard (fun hparent => by simp [Tree.joinRefusal?, hroot, hrecord, hparent])
    fun hparent => ?_
  obtain ⟨outer, ⟨label, children⟩, rfl, howner, _⟩ :=
    hforest.exists_place (Arena.contains_of_get? habove)
  have hlineage := hforest.lineage_eq howner
  refine .read (run_lineage hforest.kept howner.climbs
    (Tree.nodup_lineage (hforest.nodup howner))) ?_
  refine .guard
    (fun hcycle => by
      rw [← hlineage] at hcycle
      simp [Tree.joinRefusal?, hroot, hrecord, hparent, hcycle])
    fun hcycle => ?_
  have hjoin : tree.joinRefusal? (Node.mk label children).id child = none := by
    have hcycle' := hcycle
    rw [← hlineage] at hcycle'
    rw [Tree.joinRefusal?, if_neg hroot, hrecord]
    dsimp only
    rw [if_neg hparent, if_neg hcycle']
  obtain ⟨found, hfound, _, hchildren, hlabel⟩ := (Tree.holds_plug.1 howner).2.record
  obtain rfl := Option.some.inj (hfound.symm.trans habove)
  have hcontainer : label.kind.isAtomic = false := by
    have hsame : found.kind = label.kind := congrArg Label.kind hlabel
    simpa [hsame] using hkind
  -- the index splits the children
  obtain ⟨before, after, rfl, rfl⟩ : ∃ before after, before.length = index
      ∧ before ++ after = children := by
    refine ⟨children.take index, children.drop index, ?_, List.take_append_drop ..⟩
    rw [hchildren, List.length_map, Node.children] at hindex
    rw [List.length_take]
    omega
  obtain ⟨top, rfl, hchild⟩ := hforest.exists_top hrecord (by simpa using hparent)
  refine .of_succeeds hjoin (.mono (succeeds_insertion ⟨label, before, after⟩ hforest howner
    hcontainer hchild hroot hcycle) ?_)
  exact fun _ _ happlies => ⟨outer, ⟨label, before, after⟩, top, happlies, rfl, rfl, rfl⟩

theorem answers_appendChild (hforest : tree.IsForest) (parent child : NodeId) :
    (appendChild parent child).Answers tree
      ((tree.holdRefusal? parent (tree.children parent).length).or
        (tree.joinRefusal? parent child)) fun _ tree' =>
      Does tree (.appendChild parent child) tree' := by
  unfold appendChild
  refine .live (fun hstale => by simp [Tree.holdRefusal?, hstale]) fun above habove => ?_
  rw [show tree.children parent = above.children by simp [Tree.children, habove]]
  refine (answers_insertChild hforest parent _ child).mono fun _ tree' => ?_
  rintro ⟨outer, ⟨label, before, after⟩, top, happlies, rfl, hlength, rfl⟩
  obtain ⟨found, hfound, _, hchildren, _⟩ := (Tree.holds_plug.1 happlies.source).2.record
  obtain rfl := Option.some.inj (hfound.symm.trans habove)
  have hafter : after = [] := by
    rw [hchildren, List.length_map] at hlength
    simpa [Splice.insertion, Splice.owner, Node.children] using hlength
  subst hafter
  exact .appendChild happlies

/-- The node around a place can have children at all indices up to the number of those it has. -/
theorem holdRefusal?_owner (hforest : tree.IsForest)
    (hholds : tree.Holds none (.plug (crumb :: outer) node)) {index : Nat}
    (hindex : index ≤ crumb.before.length + 1) :
    tree.parent? node.id = some crumb.label.id
      ∧ tree.holdRefusal? crumb.label.id index = none := by
  obtain ⟨⟨⟨above, habove, _, hchildren, _⟩, _, _⟩, hnode⟩ := Tree.holds_plug.1 hholds
  obtain ⟨record, hrecord, hparent, _⟩ := hnode.record
  have hcontainer : above.kind.isAtomic = false := by
    rw [← Bool.not_eq_true]
    intro hatomic
    have hnil := hforest.leaf _ above habove hatomic
    simp [hchildren] at hnil
  refine ⟨by rw [Tree.parent?, hrecord]; exact hparent, ?_⟩
  have hlength : ¬above.children.length < index := by
    rw [hchildren]
    simp
    omega
  simp [Tree.holdRefusal?, habove, hcontainer, hlength]

/-- A node below which an edit finds a child is the one below which the child was found. -/
theorem owner_unique {outer' : List Crumb} {label : Label} {children : List Node}
    (hholds : tree.Holds none (.plug (crumb :: outer) node))
    (howner : tree.Holds none (.plug outer' ⟨label, children⟩)) (hid : label.id = crumb.label.id) :
    label = crumb.label ∧ children = crumb.before ++ (node :: crumb.after) := by
  have hfound : tree.Holds none (.plug outer ⟨crumb.label, crumb.before ++ node :: crumb.after⟩) :=
    hholds
  have hsame := (Tree.holds_plug.1 howner).2.unique (Tree.holds_plug.1 hfound).2 hid
  injection hsame with hlabel hchildren
  exact ⟨hlabel, hchildren⟩

theorem answers_insertBefore (hforest : tree.IsForest) (id sibling : NodeId) :
    (insertBefore id sibling).Answers tree
      ((tree.placeRefusal? id).or ((tree.parent? id).bind (tree.joinRefusal? · sibling)))
      fun _ tree' => Does tree (.insertBefore id sibling) tree' := by
  unfold insertBefore
  refine .position hforest (fun error hplace => by rw [hplace, Option.some_or])
    fun crumb outer node hid hholds hplace => ?_
  subst hid
  obtain ⟨hparent, hhold⟩ := holdRefusal?_owner hforest hholds (Nat.le_succ crumb.before.length)
  have hinsert := answers_insertChild hforest crumb.label.id crumb.before.length sibling
  rw [hhold, Option.none_or] at hinsert
  rw [hplace, hparent, Option.none_or, Option.bind_some]
  refine hinsert.mono fun _ tree' => ?_
  rintro ⟨outer', ⟨label, before, after⟩, top, happlies, hlabel, hlength, rfl⟩
  obtain ⟨rfl, hchildren⟩ := owner_unique hholds happlies.source hlabel
  obtain ⟨rfl, rfl⟩ := List.append_inj hchildren hlength
  exact .insertBefore happlies

theorem answers_insertAfter (hforest : tree.IsForest) (id sibling : NodeId) :
    (insertAfter id sibling).Answers tree
      ((tree.placeRefusal? id).or ((tree.parent? id).bind (tree.joinRefusal? · sibling)))
      fun _ tree' => Does tree (.insertAfter id sibling) tree' := by
  unfold insertAfter
  refine .position hforest (fun error hplace => by rw [hplace, Option.some_or])
    fun crumb outer node hid hholds hplace => ?_
  subst hid
  obtain ⟨hparent, hhold⟩ := holdRefusal?_owner hforest hholds (Nat.le_refl _)
  have hinsert := answers_insertChild hforest crumb.label.id (crumb.before.length + 1) sibling
  rw [hhold, Option.none_or] at hinsert
  rw [hplace, hparent, Option.none_or, Option.bind_some]
  refine hinsert.mono fun _ tree' => ?_
  rintro ⟨outer', ⟨label, before, after⟩, top, happlies, hlabel, hlength, rfl⟩
  obtain ⟨rfl, hchildren⟩ := owner_unique hholds happlies.source hlabel
  have hsplit : before ++ after = (crumb.before ++ [node]) ++ crumb.after :=
    hchildren.trans (by simp)
  obtain ⟨rfl, rfl⟩ := List.append_inj hsplit (by simpa using hlength)
  exact .insertAfter happlies

theorem answers_removeChild (hforest : tree.IsForest) (parent : NodeId) (index : Nat) :
    (removeChild parent index).Answers tree (refusal? tree (.removeChild parent index))
      fun _ tree' => ∃ outer crumb node, (Splice.removal outer crumb node).Applies tree tree'
        ∧ crumb.label.id = parent ∧ crumb.before.length = index := by
  unfold removeChild
  refine .live (fun hstale => by simp [refusal?, hstale]) fun above habove => ?_
  obtain ⟨outer, ⟨label, children⟩, rfl, howner, _⟩ :=
    hforest.exists_place (Arena.contains_of_get? habove)
  obtain ⟨found, hfound, _, hchildren, _⟩ := (Tree.holds_plug.1 howner).2.record
  obtain rfl := Option.some.inj (hfound.symm.trans habove)
  have hrefusal : refusal? tree (.removeChild (Node.mk label children).id index) =
      if found.children.length ≤ index then some (.outOfBounds index found.children.length)
      else none := by
    simp [refusal?, habove]
  rw [hrefusal, hchildren, Node.children]
  cases hindex : (children.map Node.id)[index]? with
  | none =>
      rw [List.getElem?_eq_none_iff] at hindex
      exact .of_refused (if_pos hindex) rfl
  | some child =>
      obtain ⟨node, hnode, rfl⟩ : ∃ node, children[index]? = some node ∧ node.id = child := by
        simpa using hindex
      obtain ⟨hlt, _⟩ := List.getElem?_eq_some_iff.1 hindex
      obtain ⟨before, after, rfl, rfl⟩ : ∃ before after, before.length = index
          ∧ before ++ node :: after = children := by
        obtain ⟨hlt, rfl⟩ := List.getElem?_eq_some_iff.1 hnode
        refine ⟨children.take index, children.drop (index + 1), ?_, ?_⟩
        · exact List.length_take_of_le (Nat.le_of_lt hlt)
        · rw [← List.drop_eq_getElem_cons hlt, List.take_append_drop]
      exact .of_succeeds (if_neg (Nat.not_le.2 hlt))
        (.mono (succeeds_removal ⟨label, before, after⟩ hforest howner)
          fun _ _ happlies => ⟨outer, ⟨label, before, after⟩, node, happlies, rfl, rfl⟩)

theorem answers_remove (hforest : tree.IsForest) (id : NodeId) :
    (remove id).Answers tree (tree.placeRefusal? id) fun _ tree' =>
      ∃ outer crumb node, (Splice.removal outer crumb node).Applies tree tree' ∧ node.id = id := by
  unfold remove
  refine .position hforest (fun error hplace => hplace) fun crumb outer node hid hholds hplace => ?_
  have hremove := answers_removeChild hforest crumb.label.id crumb.before.length
  obtain ⟨⟨⟨above, habove, _, hchildren, _⟩, _, _⟩, _⟩ := Tree.holds_plug.1 hholds
  have hlt : ¬above.children.length ≤ crumb.before.length := by
    rw [hchildren]
    simp
  have hnone : refusal? tree (.removeChild crumb.label.id crumb.before.length) = none := by
    simp [refusal?, habove, hlt]
  rw [hnone] at hremove
  rw [hplace]
  refine hremove.mono fun _ tree' => ?_
  rintro ⟨outer', ⟨label, before, after⟩, found, happlies, hlabel, hlength⟩
  obtain ⟨rfl, hchildren⟩ := owner_unique hholds happlies.source hlabel
  obtain ⟨rfl, hrest⟩ := List.append_inj hchildren hlength
  obtain ⟨rfl, rfl⟩ := List.cons.inj hrest
  exact ⟨outer', _, found, happlies, hid⟩

theorem answers_detach (hforest : tree.IsForest) (id : NodeId) :
    (detach id).Answers tree (tree.placeRefusal? id) fun _ tree' =>
      Does tree (.detach id) tree' := by
  unfold detach
  refine .position hforest (fun error hplace => hplace) fun crumb outer node hid hholds hplace => ?_
  subst hid
  exact .of_succeeds hplace (.mono (succeeds_detachment hforest hholds) fun _ _ happlies =>
    .detach happlies)

/-- The end of a replacement, after which nothing can be refused. -/
theorem succeeds_replace_end {keep : Bool} (hforest : tree.IsForest)
    (h : MayReplace tree outer crumb node made keep) :
    (do
      if keep then moveChildren node.id made.id
      update crumb.label.id fun above =>
        { above with children := above.children.set crumb.before.length made.id }
      update made.id fun node => { node with parent := some crumb.label.id }
      free node.id
      touch crumb.label.id : Edit Unit).Succeeds tree
        fun _ tree' => (Splice.replacement outer crumb node made keep).Applies tree tree' := by
  cases keep with
  | false => exact succeeds_replacement hforest h (isReady_drop hforest h)
  | true =>
      have hnode := (Tree.holds_plug.1 h.place).2
      exact .step (run_moveChildren hnode h.detached (h.movesApart hforest))
        (succeeds_replacement hforest h (isReady_move hforest h))

/-- A detached tree takes the place of a child when nothing speaks against it. -/
theorem succeeds_replace {keep : Bool} (hforest : tree.IsForest)
    (h : MayReplace tree outer crumb node made keep) :
    (replace node.id made.id keep).Succeeds tree fun _ tree' =>
      (Splice.replacement outer crumb node made keep).Applies tree tree' := by
  obtain ⟨record, hrecord, hnone, _, hlabel⟩ := h.detached.record
  obtain ⟨old, hold, _, hbelow, _⟩ := (Tree.holds_plug.1 h.place).2.record
  have howner : tree.Holds none
      (.plug outer ⟨crumb.label, crumb.before ++ node :: crumb.after⟩) := h.place
  have hclimbs := howner.climbs
  have hlive : (Edit.live made.id).run tree = .ok record tree := by rw [run_live, hrecord]
  have hread : (Edit.record node.id).run tree = .ok old tree := by rw [run_record, hold]
  unfold replace
  refine .step (run_position hforest h.place) ?_
  refine .step rfl (.guard h.root ?_)
  refine .step hlive (.guard (by simp [hnone]) ?_)
  refine .step (run_lineage hforest.kept hclimbs (Tree.nodup_lineage (hforest.nodup h.place)))
    (.guard h.cycle ?_)
  refine .step hread (.guard ?_ (succeeds_replace_end hforest h))
  have hkind : record.kind = made.kind := congrArg Label.kind hlabel
  intro hrefuse
  simp only [Bool.and_eq_true, Bool.not_eq_true', hkind, hbelow, List.isEmpty_map] at hrefuse
  have hnil := h.leaf hrefuse.1.1 hrefuse.1.2
  simp [hnil] at hrefuse

theorem answers_replace (hforest : tree.IsForest) (id new : NodeId) (keep : Bool) :
    (replace id new keep).Answers tree (refusal? tree (.replace id new keep)) fun _ tree' =>
      Does tree (.replace id new keep) tree' := by
  unfold replace
  refine .position hforest (fun error hplace => by simp [refusal?, hplace])
    fun crumb outer node hid hholds hplace => ?_
  subst hid
  obtain ⟨hparent, _⟩ := holdRefusal?_owner hforest hholds (Nat.zero_le _)
  have hrefusal : refusal? tree (.replace node.id new keep) =
      (tree.joinRefusal? crumb.label.id new).or (keepRefusal? tree node.id new keep) := by
    simp [refusal?, hplace, hparent]
  rw [hrefusal]
  obtain ⟨old, hold, _, hbelow, _⟩ := (Tree.holds_plug.1 hholds).2.record
  have howner : tree.Holds none
      (.plug outer ⟨crumb.label, crumb.before ++ node :: crumb.after⟩) := hholds
  have hclimbs := howner.climbs
  have hlineage : tree.lineage crumb.label.id = crumb.label.id :: Crumb.names outer :=
    hforest.lineage_eq howner
  have hread : (Edit.record node.id).run tree = .ok old tree := by rw [run_record, hold]
  refine .read rfl (.guard (fun hroot => by simp [Tree.joinRefusal?, hroot]) fun hroot => ?_)
  refine .live (fun hstale => by simp [Tree.joinRefusal?, hroot, hstale]) fun record hrecord => ?_
  refine .guard (fun hattached => by simp [Tree.joinRefusal?, hroot, hrecord, hattached])
    fun hattached => ?_
  refine .read (run_lineage hforest.kept hclimbs (Tree.nodup_lineage (hforest.nodup hholds)))
    (.guard ?_ fun hcycle => ?_)
  · intro hcycle
    have hcycle' : new ∈ tree.lineage crumb.label.id := hlineage ▸ hcycle
    simp [Tree.joinRefusal?, hroot, hrecord, hattached, hcycle']
  have hcycle' : new ∉ tree.lineage crumb.label.id := hlineage ▸ hcycle
  have hjoin : tree.joinRefusal? crumb.label.id new = none := by
    simp [Tree.joinRefusal?, hroot, hrecord, hattached, hcycle']
  have hchildren : tree.children node.id = old.children := by simp [Tree.children, hold]
  rw [hjoin, Option.none_or, keepRefusal?, hrecord, hchildren]
  refine .read hread (.guard (fun hleaf => if_pos hleaf) fun hleaf => ?_)
  obtain ⟨made, rfl, hmade⟩ := hforest.exists_top hrecord (by simpa using hattached)
  obtain ⟨found, hfound, _, _, hlabel⟩ := hmade.record
  obtain rfl := Option.some.inj (hfound.symm.trans hrecord)
  have hkind : found.kind = made.kind := congrArg Label.kind hlabel
  have hmay : MayReplace tree outer crumb node made keep := by
    refine ⟨hholds, hmade, hroot, hcycle, fun hkeep hatomic => ?_⟩
    simpa [hkeep, hkind, hatomic, hbelow] using hleaf
  exact .of_succeeds (if_neg hleaf) ((succeeds_replace_end hforest hmay).mono
    fun _ _ happlies => .replace happlies)

/-- What takes the place of a node as a text is made for the place. -/
theorem mayReplace_text (hforest : tree.IsForest) (text : List Char)
    (hholds : tree.Holds none (.plug (crumb :: outer) node)) :
    MayReplace (tree.grow (textRecord node text)) outer crumb node
      (tree.newNode (textRecord node text)) false := by
  have hrootLive : tree.contains tree.root = true := by
    obtain ⟨top, htop, _, hheld⟩ := hforest.root
    exact htop ▸ hheld.contains top.id_mem_ids
  refine ⟨hholds.grow hforest.kept _, Tree.holds_newNode hforest.kept rfl rfl, ?_, ?_, nofun⟩
  · exact (Tree.ne_nextId hforest.kept hrootLive).symm
  · intro hmem
    have hlive : tree.contains tree.nextId = true := by
      refine hholds.contains ?_
      exact Node.names_subset_ids_plug (crumb :: outer) node hmem
    exact Tree.ne_nextId hforest.kept hlive rfl

theorem answers_replaceWithText (hforest : tree.IsForest) (id : NodeId) (text : List Char) :
    (replaceWithText id text).Answers tree (tree.placeRefusal? id) fun _ tree' =>
      Does tree (.replaceWithText id text) tree' := by
  unfold replaceWithText
  cases text with
  | nil =>
      have hdoes : (remove id).Answers tree (tree.placeRefusal? id) fun _ tree' =>
          Does tree (.replaceWithText id []) tree' := by
        refine (answers_remove hforest id).mono fun _ tree' hdone => ?_
        obtain ⟨outer, crumb, node, happlies, rfl⟩ := hdone
        exact .removeText happlies
      have hremove : ((fun _ => (none : Option NodeId)) <$> remove id).Answers tree
          (tree.placeRefusal? id) fun _ tree' => Does tree (.replaceWithText id []) tree' :=
        hdoes.map
      rwa [map_eq_pure_bind] at hremove
  | cons first rest =>
      refine .position hforest (fun error hplace => hplace)
        fun crumb outer node hid hholds hplace => ?_
      subst hid
      obtain ⟨old, hold, _, _, hlabel⟩ := (Tree.holds_plug.1 hholds).2.record
      have hread : (Edit.record node.id).run tree = .ok old tree := by rw [run_record, hold]
      refine .read hread ?_
      have hmake : (newLeaf .text (first :: rest)).run tree = .ok tree.nextId
          (tree.grow (detachedRecord tree .text (some (first :: rest)))) := by
        rw [← tree.fst_alloc (detachedRecord tree .text (some (first :: rest)))]
        rfl
      have htext : (update tree.nextId fun made =>
          { made with range := old.range, lines := old.lines }).run
            (tree.grow (detachedRecord tree .text (some (first :: rest)))) =
              .ok () (tree.grow (textRecord node (first :: rest))) := by
        have hfound := Tree.record?_grow hforest.kept
          (detachedRecord tree .text (some (first :: rest))) tree.nextId
        rw [if_pos rfl] at hfound
        rw [run_update _ hfound, Tree.modify_grow hforest.kept, textRecord, ← hlabel]
        rfl
      have hgrown : (tree.grow (textRecord node (first :: rest))).IsForest :=
        hforest.grow rfl rfl
      obtain ⟨_, tree', hreplace, happlies⟩ :=
        succeeds_replace hgrown (mayReplace_text hforest (first :: rest) hholds)
      refine .of_succeeds hplace (.step hmake (.step htext (.step hreplace ?_)))
      exact ⟨_, _, rfl, .replaceWithText (by simp) hholds happlies⟩

end Edit

namespace Call

/-- Every call is refused for the first of its checks that fails, and leaves the tree as it was,
or it succeeds and does what such calls do. -/
theorem answers (hforest : tree.IsForest) (call : Call) :
    call.edit.Answers tree (call.refusal? tree) fun _ tree' => Does tree call tree' := by
  cases call with
  | newLeaf kind text => exact (Edit.answers_newLeaf kind text).map
  | newNode kind => exact (Edit.answers_newNode kind).map
  | insertChild parent index child =>
      refine Edit.Answers.map ((Edit.answers_insertChild hforest parent index child).mono ?_)
      rintro _ tree' ⟨outer, crumb, top, happlies, rfl, rfl, rfl⟩
      exact .insertChild happlies
  | appendChild parent child => exact (Edit.answers_appendChild hforest parent child).map
  | insertBefore id sibling => exact (Edit.answers_insertBefore hforest id sibling).map
  | insertAfter id sibling => exact (Edit.answers_insertAfter hforest id sibling).map
  | removeChild parent index =>
      refine Edit.Answers.map ((Edit.answers_removeChild hforest parent index).mono ?_)
      rintro _ tree' ⟨outer, crumb, node, happlies, rfl, rfl⟩
      exact .removeChild happlies
  | remove id =>
      refine Edit.Answers.map ((Edit.answers_remove hforest id).mono ?_)
      rintro _ tree' ⟨outer, crumb, node, happlies, rfl⟩
      exact .remove happlies
  | detach id => exact (Edit.answers_detach hforest id).map
  | replace id new keep => exact (Edit.answers_replace hforest id new keep).map
  | replaceWithText id text => exact Edit.answers_replaceWithText hforest id text

/-- Every call is refused and leaves the tree as it was, or it succeeds and does what such calls
do. -/
theorem yields (hforest : tree.IsForest) (call : Call) :
    call.edit.Yields tree fun _ tree' => Does tree call tree' :=
  (call.answers hforest).yields

end Call

end ConcreteSyntax
