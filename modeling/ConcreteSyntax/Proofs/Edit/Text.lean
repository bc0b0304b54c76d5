import ConcreteSyntax.Proofs.Edit.Revisions
import ConcreteSyntax.Tree.Navigation

/-!
# Edits of text

A call that succeeds changes the text of the nodes around the place of the edit there and
nowhere else: one text gives way to another between what comes before and behind it
(`Call.Puts`), or a text comes in between (`Call.Inserts`).  The nodes that it frees are known
beforehand, all others keep their kinds, ranges and lines, and those that are not around the
place keep their text (`Language.edits_splice_text`).
-/

namespace ConcreteSyntax

variable {tree tree' grown : Tree} {id above : NodeId} {call : Call} {crumb : Crumb}
  {crumbs outer : List Crumb} {node : Node} {s : Splice}

namespace Tree

/-- What the leaves of a node spell. -/
def content (tree : Tree) (id : NodeId) : List Char :=
  ((tree.node? id).map Node.spelling).getD []

theorem content_eq (h : tree.node? id = some node) : tree.content id = node.spelling := by
  rw [content, h]
  rfl

/-- The names of a node and of all nodes below it. -/
def idsBelow (tree : Tree) (id : NodeId) : List NodeId := ((tree.node? id).map Node.ids).getD []

theorem Grows.content_eq (h : tree.Grows grown) (hforest : tree.IsForest)
    (hid : tree.contains id = true) : grown.content id = tree.content id := by
  rw [content, content, h.node?_eq hforest hid]

/-- A node around a place is the place with the nodes that it has around it. -/
theorem exists_inner (hid : id ∈ node.id :: Crumb.names crumbs) :
    ∃ inner rest, crumbs = inner ++ rest ∧ (Node.plug inner node).id = id := by
  induction crumbs generalizing node with
  | nil =>
      rw [show id = node.id by simpa [Crumb.names] using hid]
      exact ⟨[], [], rfl, rfl⟩
  | cons crumb outer ih =>
      rcases List.mem_cons.1 hid with rfl | hid
      · exact ⟨[], crumb :: outer, rfl, rfl⟩
      · obtain ⟨inner, rest, rfl, hinner⟩ :=
          ih (show id ∈ (⟨crumb.label, crumb.before ++ node :: crumb.after⟩ : Node).id ::
            Crumb.names outer from hid)
        exact ⟨crumb :: inner, rest, rfl, hinner⟩

end Tree

namespace Splice.Applies

/-- What a splice does to the nodes around its place. -/
theorem around (h : s.Applies tree tree') (hforest : tree.IsForest) (hid : id ∈ s.lineage) :
    ∃ inner, tree.node? id = some (.plug inner s.owner)
      ∧ tree'.node? id = some (.plug (inner.map Crumb.raise) s.changed)
      ∧ ∀ crumb ∈ inner, crumb.label.kind.isAtomic = false := by
  obtain ⟨inner, rest, houter, rfl⟩ :=
    Tree.exists_inner (show id ∈ s.owner.id :: Crumb.names s.outer from hid)
  have hsource := h.source
  have htarget := h.target hforest
  have hcontainers := hforest.isAtomic_of_surrounds (Tree.holds_plug.1 h.source).1
  rw [Splice.source, houter, Node.plug_append] at hsource
  rw [Splice.target, houter, List.map_append, Node.plug_append] at htarget
  refine ⟨inner, hforest.node?_eq hsource, ?_, fun crumb hcrumb => hcontainers crumb ?_⟩
  · rw [Node.id_plug_congr inner (show s.owner.id = s.changed.id from rfl)]
    exact (h.isForest hforest).node?_eq htarget
  · rw [houter]
    exact List.mem_append_left _ hcrumb

/-- What a splice does to the text of the nodes around its place. -/
theorem content_around (h : s.Applies tree tree') (hforest : tree.IsForest)
    (hid : id ∈ s.lineage) :
    ∃ inner, tree.node? id = some (.plug inner s.owner)
      ∧ tree.content id = Crumb.textBefore inner
        ++ ((s.before ++ (s.old ++ s.after)).flatMap Node.spelling ++ Crumb.textAfter inner)
      ∧ tree'.content id = Crumb.textBefore inner
        ++ ((s.before ++ (s.new ++ s.after)).flatMap Node.spelling ++ Crumb.textAfter inner) := by
  obtain ⟨inner, hnode, hnode', hcontainers⟩ := h.around hforest hid
  have howner : s.owner.spelling = (s.before ++ (s.old ++ s.after)).flatMap Node.spelling := by
    rw [Splice.owner, Node.spelling_mk, h.container]
    rfl
  have hchanged : s.changed.spelling = (s.before ++ (s.new ++ s.after)).flatMap Node.spelling := by
    rw [Splice.changed, Node.spelling_mk, Label.kind_raise, h.container]
    rfl
  refine ⟨inner, hnode, ?_, ?_⟩
  · rw [Tree.content_eq hnode, Node.spelling_plug hcontainers, howner]
  · rw [Tree.content_eq hnode', Node.spelling_plug ?_, hchanged, Crumb.textBefore_map_raise,
      Crumb.textAfter_map_raise]
    intro crumb hcrumb
    obtain ⟨old, hold, rfl⟩ := List.mem_map.1 hcrumb
    exact hcontainers old hold

/-- A splice at the place of one node. -/
theorem content_put (h : s.Applies tree tree') (hforest : tree.IsForest) (hold : s.old = [node])
    (hid : id ∈ s.lineage) :
    ∃ crumbs, tree.node? id = some (.plug crumbs node)
      ∧ tree.content id = Crumb.textBefore crumbs ++ (node.spelling ++ Crumb.textAfter crumbs)
      ∧ tree'.content id = Crumb.textBefore crumbs
        ++ (s.new.flatMap Node.spelling ++ Crumb.textAfter crumbs) := by
  obtain ⟨inner, hnode, hcontent, hcontent'⟩ := h.content_around hforest hid
  refine ⟨⟨s.label, s.before, s.after⟩ :: inner, ?_, ?_, ?_⟩
  · rw [hnode, Splice.owner, hold]
    rfl
  · simp [hcontent, hold, Crumb.textBefore, Crumb.textAfter]
  · simp [hcontent', Crumb.textBefore, Crumb.textAfter]

end Splice.Applies

namespace Call

/-- Whether a call puts a text in the place of a node. -/
inductive Puts (tree : Tree) : Call → NodeId → List Char → Prop
  | replaceWithText (id : NodeId) (text : List Char) : Puts tree (.replaceWithText id text) id text
  | removeChild {parent id : NodeId} {index : Nat}
      (hchild : (tree.children parent)[index]? = some id) :
      Puts tree (.removeChild parent index) id []
  | remove (id : NodeId) : Puts tree (.remove id) id []
  | detach (id : NodeId) : Puts tree (.detach id) id []
  | replace (id new : NodeId) : Puts tree (.replace id new false) id (tree.content new)
  | replaceKeeping (id new : NodeId) :
      Puts tree (.replace id new true) id
        (tree.content new ++ (tree.children id).flatMap tree.content)

/-- Whether a call puts a node before the child at an index of another, or behind all. -/
inductive Inserts (tree : Tree) : Call → NodeId → Nat → NodeId → Prop
  | insertChild (parent : NodeId) (index : Nat) (child : NodeId) :
      Inserts tree (.insertChild parent index child) parent index child
  | appendChild (parent child : NodeId) :
      Inserts tree (.appendChild parent child) parent (tree.children parent).length child
  | insertBefore {parent id : NodeId} {index : Nat} (sibling : NodeId)
      (hparent : tree.parent? id = some parent)
      (hindex : (tree.children parent).idxOf? id = some index) :
      Inserts tree (.insertBefore id sibling) parent index sibling
  | insertAfter {parent id : NodeId} {index : Nat} (sibling : NodeId)
      (hparent : tree.parent? id = some parent)
      (hindex : (tree.children parent).idxOf? id = some index) :
      Inserts tree (.insertAfter id sibling) parent (index + 1) sibling

/-- The names of the nodes that a call frees. -/
def frees (tree : Tree) : Call → List NodeId
  | removeChild parent index =>
      (((tree.children parent)[index]?).map tree.idsBelow).getD []
  | remove id | replaceWithText id _ | replace id _ false => tree.idsBelow id
  | replace id _ true => [id]
  | _ => []

/-- What takes the place of a node spells what it did before, and what the children that it
keeps spell. -/
theorem spelling_adopting (keep : Bool) (node made : Node) :
    (Splice.adopting keep node made).spelling =
      made.spelling ++ if keep then node.children.flatMap Node.spelling else [] := by
  cases keep with
  | false => simp [Splice.adopting]
  | true =>
      obtain ⟨label, children⟩ := made
      have hadopting : Splice.adopting true node ⟨label, children⟩ =
          ⟨label.raise, children ++ node.children⟩ := rfl
      rw [hadopting, Node.spelling_mk, Node.spelling_mk, List.flatMap_append, if_pos rfl,
        List.append_assoc]
      rfl

theorem flatMap_content_children (hforest : tree.IsForest) {parent : Option NodeId}
    (hholds : tree.Holds parent node) :
    (tree.children node.id).flatMap tree.content = node.children.flatMap Node.spelling := by
  obtain ⟨record, hrecord, _, hchildren, _⟩ := hholds.record
  have hnames : tree.children node.id = node.children.map Node.id := by
    simp [Tree.children, hrecord, hchildren]
  rw [hnames, List.flatMap_map]
  refine List.flatMap_congr fun child hchild => ?_
  exact Tree.content_eq (hforest.node?_eq_of_holds (hholds.child child hchild))

theorem spelling_newNode_textRecord (tree : Tree) (node : Node) (text : List Char) :
    (tree.newNode (textRecord node text)).spelling = text := by
  rw [Tree.newNode, Node.spelling_mk]
  simp [Tree.labelOf, Tree.leafText?, textRecord, show Kind.text.isAtomic = true from rfl]

/-- A call that puts a text in the place of a node is a splice there, of nodes that spell the
text. -/
theorem Does.splice_of_puts (h : Does tree call tree') (hforest : tree.IsForest)
    {text : List Char} (hputs : call.Puts tree id text) :
    ∃ grown s crumb outer node, tree.Grows grown ∧ Splice.Applies s grown tree' ∧ s.old = [node]
      ∧ node.id = id ∧ tree.Holds none (.plug (crumb :: outer) node)
      ∧ s.lineage = crumb.label.id :: Crumb.names outer ∧ s.new.flatMap Node.spelling = text := by
  cases h with
  | newLeaf | newNode | insertChild | appendChild | insertBefore | insertAfter => nomatch hputs
  | @removeChild _ outer crumb node h =>
      cases hputs with
      | removeChild hchild =>
          refine ⟨tree, _, crumb, outer, node, .same, h, rfl, ?_, h.source, rfl, rfl⟩
          obtain ⟨⟨record, hrecord, _, hchildren, _⟩, _⟩ :=
            (Tree.holds_plug.1 (show tree.Holds none (.plug (crumb :: outer) node) from h.source)).1
          have hfound : (tree.children crumb.label.id)[crumb.before.length]? = some node.id := by
            simp [Tree.children, hrecord, hchildren]
          exact Option.some.inj (hfound.symm.trans hchild)
  | @remove _ outer crumb node h | @removeText _ outer crumb node h =>
      cases hputs
      exact ⟨tree, _, crumb, outer, node, .same, h, rfl, rfl, h.source, rfl, rfl⟩
  | @detach _ outer crumb node h =>
      cases hputs
      exact ⟨tree, _, crumb, outer, node, .same, h, rfl, rfl, h.source, rfl, rfl⟩
  | @replace _ outer crumb node made keep h =>
      have hmade := hforest.node?_eq_top (h.used made (List.mem_singleton_self _))
      have hnew : (Splice.replacement outer crumb node made keep).new.flatMap Node.spelling =
          made.spelling ++ if keep then node.children.flatMap Node.spelling else [] := by
        simp [Splice.replacement, spelling_adopting]
      cases hputs with
      | replace =>
          refine ⟨tree, _, crumb, outer, node, .same, h, rfl, rfl, h.source, rfl, ?_⟩
          simp [hnew, Tree.content_eq hmade]
      | replaceKeeping =>
          refine ⟨tree, _, crumb, outer, node, .same, h, rfl, rfl, h.source, rfl, ?_⟩
          have hnode :=
            (Tree.holds_plug.1 (show tree.Holds none (.plug (crumb :: outer) node) from h.source)).2
          simp [hnew, Tree.content_eq hmade, flatMap_content_children hforest hnode]
  | @replaceWithText _ outer crumb node text htext hholds h =>
      cases hputs
      refine ⟨_, _, crumb, outer, node, .grow rfl rfl, h, rfl, rfl, hholds, rfl, ?_⟩
      simp [Splice.replacement, Splice.adopting, spelling_newNode_textRecord]

/-- What a call that succeeds does to the text of a tree.  In every node above the place of the
edit, the text of the place gives way to another, or a text comes in between the children of a
node.  The call frees the nodes that it is known to free and no others; nodes that are not
around the place keep their text, and all nodes their kinds, ranges and lines. -/
structure EditsText (tree : Tree) (call : Call) (tree' : Tree) : Prop where
  put : ∀ id text, call.Puts tree id text → ∀ above ∈ tree.ancestors id,
    ∃ crumbs node, node.id = id ∧ tree.node? above = some (.plug crumbs node)
      ∧ tree.content above = Crumb.textBefore crumbs ++ (tree.content id ++ Crumb.textAfter crumbs)
      ∧ tree'.content above = Crumb.textBefore crumbs ++ (text ++ Crumb.textAfter crumbs)
  inserted : ∀ parent index child, call.Inserts tree parent index child →
    ∀ above ∈ tree.lineage parent,
      ∃ crumbs owner, owner.id = parent ∧ tree.node? above = some (.plug crumbs owner)
        ∧ tree'.content above = Crumb.textBefore crumbs
          ++ ((owner.children.take index).flatMap Node.spelling
            ++ (tree.content child ++ ((owner.children.drop index).flatMap Node.spelling
              ++ Crumb.textAfter crumbs)))
  freed : ∀ id, tree.contains id = true → (tree'.contains id = true ↔ id ∉ call.frees tree)
  kept : ∀ id, tree.contains id = true → tree'.contains id = true → id ∉ call.raises tree →
    tree'.content id = tree.content id
  labels : ∀ id, tree.contains id = true → tree'.contains id = true →
    (tree'.label? id).map (fun label => (label.kind, label.range, label.lines)) =
      (tree.label? id).map fun label => (label.kind, label.range, label.lines)

/-- A call that puts a text in the place of a node puts it into the text of the nodes above. -/
theorem Does.put (h : Does tree call tree') (hforest : tree.IsForest) {text : List Char}
    (hputs : call.Puts tree id text) (habove : above ∈ tree.ancestors id) :
    ∃ crumbs node, node.id = id ∧ tree.node? above = some (.plug crumbs node)
      ∧ tree.content above =
          Crumb.textBefore crumbs ++ (tree.content id ++ Crumb.textAfter crumbs)
      ∧ tree'.content above = Crumb.textBefore crumbs ++ (text ++ Crumb.textAfter crumbs) := by
  obtain ⟨grown, s, crumb, outer, node, hgrows, happlies, hold, rfl, hholds, hlineage, rfl⟩ :=
    h.splice_of_puts hforest hputs
  have hmem : above ∈ crumb.label.id :: Crumb.names outer := by
    rw [Tree.ancestors, hforest.lineage_eq hholds] at habove
    exact habove
  have hlive : tree.contains above = true :=
    hholds.contains (Node.names_subset_ids_plug (crumb :: outer) node hmem)
  obtain ⟨crumbs, hnode, hcontent, hcontent'⟩ :=
    happlies.content_put (hgrows.isForest hforest) hold (hlineage ▸ hmem)
  rw [hgrows.node?_eq hforest hlive] at hnode
  rw [hgrows.content_eq hforest hlive] at hcontent
  refine ⟨crumbs, node, rfl, hnode, ?_, hcontent'⟩
  rw [hcontent, Tree.content_eq (hforest.node?_eq hholds)]

/-- A call that puts in a node is an insertion. -/
theorem Does.splice_of_inserts (h : Does tree call tree') (hforest : tree.IsForest)
    {parent child : NodeId} {index : Nat} (hinserts : call.Inserts tree parent index child) :
    ∃ outer crumb top, (Splice.insertion outer crumb top).Applies tree tree'
      ∧ crumb.label.id = parent ∧ crumb.before.length = index ∧ top.id = child := by
  cases h with
  | newLeaf | newNode | removeChild | remove | detach | replace | removeText | replaceWithText =>
      nomatch hinserts
  | @insertChild _ outer crumb top h =>
      cases hinserts
      exact ⟨outer, crumb, top, h, rfl, rfl, rfl⟩
  | @appendChild _ outer label children top h =>
      cases hinserts
      obtain ⟨record, hrecord, _, hchildren, _⟩ := (Tree.holds_plug.1 h.source).2.record
      have hname : tree.record? label.id = some record := hrecord
      refine ⟨outer, _, top, h, rfl, ?_, rfl⟩
      simp [Tree.children, hname, hchildren, Splice.owner, Splice.insertion, Node.children]
  | @insertBefore _ outer crumb node top h =>
      cases hinserts with
      | insertBefore _ hparent hindex =>
          have hholds : tree.Holds none (.plug (crumb :: outer) node) := h.source
          have hcrumb := Option.some.inj ((parent?_of_place _ _ hholds).symm.trans hparent)
          have hlength := (hforest.idxOf?_children hholds).symm.trans (hcrumb ▸ hindex)
          exact ⟨outer, _, top, h, hcrumb, Option.some.inj hlength, rfl⟩
  | @insertAfter _ outer crumb node top h =>
      cases hinserts with
      | insertAfter _ hparent hindex =>
          have hholds := place_of_insertAfter h.source
          have hcrumb := Option.some.inj ((parent?_of_place _ _ hholds).symm.trans hparent)
          have hlength := (hforest.idxOf?_children hholds).symm.trans (hcrumb ▸ hindex)
          refine ⟨outer, _, top, h, hcrumb, ?_, rfl⟩
          simpa using Option.some.inj hlength

/-- A call that puts in a node puts its text into that of the nodes above. -/
theorem Does.inserted (h : Does tree call tree') (hforest : tree.IsForest)
    {parent child : NodeId} {index : Nat} (hinserts : call.Inserts tree parent index child)
    (habove : above ∈ tree.lineage parent) :
    ∃ crumbs owner, owner.id = parent ∧ tree.node? above = some (.plug crumbs owner)
      ∧ tree'.content above = Crumb.textBefore crumbs
        ++ ((owner.children.take index).flatMap Node.spelling
          ++ (tree.content child ++ ((owner.children.drop index).flatMap Node.spelling
            ++ Crumb.textAfter crumbs))) := by
  obtain ⟨outer, crumb, top, happlies, rfl, rfl, rfl⟩ := h.splice_of_inserts hforest hinserts
  have hmem : above ∈ crumb.label.id :: Crumb.names outer := by
    have hlineage := hforest.lineage_eq happlies.source
    exact hlineage ▸ habove
  obtain ⟨inner, hnode, _, hcontent'⟩ := happlies.content_around hforest hmem
  have htop := hforest.node?_eq_top (happlies.used top (List.mem_singleton_self _))
  refine ⟨inner, _, rfl, hnode, ?_⟩
  rw [hcontent', Tree.content_eq htop]
  simp [Splice.insertion, Splice.owner, Node.children]

/-- A call frees the nodes that it is known to free, and no others. -/
theorem Does.freed (h : Does tree call tree') (hforest : tree.IsForest)
    (hid : tree.contains id = true) : tree'.contains id = true ↔ id ∉ call.frees tree := by
  have hsplice : ∀ {s : Splice} {grown}, tree.Grows grown → s.Applies grown tree' →
      s.gone = call.frees tree → (tree'.contains id = true ↔ id ∉ call.frees tree) := by
    intro s grown hgrows happlies hgone
    rw [happlies.contains_iff (hgrows.isForest hforest), hgone]
    exact and_iff_right (hgrows.contains hforest hid)
  have hbelow : ∀ crumbs {node}, tree.Holds none (.plug crumbs node) →
      node.ids = tree.idsBelow node.id := by
    intro crumbs node hholds
    rw [Tree.idsBelow, hforest.node?_eq hholds]
    rfl
  cases h with
  | newLeaf | newNode =>
      exact iff_of_true ((hforest.contains_grow _).2 (.inr hid)) List.not_mem_nil
  | insertChild h | appendChild h | insertBefore h | insertAfter h => exact hsplice .same h rfl
  | @removeChild _ outer crumb node h =>
      refine hsplice .same h ?_
      obtain ⟨⟨record, hrecord, _, hchildren, _⟩, _⟩ :=
        (Tree.holds_plug.1 (show tree.Holds none (.plug (crumb :: outer) node) from h.source)).1
      have hchild : (tree.children crumb.label.id)[crumb.before.length]? = some node.id := by
        simp [Tree.children, hrecord, hchildren]
      rw [frees, hchild]
      exact hbelow (crumb :: outer) h.source
  | @remove _ outer crumb node h | @removeText _ outer crumb node h =>
      exact hsplice .same h (hbelow (crumb :: outer) h.source)
  | detach h => exact hsplice .same h rfl
  | @replace _ outer crumb node made keep h =>
      refine hsplice .same h ?_
      cases keep with
      | false => exact hbelow (crumb :: outer) h.source
      | true => simp [Splice.replacement, Splice.remains, frees, Node.ids_mk, Node.id]
  | replaceWithText htext hholds h => exact hsplice (.grow rfl rfl) h (hbelow _ hholds)

/-- No call changes the kind, the range or the lines of a node. -/
theorem Does.labels (h : Does tree call tree') (hforest : tree.IsForest)
    (hid : tree.contains id = true) (hid' : tree'.contains id = true) :
    (tree'.label? id).map (fun label => (label.kind, label.range, label.lines)) =
      (tree.label? id).map fun label => (label.kind, label.range, label.lines) := by
  obtain ⟨node, node', hnode, hnode', ⟨_, hlabel⟩ | ⟨_, rfl⟩⟩ := h.fate hforest hid hid'
  · rw [Tree.label?_eq hnode, Tree.label?_eq hnode', hlabel]
    rfl
  · rw [Tree.label?_eq hnode, Tree.label?_eq hnode']

/-- A node that is not around the place of an edit keeps its text. -/
theorem Does.kept (h : Does tree call tree') (hforest : tree.IsForest)
    (hid : tree.contains id = true) (hid' : tree'.contains id = true)
    (hraises : id ∉ call.raises tree) : tree'.content id = tree.content id := by
  obtain ⟨node, node', hnode, hnode', ⟨hmem, _⟩ | ⟨_, rfl⟩⟩ := h.fate hforest hid hid'
  · exact absurd hmem hraises
  · rw [Tree.content_eq hnode, Tree.content_eq hnode']

end Call

namespace Language

/-- Edits of a tree are splices of its text, whatever edits came before. -/
theorem edits_splice_text (language : Language) (analysis : Bool) (text : List Char)
    (calls : List Call) {call : Call} {made : Option NodeId} {tree' : Tree}
    (hrun : call.edit.run (language.edited analysis text calls) = .ok made tree') :
    call.EditsText (language.edited analysis text calls) tree' := by
  have hforest := language.isForest_edited analysis text calls
  have hdoes : call.Does (language.edited analysis text calls) tree' := by
    have hyields := call.yields hforest
    rwa [Edit.Yields, hrun] at hyields
  exact {
    put := fun id put hputs above habove => hdoes.put hforest hputs habove
    inserted := fun parent index child hinserts above habove =>
      hdoes.inserted hforest hinserts habove
    freed := fun id hid => hdoes.freed hforest hid
    kept := fun id hid hid' hraises => hdoes.kept hforest hid hid' hraises
    labels := fun id hid hid' => hdoes.labels hforest hid hid' }

/-- A leaf that gives way to a text. -/
theorem edits_splice_text_letter :
    ∃ tree', (Call.replaceWithText (.fresh 1) ['b', 'c']).edit.run
        (Language.c.edited false ['a'] []) = .ok (some (.fresh 2)) tree'
      ∧ tree'.text = ['b', 'c']
      ∧ (Call.replaceWithText (.fresh 1) ['b', 'c']).EditsText
          (Language.c.edited false ['a'] []) tree' := by
  obtain ⟨tree', hrun, htext⟩ : ∃ tree', (Call.replaceWithText (.fresh 1) ['b', 'c']).edit.run
      (Language.c.edited false ['a'] []) = .ok (some (.fresh 2)) tree'
        ∧ tree'.text = ['b', 'c'] := by
    have hparse : Language.c.parse false ['a'] = Parse.build CFamily.cGrammar ['a'] := rfl
    rw [edited, hparse, Walk.build_letter]
    exact ⟨_, rfl, by decide +kernel⟩
  exact ⟨tree', hrun, htext, edits_splice_text .c false ['a'] [] hrun⟩

end Language

end ConcreteSyntax
