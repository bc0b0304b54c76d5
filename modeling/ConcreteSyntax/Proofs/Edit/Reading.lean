import ConcreteSyntax.Document
import ConcreteSyntax.Node.View
import ConcreteSyntax.Proofs.Analysis.Walk
import ConcreteSyntax.Proofs.Edit.History
import ConcreteSyntax.Proofs.Tree.Traversal

/-!
# Readings of trees

Whatever reads the leaves of a node reads the same text, which is what the node spells: a traversal
that enters the leaves, the content of the node, its views, and for the root the text of the tree
and the bytes of a document (`Tree.ReadsOneText`).  So it is after whatever calls, and the traversal
is the recursion over the tree then as well (`Language.traversals_agree`).
-/

namespace ConcreteSyntax

variable {tree : Tree} {parent : Option NodeId} {node : Node}

namespace Tree

/-! ## Texts of leaves -/

/-- The leaf that a step enters, if it enters one. -/
def leafEntered? (tree : Tree) : Step → Option NodeId
  | .enter id => if (tree.kind? id).any (·.isAtomic) then some id else none
  | .leave _ => none

/-- The leaves that a traversal from a node enters, in their order. -/
def leavesFrom (tree : Tree) (start : NodeId) : List NodeId :=
  (tree.steps (fun _ => false) start).filterMap tree.leafEntered?

/-- The text of a leaf, by its name. -/
def textOf (tree : Tree) (id : NodeId) : List Char :=
  ((tree.record? id).bind tree.leafText?).getD []

/-- Whether an arena tells the kind and the text of a node, and just the leaves have a text. -/
structure Tells (tree : Tree) (node : Node) : Prop where
  kind : tree.kind? node.id = some node.kind
  text : tree.textOf node.id = node.text?.getD []
  leaf : node.text?.isSome = node.kind.isAtomic

theorem Holds.tells (h : tree.Holds parent node) : tree.Tells node := by
  obtain ⟨record, hrecord, _, _, hlabel⟩ := h.record
  refine ⟨?_, ?_, ?_⟩
  · rw [kind?, hrecord, Node.kind, ← hlabel]
    rfl
  · rw [textOf, hrecord, Node.text?, ← hlabel]
    rfl
  · rw [Node.text?, Node.kind, ← hlabel]
    change (tree.leafText? record).isSome = record.kind.isAtomic
    rw [leafText?]
    cases record.kind.isAtomic <;> rfl

theorem Holds.all_tells (h : tree.Holds parent node) : node.All tree.Tells := fun _ hbelow =>
  (h.exists_above hbelow).elim fun _ => tells

/-- The leaves that a traversal enters are those of the tree. -/
theorem filterMap_leafEntered? (h : node.All tree.Tells) :
    node.steps.filterMap tree.leafEntered? = node.leaves.map Node.id := by
  induction node with
  | mk label children ih =>
      have hkind : tree.kind? label.id = some label.kind := h.self.kind
      have hbelow : children.flatMap (fun child => child.steps.filterMap tree.leafEntered?) =
          children.flatMap fun child => child.leaves.map Node.id :=
        List.flatMap_congr fun child hchild => ih child hchild (h.children child hchild)
      rw [Node.steps_mk, List.filterMap_cons, List.filterMap_append, List.filterMap_flatMap, hbelow,
        Node.leaves_mk, List.map_append, List.map_flatMap, leafEntered?, hkind, Option.any_some]
      cases label.kind.isAtomic
      · simp [leafEntered?]
      · simp [leafEntered?, Node.id, Node.label]

/-- What the leaves have for a text is told by their names. -/
theorem map_textOf (h : node.All tree.Tells) :
    (node.leaves.map Node.id).map tree.textOf = node.leaves.map fun leaf => leaf.text?.getD [] := by
  rw [List.map_map]
  exact List.map_congr_left fun leaf hleaf => (h leaf (List.mem_of_mem_filter hleaf)).text

/-- The text of a node is what its leaves spell, also where it is a leaf. -/
theorem content_eq_spelling (h : node.All tree.Tells)
    (hleaf : node.kind.isAtomic = true → node.children = []) : node.content = node.spelling := by
  have hself := h.self.leaf
  cases htext : node.text? with
  | none => rw [Node.content, htext, Option.getD_none]
  | some text =>
      rw [htext, Option.isSome_some] at hself
      have hleaves : node.leaves = [node] := by
        obtain ⟨label, children⟩ := node
        obtain rfl : children = [] := hleaf hself.symm
        rw [Node.leaves_mk, if_pos (show label.kind.isAtomic = true from hself.symm)]
        rfl
      rw [Node.content, Node.spelling, hleaves, List.flatMap_singleton, htext]
      rfl

end Tree

/-! ## Texts of views -/

namespace View

mutual

/-- The texts that a view and the views below it give, in their order. -/
def contents : View → List (List Char)
  | ⟨facts, children⟩ => facts.content.toList ++ contentsAll children

/-- The texts that several views and the views below them give, in their order. -/
def contentsAll : List View → List (List Char)
  | [] => []
  | view :: rest => contents view ++ contentsAll rest

end

theorem contents_ofNode_mk (parent : Option Kind) (label : Label) (children : List Node) :
    (ofNode parent ⟨label, children⟩).contents =
      label.text?.toList
        ++ children.flatMap fun child => (ofNode (some label.kind) child).contents := by
  have hbelow : ∀ nodes, contentsAll (ofNodes (some label.kind) nodes) =
      nodes.flatMap fun child => (ofNode (some label.kind) child).contents := fun nodes => by
    induction nodes with
    | nil => rfl
    | cons node rest ih => rw [ofNodes, contentsAll, ih, List.flatMap_cons]
  rw [ofNode, contents, hbelow]
  rfl

/-- The texts in a view are those of the leaves. -/
theorem contents_ofNode (h : node.All tree.Tells) (parent : Option Kind) :
    (ofNode parent node).contents = node.leaves.map fun leaf => leaf.text?.getD [] := by
  induction node generalizing parent with
  | mk label children ih =>
      have hself : label.text?.isSome = label.kind.isAtomic := h.self.leaf
      rw [contents_ofNode_mk, Node.leaves_mk, List.map_append, List.map_flatMap,
        List.flatMap_congr fun child hchild => ih child hchild (h.children child hchild) _]
      cases htext : label.text? with
      | none =>
          rw [htext] at hself
          rw [← hself]
          rfl
      | some text =>
          rw [htext] at hself
          rw [← hself, Option.isSome_some, if_pos rfl, List.map_singleton, Node.text?, Node.label,
            htext]
          rfl

end View

/-! ## Bytes of documents -/

theorem toList_loop_eq (bytes : ByteArray) (index : Nat) (done : List UInt8) :
    ByteArray.toList.loop bytes index done = done.reverse ++ bytes.data.toList.drop index := by
  fun_induction ByteArray.toList.loop bytes index done with
  | case1 index done hindex ih =>
      have hlength : index < bytes.data.toList.length := hindex
      have hbyte : bytes.get! index = bytes.data.toList[index] :=
        getElem!_pos bytes.data index hindex
      rw [ih, List.reverse_cons, List.append_assoc, List.singleton_append, hbyte,
        ← List.drop_eq_getElem_cons hlength]
  | case2 index done hindex =>
      rw [List.drop_eq_nil_of_le (Nat.le_of_not_lt hindex), List.append_nil]

theorem toList_toUTF8 (text : List Char) :
    (String.ofList text).toUTF8.toList = (String.ofList text).toByteArray.data.toList :=
  toList_loop_eq _ 0 []

/-- The bytes of two texts, one after the other, are those of both together. -/
theorem toList_toUTF8_append (a b : List Char) :
    (String.ofList (a ++ b)).toUTF8.toList =
      (String.ofList a).toUTF8.toList ++ (String.ofList b).toUTF8.toList := by
  rw [toList_toUTF8, toList_toUTF8, toList_toUTF8, String.ofList_append, String.toByteArray_append,
    ByteArray.toList_data_append]

/-- A document is written as the bytes of its text. -/
theorem Document.bytes_eq (document : Document) :
    document.bytes = (String.ofList document.text).toUTF8.toList := by
  have hleaves : ∀ leaves : List Node,
      (leaves.flatMap fun leaf => (String.ofList (leaf.text?.getD [])).toUTF8.toList) =
        (String.ofList (leaves.flatMap fun leaf => leaf.text?.getD [])).toUTF8.toList := by
    intro leaves
    induction leaves with
    | nil => exact (toList_toUTF8 []).symm
    | cons leaf rest ih => rw [List.flatMap_cons, List.flatMap_cons, ih, toList_toUTF8_append]
  exact hleaves _

namespace Tree

/-! ## One text -/

/-- What spells the text of a node: the leaves that a traversal enters, one after the other, its
content, and the texts in each view of it.  For the root it is the text of the tree, and a document
is written as its bytes. -/
structure ReadsOneText (tree : Tree) (node : Node) : Prop where
  leaves : tree.leavesFrom node.id = node.leaves.map Node.id
  texts : (tree.leavesFrom node.id).flatMap tree.textOf = node.spelling
  content : node.content = node.spelling
  views : ∀ parent, (View.ofNode parent node).contents = (tree.leavesFrom node.id).map tree.textOf
  view : ∀ parent, (View.ofNode parent node).contents.flatten = node.spelling
  text : node.id = tree.root → tree.text = node.spelling
  bytes : node.id = tree.root → ∀ language notes,
    (Document.mk language tree notes).bytes = (String.ofList node.spelling).toUTF8.toList

theorem IsForest.readsOneText (h : tree.IsForest) (hholds : tree.Holds parent node) :
    tree.ReadsOneText node := by
  have htells := hholds.all_tells
  have hleaves : tree.leavesFrom node.id = node.leaves.map Node.id := by
    rw [leavesFrom, (h.traverses hholds).steps_eq]
    exact filterMap_leafEntered? htells
  have htexts : (tree.leavesFrom node.id).map tree.textOf =
      node.leaves.map fun leaf => leaf.text?.getD [] := by
    rw [hleaves, map_textOf htells]
  have hspelling : (node.leaves.map fun leaf => leaf.text?.getD []).flatten = node.spelling :=
    (List.flatMap_def ..).symm
  have hroot : node.id = tree.root → tree.text = node.spelling := fun hid => by
    rw [text, rootNode, ← hid, h.node?_eq_of_holds hholds, Option.getD_some]
  refine {
    leaves := hleaves
    texts := by rw [List.flatMap_def, htexts, hspelling]
    content := content_eq_spelling htells (h.children_eq_nil hholds)
    views := fun parent => by rw [View.contents_ofNode htells, htexts]
    view := fun parent => by rw [View.contents_ofNode htells, hspelling]
    text := hroot
    bytes := fun hid language notes => ?_ }
  rw [Document.bytes_eq, ← hroot hid]
  rfl

end Tree

/-- Whatever calls were made on the tree of a text, a traversal from a node with its stack does
what the recursion over the tree of the node does, and whatever reads the leaves of the node reads
the same text. -/
theorem Language.traversals_agree (language : Language) (analysis : Bool) (text : List Char)
    (calls : List Call) {id : NodeId}
    (hid : (language.edited analysis text calls).contains id = true) :
    ∃ node, node.id = id ∧ (language.edited analysis text calls).node? id = some node
      ∧ (language.edited analysis text calls).Traverses node
      ∧ (language.edited analysis text calls).ReadsOneText node := by
  have hforest := language.isForest_edited analysis text calls
  obtain ⟨crumbs, node, rfl, hplace, _⟩ := hforest.exists_place hid
  have hholds := (Tree.holds_plug.1 hplace).2
  exact ⟨node, rfl, hforest.node?_eq hplace, hforest.traverses hholds, hforest.readsOneText hholds⟩

/-- The root over a leaf that gave way to a text. -/
theorem Language.traversals_agree_letter :
    let tree := Language.c.edited false ['a'] [.replaceWithText (.fresh 1) ['b']]
    tree.contains (.fresh 0) = true
      ∧ (∃ node, node.id = .fresh 0 ∧ tree.node? (.fresh 0) = some node ∧ tree.Traverses node
        ∧ tree.ReadsOneText node)
      ∧ tree.text = ['b']
      ∧ tree.steps (fun _ => false) (.fresh 0) =
          [.enter (.fresh 0), .enter ⟨2, 0⟩, .leave ⟨2, 0⟩, .leave (.fresh 0)]
      ∧ tree.steps (· == .fresh 0) (.fresh 0) = [.enter (.fresh 0), .leave (.fresh 0)] := by
  intro tree
  have hparse : Language.c.parse false ['a'] = Parse.build CFamily.cGrammar ['a'] := rfl
  have htree : tree = (Tree.ofParse (Parse.build CFamily.cGrammar ['a'])).after
      [.replaceWithText (.fresh 1) ['b']] := by rw [← hparse]; rfl
  have hroot : tree.contains (.fresh 0) = true := by
    rw [htree, Walk.build_letter]
    decide +kernel
  refine ⟨hroot, traversals_agree .c false ['a'] _ hroot, ?_⟩
  rw [htree, Walk.build_letter]
  decide +kernel

end ConcreteSyntax
