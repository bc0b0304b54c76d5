import Mathlib.Logic.Function.Iterate
import ConcreteSyntax.Proofs.Edit.Calls
import ConcreteSyntax.Proofs.Lossless

/-!
# Histories of trees

Whatever calls are made on the tree of a parsed text, the arena stays a forest
(`Language.isForest_edited`), so its links make trees, and its size is the number of its nodes
(`Language.consistent_edited`).  A call that is refused changes nothing at all
(`Language.calls_are_atomic`).
-/

namespace ConcreteSyntax

variable {tree tree' grown : Tree} {parent : Option NodeId} {node : Node} {parse : Parse}
  {sound : Prop} {id : NodeId}

namespace Tree

/-- An arena that shows a tree in which all nodes fit holds it. -/
theorem Shows.holds (h : tree.Shows parent node)
    (hfits : node.All (Node.Fits tree.index sound)) : tree.Holds parent node := by
  induction node generalizing parent with
  | mk label children ih =>
      obtain ⟨hrecord, hbelow⟩ := shows_mk.1 h
      rw [Node.all_mk] at hfits
      refine .mk hrecord rfl rfl ?_ fun child hchild =>
        ih child hchild (hbelow child hchild) (hfits.2 child hchild)
      exact labelOf_recordOf tree parent _ hfits.1.text_eq

/-- The arena of a parsed text is a forest. -/
theorem Represents.isForest (h : tree.Represents parse) (hnumbered : parse.root.Numbered parse.next)
    (hfits : parse.root.All (Node.Fits parse.lines sound)) (hsound : sound)
    (hkind : parse.root.kind = .root) : tree.IsForest := by
  have hholds : tree.Holds none parse.root := h.shows.holds (h.index ▸ hfits)
  have hmem : ∀ id, tree.contains id = true → id ∈ parse.root.ids := by
    intro id hid
    obtain ⟨record, hrecord⟩ := Arena.contains_iff.1 hid
    obtain ⟨node, hnode, rfl, _⟩ := h.exists_node hnumbered hrecord
    exact List.mem_map_of_mem hnode
  refine {
    kept := ⟨⟨parse.root.ids, hnumbered.nodup, ?_, fun id => ⟨hholds.contains, hmem id⟩⟩, ?_, ?_⟩
    root := ⟨parse.root, h.root.symm, hkind, hholds⟩
    top := fun id hid => ⟨parse.root, hholds, hnumbered.nodup, hmem id hid⟩
    leaf := (h.wellFormed hnumbered hfits hsound).leaf }
  · rw [Node.length_ids, hnumbered.size_eq, h.compact.size]
  · simp [h.compact.free]
  · simp [h.compact.free]

/-- The tree itself, or the tree with one more node, which has neither a parent nor children. -/
inductive Grows (tree : Tree) : Tree → Prop
  | same : Grows tree tree
  | grow {record : Record} (hparent : record.parent = none) (hchildren : record.children = []) :
      Grows tree (tree.grow record)

theorem Grows.isForest (h : tree.Grows grown) (hforest : tree.IsForest) : grown.IsForest := by
  cases h with
  | same => exact hforest
  | grow hparent hchildren => exact hforest.grow hparent hchildren

theorem Grows.node?_eq (h : tree.Grows grown) (hforest : tree.IsForest)
    (hid : tree.contains id = true) : grown.node? id = tree.node? id := by
  cases h with
  | same => rfl
  | grow hparent hchildren => exact hforest.node?_grow hparent hchildren hid

theorem Grows.contains (h : tree.Grows grown) (hforest : tree.IsForest)
    (hid : tree.contains id = true) : grown.contains id = true := by
  cases h with
  | same => exact hid
  | grow hparent hchildren => exact (hforest.contains_grow _).2 (.inr hid)

/-- The tree that calls leave, those that are refused among them. -/
def after (tree : Tree) : List Call → Tree
  | [] => tree
  | call :: rest =>
      match call.edit.run tree with
      | .ok _ next => next.after rest
      | .error _ next => next.after rest

theorem after_append (tree : Tree) (calls more : List Call) :
    tree.after (calls ++ more) = (tree.after calls).after more := by
  induction calls generalizing tree with
  | nil => rfl
  | cons call rest ih =>
      rw [List.cons_append, after, after]
      cases call.edit.run tree <;> exact ih _

end Tree

namespace Call

variable {call : Call}

theorem parent?_of_place (crumb : Crumb) (outer : List Crumb)
    (hholds : tree.Holds none (.plug (crumb :: outer) node)) :
    tree.parent? node.id = some crumb.label.id := by
  obtain ⟨record, hrecord, hparent, _⟩ := (Tree.holds_plug.1 hholds).2.record
  simp [Tree.parent?, hrecord, hparent, Tree.above]

theorem raises_eq (call : Call) {outer : List Crumb} {label : Label} {children : List Node}
    (hforest : tree.IsForest) (hedits : call.edits? tree = some label.id)
    (howner : tree.Holds none (.plug outer ⟨label, children⟩)) :
    call.raises tree = call.adopts ++ (label.id :: Crumb.names outer) := by
  have hlineage := hforest.lineage_eq howner
  rw [raises, hedits, Option.map_some, Option.getD_some]
  exact congrArg _ hlineage

/-- The place of a node behind which another is put. -/
theorem place_of_insertAfter {crumb : Crumb} {outer : List Crumb} {child : Node}
    (h : tree.Holds none (Splice.insertion outer
      ⟨crumb.label, crumb.before ++ [node], crumb.after⟩ child).source) :
    tree.Holds none (.plug (crumb :: outer) node) := by
  simpa [Splice.insertion, Splice.source, Splice.owner, Node.plug] using h

/-- A call that succeeds may make a node, and may be a splice then. -/
theorem Does.steps (h : Does tree call tree') (hforest : tree.IsForest) :
    ∃ grown, tree.Grows grown ∧ (tree' = grown ∧ call.raises tree = []
      ∨ ∃ s : Splice, s.Applies grown tree' ∧ call.raises tree = s.raised ++ s.lineage) := by
  cases h with
  | newLeaf hkind => exact ⟨_, .grow rfl rfl, .inl ⟨rfl, rfl⟩⟩
  | newNode hkind => exact ⟨_, .grow rfl rfl, .inl ⟨rfl, rfl⟩⟩
  | insertChild h | appendChild h | removeChild h =>
      exact ⟨tree, .same, .inr ⟨_, h, raises_eq _ hforest rfl h.source⟩⟩
  | @insertBefore _ outer crumb node _ h =>
      exact ⟨tree, .same, .inr ⟨_, h, raises_eq _ hforest
        (parent?_of_place crumb outer h.source) h.source⟩⟩
  | @insertAfter _ outer crumb node _ h =>
      exact ⟨tree, .same, .inr ⟨_, h, raises_eq _ hforest
        (parent?_of_place _ _ (place_of_insertAfter h.source)) h.source⟩⟩
  | @remove _ outer crumb node h
  | @detach _ outer crumb node h
  | @removeText _ outer crumb node h =>
      exact ⟨tree, .same, .inr ⟨_, h, raises_eq _ hforest
        (parent?_of_place crumb outer h.source) h.source⟩⟩
  | @replace _ outer crumb node made keep h =>
      have hraises := raises_eq (.replace node.id made.id keep) hforest
        (parent?_of_place crumb outer h.source) h.source
      refine ⟨tree, .same, .inr ⟨_, h, hraises.trans ?_⟩⟩
      cases keep <;> rfl
  | @replaceWithText _ outer crumb node text htext hholds h =>
      exact ⟨_, .grow rfl rfl,
        .inr ⟨_, h, raises_eq _ hforest (parent?_of_place crumb outer hholds) hholds⟩⟩

theorem Does.isForest (h : Does tree call tree') (hforest : tree.IsForest) : tree'.IsForest := by
  obtain ⟨grown, hgrows, ⟨rfl, _⟩ | ⟨s, happlies, _⟩⟩ := h.steps hforest
  · exact hgrows.isForest hforest
  · exact happlies.isForest (hgrows.isForest hforest)

theorem Does.root_eq (h : Does tree call tree') (hforest : tree.IsForest) :
    tree'.root = tree.root := by
  obtain ⟨grown, hgrows, hrest⟩ := h.steps hforest
  have hgrown : grown.root = tree.root := by cases hgrows <;> rfl
  rcases hrest with ⟨rfl, _⟩ | ⟨s, happlies, _⟩
  · exact hgrown
  · exact happlies.root.trans hgrown

/-- What one call makes of a tree: nothing where it is refused. -/
theorem after_cons_cases (hforest : tree.IsForest) (call : Call) :
    (∀ rest, tree.after (call :: rest) = tree.after rest)
      ∨ ∃ tree', Does tree call tree' ∧ ∀ rest, tree.after (call :: rest) = tree'.after rest := by
  have hyields := call.yields hforest
  rw [Edit.Yields] at hyields
  cases hrun : call.edit.run tree with
  | ok made tree' =>
      rw [hrun] at hyields
      exact .inr ⟨tree', hyields, fun rest => by rw [Tree.after, hrun]⟩
  | error halt tree' =>
      rw [hrun] at hyields
      cases halt with
      | refused error => exact .inl fun rest => by rw [Tree.after, hrun, show tree' = tree from hyields]
      | broken fault => exact absurd hyields id

end Call

namespace Tree

/-- Calls keep an arena a forest, and keep its root. -/
theorem IsForest.after (h : tree.IsForest) (calls : List Call) :
    (tree.after calls).IsForest ∧ (tree.after calls).root = tree.root := by
  induction calls generalizing tree with
  | nil => exact ⟨h, rfl⟩
  | cons call rest ih =>
      rcases call.after_cons_cases h with hrest | ⟨tree', hdone, hrest⟩
      · rw [hrest]
        exact ih h
      · rw [hrest, ← hdone.root_eq h]
        exact ih (hdone.isForest h)

/-! ## Consistency -/

/-- Whether the links of an arena make trees: the root is there and has no parent, parents and
children refer to each other, a node is a child once at most, every way up ends, leaves have no
children, and the size is the number of the nodes. -/
structure Consistent (tree : Tree) : Prop where
  root : ∃ record, tree.record? tree.root = some record ∧ record.kind = .root
    ∧ record.parent = none
  parent : ∀ id above, tree.parent? id = some above →
    tree.contains above = true ∧ (tree.children above).count id = 1
      ∧ ∀ other, id ∈ tree.children other → other = above
  child : ∀ id, ∀ child ∈ tree.children id,
    tree.contains child = true ∧ tree.parent? child = some id
  climb : ∀ id, tree.contains id = true →
    ∃ count, (fun start : Option NodeId => start.bind tree.parent?)^[count] (some id) = none
  leaf : ∀ id record, tree.record? id = some record → record.kind.isAtomic = true →
    record.children = []
  size : ∃ names : List NodeId, names.Nodup ∧ names.length = tree.size
    ∧ ∀ id, id ∈ names ↔ tree.contains id = true

theorem Climbs.iterate_eq {start : Option NodeId} {ids : List NodeId} (h : tree.Climbs start ids) :
    (fun start : Option NodeId => start.bind tree.parent?)^[ids.length] start = none := by
  induction ids generalizing start with
  | nil => exact h
  | cons first rest ih =>
      obtain ⟨rfl, record, hrecord, hrest⟩ := h
      have hparent : (some first).bind tree.parent? = record.parent := by simp [parent?, hrecord]
      rw [List.length_cons, Function.iterate_succ_apply, hparent]
      exact ih hrest

namespace IsForest

/-- What is listed as a child refers to its parent. -/
theorem parent?_child (h : tree.IsForest) {child : NodeId} (hchild : child ∈ tree.children id) :
    tree.contains child = true ∧ tree.parent? child = some id := by
  cases hrecord : tree.record? id with
  | none => simp [Tree.children, hrecord] at hchild
  | some record =>
      obtain ⟨crumbs, node, rfl, hholds, _⟩ := h.exists_place (Arena.contains_of_get? hrecord)
      have hnode := (holds_plug.1 hholds).2
      obtain ⟨found, hfound, _, hchildren, _⟩ := hnode.record
      simp only [Tree.children, hfound, Option.map_some, Option.getD_some, hchildren] at hchild
      obtain ⟨below, hbelow, rfl⟩ := List.mem_map.1 hchild
      obtain ⟨record', hrecord', hparent, _⟩ := (hnode.child below hbelow).record
      exact ⟨Arena.contains_of_get? hrecord', by simp [parent?, hrecord', hparent]⟩

/-- The children of a parent list a node once. -/
theorem count_children (h : tree.IsForest) {above : NodeId} (habove : tree.parent? id = some above) :
    tree.contains above = true ∧ (tree.children above).count id = 1 := by
  cases hrecord : tree.record? id with
  | none => simp [parent?, hrecord] at habove
  | some record =>
      obtain ⟨crumbs, node, rfl, hholds, _⟩ := h.exists_place (Arena.contains_of_get? hrecord)
      obtain ⟨hsurrounds, hnode⟩ := holds_plug.1 hholds
      obtain ⟨found, hfound, hparent, _⟩ := hnode.record
      simp only [parent?, hfound, Option.bind_some, hparent] at habove
      cases crumbs with
      | nil => cases habove
      | cons crumb outer =>
          obtain rfl : crumb.label.id = above := Option.some.inj habove
          obtain ⟨⟨record', hrecord', _, hchildren, _⟩, _⟩ := hsurrounds
          have howner : tree.Holds none
              (.plug outer ⟨crumb.label, crumb.before ++ node :: crumb.after⟩) := hholds
          have hnodup := h.nodup_of_place howner
          have hnames := Node.nodup_children hnodup
          refine ⟨Arena.contains_of_get? hrecord', ?_⟩
          simp only [Tree.children, hrecord', Option.map_some, Option.getD_some, hchildren]
          refine List.count_eq_one_of_mem ?_ (by simp)
          simpa [Node.children] using hnames

theorem consistent (h : tree.IsForest) : tree.Consistent where
  root := by
    obtain ⟨node, hroot, hkind, hholds⟩ := h.root
    obtain ⟨record, hrecord, hparent, _, hlabel⟩ := hholds.record
    have hsame : record.kind = node.kind := congrArg Label.kind hlabel
    exact ⟨record, hroot ▸ hrecord, hsame.trans hkind, hparent⟩
  parent id above habove := by
    obtain ⟨hlive, hcount⟩ := h.count_children habove
    refine ⟨hlive, hcount, fun other hother => ?_⟩
    exact Option.some.inj ((h.parent?_child hother).2.symm.trans habove)
  child id child hchild := h.parent?_child hchild
  climb id hid := by
    obtain ⟨crumbs, node, rfl, hholds, _⟩ := h.exists_place hid
    exact ⟨_, hholds.climbs.iterate_eq⟩
  leaf := h.leaf
  size := h.kept.names

end IsForest

end Tree

namespace Language

/-- The tree of a text after some calls. -/
def edited (language : Language) (analysis : Bool) (text : List Char) (calls : List Call) : Tree :=
  (Tree.ofParse (language.parse analysis text)).after calls

variable {language : Language} {analysis : Bool} {text : List Char}

theorem edited_append (calls more : List Call) :
    language.edited analysis text (calls ++ more) =
      (language.edited analysis text calls).after more :=
  Tree.after_append _ calls more

theorem isForest_ofParse (language : Language) (analysis : Bool) (text : List Char) :
    (Tree.ofParse (language.parse analysis text)).IsForest := by
  rw [parse_eq_stage]
  have hlaid := language.wellLaid_stage
    (if analysis then language.grammar.passes.length else 0) text
  exact hlaid.represents.isForest hlaid.numbered hlaid.fits trivial hlaid.kind

theorem isForest_edited (language : Language) (analysis : Bool) (text : List Char)
    (calls : List Call) : (language.edited analysis text calls).IsForest :=
  ((language.isForest_ofParse analysis text).after calls).1

/-- Whatever calls are made on the tree of a text, refused ones among them, the tree is
consistent, and its root is the one it was parsed with. -/
theorem consistent_edited (language : Language) (analysis : Bool) (text : List Char)
    (calls : List Call) :
    (language.edited analysis text calls).Consistent
      ∧ (language.edited analysis text calls).root = (language.parse analysis text).root.id :=
  ⟨(language.isForest_edited analysis text calls).consistent,
    ((language.isForest_ofParse analysis text).after calls).2⟩

/-- Whatever calls were made on the tree of a text, the next call does all of its work or none of
it, and never breaks.  It is refused for the first of its checks that fails, and the tree is then
the one it was, with its nodes, its free places and so the name of the next node; where no check
fails it succeeds. -/
theorem calls_are_atomic (language : Language) (analysis : Bool) (text : List Char)
    (calls : List Call) (call : Call) :
    match call.refusal? (language.edited analysis text calls) with
    | some error =>
        call.edit.run (language.edited analysis text calls) =
          .error (.refused error) (language.edited analysis text calls)
    | none =>
        ∃ made tree', call.edit.run (language.edited analysis text calls) = .ok made tree'
          ∧ call.Does (language.edited analysis text calls) tree' :=
  call.answers (language.isForest_edited analysis text calls)

end Language

end ConcreteSyntax
