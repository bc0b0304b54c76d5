import Mathlib.Data.List.Basic
import ConcreteSyntax.Node.Cleaned
import ConcreteSyntax.Proofs.Text

/-!
# Trees over a text

What a node says of all nodes below it is said by its own label and its children
(`descendants_mk` and the lemmas after it).  A node `Fits` a text when its range, its lines
and its text are those of its place there, and its children stand side by side over its
whole range.  A tree in which all nodes fit spells what the text holds in its range.
-/

namespace ConcreteSyntax

namespace Node

/-! ## All nodes of a tree -/

theorem map_snd_descendantsFrom (node : Node) (depth : Nat) :
    (descendantsFrom depth node).map (·.2) = node.descendants := by
  induction node generalizing depth with
  | mk label children ih =>
      have hforest : ∀ d, (children.flatMap (descendantsFrom d)).map (·.2) =
          children.flatMap descendants := by
        intro d
        rw [List.map_flatMap]
        exact List.flatMap_congr fun child hchild => ih child hchild d
      simp only [descendants, descendantsFrom, forestFrom_eq, List.map_cons, hforest]

theorem descendants_mk (label : Label) (children : List Node) :
    descendants ⟨label, children⟩ = ⟨label, children⟩ :: children.flatMap descendants := by
  rw [descendants, descendantsFrom, forestFrom_eq, List.map_cons, List.map_flatMap]
  congr 1
  exact List.flatMap_congr fun child _ => map_snd_descendantsFrom child 1

theorem self_mem_descendants (node : Node) : node ∈ node.descendants := by
  cases node
  simp [descendants_mk]

theorem mem_descendants_iff {node below : Node} :
    below ∈ node.descendants ↔ below = node ∨ below ∈ node.children.flatMap descendants := by
  obtain ⟨label, children⟩ := node
  rw [descendants_mk, List.mem_cons]
  rfl

theorem mem_descendants_of_child {node child below : Node} (hchild : child ∈ node.children)
    (hbelow : below ∈ child.descendants) : below ∈ node.descendants :=
  mem_descendants_iff.2 (.inr (List.mem_flatMap.2 ⟨child, hchild, hbelow⟩))

theorem exists_parent {node below : Node} (h : below ∈ node.children.flatMap descendants) :
    ∃ parent ∈ node.descendants, below ∈ parent.children := by
  induction node with
  | mk label children ih =>
      obtain ⟨child, hchild, hbelow⟩ := List.mem_flatMap.1 h
      rcases mem_descendants_iff.1 hbelow with rfl | hbelow
      · exact ⟨_, self_mem_descendants _, hchild⟩
      · obtain ⟨parent, hparent, hmem⟩ := ih child hchild hbelow
        exact ⟨parent, mem_descendants_of_child hchild hparent, hmem⟩

/-- Below a leaf is no node with children. -/
theorem notMem_descendants {node below : Node} (hleaf : node.children = [])
    (h : below.children ≠ []) : below ∉ node.descendants := by
  rw [mem_descendants_iff, hleaf]
  rintro (rfl | hbelow)
  · exact h hleaf
  · cases hbelow

theorem leaves_mk (label : Label) (children : List Node) :
    leaves ⟨label, children⟩ =
      (if label.kind.isAtomic then [⟨label, children⟩] else []) ++ children.flatMap leaves := by
  rw [leaves, descendants_mk, List.filter_cons, List.filter_flatMap]
  cases h : label.kind.isAtomic <;> simp [kind, Node.label, h] <;> rfl

/-- A leaf is cleaned by its kind and its text. -/
theorem cleaned_leaf {leaf : Node} (hatomic : leaf.kind.isAtomic = true)
    (hchildren : leaf.children = []) :
    leaf.cleaned = cleanText leaf.kind (leaf.text?.getD []) := by
  obtain ⟨label, children⟩ := leaf
  obtain rfl : children = [] := hchildren
  have hatomic : label.kind.isAtomic = true := hatomic
  rw [cleaned, leaves_mk, if_pos hatomic, List.flatMap_nil, List.append_nil,
    List.flatMap_singleton]

theorem spelling_mk (label : Label) (children : List Node) :
    spelling ⟨label, children⟩ =
      (if label.kind.isAtomic then label.text?.getD [] else []) ++ children.flatMap spelling := by
  rw [spelling, leaves_mk, List.flatMap_append, List.flatMap_assoc]
  cases label.kind.isAtomic <;> simp [text?, Node.label] <;> rfl

/-- The names in a tree, that of each node before those below it. -/
def ids (node : Node) : List NodeId := node.descendants.map (·.id)

theorem ids_mk (label : Label) (children : List Node) :
    ids ⟨label, children⟩ = label.id :: children.flatMap ids := by
  rw [ids, descendants_mk, List.map_cons, List.map_flatMap]
  rfl

theorem ids_sublist {node below : Node} (h : below ∈ node.descendants) :
    below.ids.Sublist node.ids := by
  induction node with
  | mk label children ih =>
      rw [descendants_mk, List.mem_cons, List.mem_flatMap] at h
      rcases h with rfl | ⟨child, hchild, hbelow⟩
      · exact List.Sublist.refl _
      · rw [ids_mk]
        have hids : child.ids.Sublist (children.flatMap ids) := by
          rw [List.flatMap_def]
          exact List.sublist_flatten_of_mem (List.mem_map_of_mem hchild)
        exact ((ih child hchild hbelow).trans hids).cons _

theorem id_mem_ids (node : Node) : node.id ∈ node.ids :=
  List.mem_map_of_mem node.self_mem_descendants

theorem id_mem_ids_of_mem_children {node child : Node} (h : child ∈ node.children) :
    child.id ∈ node.ids := by
  obtain ⟨label, children⟩ := node
  rw [ids_mk]
  exact List.mem_cons_of_mem _ (List.mem_flatMap.2 ⟨child, h, child.id_mem_ids⟩)

theorem map_id_sublist (nodes : List Node) :
    (nodes.map Node.id).Sublist (nodes.flatMap ids) := by
  induction nodes with
  | nil => exact .slnil
  | cons node rest ih =>
      have hid : [node.id].Sublist node.ids := List.singleton_sublist.2 node.id_mem_ids
      exact hid.append ih

/-- Whether all nodes of a tree have a property. -/
def All (property : Node → Prop) (node : Node) : Prop := ∀ below ∈ node.descendants, property below

variable {property : Node → Prop}

theorem all_mk {label : Label} {children : List Node} :
    All property ⟨label, children⟩ ↔
      property ⟨label, children⟩ ∧ ∀ child ∈ children, All property child := by
  simp only [All, descendants_mk, List.forall_mem_cons, List.mem_flatMap, forall_exists_index,
    and_imp]
  exact and_congr_right fun _ => ⟨fun h child hchild below hbelow => h below child hchild hbelow,
    fun h below child hchild hbelow => h child hchild below hbelow⟩

theorem All.self {node : Node} (h : All property node) : property node :=
  h node node.self_mem_descendants

theorem mem_descendants_trans {node mid below : Node} (hmid : mid ∈ node.descendants)
    (hbelow : below ∈ mid.descendants) : below ∈ node.descendants := by
  induction node with
  | mk label children ih =>
      rw [descendants_mk, List.mem_cons, List.mem_flatMap] at hmid
      rcases hmid with rfl | ⟨child, hchild, hmid⟩
      · exact hbelow
      · rw [descendants_mk]
        exact List.mem_cons_of_mem _ (List.mem_flatMap.2 ⟨child, hchild, ih child hchild hmid⟩)

theorem child_mem_descendants {node mid child : Node} (hmid : mid ∈ node.descendants)
    (hchild : child ∈ mid.children) : child ∈ node.descendants :=
  mem_descendants_trans hmid (mem_descendants_of_child hchild child.self_mem_descendants)

theorem All.below {node below : Node} (h : All property node)
    (hbelow : below ∈ node.descendants) : All property below :=
  fun other hother => h other (mem_descendants_trans hbelow hother)

theorem All.children {node : Node} (h : All property node) :
    ∀ child ∈ node.children, All property child := by
  cases node
  exact (all_mk.1 h).2

end Node

/-! ## Layout -/

/-- Nodes that stand side by side from `start` to `stop`. -/
def Abut (start : Nat) : List Node → Nat → Prop
  | [], stop => start = stop
  | node :: rest, stop => node.range.start = start ∧ Abut node.range.stop rest stop

@[simp] theorem abut_nil {start stop : Nat} : Abut start [] stop ↔ start = stop := Iff.rfl

@[simp] theorem abut_cons {start stop : Nat} {node : Node} {rest : List Node} :
    Abut start (node :: rest) stop ↔
      node.range.start = start ∧ Abut node.range.stop rest stop := Iff.rfl

theorem abut_append {start stop : Nat} {left right : List Node} :
    Abut start (left ++ right) stop ↔ ∃ middle, Abut start left middle ∧ Abut middle right stop := by
  induction left generalizing start with
  | nil => simp
  | cons node rest ih => simp [ih, and_assoc]

theorem Abut.le {start stop : Nat} {nodes : List Node} (h : Abut start nodes stop) :
    start ≤ stop := by
  induction nodes generalizing start with
  | nil => exact Nat.le_of_eq h
  | cons node rest ih =>
      have hrest := ih h.2
      have hnode := node.range.start_le_stop
      rw [← h.1]
      omega

theorem Abut.isBoundary {text : List Char} {start stop : Nat} {nodes : List Node}
    (habut : Abut start nodes stop) (hstart : Text.isBoundary text start = true)
    (hnodes : ∀ node ∈ nodes, Text.isBoundary text node.range.stop = true) :
    Text.isBoundary text stop = true := by
  induction nodes generalizing start with
  | nil =>
      have hstop : start = stop := habut
      exact hstop ▸ hstart
  | cons node rest ih =>
      exact ih habut.2 (hnodes node (by simp)) fun other hother => hnodes other (by simp [hother])

/-- Nodes side by side do not share a place. -/
theorem Abut.eq_of_mem {start stop : Nat} {nodes : List Node} (h : Abut start nodes stop)
    {left right : Node} (hleft : left ∈ nodes) (hright : right ∈ nodes) (place : Nat)
    (hplaceLeft : left.range.start ≤ place ∧ place < left.range.stop)
    (hplaceRight : right.range.start ≤ place ∧ place < right.range.stop) : left = right := by
  induction nodes generalizing start with
  | nil => cases hleft
  | cons node rest ih =>
      have hbehind : ∀ other ∈ rest, node.range.stop ≤ other.range.start := by
        intro other hother
        obtain ⟨before, after, rfl⟩ := List.append_of_mem hother
        obtain ⟨middle, hbefore, hmiddle, _⟩ := abut_append.1 h.2
        have hle := hbefore.le
        omega
      rw [List.mem_cons] at hleft hright
      rcases hleft with hleft | hleft <;> rcases hright with hright | hright
      · exact hleft.trans hright.symm
      · have hle := hbehind right hright
        rw [hleft] at hplaceLeft
        omega
      · have hle := hbehind left hleft
        rw [hright] at hplaceRight
        omega
      · exact ih h.2 hleft hright

/-- How a node stands in a text: its range lies between characters, its lines are those of
its range, and a leaf holds what the text holds there.  Its children, where it has any,
take its whole range.  Where kinds are `sound`, leaves have no children, and a container
without children takes no bytes. -/
structure Node.Fits (lines : LineIndex) (sound : Prop) (node : Node) : Prop where
  start : Text.isBoundary lines.text node.range.start = true
  stop : Text.isBoundary lines.text node.range.stop = true
  lines_eq : node.label.lines = lines.span node.range
  text_eq : node.text? =
    if node.kind.isAtomic then some (Text.slice lines.text node.range) else none
  revision_eq : node.label.revision = 0
  tiled : node.children ≠ [] → Abut node.range.start node.children node.range.stop
  leaf : sound → node.kind.isAtomic = true → node.children = []
  empty : sound → node.kind.isAtomic = false → node.children = [] →
    node.range.start = node.range.stop

namespace Node

variable {lines : LineIndex} {sound : Prop}

theorem Fits.mono {node : Node} {sound' : Prop} (h : node.Fits lines sound)
    (hsound : sound' → sound) : node.Fits lines sound' :=
  { h with
    leaf := fun hs => h.leaf (hsound hs)
    empty := fun hs => h.empty (hsound hs) }

/-- A container is tiled by its children. -/
theorem Fits.abut {node : Node} (h : node.Fits lines sound) (hsound : sound)
    (hkind : node.kind.isAtomic = false) :
    Abut node.range.start node.children node.range.stop := by
  by_cases hchildren : node.children = []
  · rw [hchildren]
    exact h.empty hsound hkind hchildren
  · exact h.tiled hchildren

/-- Nodes side by side spell together what the text holds in their ranges, if each does. -/
theorem spelling_of_abut {text : List Char} {nodes : List Node} {range : Range}
    (habut : Abut range.start nodes range.stop)
    (hstart : Text.isBoundary text range.start = true)
    (hnodes : ∀ node ∈ nodes, Text.isBoundary text node.range.stop = true)
    (hspelling : ∀ node ∈ nodes, node.spelling = Text.slice text node.range) :
    nodes.flatMap spelling = Text.slice text range := by
  induction nodes generalizing range with
  | nil =>
      have hrange : range.start = range.stop := habut
      have hlength : range.length = 0 := by simp [Range.length, hrange]
      rw [Text.slice, hlength, Text.takeBytes_zero]
      rfl
  | cons node rest ih =>
      have hstop := habut.isBoundary hstart hnodes
      obtain ⟨hfirst, hrest⟩ := habut
      have hnode := hnodes node (by simp)
      have htail : rest.flatMap spelling =
          Text.slice text ⟨node.range.stop, range.stop, hrest.le⟩ := ih hrest hnode
        (fun other hother => hnodes other (by simp [hother]))
        (fun other hother => hspelling other (by simp [hother]))
      rw [List.flatMap_cons, hspelling node (by simp), htail]
      exact Text.slice_append_slice (hfirst ▸ hstart) hnode hstop rfl hfirst.symm rfl

/-- A new container fits over nodes that fit, if they stand side by side in its range. -/
theorem fits_container {id : NodeId} {kind : Kind} {range : Range} {children : List Node}
    (hkind : sound → kind.isAtomic = false)
    (hstart : Text.isBoundary lines.text range.start = true)
    (hstop : Text.isBoundary lines.text range.stop = true)
    (habut : Abut range.start children range.stop)
    (hchildren : ∀ child ∈ children, child.All (Fits lines sound)) :
    All (Fits lines sound) ⟨.ofRange lines id kind range, children⟩ := by
  refine all_mk.2 ⟨{
    start := hstart
    stop := hstop
    lines_eq := rfl
    text_eq := rfl
    revision_eq := rfl
    tiled := fun _ => habut
    leaf := fun hs (hatomic : kind.isAtomic = true) => by
      rw [hkind hs] at hatomic
      cases hatomic
    empty := fun _ _ (hnil : children = []) => ?_ }, hchildren⟩
  rw [hnil] at habut
  exact habut

/-- What is below a node lies in its range. -/
theorem range_below {node below : Node} (h : node.All (Fits lines sound))
    (hbelow : below ∈ node.descendants) :
    node.range.start ≤ below.range.start ∧ below.range.stop ≤ node.range.stop := by
  induction node with
  | mk label children ih =>
      rw [descendants_mk, List.mem_cons, List.mem_flatMap] at hbelow
      rcases hbelow with rfl | ⟨child, hchild, hbelow⟩
      · exact ⟨Nat.le_refl _, Nat.le_refl _⟩
      · have hinside := ih child hchild (h.children child hchild) hbelow
        have habut : Abut label.range.start children label.range.stop :=
          h.self.tiled (List.ne_nil_of_mem hchild)
        obtain ⟨before, after, rfl⟩ := List.append_of_mem hchild
        obtain ⟨middle, hfirst, hmiddle, hlast⟩ := abut_append.1 habut
        have hbegin := hfirst.le
        have hend := hlast.le
        have hrange : (Node.mk label (before ++ child :: after)).range = label.range := rfl
        rw [hrange]
        omega

/-- A tree in which all nodes fit spells what the text holds in its range. -/
theorem spelling_eq_slice {node : Node} (hsound : sound) (h : node.All (Fits lines sound)) :
    node.spelling = Text.slice lines.text node.range := by
  induction node with
  | mk label children ih =>
      obtain ⟨hself, hchildren⟩ := all_mk.1 h
      rw [spelling_mk]
      cases hkind : label.kind.isAtomic with
      | true =>
          have hnil : children = [] := hself.leaf hsound hkind
          have htext : label.text? = _ := hself.text_eq
          simp [hnil, htext, kind, Node.label, hkind]
      | false =>
          simp only [Bool.false_eq_true, if_false, List.nil_append]
          exact spelling_of_abut (hself.abut hsound hkind) hself.start
            (fun child hchild => (hchildren child hchild).self.stop)
            (fun child hchild => ih child hchild (hchildren child hchild))

end Node

end ConcreteSyntax
