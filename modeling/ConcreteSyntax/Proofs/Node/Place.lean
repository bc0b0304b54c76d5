import Mathlib.Data.List.Perm.Basic
import ConcreteSyntax.Proofs.Node

/-!
# Places in trees

A place in a tree is given by the nodes around it, the innermost first, each with its
children on both sides (`Crumb`).  A tree falls apart into a place and the node there
(`Node.plug`), and its text into what comes before the node, what the node spells, and what
comes behind it (`Node.spelling_plug`).
-/

namespace ConcreteSyntax

/-- A label after a change below it. -/
def Label.raise (label : Label) : Label := { label with revision := label.revision + 1 }

@[simp] theorem Label.id_raise (label : Label) : label.raise.id = label.id := rfl

@[simp] theorem Label.kind_raise (label : Label) : label.raise.kind = label.kind := rfl

/-- A node around a place: its label, and its children before and behind the place. -/
structure Crumb where
  label : Label
  before : List Node
  after : List Node

namespace Crumb

/-- The node with its revision raised. -/
def raise (crumb : Crumb) : Crumb := { crumb with label := crumb.label.raise }

@[simp] theorem label_raise (crumb : Crumb) : crumb.raise.label = crumb.label.raise := rfl

@[simp] theorem before_raise (crumb : Crumb) : crumb.raise.before = crumb.before := rfl

@[simp] theorem after_raise (crumb : Crumb) : crumb.raise.after = crumb.after := rfl

/-- The children beside the place. -/
def siblings (crumb : Crumb) : List Node := crumb.before ++ crumb.after

@[simp] theorem siblings_raise (crumb : Crumb) : crumb.raise.siblings = crumb.siblings := rfl

/-- The names in a node around a place, those in the place left out. -/
def ids (crumb : Crumb) : List NodeId := crumb.label.id :: crumb.siblings.flatMap Node.ids

@[simp] theorem ids_raise (crumb : Crumb) : crumb.raise.ids = crumb.ids := rfl

/-- The names of the nodes around a place, the innermost first. -/
def names (crumbs : List Crumb) : List NodeId := crumbs.map (·.label.id)

@[simp] theorem names_map_raise (crumbs : List Crumb) : names (crumbs.map raise) = names crumbs := by
  simp [names]

/-- The names beside a place, in the children of the nodes around it. -/
def beside (crumbs : List Crumb) : List NodeId :=
  crumbs.flatMap fun crumb => crumb.siblings.flatMap Node.ids

@[simp] theorem beside_map_raise (crumbs : List Crumb) :
    beside (crumbs.map raise) = beside crumbs := by
  simp [beside, List.flatMap_map]

theorem ids_perm (crumbs : List Crumb) :
    (crumbs.flatMap ids).Perm (names crumbs ++ beside crumbs) := by
  induction crumbs with
  | nil => simp [names, beside]
  | cons crumb outer ih =>
      simp only [names, beside, List.flatMap_cons, List.map_cons, ids, List.cons_append]
      exact List.Perm.cons _ ((ih.append_left _).trans (List.perm_append_comm_assoc _ _ _))

/-- What the leaves before a place spell. -/
def textBefore : List Crumb → List Char
  | [] => []
  | crumb :: outer => textBefore outer ++ crumb.before.flatMap Node.spelling

/-- What the leaves behind a place spell. -/
def textAfter : List Crumb → List Char
  | [] => []
  | crumb :: outer => crumb.after.flatMap Node.spelling ++ textAfter outer

@[simp] theorem textBefore_map_raise (crumbs : List Crumb) :
    textBefore (crumbs.map raise) = textBefore crumbs := by
  induction crumbs with
  | nil => rfl
  | cons crumb outer ih => simp [textBefore, ih]

@[simp] theorem textAfter_map_raise (crumbs : List Crumb) :
    textAfter (crumbs.map raise) = textAfter crumbs := by
  induction crumbs with
  | nil => rfl
  | cons crumb outer ih => simp [textAfter, ih]

end Crumb

namespace Node

open Crumb

/-- The tree with a node at a place. -/
def plug : List Crumb → Node → Node
  | [], node => node
  | crumb :: outer, node => plug outer ⟨crumb.label, crumb.before ++ (node :: crumb.after)⟩

theorem ids_eq (node : Node) : node.ids = node.id :: node.children.flatMap Node.ids := by
  cases node with
  | mk label children => exact ids_mk label children

theorem plug_append (inner outer : List Crumb) (node : Node) :
    plug (inner ++ outer) node = plug outer (plug inner node) := by
  induction inner generalizing node with
  | nil => rfl
  | cons crumb inner ih => exact ih _

theorem plug_concat (inner : List Crumb) (crumb : Crumb) (node : Node) :
    plug (inner ++ [crumb]) node =
      ⟨crumb.label, crumb.before ++ (plug inner node :: crumb.after)⟩ :=
  plug_append inner [crumb] node

theorem mem_descendants_plug (crumbs : List Crumb) (node : Node) :
    node ∈ (plug crumbs node).descendants := by
  induction crumbs generalizing node with
  | nil => exact node.self_mem_descendants
  | cons crumb outer ih =>
      refine mem_descendants_trans (ih ⟨crumb.label, _⟩) ?_
      rw [descendants_mk, List.mem_cons, List.mem_flatMap]
      exact .inr ⟨node, by simp, node.self_mem_descendants⟩

/-- Every node of a tree is at a place of it. -/
theorem exists_plug {top node : Node} (h : node ∈ top.descendants) :
    ∃ crumbs, top = plug crumbs node := by
  induction top with
  | mk label children ih =>
      rw [descendants_mk, List.mem_cons, List.mem_flatMap] at h
      rcases h with rfl | ⟨child, hchild, hnode⟩
      · exact ⟨[], rfl⟩
      · obtain ⟨crumbs, hcrumbs⟩ := ih child hchild hnode
        obtain ⟨before, after, rfl⟩ := List.append_of_mem hchild
        refine ⟨crumbs ++ [⟨label, before, after⟩], ?_⟩
        rw [plug_append, ← hcrumbs]
        rfl

theorem exists_plug_of_mem_ids {top : Node} {id : NodeId} (h : id ∈ top.ids) :
    ∃ crumbs node, top = plug crumbs node ∧ node.id = id := by
  obtain ⟨node, hnode, rfl⟩ := List.mem_map.1 h
  obtain ⟨crumbs, rfl⟩ := exists_plug hnode
  exact ⟨crumbs, node, rfl, rfl⟩

/-- The names in a tree are those in a place and those around it. -/
theorem ids_plug (crumbs : List Crumb) (node : Node) :
    (plug crumbs node).ids.Perm (node.ids ++ crumbs.flatMap Crumb.ids) := by
  induction crumbs generalizing node with
  | nil => simp [plug]
  | cons crumb outer ih =>
      refine (ih ⟨crumb.label, _⟩).trans ?_
      rw [ids_mk, List.flatMap_cons, ← List.append_assoc]
      refine List.Perm.append_right _ ?_
      rw [List.flatMap_append, List.flatMap_cons, Crumb.ids, siblings, List.flatMap_append]
      refine (List.Perm.cons _ (List.perm_append_comm_assoc _ _ _)).trans ?_
      exact List.perm_middle.symm

theorem id_plug (crumbs : List Crumb) {node node' : Node} (h : node'.id = node.id) :
    (plug crumbs node').id = (plug crumbs node).id := by
  induction crumbs generalizing node node' with
  | nil => exact h
  | cons crumb outer ih => exact ih rfl

theorem id_plug_congr (crumbs : List Crumb) {node node' : Node} (h : node.id = node'.id) :
    (plug crumbs node).id = (plug (crumbs.map raise) node').id := by
  induction crumbs generalizing node node' with
  | nil => exact h
  | cons crumb outer ih => exact ih rfl

theorem kind_plug_congr (crumbs : List Crumb) {node node' : Node} (h : node.kind = node'.kind) :
    (plug crumbs node).kind = (plug (crumbs.map raise) node').kind := by
  induction crumbs generalizing node node' with
  | nil => exact h
  | cons crumb outer ih => exact ih rfl

theorem label_plug_raise (crumbs : List Crumb) {node node' : Node}
    (h : node'.label = node.label.raise) :
    (plug (crumbs.map raise) node').label = (plug crumbs node).label.raise := by
  induction crumbs generalizing node node' with
  | nil => exact h
  | cons crumb outer ih => exact ih rfl

/-- A tree spells what comes before a place, what the node there spells, and what comes behind
the place. -/
theorem spelling_plug {crumbs : List Crumb}
    (h : ∀ crumb ∈ crumbs, crumb.label.kind.isAtomic = false) (node : Node) :
    (plug crumbs node).spelling = textBefore crumbs ++ (node.spelling ++ textAfter crumbs) := by
  induction crumbs generalizing node with
  | nil => simp [plug, textBefore, textAfter]
  | cons crumb outer ih =>
      rw [List.forall_mem_cons] at h
      rw [plug, ih h.2, spelling_mk, h.1]
      simp [textBefore, textAfter]

/-- The nodes of a tree are around a place, beside it, or in it. -/
theorem mem_descendants_plug_iff {crumbs : List Crumb} {node below : Node} :
    below ∈ (plug crumbs node).descendants ↔
      below ∈ node.descendants
        ∨ (∃ crumb ∈ crumbs, ∃ sibling ∈ crumb.siblings, below ∈ sibling.descendants)
        ∨ ∃ inner outer, crumbs = inner ++ outer ∧ inner ≠ [] ∧ below = plug inner node := by
  induction crumbs generalizing node with
  | nil => simp [plug]
  | cons crumb outer ih =>
      rw [plug, ih, descendants_mk, List.mem_cons, List.flatMap_append, List.flatMap_cons]
      constructor
      · rintro ((rfl | hbelow) | ⟨other, hother, hsibling⟩ | ⟨inner, rest, rfl, _, rfl⟩)
        · exact .inr (.inr ⟨[crumb], outer, rfl, by simp, rfl⟩)
        · rcases List.mem_append.1 hbelow with hbelow | hbelow
          · obtain ⟨sibling, hsibling, hbelow⟩ := List.mem_flatMap.1 hbelow
            exact .inr (.inl ⟨crumb, by simp, sibling, by simp [siblings, hsibling], hbelow⟩)
          · rcases List.mem_append.1 hbelow with hbelow | hbelow
            · exact .inl hbelow
            · obtain ⟨sibling, hsibling, hbelow⟩ := List.mem_flatMap.1 hbelow
              exact .inr (.inl ⟨crumb, by simp, sibling, by simp [siblings, hsibling], hbelow⟩)
        · exact .inr (.inl ⟨other, by simp [hother], hsibling⟩)
        · exact .inr (.inr ⟨crumb :: inner, rest, rfl, by simp, rfl⟩)
      · rintro (hbelow | ⟨other, hother, sibling, hsibling, hbelow⟩ | ⟨inner, rest, hsplit, hne, rfl⟩)
        · exact .inl (.inr (by simp [hbelow]))
        · rcases List.mem_cons.1 hother with rfl | hother
          · refine .inl (.inr ?_)
            have hmem : below ∈ other.siblings.flatMap descendants :=
              List.mem_flatMap.2 ⟨sibling, hsibling, hbelow⟩
            rw [siblings, List.flatMap_append, List.mem_append] at hmem
            rcases hmem with hmem | hmem <;> simp [hmem]
          · exact .inr (.inl ⟨other, hother, sibling, hsibling, hbelow⟩)
        · cases inner with
          | nil => exact absurd rfl hne
          | cons first inner =>
              rw [List.cons_append, List.cons.injEq] at hsplit
              obtain ⟨rfl, rfl⟩ := hsplit
              cases inner with
              | nil => exact .inl (.inl rfl)
              | cons second inner => exact .inr (.inr ⟨second :: inner, rest, rfl, by simp, rfl⟩)

/-- The names around a place are names of the tree. -/
theorem names_subset_ids_plug (crumbs : List Crumb) (node : Node) :
    names crumbs ⊆ (plug crumbs node).ids := by
  intro id hid
  obtain ⟨crumb, hcrumb, rfl⟩ := List.mem_map.1 hid
  refine (ids_plug crumbs node).symm.subset (List.mem_append_right _ ?_)
  exact List.mem_flatMap.2 ⟨crumb, hcrumb, List.mem_cons_self ..⟩

end Node

end ConcreteSyntax
