import ConcreteSyntax.Proofs.Analysis.Growth
import ConcreteSyntax.Proofs.Node.Place

/-!
# Sparse trees

A pass never makes a node whose only child is a node of the same pass.  A tree without such
nodes (`Node.Sparse`) holds few new nodes: among the siblings that were there before, there are
fewer than two for each (`Node.newAboveAll_le`).
-/

namespace ConcreteSyntax.Node

variable {isNew : NodeId → Bool}

mutual

/-- The number of new nodes above all others, those below others not counted. -/
def newAbove (isNew : NodeId → Bool) : Node → Nat
  | ⟨label, children⟩ => if isNew label.id then 1 + newAboveAll isNew children else 0

/-- The number of new nodes above all others in several trees. -/
def newAboveAll (isNew : NodeId → Bool) : List Node → Nat
  | [] => 0
  | node :: rest => newAbove isNew node + newAboveAll isNew rest

end

/-- Whether a node, if it is new, has children, and more than one new child. -/
def Sparse (isNew : NodeId → Bool) (node : Node) : Prop :=
  isNew node.id = true →
    node.children ≠ [] ∧ ∀ child, node.children = [child] → isNew child.id = false

theorem newAboveAll_add_length_le {nodes : List Node}
    (h : ∀ node ∈ nodes, node.newAbove isNew + 1 ≤ 2 * (node.erase isNew).length) :
    newAboveAll isNew nodes + nodes.length ≤ 2 * (eraseAll isNew nodes).length := by
  induction nodes with
  | nil => simp [newAboveAll, eraseAll]
  | cons node rest ih =>
      rw [List.forall_mem_cons] at h
      have hrest := ih h.2
      simp only [newAboveAll, eraseAll, List.length_cons, List.length_append]
      omega

/-- A new node of a sparse tree has two children at least, or an old one. -/
theorem newAbove_lt {node : Node} (h : node.All (Sparse isNew)) :
    node.newAbove isNew + 1 ≤ 2 * (node.erase isNew).length := by
  induction node with
  | mk label children ih =>
      obtain ⟨hself, hchildren⟩ := all_mk.1 h
      cases hnew : isNew label.id with
      | false => simp [newAbove, erase, hnew]
      | true =>
          have hcount := newAboveAll_add_length_le fun child hchild =>
            ih child hchild (hchildren child hchild)
          obtain ⟨hnonempty, honly⟩ := hself hnew
          simp only [newAbove, erase, hnew, if_true]
          cases children with
          | nil => exact absurd rfl hnonempty
          | cons first rest =>
              cases rest with
              | nil =>
                  have hold : isNew first.label.id = false := honly first rfl
                  obtain ⟨label, below⟩ := first
                  simp [newAboveAll, newAbove, eraseAll, erase,
                    show isNew label.id = false from hold]
              | cons second rest =>
                  simp only [List.length_cons] at hcount
                  omega

/-- In a sparse tree, there are fewer than two new nodes for each of the siblings that they
were put over. -/
theorem newAboveAll_le {node : Node} (h : node.All (Sparse isNew)) :
    newAboveAll isNew node.children ≤ 2 * (eraseAll isNew node.children).length - 1 := by
  have hcount := newAboveAll_add_length_le fun child hchild => newAbove_lt (h.children child hchild)
  cases hchildren : node.children with
  | nil => simp [newAboveAll]
  | cons first rest =>
      rw [hchildren, List.length_cons] at hcount
      omega

/-- Other nodes at a place leave a tree sparse, if they are so. -/
theorem all_sparse_plug {crumbs : List Crumb} {node node' : Node}
    (h : (plug crumbs node).All (Sparse isNew)) (hid : node'.id = node.id)
    (hnode : node'.All (Sparse isNew)) : (plug crumbs node').All (Sparse isNew) := by
  induction crumbs generalizing node node' with
  | nil => exact hnode
  | cons crumb outer ih =>
      refine ih h rfl (all_mk.2 ?_)
      obtain ⟨hself, hchildren⟩ := all_mk.1 (h.below (mem_descendants_plug outer _))
      refine ⟨fun hnew => ⟨by simp [children], fun child honly => ?_⟩, fun child hchild => ?_⟩
      · have hsplit : crumb.before = [] ∧ node' = child ∧ crumb.after = [] := by
          have hparts := List.append_eq_cons_iff.1 honly
          simpa [eq_comm] using hparts
        obtain ⟨hbefore, rfl, hafter⟩ := hsplit
        rw [hid]
        exact (hself hnew).2 node (by simp [children, hbefore, hafter])
      · rcases List.mem_append.1 hchild with hchild | hchild
        · exact hchildren child (by simp [hchild])
        · rcases List.mem_cons.1 hchild with rfl | hchild
          · exact hnode
          · exact hchildren child (by simp [hchild])

/-- A tree stays sparse where a run of old siblings is wrapped, unless the run is the whole child
list of a new node. -/
theorem all_sparse_wrap {label : Label} {before run after : List Node}
    (h : All (Sparse isNew) ⟨label, before ++ (run ++ after)⟩) (hrun : run ≠ [])
    (hold : ∀ node ∈ run, isNew node.id = false)
    (hproper : isNew label.id = true → ¬(before = [] ∧ after = [])) (lines : LineIndex)
    (id : NodeId) (kind : Kind) : All (Sparse isNew) ⟨label, before ++ (wrap lines id kind run :: after)⟩ := by
  obtain ⟨_, hchildren⟩ := all_mk.1 h
  have hwrapped : (wrap lines id kind run).All (Sparse isNew) := by
    refine all_mk.2 ⟨fun _ => ⟨hrun, fun only honly => ?_⟩, fun below hbelow => ?_⟩
    · have hsingle : run = [only] := honly
      exact hold only (by simp [hsingle])
    · exact hchildren below (by simp [hbelow])
  refine all_mk.2 ⟨fun hnew => ⟨by simp [children], fun child honly => ?_⟩, fun child hchild => ?_⟩
  · rcases List.append_eq_cons_iff.1 honly with ⟨hbefore, hrest⟩ | ⟨front, _, hrest⟩
    · exact absurd ⟨hbefore, (List.cons.inj hrest).2⟩ (hproper hnew)
    · simp at hrest
  · rcases List.mem_append.1 hchild with hchild | hchild
    · exact hchildren child (by simp [hchild])
    · rcases List.mem_cons.1 hchild with rfl | hchild
      · exact hwrapped
      · exact hchildren child (by simp [hchild])

end ConcreteSyntax.Node
