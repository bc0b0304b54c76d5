import Mathlib.Data.List.Lattice
import Mathlib.Data.List.Pairwise
import ConcreteSyntax.Proofs.Tree.Forest
import ConcreteSyntax.Tree.Navigation

/-!
# Traversals

A traversal goes through an arena with a stack of places, and still does what the recursion over
the tree does: it enters a node, goes through its children, and leaves it (`Tree.Links.goes`).
What it is told to pass over is missing, and nothing else (`Node.stepsPast_eq_filter`).
-/

namespace ConcreteSyntax

/-- The node that a step of a traversal enters or leaves. -/
def Tree.Step.id : Step → NodeId
  | .enter id => id
  | .leave id => id

variable {skip : NodeId → Bool} {tree : Tree} {parent : Option NodeId} {node : Node}

namespace Node

/-! ## Steps by recursion -/

/-- What a traversal by names does where one by labels does something. -/
def Event.step : Event → Tree.Step
  | .enter label => .enter label.id
  | .leave label => .leave label.id

/-- What a traversal of a tree does, by names. -/
def steps (node : Node) : List Tree.Step := node.events.map Event.step

theorem eventsAll_eq (nodes : List Node) : eventsAll nodes = nodes.flatMap events := by
  induction nodes with
  | nil => rfl
  | cons node rest ih => rw [eventsAll, ih, List.flatMap_cons]

theorem steps_mk (label : Label) (children : List Node) :
    steps ⟨label, children⟩ =
      .enter label.id :: (children.flatMap steps ++ [.leave label.id]) := by
  rw [steps, events, eventsAll_eq, List.map_cons, List.map_append, List.map_flatMap]
  rfl

mutual

/-- What a traversal of a tree does that passes over what is below the nodes that `skip`
accepts. -/
def stepsPast (skip : NodeId → Bool) : Node → List Tree.Step
  | ⟨label, children⟩ =>
      .enter label.id :: ((if skip label.id then [] else stepsPastAll skip children)
        ++ [.leave label.id])

/-- What a traversal of several trees does that passes over what is below the nodes that `skip`
accepts. -/
def stepsPastAll (skip : NodeId → Bool) : List Node → List Tree.Step
  | [] => []
  | node :: rest => stepsPast skip node ++ stepsPastAll skip rest

end

theorem stepsPastAll_eq (nodes : List Node) :
    stepsPastAll skip nodes = nodes.flatMap (stepsPast skip) := by
  induction nodes with
  | nil => rfl
  | cons node rest ih => rw [stepsPastAll, ih, List.flatMap_cons]

theorem stepsPast_mk (label : Label) (children : List Node) :
    stepsPast skip ⟨label, children⟩ =
      .enter label.id :: ((if skip label.id then [] else children.flatMap (stepsPast skip))
        ++ [.leave label.id]) := by
  rw [stepsPast, stepsPastAll_eq]

/-- A traversal that passes over nothing is the whole of it. -/
theorem stepsPast_never (node : Node) : node.stepsPast (fun _ => false) = node.steps := by
  induction node with
  | mk label children ih =>
      rw [stepsPast_mk, steps_mk, if_neg Bool.false_ne_true, List.flatMap_congr ih]

theorem stepsPast_eq_cons (node : Node) :
    node.stepsPast skip = .enter node.id :: (node.stepsPast skip).tail := by
  cases node
  rw [stepsPast_mk]
  rfl

/-- The names strictly below the nodes of a tree that `skip` accepts. -/
def passed (skip : NodeId → Bool) (node : Node) : List NodeId :=
  (node.descendants.filter (skip ·.id)).flatMap fun above => above.children.flatMap ids

theorem passed_mk (label : Label) (children : List Node) :
    passed skip ⟨label, children⟩ =
      (if skip label.id then children.flatMap ids else []) ++ children.flatMap (passed skip) := by
  rw [passed, descendants_mk, List.filter_cons, List.filter_flatMap]
  have hid : (Node.mk label children).id = label.id := rfl
  cases hskip : skip label.id with
  | true =>
      rw [hid, hskip, if_pos rfl, if_pos rfl, List.flatMap_cons, List.flatMap_assoc]
      rfl
  | false =>
      rw [hid, hskip, if_neg Bool.false_ne_true, if_neg Bool.false_ne_true, List.flatMap_assoc]
      rfl

theorem passed_subset (skip : NodeId → Bool) (node : Node) :
    node.passed skip ⊆ node.children.flatMap ids := by
  induction node with
  | mk label children ih =>
      intro id hid
      rw [passed_mk, List.mem_append, List.mem_flatMap] at hid
      rcases hid with hid | ⟨child, hchild, hid⟩
      · split at hid
        · exact hid
        · cases hid
      · refine List.mem_flatMap.2 ⟨child, hchild, ?_⟩
        rw [ids_eq]
        exact List.mem_cons_of_mem _ (ih child hchild hid)

/-- No name is below two children. -/
theorem eq_of_mem_ids {children : List Node} (hnodup : (children.flatMap ids).Nodup)
    {child other : Node} (hchild : child ∈ children) (hother : other ∈ children) {id : NodeId}
    (hid : id ∈ child.ids) (hid' : id ∈ other.ids) : child = other := by
  by_contra hne
  have hsymm : Std.Symm (Function.onFun List.Disjoint ids) := ⟨fun _ _ => List.Disjoint.symm⟩
  exact (List.nodup_flatMap.1 hnodup).2.forall hchild hother hne hid hid'

/-- The steps of a traversal enter each node of the tree, and leave each. -/
theorem steps_perm (node : Node) :
    node.steps.Perm (node.ids.map .enter ++ node.ids.map .leave) := by
  induction node with
  | mk label children ih =>
      have hbelow : (children.flatMap steps).Perm
          ((children.flatMap ids).map .enter ++ (children.flatMap ids).map .leave) := by
        rw [List.map_flatMap, List.map_flatMap]
        refine .trans ?_ (List.flatMap_append_perm children _ _).symm
        exact .flatMap_left children ih
      rw [steps_mk, ids_mk, List.map_cons, List.map_cons, List.cons_append]
      refine .cons _ ((hbelow.append_right _).trans ?_)
      rw [List.append_assoc]
      exact .append_left _ (List.perm_append_singleton _ _)

theorem id_mem_of_mem_steps {step : Tree.Step} (h : step ∈ node.steps) : step.id ∈ node.ids := by
  rcases List.mem_append.1 ((steps_perm node).subset h) with h | h
  all_goals
    obtain ⟨id, hid, rfl⟩ := List.mem_map.1 h
    exact hid

theorem steps_infix {below : Node} (h : below ∈ node.descendants) :
    below.steps <:+: node.steps := by
  induction node with
  | mk label children ih =>
      rw [descendants_mk, List.mem_cons, List.mem_flatMap] at h
      rcases h with rfl | ⟨child, hchild, hbelow⟩
      · exact List.infix_refl _
      · refine (ih child hchild hbelow).trans ?_
        obtain ⟨before, after, rfl⟩ := List.append_of_mem hchild
        refine ⟨.enter label.id :: before.flatMap steps,
          after.flatMap steps ++ [.leave label.id], ?_⟩
        simp [steps_mk]

/-- What a traversal leaves out that passes over what is below some nodes is just what is below
them. -/
theorem stepsPast_eq_filter (hnodup : node.ids.Nodup) :
    node.stepsPast skip = node.steps.filter (·.id ∉ node.passed skip) := by
  induction node with
  | mk label children ih =>
      rw [ids_mk, List.nodup_cons] at hnodup
      obtain ⟨hself, hnodup⟩ := hnodup
      have hchildren := (List.nodup_flatMap.1 hnodup).1
      have hlabel : label.id ∉ passed skip ⟨label, children⟩ := fun hid =>
        hself (passed_subset skip _ hid)
      have hends : ∀ step : Tree.Step, step.id = label.id →
          decide (step.id ∉ passed skip ⟨label, children⟩) = true := fun step hstep =>
        decide_eq_true (hstep ▸ hlabel)
      have hbelow : (children.flatMap steps).filter (·.id ∉ passed skip ⟨label, children⟩) =
          if skip label.id then [] else children.flatMap (stepsPast skip) := by
        split
        · next hskip =>
            refine List.filter_eq_nil_iff.2 fun step hstep => ?_
            obtain ⟨child, hchild, hstep⟩ := List.mem_flatMap.1 hstep
            have hid := List.mem_flatMap.2 ⟨child, hchild, id_mem_of_mem_steps hstep⟩
            simp [passed_mk, hskip, List.mem_append, hid]
        · next hskip =>
            rw [List.filter_flatMap]
            refine List.flatMap_congr fun child hchild => ?_
            rw [ih child hchild (hchildren child hchild)]
            refine List.filter_congr fun step hstep => ?_
            have hid := id_mem_of_mem_steps hstep
            rw [decide_eq_decide, not_iff_not, passed_mk, if_neg hskip, List.nil_append,
              List.mem_flatMap]
            refine ⟨fun ⟨other, hother, hpassed⟩ => ?_, fun hpassed => ⟨child, hchild, hpassed⟩⟩
            -- the child has no name in common with its siblings and what is below them
            have hbelow := passed_subset skip other hpassed
            have hother' : step.id ∈ other.ids := ids_eq other ▸ List.mem_cons_of_mem _ hbelow
            rwa [← eq_of_mem_ids hnodup hother hchild hother' hid]
      rw [steps_mk, stepsPast_mk, List.filter_cons, if_pos (hends _ rfl), List.filter_append,
        hbelow, List.filter_cons, if_pos (hends _ rfl)]
      rfl

end Node

namespace Tree

/-! ## Steps with a stack -/

namespace Preorder

variable {walk walk' walk'' : Preorder} {taken more : List Step} {outer : List (NodeId × Nat)}

/-- Whether a traversal that passes over some nodes gets from one place to another by some
steps. -/
def Goes (tree : Tree) (skip : NodeId → Bool) (walk : Preorder) (taken : List Step)
    (walk' : Preorder) : Prop :=
  ∀ fuel, collect tree skip (taken.length + fuel) walk = taken ++ collect tree skip fuel walk'

theorem Goes.trans (h : Goes tree skip walk taken walk') (h' : Goes tree skip walk' more walk'') :
    Goes tree skip walk (taken ++ more) walk'' := fun fuel => by
  rw [List.length_append, Nat.add_assoc, h, h', List.append_assoc]

/-- The index of the first child to visit below a node that is entered. -/
def firstIndex (tree : Tree) (skip : NodeId → Bool) (id : NodeId) : Nat :=
  if skip id then (tree.children id).length else 0

theorem goes_start (id : NodeId) :
    Goes tree skip (.new id) [.enter id] ⟨none, [(id, firstIndex tree skip id)]⟩ := fun fuel => by
  rw [List.length_singleton, Nat.add_comm, collect]
  simp only [next?, new, skipSubtree, firstIndex]
  cases skip id <;> rfl

theorem goes_enter {id child : NodeId} {index : Nat}
    (h : (tree.children id)[index]? = some child) :
    Goes tree skip ⟨none, (id, index) :: outer⟩ [.enter child]
      ⟨none, (child, firstIndex tree skip child) :: (id, index + 1) :: outer⟩ := fun fuel => by
  rw [List.length_singleton, Nat.add_comm, collect]
  simp only [next?, h, skipSubtree, firstIndex]
  cases skip child <;> rfl

theorem goes_leave {id : NodeId} {index : Nat} (h : (tree.children id)[index]? = none) :
    Goes tree skip ⟨none, (id, index) :: outer⟩ [.leave id] ⟨none, outer⟩ := fun fuel => by
  rw [List.length_singleton, Nat.add_comm, collect]
  simp only [next?, h]
  rfl

/-- A traversal visits the children that are left, if it gets through each of them, and leaves
the node. -/
theorem goes_children {id : NodeId} (before : List Node) {after : List Node}
    (hchildren : tree.children id = (before ++ after).map Node.id)
    (hafter : ∀ child ∈ after, ∀ outer, Goes tree skip
      ⟨none, (child.id, firstIndex tree skip child.id) :: outer⟩ (child.stepsPast skip).tail
      ⟨none, outer⟩) :
    Goes tree skip ⟨none, (id, before.length) :: outer⟩
      (after.flatMap (Node.stepsPast skip) ++ [.leave id]) ⟨none, outer⟩ := by
  -- the index on the stack is the number of the children that were visited
  induction after generalizing before with
  | nil => exact goes_leave (by simp [hchildren])
  | cons child rest ih =>
      rw [List.forall_mem_cons] at hafter
      have hchild : (tree.children id)[before.length]? = some child.id := by simp [hchildren]
      have hrest := ih (before ++ [child]) (by simp [hchildren]) hafter.2
      rw [List.length_append, List.length_singleton] at hrest
      rw [List.flatMap_cons, child.stepsPast_eq_cons, List.cons_append, List.cons_append,
        List.append_assoc]
      exact (goes_enter hchild).trans ((hafter.1 _).trans hrest)

end Preorder

/-- Whether the links of an arena lead through a tree. -/
def Links (tree : Tree) (node : Node) : Prop :=
  node.All fun below => tree.children below.id = below.children.map Node.id

/-- From a node that it has entered, a traversal goes through what is below, unless it passes over
that, and leaves the node. -/
theorem Links.goes (h : tree.Links node) (skip : NodeId → Bool) (outer : List (NodeId × Nat)) :
    Preorder.Goes tree skip ⟨none, (node.id, Preorder.firstIndex tree skip node.id) :: outer⟩
      (node.stepsPast skip).tail ⟨none, outer⟩ := by
  induction node generalizing outer with
  | mk label children ih =>
      have hlinks : tree.children label.id = children.map Node.id := h.self
      have hbelow := fun child hchild => ih child hchild (h.children child hchild)
      rw [Node.stepsPast_mk, List.tail_cons]
      change Preorder.Goes tree skip ⟨none, (label.id, Preorder.firstIndex tree skip label.id) ::
        outer⟩ _ _
      cases hskip : skip label.id with
      | true =>
          -- behind the last child there is nothing to visit
          rw [Preorder.firstIndex, hskip, if_pos rfl, if_pos rfl, List.nil_append]
          exact Preorder.goes_leave (List.getElem?_eq_none (Nat.le_refl _))
      | false =>
          rw [Preorder.firstIndex, hskip, if_neg Bool.false_ne_true, if_neg Bool.false_ne_true]
          exact Preorder.goes_children [] hlinks hbelow

/-- A traversal ends behind the steps of the recursion, whatever the fuel that is left. -/
theorem Links.collect_eq (h : tree.Links node) {fuel : Nat}
    (hfuel : (node.stepsPast skip).length ≤ fuel) :
    Preorder.collect tree skip fuel (.new node.id) = node.stepsPast skip := by
  have hgoes := (Preorder.goes_start node.id).trans (h.goes skip [])
  rw [List.singleton_append, ← node.stepsPast_eq_cons] at hgoes
  obtain ⟨rest, rfl⟩ := Nat.exists_eq_add_of_le hfuel
  have hend : Preorder.collect tree skip rest ⟨none, []⟩ = [] := by cases rest <;> rfl
  rw [hgoes, hend, List.append_nil]

theorem Links.steps_eq (h : tree.Links node) (hnodup : node.ids.Nodup)
    (hsize : node.size ≤ tree.size) : tree.steps skip node.id = node.stepsPast skip := by
  refine h.collect_eq ?_
  have hfilter := List.length_filter_le (·.id ∉ node.passed skip) node.steps
  have hperm := node.steps_perm.length_eq
  rw [List.length_append, List.length_map, List.length_map, Node.length_ids] at hperm
  rw [Node.stepsPast_eq_filter hnodup]
  omega

theorem Holds.links (h : tree.Holds parent node) : tree.Links node := fun below hbelow => by
  obtain ⟨above, habove⟩ := h.exists_above hbelow
  obtain ⟨record, hrecord, _, hchildren, _⟩ := habove.record
  rw [children, hrecord, ← hchildren]
  rfl

/-! ## Traversals of forests -/

/-- What a traversal of a tree in an arena is: the recursion over the tree, which enters each node
once and leaves it once, with what is below a node in between.  What it is told to pass over is
missing, and nothing else, and no steps follow. -/
structure Traverses (tree : Tree) (node : Node) : Prop where
  steps_eq : tree.steps (fun _ => false) node.id = node.events.map Node.Event.step
  once : node.ids.Nodup ∧ (tree.steps (fun _ => false) node.id).Perm
    (node.ids.map .enter ++ node.ids.map .leave)
  nested : ∀ below ∈ node.descendants,
    tree.steps (fun _ => false) below.id <:+: tree.steps (fun _ => false) node.id
  passing : ∀ skip, tree.steps skip node.id =
    (tree.steps (fun _ => false) node.id).filter (·.id ∉ node.passed skip)
  ends : ∀ skip fuel, (tree.steps skip node.id).length ≤ fuel →
    Preorder.collect tree skip fuel (.new node.id) = tree.steps skip node.id

namespace IsForest

theorem nodup_and_size_le (h : tree.IsForest) (hholds : tree.Holds parent node) :
    node.ids.Nodup ∧ node.size ≤ tree.size := by
  obtain ⟨crumbs, found, hid, hplace, hnodup⟩ := h.exists_place (hholds.contains node.id_mem_ids)
  obtain rfl := (holds_plug.1 hplace).2.unique hholds hid
  refine ⟨hnodup.sublist (Node.ids_sublist (Node.mem_descendants_plug crumbs found)), ?_⟩
  have hsize := h.size_le hplace
  have hle := size_plug_le crumbs found
  omega

theorem traverses (h : tree.IsForest) (hholds : tree.Holds parent node) : tree.Traverses node := by
  obtain ⟨hnodup, hsize⟩ := h.nodup_and_size_le hholds
  have hfull : ∀ below ∈ node.descendants, tree.steps (fun _ => false) below.id = below.steps := by
    intro below hbelow
    obtain ⟨above, habove⟩ := hholds.exists_above hbelow
    obtain ⟨hnodup, hsize⟩ := h.nodup_and_size_le habove
    rw [habove.links.steps_eq hnodup hsize, Node.stepsPast_never]
  have hsteps := hfull node node.self_mem_descendants
  have hpast : ∀ skip, tree.steps skip node.id = node.stepsPast skip := fun skip =>
    hholds.links.steps_eq hnodup hsize
  refine {
    steps_eq := hsteps
    once := ⟨hnodup, hsteps ▸ node.steps_perm⟩
    nested := fun below hbelow => ?_
    passing := fun skip => by rw [hsteps, hpast, Node.stepsPast_eq_filter hnodup]
    ends := fun skip fuel hfuel => ?_ }
  · rw [hfull below hbelow, hsteps]
    exact Node.steps_infix hbelow
  · rw [hpast] at hfuel ⊢
    exact hholds.links.collect_eq hfuel

end IsForest

end Tree

end ConcreteSyntax
