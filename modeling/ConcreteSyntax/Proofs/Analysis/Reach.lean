import ConcreteSyntax.Proofs.Analysis.Depth
import ConcreteSyntax.Proofs.Analysis.Fences

/-!
# Containers that a pass comes to

A pass comes to each container that stands in no closed node, and leaves it its name.  What it
makes of its children is a level of its own (`Pass.Reaches.exists_level`).
-/

namespace ConcreteSyntax

/-- A sibling stays, or becomes part of a new node of a kind of analysis. -/
theorem Levels.mem_or_mem_run {lines : LineIndex} {plan : Plan} (hsound : plan.Sound)
    {parent : Kind} {next next' : Nat} {before ahead out : List Node}
    (h : Levels lines plan parent next before ahead next' out) {node : Node}
    (hnode : node ∈ ahead) :
    node ∈ out ∨ ∃ kind id run, Node.wrap lines id kind run ∈ out ∧ node ∈ run
      ∧ KindSet.synthesized.contains kind = true := by
  induction h with
  | done => cases hnode
  | pass _ _ ih | keep _ _ _ ih =>
      rcases List.mem_cons.1 hnode with rfl | hnode
      · exact .inl (List.mem_cons_self ..)
      · obtain hmem | ⟨kind, id, run, hwrap, hmem, hkind⟩ := ih hnode
        · exact .inl (List.mem_cons_of_mem _ hmem)
        · exact .inr ⟨kind, id, run, List.mem_cons_of_mem _ hwrap, hmem, hkind⟩
  | wrap _ _ hfound _ _ ih =>
      rcases List.mem_append.1 hnode with hnode | hnode
      · exact .inr ⟨_, _, _, List.mem_cons_self .., hnode, hsound.synthesized hfound⟩
      · obtain hmem | ⟨kind, id, run, hwrap, hmem, hkind⟩ := ih hnode
        · exact .inl (List.mem_cons_of_mem _ hmem)
        · exact .inr ⟨kind, id, run, List.mem_cons_of_mem _ hwrap, hmem, hkind⟩

/-- Whether a node is another one, up to new nodes below it. -/
structure Node.Resembles (isNew : NodeId → Bool) (node node' : Node) : Prop where
  label : node'.label = node.label
  erase : node'.erase isNew = node.erase isNew

/-- What is the same of resembling nodes holds of one of them if it holds of one of the others. -/
theorem Node.exists_iff_of_resembles {isNew : NodeId → Bool} {property : Node → Prop}
    (hsame : ∀ {node node'}, Resembles isNew node node' → (property node ↔ property node'))
    {nodes nodes' : List Node} (h : List.Forall₂ (Resembles isNew) nodes nodes') :
    (∃ node ∈ nodes, property node) ↔ ∃ node ∈ nodes', property node := by
  induction h with
  | nil => exact Iff.rfl
  | cons hnode _ ih =>
      simp only [List.mem_cons, or_and_right, exists_or, exists_eq_left, hsame hnode, ih]

/-- A wrap adds one node, of one of its kinds, to the nodes of a tree, and the others keep their
labels. -/
theorem Wraps.label_mem {lines : LineIndex} {kinds : Kind → Prop} {next : Nat} {node node' : Node}
    (h : Wraps lines kinds next node node') {below : Node} (hbelow : below ∈ node'.descendants) :
    (kinds below.kind ∧ below.id = .fresh next)
      ∨ ∃ old ∈ node.descendants, old.label = below.label := by
  induction h generalizing below with
  | @here label before run after kind hrun hkind =>
      rcases Node.mem_descendants_iff.1 hbelow with rfl | hbelow
      · exact .inr ⟨_, Node.self_mem_descendants _, rfl⟩
      rw [Node.children, List.flatMap_append, List.flatMap_cons, Node.wrap,
        Node.descendants_mk, List.mem_append, List.mem_append, List.mem_cons] at hbelow
      have hold : below ∈ (before ++ (run ++ after)).flatMap Node.descendants →
          ∃ old ∈ Node.descendants ⟨label, before ++ (run ++ after)⟩, old.label = below.label :=
        fun hmem => ⟨below, Node.mem_descendants_iff.2 (.inr hmem), rfl⟩
      rw [List.flatMap_append, List.flatMap_append, List.mem_append, List.mem_append] at hold
      rcases hbelow with hbefore | (rfl | hrun) | hafter
      · exact .inr (hold (.inl hbefore))
      · exact .inl ⟨hkind, rfl⟩
      · exact .inr (hold (.inr (.inl hrun)))
      · exact .inr (hold (.inr (.inr hafter)))
  | @inside label before after child child' hchild ih =>
      rcases Node.mem_descendants_iff.1 hbelow with rfl | hbelow
      · exact .inr ⟨_, Node.self_mem_descendants _, rfl⟩
      have hup : ∀ old, old ∈ (before ++ child :: after).flatMap Node.descendants →
          old ∈ Node.descendants ⟨label, before ++ child :: after⟩ :=
        fun old hmem => Node.mem_descendants_iff.2 (.inr hmem)
      simp only [Node.children, List.flatMap_append, List.flatMap_cons, List.mem_append]
        at hbelow hup
      rcases hbelow with hbefore | hbelow | hafter
      · exact .inr ⟨below, hup below (.inl hbefore), rfl⟩
      · obtain hkind | ⟨old, hold, hsame⟩ := ih hbelow
        · exact .inl hkind
        · exact .inr ⟨old, hup old (.inr (.inl hold)), hsame⟩
      · exact .inr ⟨below, hup below (.inr (.inr hafter)), rfl⟩

/-- Growth adds nodes of some kinds with new names, and the others keep their labels. -/
theorem Grows.label_mem {lines : LineIndex} {kinds : Kind → Prop} {next next' : Nat}
    {node node' : Node} (h : Grows lines kinds next node next' node') {below : Node}
    (hbelow : below ∈ node'.descendants) :
    (kinds below.kind ∧ ∃ index, next ≤ index ∧ below.id = .fresh index)
      ∨ ∃ old ∈ node.descendants, old.label = below.label := by
  induction h with
  | refl => exact .inr ⟨below, hbelow, rfl⟩
  | @step next next' node mid node' hwrap hrest ih =>
      obtain ⟨hkind, index, hindex, hid⟩ | ⟨old, hold, hlabel⟩ := ih hbelow
      · exact .inl ⟨hkind, index, Nat.le_of_succ_le hindex, hid⟩
      obtain ⟨hkind, hid⟩ | ⟨older, holder, hlabel'⟩ := hwrap.label_mem hold
      · refine .inl ⟨?_, next, Nat.le_refl next, ?_⟩
        · have hsame : old.kind = below.kind := congrArg Label.kind hlabel
          exact hsame ▸ hkind
        · exact (congrArg Label.id hlabel).symm.trans hid
      · exact .inr ⟨older, holder, hlabel'.trans hlabel⟩

namespace Pass

variable {lines : LineIndex} {rule : Rule} {plan : Plan} {fuel next : Nat} {node place : Node}
  {nodes : List Node}

theorem isOpen_of_synthesized {kind : Kind} (h : KindSet.synthesized.contains kind = true) :
    isOpen kind = true := by
  rw [isOpen, Kind.isAtomic_of_synthesized h, Kind.notMem_directives_of_synthesized h]
  rfl

/-- The way of a pass from a node to one below it, through open ones. -/
inductive Reaches : Node → Node → Prop
  | here {node : Node} : Reaches node node
  | inside {label : Label} {children : List Node} {child place : Node}
      (hopen : isOpen label.kind = true) (hchild : child ∈ children)
      (hplace : Reaches child place) : Reaches ⟨label, children⟩ place

theorem Reaches.isOpen_above (h : Reaches node place) (hopen : isOpen place.kind = true) :
    isOpen node.kind = true := by
  cases h with
  | here => exact hopen
  | inside hopen _ _ => exact hopen

/-- Whether a node, if it is closed, holds none of a kind. -/
def HidesNone (kind : Kind) (node : Node) : Prop :=
  isOpen node.kind = false → ∀ below ∈ node.descendants, below.kind ≠ kind

/-- Growth by open nodes of other kinds hides nothing of a kind. -/
theorem hidesNone_of_wraps {kinds : Kind → Prop} {kind : Kind}
    (hkinds : ∀ other, kinds other → isOpen other = true ∧ other ≠ kind) {node' : Node}
    (h : Wraps lines kinds next node node') (hnone : node.All (HidesNone kind)) :
    node'.All (HidesNone kind) := by
  have hself : ∀ {node node'}, Wraps lines kinds next node node' → HidesNone kind node →
      HidesNone kind node' := by
    intro node node' h hnone hclosed below hbelow
    rw [Node.kind, h.label_eq] at hclosed
    obtain ⟨hnew, -⟩ | ⟨old, hold, hsame⟩ := h.label_mem hbelow
    · exact (hkinds _ hnew).2
    · have hkind : old.kind = below.kind := congrArg Label.kind hsame
      exact hkind ▸ hnone hclosed old hold
  induction h with
  | @here label before run after new hrun hnew =>
      obtain ⟨hlabel, hchildren⟩ := Node.all_mk.1 hnone
      refine Node.all_mk.2 ⟨hself (.here hrun hnew) hlabel, fun child hchild => ?_⟩
      rcases List.mem_append.1 hchild with hchild | hchild
      · exact hchildren child (List.mem_append_left _ hchild)
      rcases List.mem_cons.1 hchild with rfl | hchild
      · refine Node.all_mk.2 ⟨fun hclosed => ?_, fun other hother => hchildren other ?_⟩
        · have hopen := (hkinds new hnew).1
          rw [show isOpen new = false from hclosed] at hopen
          cases hopen
        · exact List.mem_append_right _ (List.mem_append_left _ hother)
      · exact hchildren child (List.mem_append_right _ (List.mem_append_right _ hchild))
  | @inside label before after child child' hwrap ih =>
      obtain ⟨hlabel, hchildren⟩ := Node.all_mk.1 hnone
      refine Node.all_mk.2 ⟨hself (.inside hwrap) hlabel, fun other hother => ?_⟩
      rcases List.mem_append.1 hother with hother | hother
      · exact hchildren other (List.mem_append_left _ hother)
      rcases List.mem_cons.1 hother with rfl | hother
      · exact ih (hchildren child (List.mem_append_right _ (List.mem_cons_self ..)))
      · exact hchildren other (List.mem_append_right _ (List.mem_cons_of_mem _ hother))

theorem hidesNone_of_grows {kinds : Kind → Prop} {kind : Kind}
    (hkinds : ∀ other, kinds other → isOpen other = true ∧ other ≠ kind) {next' : Nat}
    {node' : Node} (h : Grows lines kinds next node next' node')
    (hnone : node.All (HidesNone kind)) : node'.All (HidesNone kind) := by
  induction h with
  | refl => exact hnone
  | step hwrap _ ih => exact ih (hidesNone_of_wraps hkinds hwrap hnone)

/-- A pass reaches all nodes of a kind that no closed node has in it. -/
theorem reaches_of_mem (hplace : place ∈ node.descendants)
    (hnone : node.All (HidesNone place.kind)) : Reaches node place := by
  induction node with
  | mk label children ih =>
      obtain ⟨hself, hchildren⟩ := Node.all_mk.1 hnone
      rcases Node.mem_descendants_iff.1 hplace with rfl | hbelow
      · exact .here
      · have hopen : isOpen label.kind = true := by
          by_contra hclosed
          exact hself (Bool.not_eq_true _ ▸ hclosed) place hplace rfl
        obtain ⟨child, hchild, hbelow⟩ := List.mem_flatMap.1 hbelow
        exact .inside hopen hchild (ih child hchild hbelow (hchildren child hchild))

/-- Each node that is visited is visited with a depth that suffices. -/
theorem exists_visit (h : EachEnough (visit lines rule fuel) (Enough lines rule fuel) next nodes)
    (hnode : node ∈ nodes) :
    ∃ index, next ≤ index ∧ Enough lines rule fuel index node
      ∧ (visit lines rule fuel index node).node ∈
        (visitEach (visit lines rule fuel) next nodes).nodes := by
  induction nodes generalizing next with
  | nil => cases hnode
  | cons first rest ih =>
      rcases List.mem_cons.1 hnode with rfl | hnode
      · exact ⟨next, Nat.le_refl next, h.1, List.mem_cons_self ..⟩
      · obtain ⟨index, hindex, henough, hmem⟩ := ih h.2 hnode
        have hlater := le_next_visit lines rule fuel next first
        exact ⟨index, by omega, henough, List.mem_cons_of_mem _ hmem⟩

/-- What a visit makes of nodes, one by one. -/
theorem forall₂_visitEach {isNew : NodeId → Bool}
    (hnew : ∀ index, next ≤ index → isNew (.fresh index) = true) :
    List.Forall₂ (Node.Resembles isNew) nodes
      (visitEach (visit lines rule fuel) next nodes).nodes := by
  induction nodes generalizing next with
  | nil => exact .nil
  | cons node rest ih =>
      have hgrows : Grows lines (fun _ => True) next node (visit lines rule fuel next node).next
          (visit lines rule fuel next node).node :=
        grows_visit (fun _ _ _ => trivial) fuel next node
      exact .cons ⟨hgrows.label_eq, hgrows.erase_eq hnew⟩
        (ih fun index hindex => hnew index (Nat.le_trans hgrows.le hindex))

/-- What a pass makes of a container that it comes to: a level of its children, each of which it
visits then. -/
theorem Reaches.exists_level {isNew : NodeId → Bool} (h : Reaches node place)
    (hreads : rule.Reads plan) (hsound : plan.Sound) (hopen : isOpen place.kind = true)
    (henough : Enough lines rule fuel next node)
    (hnew : ∀ index, next ≤ index → isNew (.fresh index) = true) :
    ∃ index index' out children, next ≤ index
      ∧ Levels lines plan place.kind index [] place.children index' out
      ∧ List.Forall₂ (Node.Resembles isNew) out children
      ∧ ⟨place.label, children⟩ ∈ (visit lines rule fuel next node).node.descendants := by
  induction fuel generalizing next node with
  | zero =>
      have hclosed : isOpen node.kind = false := henough
      rw [h.isOpen_above hopen] at hclosed
      cases hclosed
  | succ fuel ih =>
      obtain ⟨label, children⟩ := node
      have hlabel : isOpen label.kind = true := h.isOpen_above hopen
      obtain ⟨out, hout, hlevels⟩ :=
        levels_level lines hreads hsound label.kind next [] children
      have hbelow := henough hlabel
      simp only [visit, hlabel, if_true]
      rw [hout, List.reverse_nil, List.nil_append] at hbelow ⊢
      cases h with
      | here =>
          refine ⟨next, _, out, _, Nat.le_refl next, hlevels, forall₂_visitEach ?_,
            Node.self_mem_descendants _⟩
          exact fun index hindex => hnew index (Nat.le_trans hlevels.le hindex)
      | inside _ hchild hplace =>
          -- the child stands in the level, or in a new node there
          obtain ⟨above, habove, hreaches⟩ : ∃ above ∈ out, Reaches above place := by
            obtain hmem | ⟨kind, id, run, hwrap, hmem, hkind⟩ :=
              hlevels.mem_or_mem_run hsound hchild
            · exact ⟨_, hmem, hplace⟩
            · exact ⟨_, hwrap, .inside (isOpen_of_synthesized hkind) hmem hplace⟩
          obtain ⟨later, hlater, henough, hvisit⟩ := exists_visit hbelow habove
          have hle := Nat.le_trans hlevels.le hlater
          obtain ⟨index, index', out', children', hindex, hlevels', hchildren, hmem⟩ :=
            ih hreaches henough fun index hindex => hnew index (Nat.le_trans hle hindex)
          refine ⟨index, index', out', children', Nat.le_trans hle hindex, hlevels', hchildren, ?_⟩
          rw [Node.descendants_mk]
          exact List.mem_cons_of_mem _ (List.mem_flatMap.2 ⟨_, hvisit, hmem⟩)

end Pass

end ConcreteSyntax
