import ConcreteSyntax.Proofs.Analysis.Growth
import ConcreteSyntax.Proofs.CFamily.Balance

/-!
# Grouped conditionals

`Grouped` says of siblings what becomes of them when each pair of directives among them, and among
the siblings below, gets a node of its own: a lone directive and every other sibling stay, and
around the body of a pair stand its directives, in a new node.  So the new nodes are the
conditionals of the pairs, one for each (`Grouped.exists_conditional` and
`Grouped.exists_pair`), those of nested pairs inside each other (`Grouped.inside`), and a lone
directive keeps its place (`Grouped.mem_of_isLone`).
-/

namespace ConcreteSyntax.CFamily

/-- Whether siblings are grouped by pairs of directives as they should be. -/
inductive Grouped (isNew : NodeId → Bool) : List Node → List Node → Prop
  | nil : Grouped isNew [] []
  | keep {label : Label} {children children' rest rest' : List Node}
      (hlone : ∀ run, run <+: ⟨label, children⟩ :: rest → ¬IsPair run)
      (hclosed : Pass.isOpen label.kind = false → children' = children)
      (hbelow : Grouped isNew children children') (hrest : Grouped isNew rest rest') :
      Grouped isNew (⟨label, children⟩ :: rest) (⟨label, children'⟩ :: rest')
  | wrap {label : Label} {opener endif : Node} {body inner rest rest' : List Node}
      (hopener : opensConditional opener = true) (hendif : closesConditional endif = true)
      (hbody : Balanced body) (hnew : isNew label.id = true)
      (hkind : label.kind = .preprocessorConditional)
      (hfirst : Grouped isNew [opener] [opener]) (hlast : Grouped isNew [endif] [endif])
      (hinner : Grouped isNew body inner) (hrest : Grouped isNew rest rest') :
      Grouped isNew (opener :: (body ++ endif :: rest))
        (⟨label, opener :: (inner ++ [endif])⟩ :: rest')

/-- Whether a node is the conditional of a run: a new node that begins and ends with the
directives of the run, and stands around the whole of it. -/
structure IsConditionalOf (isNew : NodeId → Bool) (node : Node) (run : List Node) : Prop where
  new : isNew node.id = true
  first : node.children.head? = run.head?
  last : node.children.getLast? = run.getLast?
  around : node.children.flatMap (Node.erase isNew) = run

/-- Whether a run is one of siblings among or below some nodes. -/
def IsRunOf (run nodes : List Node) : Prop :=
  run <:+: nodes ∨ ∃ container ∈ nodes.flatMap Node.descendants, run <:+: container.children

theorem IsRunOf.of_infix {run nodes nodes' : List Node} (h : IsRunOf run nodes)
    (hnodes : nodes <:+: nodes') : IsRunOf run nodes' := by
  rcases h with hrun | ⟨container, hcontainer, hrun⟩
  · exact .inl (hrun.trans hnodes)
  · obtain ⟨top, htop, hbelow⟩ := List.mem_flatMap.1 hcontainer
    exact .inr ⟨container, List.mem_flatMap.2 ⟨top, hnodes.subset htop, hbelow⟩, hrun⟩

theorem IsRunOf.of_children {run nodes : List Node} {node : Node} (h : IsRunOf run node.children)
    (hnode : node ∈ nodes) : IsRunOf run nodes := by
  rcases h with hrun | ⟨container, hcontainer, hrun⟩
  · exact .inr ⟨node, List.mem_flatMap.2 ⟨node, hnode, node.self_mem_descendants⟩, hrun⟩
  · refine .inr ⟨container, List.mem_flatMap.2 ⟨node, hnode, ?_⟩, hrun⟩
    exact Node.mem_descendants_iff.2 (.inr hcontainer)

/-- Whether there is nothing new in some trees, and no conditional. -/
def IsUngrouped (isNew : NodeId → Bool) (nodes : List Node) : Prop :=
  ∀ node ∈ nodes.flatMap Node.descendants,
    isNew node.id = false ∧ node.kind ≠ .preprocessorConditional

variable {isNew : NodeId → Bool} {node opener endif : Node}
  {nodes nodes' run body inner rest : List Node} {label : Label}

namespace IsUngrouped

theorem subset (h : IsUngrouped isNew nodes) (hsub : nodes' ⊆ nodes) :
    IsUngrouped isNew nodes' := by
  intro node hnode
  obtain ⟨top, htop, hbelow⟩ := List.mem_flatMap.1 hnode
  exact h node (List.mem_flatMap.2 ⟨top, hsub htop, hbelow⟩)

theorem children (h : IsUngrouped isNew nodes) (hnode : node ∈ nodes) :
    IsUngrouped isNew node.children := by
  intro below hbelow
  refine h below (List.mem_flatMap.2 ⟨node, hnode, ?_⟩)
  exact Node.mem_descendants_iff.2 (.inr hbelow)

theorem self (h : IsUngrouped isNew nodes) (hnode : node ∈ nodes) :
    isNew node.id = false ∧ node.kind ≠ .preprocessorConditional :=
  h node (List.mem_flatMap.2 ⟨node, hnode, node.self_mem_descendants⟩)

theorem erase_eq (h : IsUngrouped isNew nodes) (hnode : node ∈ nodes) :
    node.erase isNew = [node] := by
  apply Node.erase_eq_self
  intro id hid
  obtain ⟨below, hbelow, rfl⟩ := List.mem_map.1 hid
  exact (h below (List.mem_flatMap.2 ⟨node, hnode, hbelow⟩)).1

/-- Where a pair is plain, so are its directives, its body, and what is behind it. -/
theorem parts (h : IsUngrouped isNew (opener :: (body ++ endif :: rest))) :
    IsUngrouped isNew [opener] ∧ IsUngrouped isNew body ∧ IsUngrouped isNew [endif]
      ∧ IsUngrouped isNew rest := by
  refine ⟨h.subset ?_, h.subset ?_, h.subset ?_, h.subset ?_⟩ <;> intro node hnode
  · obtain rfl := List.mem_singleton.1 hnode
    exact List.mem_cons_self ..
  · exact List.mem_cons_of_mem _ (List.mem_append_left _ hnode)
  · obtain rfl := List.mem_singleton.1 hnode
    exact List.mem_cons_of_mem _ (List.mem_append_right _ (List.mem_cons_self ..))
  · exact List.mem_cons_of_mem _ (List.mem_append_right _ (List.mem_cons_of_mem _ hnode))

end IsUngrouped

theorem isOpen_of_directives {kind : Kind} (h : KindSet.directives.contains kind = true) :
    Pass.isOpen kind = false := by
  rw [Pass.isOpen, h, Bool.not_true, Bool.and_false]

theorem isOpen_of_opens (h : opensConditional node = true) : Pass.isOpen node.kind = false :=
  isOpen_of_directives (isDirective_of_opens h)

theorem isOpen_of_closes (h : closesConditional node = true) : Pass.isOpen node.kind = false :=
  isOpen_of_directives (isDirective_of_closes h)

theorem isOpen_of_isLone {front back : List Node} (h : IsLone front node back) :
    Pass.isOpen node.kind = false := by
  rcases h with ⟨hopener, -⟩ | ⟨hendif, -⟩
  · exact isOpen_of_opens hopener
  · exact isOpen_of_closes hendif

namespace Grouped

/-- Without openers there is nothing to group. -/
theorem of_closed (h : ∀ below ∈ nodes.flatMap Node.descendants, opensConditional below = false) :
    Grouped isNew nodes nodes := by
  have hlists : ∀ siblings : List Node,
      (∀ node ∈ siblings, opensConditional node = false
        ∧ Grouped isNew node.children node.children) → Grouped isNew siblings siblings := by
    intro siblings hsiblings
    induction siblings with
    | nil => exact .nil
    | cons node rest ih =>
        rw [List.forall_mem_cons] at hsiblings
        obtain ⟨⟨hopener, hbelow⟩, hrest⟩ := hsiblings
        obtain ⟨label, children⟩ := node
        refine .keep ?_ (fun _ => rfl) hbelow (ih hrest)
        intro run hrun hpair
        rw [hpair.opens_first hrun] at hopener
        cases hopener
  have hnodes : ∀ node : Node,
      (∀ below ∈ node.descendants, opensConditional below = false) →
        opensConditional node = false ∧ Grouped isNew node.children node.children := by
    intro node
    induction node with
    | mk label children ih =>
        intro hbelow
        refine ⟨hbelow _ (Node.self_mem_descendants _), hlists children fun child hchild => ?_⟩
        refine ih child hchild fun below hmem => hbelow below ?_
        rw [Node.descendants_mk]
        exact List.mem_cons_of_mem _ (List.mem_flatMap.2 ⟨child, hchild, hmem⟩)
  refine hlists nodes fun node hnode => hnodes node fun below hbelow => ?_
  exact h below (List.mem_flatMap.2 ⟨node, hnode, hbelow⟩)

/-- A directive is grouped on its own. -/
theorem of_directive (h : ∀ below ∈ node.children.flatMap Node.descendants,
    opensConditional below = false) : Grouped isNew [node] [node] := by
  obtain ⟨label, children⟩ := node
  apply Grouped.keep _ (fun _ => rfl) (of_closed h) .nil
  intro run hrun
  exact not_isPair_of_infix_singleton hrun.isInfix

/-- The descendants of a new node around the body of a pair. -/
theorem mem_descendants_wrap {below : Node} :
    below ∈ (Node.mk label (opener :: (inner ++ [endif])) :: rest).flatMap Node.descendants ↔
      below = ⟨label, opener :: (inner ++ [endif])⟩ ∨ below ∈ [opener].flatMap Node.descendants
        ∨ below ∈ inner.flatMap Node.descendants ∨ below ∈ [endif].flatMap Node.descendants
        ∨ below ∈ rest.flatMap Node.descendants := by
  rw [List.flatMap_cons, Node.descendants_mk, List.mem_append, List.mem_cons,
    ← List.singleton_append, List.flatMap_append, List.flatMap_append, List.mem_append,
    List.mem_append, or_assoc, or_assoc, or_assoc]

/-- Without its new nodes, a grouped forest is what it was. -/
theorem erase_eq (h : Grouped isNew nodes nodes') (hold : IsUngrouped isNew nodes) :
    nodes'.flatMap (Node.erase isNew) = nodes := by
  induction h with
  | nil => rfl
  | @keep label children children' rest rest' hlone hclosed hbelow hrest ihBelow ihRest =>
      have hself : isNew label.id = false := (hold.self (List.mem_cons_self ..)).1
      rw [List.flatMap_cons, Node.erase_mk, hself, ihBelow (hold.children (List.mem_cons_self ..)),
        ihRest (hold.subset (List.subset_cons_self ..))]
      rfl
  | @wrap label opener endif body inner rest rest' hopener hendif hbody hnew hkind hfirst hlast
      hinner hrest ihFirst ihLast ihInner ihRest =>
      obtain ⟨holdFirst, holdInner, holdLast, holdRest⟩ := hold.parts
      have hchildren : (opener :: (inner ++ [endif])).flatMap (Node.erase isNew) =
          opener :: (body ++ [endif]) := by
        rw [← List.singleton_append, List.flatMap_append, List.flatMap_append,
          ihFirst holdFirst, ihInner holdInner, ihLast holdLast]
        rfl
      rw [List.flatMap_cons, Node.erase_mk, hnew, if_pos rfl, hchildren, ihRest holdRest,
        List.cons_append, List.append_assoc, List.singleton_append]

theorem isConditionalOf (h : Grouped isNew body inner) (hnew : isNew label.id = true)
    (hold : IsUngrouped isNew (opener :: (body ++ endif :: rest))) :
    IsConditionalOf isNew ⟨label, opener :: (inner ++ [endif])⟩
      (opener :: (body ++ [endif])) where
  new := hnew
  first := rfl
  last := by
    rw [Node.children, ← List.cons_append, ← List.cons_append, List.getLast?_concat,
      List.getLast?_concat]
  around := by
    obtain ⟨holdFirst, holdInner, holdLast, -⟩ := hold.parts
    rw [Node.children, List.flatMap_cons, List.flatMap_append, List.flatMap_singleton,
      holdFirst.erase_eq (List.mem_cons_self ..), holdLast.erase_eq (List.mem_cons_self ..),
      h.erase_eq holdInner]
    rfl

/-- The new nodes are the conditionals. -/
theorem isNew_iff (h : Grouped isNew nodes nodes') (hold : IsUngrouped isNew nodes) :
    ∀ node ∈ nodes'.flatMap Node.descendants,
      isNew node.id = true ↔ node.kind = .preprocessorConditional := by
  induction h with
  | nil => simp
  | @keep label children children' rest rest' hlone hclosed hbelow hrest ihBelow ihRest =>
      intro node hnode
      rw [List.flatMap_cons, Node.descendants_mk, List.mem_append, List.mem_cons] at hnode
      rcases hnode with (rfl | hnode) | hnode
      · obtain ⟨hid, hkind⟩ := hold.self (List.mem_cons_self ..)
        rw [show isNew (Node.mk label children').id = false from hid]
        exact iff_of_false Bool.false_ne_true hkind
      · exact ihBelow (hold.children (List.mem_cons_self ..)) node hnode
      · exact ihRest (hold.subset (List.subset_cons_self ..)) node hnode
  | @wrap label opener endif body inner rest rest' hopener hendif hbody hnew hkind hfirst hlast
      hinner hrest ihFirst ihLast ihInner ihRest =>
      obtain ⟨holdFirst, holdInner, holdLast, holdRest⟩ := hold.parts
      intro node hnode
      rcases mem_descendants_wrap.1 hnode with rfl | hnode | hnode | hnode | hnode
      · exact iff_of_true hnew hkind
      · exact ihFirst holdFirst node hnode
      · exact ihInner holdInner node hnode
      · exact ihLast holdLast node hnode
      · exact ihRest holdRest node hnode

/-- Each container is found again, with its children grouped. -/
theorem exists_container (h : Grouped isNew nodes nodes') :
    ∀ container ∈ nodes.flatMap Node.descendants, ∃ container' ∈ nodes'.flatMap Node.descendants,
      container'.label = container.label
        ∧ Grouped isNew container.children container'.children := by
  induction h with
  | nil => simp
  | @keep label children children' rest rest' hlone hclosed hbelow hrest ihBelow ihRest =>
      intro container hcontainer
      simp only [List.flatMap_cons, Node.descendants_mk, List.mem_append, List.mem_cons]
        at hcontainer ⊢
      rcases hcontainer with (rfl | hcontainer) | hcontainer
      · exact ⟨⟨label, children'⟩, .inl (.inl rfl), rfl, hbelow⟩
      · obtain ⟨found, hfound, hsame⟩ := ihBelow container hcontainer
        exact ⟨found, .inl (.inr hfound), hsame⟩
      · obtain ⟨found, hfound, hsame⟩ := ihRest container hcontainer
        exact ⟨found, .inr hfound, hsame⟩
  | @wrap label opener endif body inner rest rest' hopener hendif hbody hnew hkind hfirst hlast
      hinner hrest ihFirst ihLast ihInner ihRest =>
      intro container hcontainer
      rw [← List.singleton_append, List.append_cons, List.flatMap_append, List.flatMap_append,
        List.flatMap_append, List.mem_append, List.mem_append, List.mem_append] at hcontainer
      simp only [mem_descendants_wrap]
      rcases hcontainer with hcontainer | (hcontainer | hcontainer) | hcontainer
      · obtain ⟨found, hfound, hsame⟩ := ihFirst container hcontainer
        exact ⟨found, .inr (.inl hfound), hsame⟩
      · obtain ⟨found, hfound, hsame⟩ := ihInner container hcontainer
        exact ⟨found, .inr (.inr (.inl hfound)), hsame⟩
      · obtain ⟨found, hfound, hsame⟩ := ihLast container hcontainer
        exact ⟨found, .inr (.inr (.inr (.inl hfound))), hsame⟩
      · obtain ⟨found, hfound, hsame⟩ := ihRest container hcontainer
        exact ⟨found, .inr (.inr (.inr (.inr hfound))), hsame⟩

/-- Each pair among siblings has a conditional. -/
theorem exists_conditional (h : Grouped isNew nodes nodes') (hold : IsUngrouped isNew nodes)
    (hrun : run <:+: nodes) (hpair : IsPair run) :
    ∃ node ∈ nodes'.flatMap Node.descendants, IsConditionalOf isNew node run := by
  induction h with
  | nil =>
      rw [List.infix_nil.1 hrun] at hpair
      cases hpair.opener
  | @keep label children children' rest rest' hlone hclosed hbelow hrest ihBelow ihRest =>
      rcases List.infix_cons_iff.1 hrun with hfront | hbehind
      · exact absurd hpair (hlone run hfront)
      · obtain ⟨node, hnode, hconditional⟩ :=
          ihRest (hold.subset (List.subset_cons_self ..)) hbehind
        exact ⟨node, List.mem_append_right _ hnode, hconditional⟩
  | @wrap label opener endif body inner rest rest' hopener hendif hbody hnew hkind hfirst hlast
      hinner hrest ihFirst ihLast ihInner ihRest =>
      obtain ⟨-, holdInner, -, holdRest⟩ := hold.parts
      simp only [mem_descendants_wrap]
      rcases List.infix_cons_iff.1 hrun with hfront | hbehind
      · have hwhole := isPrefix_pair opener body endif rest
        rw [hpair.eq_of_front (.of_balanced hopener hendif hbody) hfront hwhole]
        exact ⟨_, .inl rfl, hinner.isConditionalOf hnew hold⟩
      · rcases hpair.infix_of_balanced hbody hendif hbehind with hinside | hbehind
        · obtain ⟨node, hnode, hconditional⟩ := ihInner holdInner hinside
          exact ⟨node, .inr (.inr (.inl hnode)), hconditional⟩
        · obtain ⟨node, hnode, hconditional⟩ := ihRest holdRest hbehind
          exact ⟨node, .inr (.inr (.inr (.inr hnode))), hconditional⟩

/-- What holds of all nodes that are made around the body of a pair holds of all new nodes. -/
theorem forall_new {property : Node → Prop} (h : Grouped isNew nodes nodes')
    (hold : IsUngrouped isNew nodes)
    (hmade : ∀ {label opener body endif inner}, opensConditional opener = true →
      closesConditional endif = true → Balanced body → Grouped isNew body inner →
      isNew label.id = true → IsUngrouped isNew (opener :: (body ++ [endif])) →
      IsRunOf (opener :: (body ++ [endif])) nodes →
      property ⟨label, opener :: (inner ++ [endif])⟩) :
    ∀ node ∈ nodes'.flatMap Node.descendants, isNew node.id = true → property node := by
  induction h with
  | nil => simp
  | @keep label children children' rest rest' hlone hclosed hbelow hrest ihBelow ihRest =>
      intro node hnode hnew
      rw [List.flatMap_cons, Node.descendants_mk, List.mem_append, List.mem_cons] at hnode
      rcases hnode with (rfl | hnode) | hnode
      · rw [show isNew (Node.mk label children').id = false from
          (hold.self (List.mem_cons_self ..)).1] at hnew
        cases hnew
      · refine ihBelow (hold.children (List.mem_cons_self ..)) ?_ node hnode hnew
        intro _ _ _ _ _ hopener hendif hbody hinner hid hpair hrun
        exact hmade hopener hendif hbody hinner hid hpair (hrun.of_children (List.mem_cons_self ..))
      · refine ihRest (hold.subset (List.subset_cons_self ..)) ?_ node hnode hnew
        intro _ _ _ _ _ hopener hendif hbody hinner hid hpair hrun
        exact hmade hopener hendif hbody hinner hid hpair
          (hrun.of_infix (List.suffix_cons ..).isInfix)
  | @wrap label opener endif body inner rest rest' hopener hendif hbody hnew hkind hfirst hlast
      hinner hrest ihFirst ihLast ihInner ihRest =>
      obtain ⟨holdFirst, holdInner, holdLast, holdRest⟩ := hold.parts
      have hwhole : [opener] ++ (body ++ ([endif] ++ rest)) = opener :: (body ++ endif :: rest) :=
        rfl
      -- what is made among some of the siblings is made among all of them
      have hpart : ∀ {part}, part <:+: opener :: (body ++ endif :: rest) →
          ∀ {label opener body endif inner}, opensConditional opener = true →
            closesConditional endif = true → Balanced body → Grouped isNew body inner →
            isNew label.id = true → IsUngrouped isNew (opener :: (body ++ [endif])) →
            IsRunOf (opener :: (body ++ [endif])) part →
            property ⟨label, opener :: (inner ++ [endif])⟩ := by
        intro part hpart _ _ _ _ _ hopener hendif hbody hinner hid hpair hrun
        exact hmade hopener hendif hbody hinner hid hpair (hrun.of_infix hpart)
      intro node hnode hid
      rcases mem_descendants_wrap.1 hnode with rfl | hnode | hnode | hnode | hnode
      · have hfront := isPrefix_pair opener body endif rest
        exact hmade hopener hendif hbody hinner hnew (hold.subset hfront.subset)
          (.inl hfront.isInfix)
      · exact ihFirst holdFirst (hpart (List.prefix_append [opener] _).isInfix) node hnode hid
      · exact ihInner holdInner (hpart ⟨[opener], endif :: rest, rfl⟩) node hnode hid
      · exact ihLast holdLast (hpart ⟨opener :: body, rest, by simp⟩) node hnode hid
      · exact ihRest holdRest (hpart ⟨opener :: (body ++ [endif]), [], by simp⟩) node hnode hid

/-- Each new node is the conditional of a pair. -/
theorem exists_pair (h : Grouped isNew nodes nodes') (hold : IsUngrouped isNew nodes) :
    ∀ node ∈ nodes'.flatMap Node.descendants, isNew node.id = true →
      ∃ run, IsPair run ∧ IsRunOf run nodes ∧ IsConditionalOf isNew node run := by
  refine h.forall_new hold ?_
  intro label opener body endif inner hopener hendif hbody hinner hnew hpair hrun
  exact ⟨_, .of_balanced hopener hendif hbody, hrun, hinner.isConditionalOf hnew hpair⟩

/-- In the conditional of a pair are those of the pairs nested in it. -/
theorem exists_inside (h : Grouped isNew nodes nodes') (hold : IsUngrouped isNew nodes) :
    ∀ node ∈ nodes'.flatMap Node.descendants, isNew node.id = true →
      ∀ run, IsConditionalOf isNew node run → ∀ run', IsPair run' → run' <:+: run → run' ≠ run →
        ∃ below ∈ node.children.flatMap Node.descendants, IsConditionalOf isNew below run' := by
  refine h.forall_new hold ?_
  intro label opener body endif inner hopener hendif hbody hinner hnew hpair hrun run hconditional
    run' hrun' hinside hne
  obtain rfl : opener :: (body ++ [endif]) = run :=
    (hinner.isConditionalOf hnew hpair).around.symm.trans hconditional.around
  rcases List.infix_cons_iff.1 hinside with hfront | hbehind
  · exact absurd (hrun'.eq_of_front (.of_balanced hopener hendif hbody) hfront
      (List.prefix_refl _)) hne
  · rcases hrun'.infix_of_balanced hbody hendif hbehind with hnested | hnil
    · obtain ⟨below, hbelow, hfound⟩ :=
        hinner.exists_conditional hpair.parts.2.1 hnested hrun'
      refine ⟨below, ?_, hfound⟩
      rw [Node.children, List.flatMap_cons, List.flatMap_append]
      exact List.mem_append_right _ (List.mem_append_left _ hbelow)
    · rw [List.infix_nil.1 hnil] at hrun'
      cases hrun'.opener

/-- Behind balanced siblings, an `#endif` stays where it is. -/
theorem of_concat (h : Grouped isNew nodes nodes') (hbody : Balanced body)
    (hendif : closesConditional endif = true) (hsplit : nodes = body ++ [endif]) :
    ∃ inner, nodes' = inner ++ [endif] ∧ Grouped isNew body inner := by
  induction h generalizing body with
  | nil => simp at hsplit
  | @keep label children children' rest rest' hlone hclosed hbelow hrest ihBelow ihRest =>
      cases hbody with
      | nil =>
          rw [List.nil_append, List.cons.injEq] at hsplit
          obtain ⟨rfl, rfl⟩ := hsplit
          cases hrest
          have hopen := isOpen_of_closes hendif
          rw [hclosed hopen]
          exact ⟨[], rfl, .nil⟩
      | @other node body hopener hother hbody =>
          rw [List.cons_append, List.cons.injEq] at hsplit
          obtain ⟨rfl, rfl⟩ := hsplit
          obtain ⟨inner, rfl, hinner⟩ := ihRest hbody rfl
          refine ⟨⟨label, children'⟩ :: inner, rfl, ?_⟩
          refine .keep (fun run hrun => ?_) hclosed hbelow hinner
          exact hlone run (hrun.trans (List.prefix_append (_ :: body) [endif]))
      | @pair opener last body behind hopener hlast hbody hbehind =>
          rw [List.cons_append, List.cons.injEq] at hsplit
          obtain ⟨rfl, rfl⟩ := hsplit
          refine absurd (IsPair.of_balanced hopener hlast hbody) (hlone _ ⟨behind ++ [endif], ?_⟩)
          simp
  | @wrap label opener last body' inner rest rest' hopener hlast hbody' hnew hkind hgroupedFirst
      hgroupedLast hinner hrest ihFirst ihLast ihInner ihRest =>
      cases hbody with
      | nil =>
          rw [List.nil_append, List.cons.injEq] at hsplit
          rw [hsplit.1, opensConditional_of_closes hendif] at hopener
          cases hopener
      | @other node body hother hendif' hbody =>
          rw [List.cons_append, List.cons.injEq] at hsplit
          rw [hsplit.1, hother] at hopener
          cases hopener
      | @pair opener' last' body behind hopener' hlast' hbody hbehind =>
          -- both pairs begin with the first sibling
          have hsame : opener :: (body' ++ [last]) = opener' :: (body ++ [last']) := by
            refine (IsPair.of_balanced hopener hlast hbody').eq_of_front
              (.of_balanced hopener' hlast' hbody) ⟨rest, rfl⟩ ⟨behind ++ [endif], ?_⟩
            simpa using hsplit.symm
          rw [List.cons.injEq, List.append_singleton_inj] at hsame
          obtain ⟨rfl, rfl, rfl⟩ := hsame
          have hrest' : rest = behind ++ [endif] := by simpa using hsplit
          obtain ⟨more, rfl, hmore⟩ := ihRest hbehind hrest'
          exact ⟨_ :: more, rfl, .wrap hopener hlast hbody' hnew hkind hgroupedFirst hgroupedLast
            hinner hmore⟩

/-- A lone directive stays among its siblings. -/
theorem mem_of_isLone (h : Grouped isNew nodes nodes') {front back : List Node}
    (hsplit : nodes = front ++ node :: back) (hlone : IsLone front node back) : node ∈ nodes' := by
  induction h generalizing front with
  | nil => simp at hsplit
  | @keep label children children' rest rest' hbegins hclosed hbelow hrest ihBelow ihRest =>
      cases front with
      | nil =>
          rw [List.nil_append, List.cons.injEq] at hsplit
          obtain ⟨rfl, rfl⟩ := hsplit
          have hopen := isOpen_of_isLone hlone
          rw [hclosed hopen]
          exact List.mem_cons_self ..
      | cons first front =>
          rw [List.cons_append, List.cons.injEq] at hsplit
          have hbehind : IsLone ([first] ++ front) node back := hlone
          exact List.mem_cons_of_mem _ (ihRest hsplit.2 hbehind.behind)
  | @wrap label opener endif body inner rest rest' hopener hendif hbody hnew hkind hfirst hlast
      hinner hrest ihFirst ihLast ihInner ihRest =>
      obtain ⟨before, after, hinside, hlone⟩ | ⟨before, hbehind, hlone⟩ :=
        hlone.of_pair hopener hendif hbody hsplit
      · exact absurd hlone (hbody.not_isLone hinside)
      · exact List.mem_cons_of_mem _ (ihRest hbehind hlone)

end Grouped

end ConcreteSyntax.CFamily
