import ConcreteSyntax.Proofs.Analysis.Upkeep

/-!
# Siblings that stay together

A plan spares some siblings if no run that it counts out in front of them ends among them.  A pass
leaves such siblings together: they stay where they were, or all of them become part of a new node,
to which the pass comes then (`Pass.Reaches.comes`).  Where it finds nothing at them, they still
stand together behind the pass (`Pass.stands_runAll`), and where it finds just them, there is a new
node over them (`Pass.exists_made_of_stands`).
-/

namespace ConcreteSyntax

namespace Node

variable {isNew : NodeId → Bool}

theorem Resembles.trans {first second third : Node} (h : first.Resembles isNew second)
    (h' : second.Resembles isNew third) : first.Resembles isNew third :=
  ⟨h'.label.trans h.label, h'.erase.trans h.erase⟩

theorem resembles_trans {first second third : List Node}
    (h : List.Forall₂ (Resembles isNew) first second)
    (h' : List.Forall₂ (Resembles isNew) second third) :
    List.Forall₂ (Resembles isNew) first third := by
  induction h generalizing third with
  | nil => exact h'
  | cons hnode _ ih =>
      obtain _ | ⟨hnode', hrest'⟩ := h'
      exact .cons (hnode.trans hnode') (ih hrest')

end Node

namespace Plan

variable {plan : Plan}

/-- Whether no run that is counted out from siblings in front ends among some siblings, unless with
the last of them. -/
def Spares (plan : Plan) (run : List Kind) : Prop :=
  ∀ {scene kind n front behind}, plan scene = some (kind, n) →
    scene.kinds = front ++ (run ++ behind) → front ≠ [] →
      n ≤ front.length ∨ front.length + run.length ≤ n

/-- Siblings are spared if each run that goes over the first of them ends with a kind that none but
the last of them is of. -/
theorem spares_of_stop {first last : Kind} {rest : List Kind}
    (h : ∀ {scene kind n index}, plan scene = some (kind, n) → 0 < index → index < n →
      scene.kinds[index]? = some first →
        ∃ stop ∈ scene.kinds[n - 1]?, stop ∉ first :: rest) :
    plan.Spares (first :: rest ++ [last]) := by
  intro scene kind n front behind hfound hkinds hfront
  by_contra hcut
  rw [not_or, Nat.not_le, Nat.not_le, List.length_append, List.length_singleton] at hcut
  obtain ⟨hlt, hlength⟩ := hcut
  obtain ⟨stop, hstop, hnot⟩ := h hfound (List.length_pos_iff.2 hfront) hlt (by simp [hkinds])
  rw [hkinds, List.append_assoc, List.getElem?_append_right (by omega),
    List.getElem?_append_left (by omega)] at hstop
  exact hnot (List.mem_of_getElem? hstop)

end Plan

/-- How a level goes on at some siblings: it comes to them, or all of them become part of a new node
that begins in front of them. -/
inductive Comes (lines : LineIndex) (plan : Plan) (parent : Kind) (next : Nat)
    (before front run back : List Node) (next' : Nat) (out : List Node) : Prop
  | at {mid : Nat} {done before' out' : List Node} (hout : out = done ++ out') (hmid : next ≤ mid)
      (hbefore : before' = [] → before = [] ∧ front = [])
      (hlevels : Levels lines plan parent mid before' (run ++ back) next' out')
  | within {index : Nat} {kind : Kind} {left right : List Node} (hindex : next ≤ index)
      (hleft : left ≠ []) (hkind : KindSet.synthesized.contains kind = true)
      (hwrap : Node.wrap lines (.fresh index) kind (left ++ (run ++ right)) ∈ out)

theorem Comes.here {lines : LineIndex} {plan : Plan} {parent : Kind} {next next' : Nat}
    {before run back ahead out : List Node}
    (h : Levels lines plan parent next before ahead next' out)
    (hahead : [] ++ (run ++ back) = ahead) :
    Comes lines plan parent next before [] run back next' out :=
  .at (List.nil_append out).symm (Nat.le_refl next) (fun hnil => ⟨hnil, rfl⟩)
    (by rwa [← hahead] at h)

theorem Comes.cons {lines : LineIndex} {plan : Plan} {parent : Kind} {next next' later : Nat}
    {before front run back out : List Node} {node : Node}
    (h : Comes lines plan parent later (node :: before) front run back next' out)
    (taken : List Node) (hle : next ≤ later) :
    Comes lines plan parent next before (taken ++ front) run back next' (node :: out) := by
  obtain ⟨hout, hmid, hbefore, hlevels⟩ | ⟨hindex, hleft, hkind, hwrap⟩ := h
  · exact .at (by rw [hout, List.cons_append]) (Nat.le_trans hle hmid)
      (fun hnil => absurd (hbefore hnil).1 (List.cons_ne_nil _ _)) hlevels
  · exact .within (Nat.le_trans hle hindex) hleft hkind (List.mem_cons_of_mem _ hwrap)

namespace Levels

variable {lines : LineIndex} {plan : Plan} {parent : Kind} {next next' : Nat}
  {before front run back out : List Node}

/-- A level leaves siblings together that are spared. -/
theorem comes (h : Levels lines plan parent next before (front ++ (run ++ back)) next' out)
    (hsound : plan.Sound) (hlast : run.getLast?.any (·.kind.isSignificant) = true)
    (hspares : plan.Spares ((Node.significantLabels run).map (·.kind))) :
    Comes lines plan parent next before front run back next' out := by
  generalize hahead : front ++ (run ++ back) = ahead at h
  induction h generalizing front with
  | done =>
      obtain ⟨rfl, -⟩ := List.append_eq_nil_iff.1 hahead
      exact .here .done hahead
  | pass hnode hrest ih =>
      obtain _ | ⟨first, front⟩ := front
      · exact .here (.pass hnode hrest) hahead
      · obtain ⟨rfl, hbehind⟩ := List.cons.inj hahead
        exact (ih hbehind).cons [_] (Nat.le_refl _)
  | keep hnode hkept hrest ih =>
      obtain _ | ⟨first, front⟩ := front
      · exact .here (.keep hnode hkept hrest) hahead
      · obtain ⟨rfl, hbehind⟩ := List.cons.inj hahead
        exact (ih hbehind).cons [_] (Nat.le_refl _)
  | @wrap next next' n before taken rest out node kind hnode hcloses hfound hproper hrest ih =>
      obtain _ | ⟨first, front⟩ := front
      · exact .here (.wrap hnode hcloses hfound hproper hrest) hahead
      have hkinds : (Lookahead.atAnchor parent before (node :: taken ++ rest)).scene.kinds =
          (Node.significantLabels (first :: front)).map (·.kind)
            ++ ((Node.significantLabels run).map (·.kind)
              ++ (Node.significantLabels back).map (·.kind)) := by
        rw [List.cons_append, Plan.scene_atAnchor hnode, ← List.map_append, ← List.map_append,
          ← Node.significantLabels_append, ← Node.significantLabels_append, hahead,
          List.cons_append, Node.significantLabels_cons hnode, List.map_cons,
          Node.map_kind_significantLabels]
        rfl
      have hlength (nodes : List Node) : ((Node.significantLabels nodes).map (·.kind)).length =
          (nodes.filter (·.kind.isSignificant)).length := by
        rw [Node.map_kind_significantLabels, List.length_map]
      obtain ⟨rfl, -⟩ := List.cons.inj hahead
      obtain hle | hge := hspares hfound hkinds (by
        rw [Node.significantLabels_cons hnode]
        exact List.cons_ne_nil _ _)
      · -- what is counted out ends in front, and the level goes on behind it
        rw [hlength] at hle
        obtain ⟨left, hfront, rfl⟩ := hcloses.exists_left hahead.symm hle
        rw [hfront]
        exact (ih rfl).cons _ (Nat.le_succ _)
      · -- what is counted out goes over all of the siblings
        have hne : run ≠ [] := by
          rintro rfl
          cases hlast
        have hwhole : Closes _ (first :: front ++ run) := Closes.of_getLast (by
          rwa [List.getLast?_append_of_ne_nil _ hne])
        rw [hlength, hlength, ← List.length_append, ← List.filter_append,
          ← hcloses.length_filter] at hge
        obtain ⟨right, hright, -⟩ := hwhole.exists_left (by rw [List.append_assoc, hahead]) hge
        have hmade : Node.wrap lines (.fresh next) kind (first :: front ++ (run ++ right)) ∈
            Node.wrap lines (.fresh next) kind (first :: taken) :: out := by
          rw [← List.append_assoc, ← hright]
          exact List.mem_cons_self ..
        exact .within (Nat.le_refl next) (List.cons_ne_nil first front)
          (hsound.synthesized hfound) hmade

end Levels

/-- A node that was there stays, up to new nodes below it. -/
theorem Wraps.exists_resembles {lines : LineIndex} {kinds : Kind → Prop} {next : Nat}
    {isNew : NodeId → Bool} {node node' below : Node} (h : Wraps lines kinds next node node')
    (hnew : isNew (.fresh next) = true) (hbelow : below ∈ node.descendants) :
    ∃ below' ∈ node'.descendants, below.Resembles isNew below' := by
  have hself {node node' : Node} (h : Wraps lines kinds next node node') :
      ∃ below' ∈ node'.descendants, node.Resembles isNew below' :=
    ⟨node', node'.self_mem_descendants, h.label_eq, h.erase_eq hnew⟩
  induction h with
  | @here label before run after kind hrun hkind =>
      rcases Node.mem_descendants_iff.1 hbelow with rfl | hbelow
      · exact hself (.here hrun hkind)
      · refine ⟨below, Node.mem_descendants_iff.2 (.inr ?_), rfl, rfl⟩
        rw [Node.children, List.flatMap_append, List.flatMap_append, List.mem_append,
          List.mem_append] at hbelow
        rw [Node.children, List.flatMap_append, List.flatMap_cons, Node.wrap, Node.descendants_mk,
          List.mem_append, List.mem_append, List.mem_cons]
        rcases hbelow with hbefore | hrun | hafter
        · exact .inl hbefore
        · exact .inr (.inl (.inr hrun))
        · exact .inr (.inr hafter)
  | @inside label before after child child' hchild ih =>
      rcases Node.mem_descendants_iff.1 hbelow with rfl | hbelow
      · exact hself (.inside hchild)
      · have hup : ∀ mem, mem ∈ (before ++ child' :: after).flatMap Node.descendants →
            mem ∈ Node.descendants ⟨label, before ++ child' :: after⟩ :=
          fun mem hmem => Node.mem_descendants_iff.2 (.inr hmem)
        simp only [Node.children, List.flatMap_append, List.flatMap_cons, List.mem_append]
          at hbelow hup
        rcases hbelow with hbefore | hbelow | hafter
        · exact ⟨below, hup below (.inl hbefore), rfl, rfl⟩
        · obtain ⟨below', hbelow', hresembles⟩ := ih hbelow
          exact ⟨below', hup below' (.inr (.inl hbelow')), hresembles⟩
        · exact ⟨below, hup below (.inr (.inr hafter)), rfl, rfl⟩

theorem Grows.exists_resembles {lines : LineIndex} {kinds : Kind → Prop} {next next' : Nat}
    {isNew : NodeId → Bool} {node node' below : Node} (h : Grows lines kinds next node next' node')
    (hnew : ∀ index, next ≤ index → isNew (.fresh index) = true)
    (hbelow : below ∈ node.descendants) :
    ∃ below' ∈ node'.descendants, below.Resembles isNew below' := by
  induction h generalizing below with
  | refl => exact ⟨below, hbelow, rfl, rfl⟩
  | @step next next' node mid node' hwrap _ ih =>
      obtain ⟨between, hbetween, hresembles⟩ :=
        hwrap.exists_resembles (hnew next (Nat.le_refl next)) hbelow
      obtain ⟨below', hbelow', hresembles'⟩ :=
        ih (fun index hindex => hnew index (Nat.le_of_succ_le hindex)) hbetween
      exact ⟨below', hbelow', hresembles.trans hresembles'⟩

namespace Pass

variable {lines : LineIndex} {rule : Rule} {plan : Plan} {isNew : NodeId → Bool}
  {fuel next : Nat} {node place : Node} {front run back : List Node}

theorem Reaches.mem_descendants (h : Reaches node place) : place ∈ node.descendants := by
  induction h with
  | here => exact Node.self_mem_descendants _
  | inside _ hchild _ ih =>
      exact Node.mem_descendants_of_child hchild ih

/-- A pass comes to siblings that are spared, where they stood or in a new node. -/
theorem Reaches.comes (h : Reaches node place) (hreads : rule.Reads plan)
    (hsound : plan.Sound) (hopen : isOpen place.kind = true)
    (hchildren : place.children = front ++ (run ++ back))
    (hlast : run.getLast?.any (·.kind.isSignificant) = true)
    (hspares : plan.Spares ((Node.significantLabels run).map (·.kind)))
    (henough : Enough lines rule fuel next node)
    (hnew : ∀ index, next ≤ index → isNew (.fresh index) = true) :
    ∃ label mid next' before done back' out children, isOpen label.kind = true
      ∧ (before = [] → label = place.label ∧ front = []) ∧ next ≤ mid
      ∧ Levels lines plan label.kind mid before (run ++ back') next' out
      ∧ List.Forall₂ (Node.Resembles isNew) (done ++ out) children
      ∧ Reaches (visit lines rule fuel next node).node ⟨label, children⟩ := by
  induction fuel generalizing next node place front back with
  | zero =>
      have hclosed : isOpen node.kind = false := henough
      rw [h.isOpen_above hopen] at hclosed
      cases hclosed
  | succ fuel ih =>
      obtain ⟨label, children⟩ := node
      have hlabel : isOpen label.kind = true := h.isOpen_above hopen
      obtain ⟨out, hout, hlevels⟩ :=
        levels_level lines hreads hsound label.kind next [] children
      have hbelow := henough hlabel
      simp only [visit, hlabel, if_true]
      rw [hout, List.reverse_nil, List.nil_append] at hbelow ⊢
      -- what stands in a node of the level is come to when that is visited
      have hinside {above place : Node} {front back : List Node} (habove : above ∈ out)
          (hplace : Reaches above place) (hopen : isOpen place.kind = true)
          (hchildren : place.children = front ++ (run ++ back)) :
          ∃ below mid next' before done back' out' children', isOpen below.kind = true
            ∧ (before = [] → below = place.label ∧ front = []) ∧ next ≤ mid
            ∧ Levels lines plan below.kind mid before (run ++ back') next' out'
            ∧ List.Forall₂ (Node.Resembles isNew) (done ++ out') children'
            ∧ Reaches ⟨label, (visitEach (visit lines rule fuel)
              (level lines rule label.kind next [] children).next out).nodes⟩
                ⟨below, children'⟩ := by
        obtain ⟨later, hlater, henough, hvisit⟩ := exists_visit hbelow habove
        have hle := Nat.le_trans hlevels.le hlater
        obtain ⟨below, mid, next', before, done, back', out', children', hbelow, hwhere, hmid,
          hlevels', hout', hreaches⟩ := ih hplace hopen hchildren henough fun index hindex =>
            hnew index (Nat.le_trans hle hindex)
        exact ⟨below, mid, next', before, done, back', out', children', hbelow, hwhere,
          Nat.le_trans hle hmid, hlevels', hout', .inside hlabel hvisit hreaches⟩
      cases h with
      | here =>
          obtain rfl : children = front ++ (run ++ back) := hchildren
          cases hlevels.comes hsound hlast hspares with
          | «at» hout hmid hbefore hlevels' =>
              obtain rfl := hout
              refine ⟨label, _, _, _, _, back, _, _, hlabel, fun hnil => ⟨rfl, (hbefore hnil).2⟩,
                hmid, hlevels', forall₂_visitEach ?_, .here⟩
              exact fun index hindex => hnew index (Nat.le_trans hlevels.le hindex)
          | within _ hleft hkind hwrap =>
              obtain ⟨below, mid, next', before, done, back', out', children', hbelow, hwhere,
                hrest⟩ := hinside hwrap .here (isOpen_of_synthesized hkind) rfl
              exact ⟨below, mid, next', before, done, back', out', children', hbelow,
                fun hnil => absurd (hwhere hnil).2 hleft, hrest⟩
      | inside _ hchild hplace =>
          obtain hmem | ⟨kind, id, taken, hwrap, hmem, hkind⟩ :=
            hlevels.mem_or_mem_run hsound hchild
          · exact hinside hmem hplace hopen hchildren
          · exact hinside hwrap (.inside (isOpen_of_synthesized hkind) hmem hplace) hopen hchildren

/-- Whether siblings like some others stand together in a node that a pass comes to. -/
def Stands (isNew : NodeId → Bool) (run : List Node) (node : Node) : Prop :=
  ∃ place front run' back, Reaches node place ∧ isOpen place.kind = true
    ∧ place.children = front ++ (run' ++ back) ∧ List.Forall₂ (Node.Resembles isNew) run run'

/-- Whether a plan finds nothing at some siblings, and spares them. -/
structure Leaves (plan : Plan) (run : List Kind) : Prop where
  spares : plan.Spares run
  silent : ∀ parent previous behind, plan.Silent parent previous run behind

theorem getLast?_any_of_resembles {run' : List Node}
    (h : List.Forall₂ (Node.Resembles isNew) run run') :
    run'.getLast?.any (·.kind.isSignificant) = run.getLast?.any (·.kind.isSignificant) := by
  have hkinds (nodes : List Node) : nodes.getLast?.any (·.kind.isSignificant) =
      (nodes.map (·.kind)).getLast?.any (·.isSignificant) := by
    rw [List.getLast?_map, Option.any_map]
  rw [hkinds, Node.map_kind_of_resembles h, ← hkinds]

/-- Siblings at which a pass finds nothing, and which it spares, stay together. -/
theorem stands_visit (h : Stands isNew run node) (hreads : rule.Reads plan) (hsound : plan.Sound)
    (hlast : run.getLast?.any (·.kind.isSignificant) = true)
    (hleaves : Leaves plan ((Node.significantLabels run).map (·.kind)))
    (henough : Enough lines rule fuel next node)
    (hnew : ∀ index, next ≤ index → isNew (.fresh index) = true) :
    Stands isNew run (visit lines rule fuel next node).node := by
  obtain ⟨place, front, run', back, hreaches, hopen, hchildren, hrun⟩ := h
  rw [← Node.significantLabels_of_resembles hrun] at hleaves
  obtain ⟨label, mid, next', before, done, back', out, children, hlabel, -, -, hlevels, hout,
    hplace⟩ := hreaches.comes hreads hsound hopen hchildren
      ((getLast?_any_of_resembles hrun).trans hlast) hleaves.spares henough hnew
  have hsilent := hleaves.silent label.kind ((before.map (·.kind)).find? (·.isSignificant))
    ((back'.filter (·.kind.isSignificant)).map (·.kind))
  rw [Node.map_kind_significantLabels] at hsilent
  obtain ⟨out', rfl, -⟩ := hlevels.exists_front hsilent
  obtain ⟨front', behind, rfl, -, hbehind⟩ := Node.exists_append_of_resembles hout
  obtain ⟨run'', back'', rfl, hrun', -⟩ := Node.exists_append_of_resembles hbehind
  exact ⟨_, front', run'', back'', hplace, hlabel, rfl, Node.resembles_trans hrun hrun'⟩

theorem stands_runAll {passes : List Pass} (h : Stands isNew run node)
    (hpasses : ∀ pass ∈ passes, ∃ plan, pass.rule.Reads plan ∧ plan.Sound
      ∧ Leaves plan ((Node.significantLabels run).map (·.kind)))
    (hlast : run.getLast?.any (·.kind.isSignificant) = true)
    (hnew : ∀ index, next ≤ index → isNew (.fresh index) = true) :
    Stands isNew run (runAll passes lines next node).1 := by
  induction passes generalizing next node with
  | nil => exact h
  | cons pass rest ih =>
      rw [List.forall_mem_cons] at hpasses
      obtain ⟨⟨plan, hreads, hsound, hleaves⟩, hrest⟩ := hpasses
      refine ih (stands_visit h hreads hsound hlast hleaves
        (enough_depthBound hreads hsound next node) hnew) hrest fun index hindex => hnew index ?_
      exact Nat.le_trans (le_next_visit lines pass.rule (depthBound node) next node) hindex

/-- A pass that finds just some siblings makes a new node over them, unless they may be all that
there is in a node of its kind. -/
theorem exists_made_of_stands {kind : Kind} (h : Stands isNew run node) (hreads : rule.Reads plan)
    (hsound : plan.Sound) (hfirst : run.head?.any (·.kind.isSignificant) = true)
    (hlast : run.getLast?.any (·.kind.isSignificant) = true)
    (hspares : plan.Spares ((Node.significantLabels run).map (·.kind)))
    (hfound : ∀ {scene : Scene} {behind}, scene.kinds =
      (Node.significantLabels run).map (·.kind) ++ behind →
        plan scene = some (kind, (Node.significantLabels run).length))
    (hkind : ∀ below ∈ node.descendants, below.kind ≠ kind)
    (henough : Enough lines rule fuel next node)
    (hnew : ∀ index, next ≤ index → isNew (.fresh index) = true) :
    ∃ made ∈ (visit lines rule fuel next node).node.descendants, made.kind = kind
      ∧ isNew made.id = true ∧ made.erase isNew = run.flatMap (Node.erase isNew) := by
  obtain ⟨place, front, run', back, hreaches, hopen, hchildren, hrun⟩ := h
  rw [← Node.significantLabels_of_resembles hrun] at hspares hfound
  rw [← getLast?_any_of_resembles hrun] at hlast
  obtain ⟨label, mid, next', before, done, back', out, children, hlabel, hwhere, hmid, hlevels,
    hout, hplace⟩ := hreaches.comes hreads hsound hopen hchildren hlast hspares henough hnew
  obtain ⟨first, hhead, hsignificant⟩ := (Option.any_eq_true _ _).1 hfirst
  obtain ⟨others, rfl⟩ := List.head?_eq_some_iff.1 hhead
  obtain _ | @⟨_, first', _, others', hresembles, hothers⟩ := hrun
  have hsignificant' : first'.kind.isSignificant = true := hresembles.kind ▸ hsignificant
  have hscene : (Lookahead.atAnchor label.kind before (first' :: (others' ++ back'))).scene.kinds =
      (Node.significantLabels (first' :: others')).map (·.kind)
        ++ (Node.significantLabels back').map (·.kind) := by
    rw [Plan.scene_atAnchor hsignificant', ← List.map_append, ← Node.significantLabels_append,
      List.cons_append, Node.significantLabels_cons hsignificant', List.map_cons,
      Node.map_kind_significantLabels]
    rfl
  obtain ⟨taken, after, out', hsplit, hcloses, rfl, -⟩ := hlevels.exists_wrap hsignificant'
    (fun hnil => by
      rw [(hwhere hnil).1]
      exact hkind place hreaches.mem_descendants)
    (hfound hscene)
  -- what is counted out are just the siblings
  obtain rfl : taken = others' := by
    rw [Node.significantLabels, List.length_map] at hcloses
    have hsame := hcloses.eq_of_prefix (Closes.of_getLast hlast)
      ⟨after, congrArg (List.cons first') hsplit.symm⟩
      (List.prefix_append (first' :: others') back')
    exact (List.cons.inj hsame).2
  obtain ⟨done', behind, rfl, -, hbehind⟩ := Node.exists_append_of_resembles hout
  obtain _ | @⟨_, made, _, out'', hmade, -⟩ := hbehind
  have hnewMade : isNew (.fresh mid) = true := hnew mid hmid
  refine ⟨made, ?_, hmade.kind, ?_, ?_⟩
  · exact Node.child_mem_descendants hplace.mem_descendants
      (List.mem_append_right _ (List.mem_cons_self ..))
  · rw [Node.id, hmade.label]
    exact hnewMade
  · rw [hmade.erase, Node.erase_wrap hnewMade]
    exact Node.flatMap_erase_of_resembles (.cons hresembles hothers)

end Pass

end ConcreteSyntax
