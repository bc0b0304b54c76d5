import ConcreteSyntax.Proofs.Analysis.Reach

/-!
# What passes keep

A pass makes a level of the children of each open node, and then visits them.  A property of
nodes that no such turn breaks is kept by whole passes (`Pass.all_runAll`).  Siblings at which a
plan finds nothing stay where they are, in front of what the level makes of the others
(`Plan.Turns.exists_front`).
-/

namespace ConcreteSyntax

namespace Node

/-- The labels of the significant ones of several siblings. -/
def significantLabels (nodes : List Node) : List Label :=
  (nodes.filter (·.kind.isSignificant)).map label

theorem significantLabels_append (front behind : List Node) :
    significantLabels (front ++ behind) = significantLabels front ++ significantLabels behind := by
  simp [significantLabels]

theorem significantLabels_cons {node : Node} (h : node.kind.isSignificant = true)
    (rest : List Node) :
    significantLabels (node :: rest) = node.label :: significantLabels rest := by
  simp [significantLabels, h]

theorem significantLabels_cons_of_not {node : Node} (h : node.kind.isSignificant = false)
    (rest : List Node) : significantLabels (node :: rest) = significantLabels rest := by
  simp [significantLabels, h]

theorem map_kind_significantLabels (nodes : List Node) :
    (significantLabels nodes).map (·.kind) =
      (nodes.filter (·.kind.isSignificant)).map (·.kind) := by
  rw [significantLabels, List.map_map]
  rfl

theorem find?_kinds_reverse (nodes : List Node) :
    (nodes.reverse.map (·.kind)).find? (·.isSignificant) =
      ((significantLabels nodes).map (·.kind)).getLast? := by
  rw [map_kind_significantLabels, ← List.head?_filter, List.map_reverse, List.filter_reverse,
    List.head?_reverse, List.filter_map]
  rfl

theorem getLast?_significantLabels {nodes : List Node} {last : Node}
    (hlast : nodes.getLast? = some last) (h : last.kind.isSignificant = true) :
    (significantLabels nodes).getLast? = some last.label := by
  obtain ⟨front, rfl⟩ := List.getLast?_eq_some_iff.1 hlast
  rw [significantLabels_append, significantLabels_cons h, List.getLast?_append]
  rfl

theorem significantLabels_eq_nil {nodes : List Node}
    (h : nodes.getLast?.all (·.kind.isSignificant) = true)
    (hnil : significantLabels nodes = []) : nodes = [] := by
  cases hlast : nodes.getLast? with
  | none => exact List.getLast?_eq_none_iff.1 hlast
  | some last =>
      rw [hlast] at h
      have hlabel := getLast?_significantLabels hlast h
      rw [hnil] at hlabel
      cases hlabel

theorem exists_of_significantLabels_eq_append {nodes : List Node} {front behind : List Label}
    (h : significantLabels nodes = front ++ behind) :
    ∃ left right, nodes = left ++ right ∧ significantLabels left = front
      ∧ significantLabels right = behind := by
  obtain ⟨first, second, hfilter, hfirst, hsecond⟩ := List.map_eq_append_iff.1 h
  obtain ⟨left, right, rfl, hleft, hright⟩ := List.filter_eq_append_iff.1 hfilter
  exact ⟨left, right, rfl, by rw [significantLabels, hleft, hfirst],
    by rw [significantLabels, hright, hsecond]⟩

theorem exists_of_significantLabels_eq_cons {nodes : List Node} {label : Label}
    {rest : List Label} (h : significantLabels nodes = label :: rest) :
    ∃ left node right, nodes = left ++ node :: right ∧ significantLabels left = []
      ∧ node.kind.isSignificant = true ∧ node.label = label ∧ significantLabels right = rest := by
  obtain ⟨node, others, hfilter, hlabel, hothers⟩ := List.map_eq_cons_iff.1 h
  obtain ⟨left, right, rfl, hleft, hnode, hright⟩ := List.filter_eq_cons_iff.1 hfilter
  refine ⟨left, node, right, rfl, ?_, hnode, hlabel, by rw [significantLabels, hright, hothers]⟩
  rw [significantLabels, List.filter_eq_nil_iff.2 hleft]
  rfl

variable {isNew : NodeId → Bool}

theorem Resembles.kind {node node' : Node} (h : node.Resembles isNew node') :
    node'.kind = node.kind := congrArg Label.kind h.label

theorem significantLabels_of_resembles {nodes nodes' : List Node}
    (h : List.Forall₂ (Resembles isNew) nodes nodes') :
    significantLabels nodes' = significantLabels nodes := by
  induction h with
  | nil => rfl
  | @cons node node' rest rest' hnode _ ih =>
      cases hkind : node.kind.isSignificant with
      | true =>
          rw [significantLabels_cons hkind, significantLabels_cons (hnode.kind ▸ hkind),
            hnode.label, ih]
      | false =>
          rw [significantLabels_cons_of_not hkind,
            significantLabels_cons_of_not (hnode.kind ▸ hkind), ih]

theorem map_kind_of_resembles {nodes nodes' : List Node}
    (h : List.Forall₂ (Resembles isNew) nodes nodes') :
    nodes'.map (·.kind) = nodes.map (·.kind) := by
  induction h with
  | nil => rfl
  | cons hnode _ ih => rw [List.map_cons, List.map_cons, hnode.kind, ih]

theorem flatMap_erase_of_resembles {nodes nodes' : List Node}
    (h : List.Forall₂ (Resembles isNew) nodes nodes') :
    nodes'.flatMap (erase isNew) = nodes.flatMap (erase isNew) := by
  induction h with
  | nil => rfl
  | cons hnode _ ih => rw [List.flatMap_cons, List.flatMap_cons, hnode.erase, ih]

theorem exists_append_of_resembles {front rest nodes' : List Node}
    (h : List.Forall₂ (Resembles isNew) (front ++ rest) nodes') :
    ∃ front' rest', nodes' = front' ++ rest' ∧ List.Forall₂ (Resembles isNew) front front'
      ∧ List.Forall₂ (Resembles isNew) rest rest' := by
  induction front generalizing nodes' with
  | nil => exact ⟨[], nodes', rfl, .nil, h⟩
  | cons node front ih =>
      obtain _ | ⟨hnode, hnodes⟩ := h
      obtain ⟨front', rest', rfl, hfront, hrest⟩ := ih hnodes
      exact ⟨_ :: front', rest', rfl, .cons hnode hfront, hrest⟩

end Node

namespace Plan

/-- Whether a plan finds nothing at any of the siblings in front. -/
def Silent (plan : Plan) (parent : Kind) : Option Kind → List Kind → List Kind → Prop
  | _, [], _ => True
  | previous, kind :: rest, behind =>
      (∀ scene : Scene, scene.parent = parent → scene.previous = previous →
        scene.kinds = kind :: (rest ++ behind) → plan scene = none)
      ∧ plan.Silent parent (some kind) rest behind

/-- What begins no run begins none wherever it stands. -/
theorem silent_of_forall {plan : Plan} {parent : Kind} {front behind : List Kind}
    (h : ∀ kind ∈ front, ∀ scene : Scene, scene.parent = parent →
      scene.kinds.head? = some kind → scene.kinds ⊆ front ++ behind → plan scene = none)
    (previous : Option Kind) : plan.Silent parent previous front behind := by
  induction front generalizing previous with
  | nil => trivial
  | cons kind rest ih =>
      refine ⟨fun scene hparent _ hkinds => ?_, ih (fun other hother scene hparent hhead hsub =>
        ?_) _⟩
      · exact h kind (List.mem_cons_self ..) scene hparent (by rw [hkinds]; rfl)
          (by rw [hkinds, List.cons_append]; exact List.Subset.refl _)
      · exact h other (List.mem_cons_of_mem _ hother) scene hparent hhead
          (List.Subset.trans hsub (List.subset_cons_self ..))

/-- A plan that begins no run at any kind but some finds nothing at others. -/
theorem silent_of_heads {plan : Plan} {heads : KindSet} {parent : Kind} {front behind : List Kind}
    (hplan : ∀ {scene : Scene} {kind}, scene.kinds.head? = some kind →
      heads.contains kind = false → plan scene = none)
    (h : ∀ kind ∈ front, heads.contains kind = false) (previous : Option Kind) :
    plan.Silent parent previous front behind :=
  silent_of_forall (fun kind hkind _ _ hhead _ => hplan hhead (h kind hkind)) previous

theorem silent_append {plan : Plan} {parent : Kind} {previous : Option Kind}
    {front middle behind : List Kind} :
    plan.Silent parent previous (front ++ middle) behind ↔
      plan.Silent parent previous front (middle ++ behind)
        ∧ plan.Silent parent (front.getLast?.or previous) middle behind := by
  induction front generalizing previous with
  | nil => simp [Silent]
  | cons kind rest ih =>
      have hlast : (kind :: rest).getLast?.or previous = rest.getLast?.or (some kind) := by
        rw [List.getLast?_cons]
        cases rest.getLast? <;> rfl
      rw [List.cons_append, Silent, Silent, ih, hlast, List.append_assoc, and_assoc]

/-- What follows a silent place is silent. -/
theorem Silent.at_place {plan : Plan} {parent kind : Kind} {previous : Option Kind}
    {passed rest behind : List Kind}
    (h : plan.Silent parent previous (passed ++ kind :: rest) behind) {scene : Scene}
    (hparent : scene.parent = parent) (hprevious : scene.previous = passed.getLast?.or previous)
    (hkinds : scene.kinds = kind :: (rest ++ behind)) : plan scene = none := by
  induction passed generalizing previous with
  | nil => exact h.1 scene hparent hprevious hkinds
  | cons first passed ih =>
      refine ih h.2 ?_
      rw [hprevious, List.getLast?_cons]
      cases passed.getLast? <;> rfl

/-- Whether a plan reads no more than kinds. -/
def ByKinds (plan : Plan) : Prop :=
  ∀ a b : Scene, a.parent = b.parent → a.previous = b.previous → a.kinds = b.kinds →
    plan a = plan b

/-- Whether siblings are a run that a plan has counted out for a node of a kind. -/
structure Made (plan : Plan) (kind : Kind) (run : List Node) : Prop where
  found : ∃ parent before rest n,
    plan (Lookahead.atAnchor parent before (run ++ rest)).scene = some (kind, n) ∧ Closes n run
  first : run.head?.any (·.kind.isSignificant) = true

/-- Whether a plan, inside a new node, can find a run from its first sibling on only in all that
the node was put over. -/
def Exact (plan : Plan) : Prop :=
  ∀ {scene kind other n m}, plan scene = some (kind, n) →
    plan (scene.within kind n) = some (other, m) → m = n

/-- What a pass makes of the children of a node that it visits: a level of them, each of which it
visits then. -/
def Turns (plan : Plan) (isNew : NodeId → Bool) (parent : Kind) (children children' : List Node) :
    Prop :=
  ∃ lines next next' out, Levels lines plan parent next [] children next' out
    ∧ (∀ index, next ≤ index → isNew (.fresh index) = true)
    ∧ List.Forall₂ (Node.Resembles isNew) out children'

end Plan

/-- Whether the first of some siblings is that of others, or is new instead of it. -/
def Follows (ahead out : List Label) : Prop :=
  out.head? = ahead.head?
    ∨ ahead ≠ [] ∧ ∃ label rest, out = label :: rest
      ∧ KindSet.synthesized.contains label.kind = true

theorem Follows.eq_nil {labels : List Label} (h : Follows [] labels) : labels = [] := by
  obtain hhead | ⟨hne, -⟩ := h
  · exact List.head?_eq_none_iff.1 hhead
  · exact absurd rfl hne

namespace Levels

variable {lines : LineIndex} {plan : Plan} {parent : Kind} {next next' : Nat}
  {before ahead front behind rest out : List Node} {node : Node}

/-- What holds of the siblings of a level, and of the new nodes over them, holds of what becomes
of them. -/
theorem forall_mem {property : Node → Prop}
    (h : Levels lines plan parent next before ahead next' out)
    (hold : ∀ node ∈ ahead, property node)
    (hnew : ∀ index kind first run, next ≤ index → plan.Made kind (first :: run) →
      first :: run ⊆ ahead → property (Node.wrap lines (.fresh index) kind (first :: run))) :
    ∀ node ∈ out, property node := by
  induction h with
  | done => simp
  | pass _ _ ih | keep _ _ _ ih =>
      rw [List.forall_mem_cons] at hold ⊢
      exact ⟨hold.1, ih hold.2 fun index kind first run hindex hmade hsub =>
        hnew index kind first run hindex hmade (List.Subset.trans hsub (List.subset_cons_self ..))⟩
  | @wrap next next' n before run rest out node kind hnode hcloses hfound _ _ ih =>
      rw [List.forall_mem_cons]
      refine ⟨hnew next kind node run (Nat.le_refl next)
        ⟨⟨_, _, _, _, hfound, hcloses⟩, by simpa using hnode⟩ (List.subset_append_left ..),
        ih (fun other hother => hold other (List.mem_append_right _ hother))
          fun index kind first run hindex hmade hsub => ?_⟩
      exact hnew index kind first run (Nat.le_of_succ_le hindex) hmade
        (List.Subset.trans hsub (List.subset_append_right ..))

/-- Trivia and comments stay. -/
theorem exists_pass (h : Levels lines plan parent next before (node :: rest) next' out)
    (hnode : node.kind.isSignificant = false) :
    ∃ out', out = node :: out'
      ∧ Levels lines plan parent next (node :: before) rest next' out' := by
  generalize hahead : node :: rest = ahead at h
  cases h with
  | done => cases hahead
  | pass _ hrest =>
      obtain ⟨rfl, rfl⟩ := List.cons.inj hahead
      exact ⟨_, rfl, hrest⟩
  | keep hkind _ _ | wrap hkind _ _ _ _ =>
      obtain ⟨rfl, -⟩ := List.cons.inj hahead
      rw [hnode] at hkind
      cases hkind

/-- A sibling stays if nothing is found from it on, or only all there is, for a node of the kind
of the parent. -/
theorem exists_keep (h : Levels lines plan parent next before (node :: rest) next' out)
    (hnode : node.kind.isSignificant = true)
    (hkept : ∀ kind n, plan (Lookahead.atAnchor parent before (node :: rest)).scene =
      some (kind, n) → before = [] ∧ Closes n (node :: rest) ∧ parent = kind) :
    ∃ out', out = node :: out'
      ∧ Levels lines plan parent next (node :: before) rest next' out' := by
  generalize hahead : node :: rest = ahead at h
  cases h with
  | done => cases hahead
  | pass hnot _ =>
      obtain ⟨rfl, rfl⟩ := List.cons.inj hahead
      rw [hnode] at hnot
      cases hnot
  | keep _ _ hrest =>
      obtain ⟨rfl, rfl⟩ := List.cons.inj hahead
      exact ⟨_, rfl, hrest⟩
  | wrap _ hcloses hfound hproper _ =>
      obtain ⟨rfl, rfl⟩ := List.cons.inj hahead
      obtain ⟨hbefore, hwhole, hparent⟩ := hkept _ _ hfound
      exact absurd ⟨hbefore, hcloses.eq_nil_of_append hwhole, hparent⟩ hproper

/-- A run that is found is put into a new node, unless it may be all that there is in a node of its
kind. -/
theorem exists_wrap {kind : Kind} {n : Nat}
    (h : Levels lines plan parent next before (node :: rest) next' out)
    (hnode : node.kind.isSignificant = true) (hproper : before = [] → parent ≠ kind)
    (hfound : plan (Lookahead.atAnchor parent before (node :: rest)).scene = some (kind, n)) :
    ∃ run after out', rest = run ++ after ∧ Closes n (node :: run)
      ∧ out = Node.wrap lines (.fresh next) kind (node :: run) :: out'
      ∧ Levels lines plan parent (next + 1)
        (Node.wrap lines (.fresh next) kind (node :: run) :: before) after next' out' := by
  generalize hahead : node :: rest = ahead at h
  cases h with
  | done => cases hahead
  | pass hnot _ =>
      obtain ⟨rfl, rfl⟩ := List.cons.inj hahead
      rw [hnode] at hnot
      cases hnot
  | keep _ hkept _ =>
      obtain ⟨rfl, rfl⟩ := List.cons.inj hahead
      obtain ⟨hbefore, -, hparent⟩ := hkept kind n hfound
      exact absurd hparent (hproper hbefore)
  | @wrap _ _ _ _ run after out' _ _ _ hcloses hother _ hrest =>
      obtain ⟨rfl, rfl⟩ := List.cons.inj hahead
      obtain ⟨rfl, rfl⟩ := Prod.mk.inj (Option.some.inj (hfound.symm.trans hother))
      exact ⟨run, after, out', rfl, hcloses, rfl, hrest⟩

/-- Siblings at which nothing is found stay in front of what becomes of the others. -/
theorem exists_front (h : Levels lines plan parent next before (front ++ behind) next' out)
    (hsilent : plan.Silent parent ((before.map (·.kind)).find? (·.isSignificant))
      ((front.filter (·.kind.isSignificant)).map (·.kind))
      ((behind.filter (·.kind.isSignificant)).map (·.kind))) :
    ∃ out', out = front ++ out'
      ∧ Levels lines plan parent next (front.reverse ++ before) behind next' out' := by
  induction front generalizing before out with
  | nil => exact ⟨out, rfl, h⟩
  | cons node front ih =>
      cases hnode : node.kind.isSignificant with
      | false =>
          obtain ⟨out, rfl, hrest⟩ := exists_pass h hnode
          obtain ⟨out', rfl, hlevels⟩ := ih hrest (by simpa [hnode] using hsilent)
          exact ⟨out', rfl, by simpa using hlevels⟩
      | true =>
          simp only [List.filter_cons, hnode, if_true, List.map_cons] at hsilent
          have hnone : plan (Lookahead.atAnchor parent before (node :: (front ++ behind))).scene =
              none := by
            refine hsilent.1 _ ?_ ?_ ?_
            · rfl
            · rfl
            · rw [Plan.scene_atAnchor hnode]
              simp
          obtain ⟨out', rfl, hrest⟩ := exists_keep h hnode fun kind n hfound => by
            cases hnone.symm.trans hfound
          obtain ⟨out', rfl, hlevels⟩ := ih hrest (by simpa [hnode] using hsilent.2)
          exact ⟨out', rfl, by simpa using hlevels⟩

/-- Behind the first sibling of a level either nothing is found, or there is a first new node. -/
theorem silent_or_wrap (hkinds : plan.ByKinds)
    (h : Levels lines plan parent next before ahead next' out) (hbefore : before ≠ []) :
    (out = ahead ∧ plan.Silent parent ((before.map (·.kind)).find? (·.isSignificant))
      ((ahead.filter (·.kind.isSignificant)).map (·.kind)) [])
    ∨ ∃ front node run rest kind n index mid before' out',
      ahead = front ++ (node :: run ++ rest) ∧ node.kind.isSignificant = true
        ∧ Closes n (node :: run)
        ∧ plan (Lookahead.atAnchor parent (front.reverse ++ before)
            (node :: run ++ rest)).scene = some (kind, n)
        ∧ out = front ++ Node.wrap lines (.fresh index) kind (node :: run) :: out'
        ∧ Levels lines plan parent mid before' rest next' out' := by
  induction h with
  | done => exact .inl ⟨rfl, trivial⟩
  | @pass next next' before rest out node hnode hrest ih =>
      obtain ⟨rfl, hsilent⟩ | ⟨front, first, run, after, kind, n, index, mid, before', out', rfl,
        hfirst, hcloses, hfound, rfl, hlevels⟩ := ih (List.cons_ne_nil _ _)
      · exact .inl ⟨rfl, by simpa [hnode] using hsilent⟩
      · refine .inr ⟨node :: front, first, run, after, kind, n, index, mid, before', out', rfl,
          hfirst, hcloses, ?_, rfl, hlevels⟩
        simpa using hfound
  | @keep next next' before rest out node hnode hkept hrest ih =>
      obtain ⟨rfl, hsilent⟩ | ⟨front, first, run, after, kind, n, index, mid, before', out', rfl,
        hfirst, hcloses, hfound, rfl, hlevels⟩ := ih (List.cons_ne_nil _ _)
      · refine .inl ⟨rfl, ?_⟩
        simp only [List.filter_cons, hnode, if_true, List.map_cons]
        refine ⟨fun scene hparent hprevious hscene => ?_, by simpa [hnode] using hsilent⟩
        have hsame : plan scene = plan (Lookahead.atAnchor parent before (node :: out)).scene := by
          refine hkinds _ _ hparent hprevious ?_
          rw [hscene, Plan.scene_atAnchor hnode, List.append_nil]
        rw [hsame, Option.eq_none_iff_forall_ne_some]
        rintro ⟨kind, n⟩ hfound
        exact hbefore (hkept kind n hfound).1
      · refine .inr ⟨node :: front, first, run, after, kind, n, index, mid, before', out', rfl,
          hfirst, hcloses, ?_, rfl, hlevels⟩
        simpa using hfound
  | @wrap next next' n before run rest out node kind hnode hcloses hfound hproper hrest ih =>
      exact .inr ⟨[], node, run, rest, kind, n, next, _, _, out, rfl, hnode, hcloses, hfound, rfl,
        hrest⟩

theorem follows (hsound : plan.Sound)
    (h : Levels lines plan parent next before ahead next' out) :
    Follows (Node.significantLabels ahead) (Node.significantLabels out) := by
  induction h with
  | done => exact .inl rfl
  | pass hnode _ ih =>
      rwa [Node.significantLabels_cons_of_not hnode, Node.significantLabels_cons_of_not hnode]
  | keep hnode _ _ _ =>
      rw [Node.significantLabels_cons hnode, Node.significantLabels_cons hnode]
      exact .inl rfl
  | @wrap next _ _ _ run rest out node kind hnode _ hfound _ _ _ =>
      have hkind := hsound.synthesized hfound
      have hwrap : (Node.wrap lines (.fresh next) kind (node :: run)).kind.isSignificant = true :=
        Kind.isSignificant_of_synthesized hkind
      rw [List.cons_append, Node.significantLabels_cons hnode, Node.significantLabels_cons hwrap]
      exact .inr ⟨by simp, _, _, rfl, hkind⟩

end Levels

namespace Plan

variable {plan : Plan} {isNew : NodeId → Bool} {parent kind : Kind}
  {children children' run : List Node} {front behind : List Label}

theorem Turns.erase_eq (h : plan.Turns isNew parent children children') :
    children'.flatMap (Node.erase isNew) = children.flatMap (Node.erase isNew) := by
  obtain ⟨lines, next, next', out, hlevels, hnew, hout⟩ := h
  rw [Node.flatMap_erase_of_resembles hout, hlevels.erase_eq hnew]

/-- Children at which nothing is found stay in front of what becomes of the others. -/
theorem Turns.exists_front (hsound : plan.Sound) (h : plan.Turns isNew parent children children')
    (hchildren : Node.significantLabels children = front ++ behind)
    (hsilent : plan.Silent parent none (front.map (·.kind)) (behind.map (·.kind))) :
    ∃ behind', Node.significantLabels children' = front ++ behind' ∧ Follows behind behind' := by
  obtain ⟨lines, next, next', out, hlevels, hnew, hout⟩ := h
  obtain ⟨left, right, rfl, rfl, rfl⟩ := Node.exists_of_significantLabels_eq_append hchildren
  rw [Node.map_kind_significantLabels, Node.map_kind_significantLabels] at hsilent
  obtain ⟨out', rfl, hrest⟩ := hlevels.exists_front hsilent
  refine ⟨Node.significantLabels out', ?_, hrest.follows hsound⟩
  rw [Node.significantLabels_of_resembles hout, Node.significantLabels_append]

/-- Where nothing is found at all, the children stay what they are. -/
theorem Turns.resembles (h : plan.Turns isNew parent children children')
    (hsilent : plan.Silent parent none ((Node.significantLabels children).map (·.kind)) []) :
    List.Forall₂ (Node.Resembles isNew) children children' := by
  obtain ⟨lines, next, next', out, hlevels, hnew, hout⟩ := h
  rw [Node.map_kind_significantLabels] at hsilent
  rw [← List.append_nil children] at hlevels
  obtain ⟨out', rfl, hrest⟩ := hlevels.exists_front hsilent
  cases hrest
  rwa [List.append_nil] at hout

/-- In a node that an exact plan has made, the first child stays, and the others are those of a
level behind it. -/
theorem Turns.exists_made (hsound : plan.Sound) (hexact : plan.Exact) (hmade : plan.Made kind run)
    (h : plan.Turns isNew kind run children') :
    ∃ first rest lines next next' out, run = first :: rest
      ∧ first.kind.isSignificant = true
      ∧ Levels lines plan kind next [first] rest next' out
      ∧ (∀ index, next ≤ index → isNew (.fresh index) = true)
      ∧ List.Forall₂ (Node.Resembles isNew) (first :: out) children' := by
  obtain ⟨lines, next, next', out, hlevels, hnew, hout⟩ := h
  obtain ⟨parent, before, rest, n, hfound, hcloses⟩ := hmade.found
  obtain ⟨first, hhead, hfirst⟩ := (Option.any_eq_true _ _).1 hmade.first
  obtain ⟨others, rfl⟩ := List.head?_eq_some_iff.1 hhead
  obtain ⟨out, rfl, hrest⟩ := hlevels.exists_keep hfirst fun other m hother => by
    change plan (look kind (first :: others)) = some (other, m) at hother
    rw [look_eq_within hfirst hcloses] at hother
    obtain rfl := hexact hfound hother
    exact ⟨rfl, hcloses, (hsound.steady hfound hother).symm⟩
  exact ⟨first, others, lines, next, next', out, rfl, hfirst, hrest, hnew, hout⟩

/-- In a node that an exact plan has made, the children in front stay if nothing is found at them
but at the first. -/
theorem Turns.exists_front_of_made (hsound : plan.Sound) (hexact : plan.Exact)
    (hmade : plan.Made kind run) (h : plan.Turns isNew kind run children') {first : Label}
    (hrun : Node.significantLabels run = first :: front ++ behind)
    (hsilent : plan.Silent kind (some first.kind) (front.map (·.kind)) (behind.map (·.kind))) :
    ∃ behind', Node.significantLabels children' = first :: front ++ behind'
      ∧ Follows behind behind' := by
  obtain ⟨node, rest, lines, next, next', out, rfl, hnode, hlevels, hnew, hout⟩ :=
    h.exists_made hsound hexact hmade
  rw [Node.significantLabels_cons hnode, List.cons_append] at hrun
  obtain ⟨rfl, hrest⟩ := List.cons.inj hrun
  obtain ⟨left, right, rfl, rfl, rfl⟩ := Node.exists_of_significantLabels_eq_append hrest
  rw [Node.map_kind_significantLabels, Node.map_kind_significantLabels] at hsilent
  have hprevious : ([node].map (·.kind)).find? (·.isSignificant) = some node.label.kind := by
    change [node.kind].find? _ = some node.kind
    simp [hnode]
  rw [← hprevious] at hsilent
  obtain ⟨out', rfl, hrest⟩ := hlevels.exists_front hsilent
  refine ⟨Node.significantLabels out', ?_, hrest.follows hsound⟩
  rw [Node.significantLabels_of_resembles hout, Node.significantLabels_cons hnode,
    Node.significantLabels_append, List.cons_append]

/-- Behind children at which nothing is found, a run that is found becomes a new child.  The others
behind it stay what they are where nothing more is found. -/
theorem Turns.exists_wrap {front rest : List Node} {node : Node} {n : Nat} (hsound : plan.Sound)
    (h : plan.Turns isNew parent (front ++ node :: rest) children') (hfront : front ≠ [])
    (hnode : node.kind.isSignificant = true)
    (hsilent : plan.Silent parent none ((Node.significantLabels front).map (·.kind))
      ((Node.significantLabels (node :: rest)).map (·.kind)))
    (hfound : plan (Lookahead.atAnchor parent front.reverse (node :: rest)).scene =
      some (kind, n)) :
    ∃ run after front' wrapped after', rest = run ++ after ∧ Closes n (node :: run)
      ∧ children' = front' ++ wrapped :: after'
      ∧ List.Forall₂ (Node.Resembles isNew) front front' ∧ wrapped.kind = kind
      ∧ wrapped.children.flatMap (Node.erase isNew) = (node :: run).flatMap (Node.erase isNew)
      ∧ (plan.Silent parent (some kind) ((Node.significantLabels after).map (·.kind)) [] →
        List.Forall₂ (Node.Resembles isNew) after after') := by
  obtain ⟨lines, next, next', out, hlevels, hnew, hout⟩ := h
  rw [Node.map_kind_significantLabels, Node.map_kind_significantLabels] at hsilent
  obtain ⟨out, rfl, hrest⟩ := hlevels.exists_front hsilent
  rw [List.append_nil] at hrest
  obtain ⟨run, after, out', rfl, hcloses, rfl, hafter⟩ :=
    hrest.exists_wrap hnode (fun hnil => absurd hnil (by simpa using hfront)) hfound
  obtain ⟨front', rest', rfl, hfront', hrest'⟩ := Node.exists_append_of_resembles hout
  obtain _ | @⟨_, ⟨label, children⟩, _, after', hwrapped, hafter'⟩ := hrest'
  have hsignificant : kind.isSignificant = true :=
    Kind.isSignificant_of_synthesized (hsound.synthesized hfound)
  refine ⟨run, after, front', _, _, rfl, hcloses, rfl, hfront', hwrapped.kind, ?_,
    fun hsilent => ?_⟩
  · have hlabel : label = (Node.wrap lines (.fresh next) kind (node :: run)).label := hwrapped.label
    have hwrap : isNew (Node.wrap lines (.fresh next) kind (node :: run)).label.id = true :=
      hnew next (Nat.le_refl next)
    calc children.flatMap (Node.erase isNew)
        = Node.erase isNew ⟨label, children⟩ := by rw [Node.erase_mk, hlabel, if_pos hwrap]
      _ = (Node.wrap lines (.fresh next) kind (node :: run)).erase isNew := hwrapped.erase
      _ = (node :: run).flatMap (Node.erase isNew) := by
        rw [Node.wrap, Node.erase_mk]
        exact if_pos hwrap
  · rw [Node.map_kind_significantLabels] at hsilent
    rw [← List.append_nil after] at hafter
    have hprevious : ((Node.wrap lines (.fresh next) kind (node :: run) :: front.reverse).map
        (·.kind)).find? (·.isSignificant) = some kind := by
      rw [List.map_cons]
      exact List.find?_cons_of_pos hsignificant
    obtain ⟨out'', rfl, hdone⟩ := hafter.exists_front (hprevious ▸ hsilent)
    cases hdone
    rwa [List.append_nil] at hafter'

/-- The same by labels: where a plan finds a run in each scene that shows the labels, there it
becomes a new child. -/
theorem Turns.exists_wrap_of_labels {first : Label} {n : Nat} (hsound : plan.Sound)
    (h : plan.Turns isNew parent children children')
    (hchildren : Node.significantLabels children = front ++ first :: behind) (hfront : front ≠ [])
    (hsilent : plan.Silent parent none (front.map (·.kind)) ((first :: behind).map (·.kind)))
    (hfound : ∀ {scene : Scene}, scene.parent = parent →
      scene.previous = (front.map (·.kind)).getLast? →
        scene.kinds = (first :: behind).map (·.kind) → plan scene = some (kind, n)) :
    ∃ run front' wrapped after', run ⊆ children
      ∧ Node.significantLabels run = (first :: behind).take n
      ∧ children'.filter (·.kind.isSignificant) = front' ++ wrapped :: after'
      ∧ front'.map Node.label = front ∧ wrapped.kind = kind
      ∧ wrapped.children.flatMap (Node.erase isNew) = run.flatMap (Node.erase isNew)
      ∧ (plan.Silent parent (some kind) (((first :: behind).drop n).map (·.kind)) [] →
        after'.map Node.label = (first :: behind).drop n) := by
  obtain ⟨left, right, rfl, hleft, hright⟩ :=
    Node.exists_of_significantLabels_eq_append hchildren
  obtain ⟨trivia, node, others, rfl, htrivia, hnode, hlabel, hothers⟩ :=
    Node.exists_of_significantLabels_eq_cons hright
  have hbefore : Node.significantLabels (left ++ trivia) = front := by
    rw [Node.significantLabels_append, hleft, htrivia, List.append_nil]
  have hahead : Node.significantLabels (node :: others) = first :: behind := by
    rw [Node.significantLabels_cons hnode, hlabel, hothers]
  rw [← List.append_assoc] at h
  have hscene : plan (Lookahead.atAnchor parent (left ++ trivia).reverse (node :: others)).scene =
      some (kind, n) := by
    refine hfound rfl (hbefore ▸ Node.find?_kinds_reverse (left ++ trivia)) ?_
    rw [scene_atAnchor hnode, ← hahead, Node.map_kind_significantLabels]
    simp [hnode]
  obtain ⟨run, after, front', wrapped, after', rfl, hcloses, rfl, hfront', hkind, herase, hafter⟩ :=
    h.exists_wrap hsound (by rintro hnil; exact hfront (by rw [← hbefore, hnil]; rfl)) hnode
      (by rw [hbefore, hahead]; exact hsilent) hscene
  have hlength : (Node.significantLabels (node :: run)).length = n := by
    rw [Node.significantLabels, List.length_map, hcloses.length_filter]
  rw [← List.cons_append, Node.significantLabels_append] at hahead
  have htake : Node.significantLabels (node :: run) = (first :: behind).take n := by
    rw [← hahead, List.take_left' hlength]
  have hdrop : Node.significantLabels after = (first :: behind).drop n := by
    rw [← hahead, List.drop_left' hlength]
  have hsignificant : wrapped.kind.isSignificant = true :=
    hkind ▸ Kind.isSignificant_of_synthesized (hsound.synthesized hscene)
  refine ⟨node :: run, front'.filter (·.kind.isSignificant), wrapped,
    after'.filter (·.kind.isSignificant), ?_, htake, ?_, ?_, hkind, herase, fun hsilent => ?_⟩
  · rw [← List.append_assoc, ← List.cons_append]
    exact List.Subset.trans (List.subset_append_left _ after) (List.subset_append_right _ _)
  · rw [List.filter_append, List.filter_cons, if_pos hsignificant]
  · exact (Node.significantLabels_of_resembles hfront').trans hbefore
  · rw [← hdrop] at hsilent ⊢
    exact Node.significantLabels_of_resembles (hafter hsilent)

/-- How the significant children of a node split: some stand in front with new nodes as well as
without them, and behind them others with new nodes, and what was written without them. -/
structure Splits (isNew : NodeId → Bool) (children : List Node)
    (front behind written : List Label) : Prop where
  labels : Node.significantLabels children = front ++ behind
  erased : Node.significantLabels (children.flatMap (Node.erase isNew)) = front ++ written

theorem Splits.turn {written : List Label} (h : Splits isNew children front behind written)
    (hsound : plan.Sound) (hturns : plan.Turns isNew parent children children')
    (hsilent : plan.Silent parent none (front.map (·.kind)) (behind.map (·.kind))) :
    ∃ behind', Splits isNew children' front behind' written ∧ Follows behind behind' := by
  obtain ⟨behind', hchildren', hfollows⟩ := hturns.exists_front hsound h.labels hsilent
  exact ⟨behind', ⟨hchildren', by rw [hturns.erase_eq, h.erased]⟩, hfollows⟩

theorem Splits.turn_of_made {first : Label} {written : List Label}
    (h : Splits isNew children (first :: front) behind written) (hsound : plan.Sound)
    (hexact : plan.Exact) (hmade : plan.Made kind children)
    (hturns : plan.Turns isNew kind children children')
    (hsilent : plan.Silent kind (some first.kind) (front.map (·.kind)) (behind.map (·.kind))) :
    ∃ behind', Splits isNew children' (first :: front) behind' written
      ∧ Follows behind behind' := by
  obtain ⟨behind', hchildren', hfollows⟩ :=
    hturns.exists_front_of_made hsound hexact hmade h.labels hsilent
  exact ⟨behind', ⟨hchildren', by rw [hturns.erase_eq, h.erased]⟩, hfollows⟩

/-- Whether what holds of all nodes in front of a pass makes something hold of all nodes behind
it: of those that it does not visit, of the old ones that it visits, and of those that it makes. -/
structure Upholds (plan : Plan) (isNew : NodeId → Bool) (Old Done : Node → Prop) : Prop where
  unvisited : ∀ {node : Node}, Pass.isOpen node.kind = false → node.All Old → node.All Done
  old : ∀ {label children children'}, Pass.isOpen label.kind = true → Old ⟨label, children⟩ →
    (∀ child ∈ children, Old child) → plan.Turns isNew label.kind children children' →
    Done ⟨label, children'⟩
  new : ∀ {label children children'}, Pass.isOpen label.kind = true → isNew label.id = true →
    plan.Made label.kind children → (∀ child ∈ children, Old child) →
    plan.Turns isNew label.kind children children' → Done ⟨label, children'⟩

/-- What is seen where a run was counted out. -/
theorem Made.exists_scene (h : plan.Made kind run) :
    ∃ scene behind, plan scene = some (kind, (Node.significantLabels run).length)
      ∧ scene.kinds = (Node.significantLabels run).map (·.kind) ++ behind := by
  obtain ⟨parent, before, rest, n, hfound, hcloses⟩ := h.found
  obtain ⟨first, hhead, hfirst⟩ := (Option.any_eq_true _ _).1 h.first
  obtain ⟨others, rfl⟩ := List.head?_eq_some_iff.1 hhead
  refine ⟨(Lookahead.atAnchor parent before (first :: others ++ rest)).scene,
    (rest.filter (·.kind.isSignificant)).map (·.kind), ?_, ?_⟩
  · rw [hfound, Node.significantLabels, List.length_map, hcloses.length_filter]
  · rw [List.cons_append, scene_atAnchor hfirst, Node.map_kind_significantLabels]
    simp [hfirst]

theorem Made.getLast_significant (h : plan.Made kind run) :
    ∃ last, run.getLast? = some last ∧ last.kind.isSignificant = true := by
  obtain ⟨parent, before, rest, n, -, hcloses⟩ := h.found
  have hne : run ≠ [] := List.length_pos_iff.1 hcloses.length_pos
  have hlast := List.getLast?_eq_some_getLast hne
  exact ⟨_, hlast, hcloses.getLast_significant _ hlast⟩

/-- A plan that makes some kinds upholds what concerns the nodes of these kinds if it makes it true
of the ones that it makes, and there were none before. -/
theorem upholds_of_made {kinds : KindSet} {Old property : Node → Prop}
    (hnone : ∀ node, Old node → kinds.contains node.kind = false)
    (hmade : ∀ {label children children'}, isNew label.id = true →
      kinds.contains label.kind = true → plan.Made label.kind children →
      (∀ child ∈ children, Old child) → plan.Turns isNew label.kind children children' →
      property ⟨label, children'⟩) :
    plan.Upholds isNew Old fun node => kinds.contains node.kind = true → property node where
  unvisited _ hall node hnode hkind := by
    rw [hnone node (hall node hnode)] at hkind
    cases hkind
  old _ hold _ _ hkind := by
    have hnot := hnone _ hold
    change kinds.contains _ = true at hkind
    change kinds.contains _ = false at hnot
    cases hnot.symm.trans hkind
  new _ hnew hrun hchildren hturns hkind := hmade hnew hkind hrun hchildren hturns

/-- A plan upholds what concerns nodes of some kinds only, if it makes none of them and does not
break it in a turn. -/
theorem upholds_of_kinds {kinds : KindSet} {property : Node → Prop}
    (hmakes : ∀ scene kind n, plan scene = some (kind, n) → kinds.contains kind = false)
    (hturns : ∀ {label children children'}, kinds.contains label.kind = true →
      property ⟨label, children⟩ → plan.Turns isNew label.kind children children' →
      property ⟨label, children'⟩) :
    plan.Upholds isNew (fun node => kinds.contains node.kind = true → property node)
      fun node => kinds.contains node.kind = true → property node where
  unvisited _ h := h
  old _ h _ hchildren hkind := hturns hkind (h hkind) hchildren
  new {label children children'} _ _ hmade _ _ hkind := by
    obtain ⟨parent, before, rest, n, hfound, -⟩ := hmade.found
    change kinds.contains label.kind = true at hkind
    rw [hmakes _ _ _ hfound] at hkind
    cases hkind

end Plan

namespace Pass

variable {lines : LineIndex} {rule : Rule} {plan : Plan} {isNew : NodeId → Bool}
  {Old Done : Node → Prop} {fuel next : Nat} {node : Node} {nodes : List Node}

theorem forall_visitEach {enough : Nat → Node → Prop} {visit : Nat → Node → Run}
    {before after : Node → Prop}
    (hvisit : ∀ index node, next ≤ index → enough index node → before node →
      after (visit index node).node ∧ index ≤ (visit index node).next)
    (henough : EachEnough visit enough next nodes) (hnodes : ∀ node ∈ nodes, before node) :
    ∀ node ∈ (visitEach visit next nodes).nodes, after node := by
  induction nodes generalizing next with
  | nil => simp [visitEach]
  | cons node rest ih =>
      rw [List.forall_mem_cons] at hnodes
      obtain ⟨hnode, hle⟩ := hvisit next node (Nat.le_refl next) henough.1 hnodes.1
      rw [visitEach, List.forall_mem_cons]
      exact ⟨hnode, ih (fun index other hindex => hvisit index other (Nat.le_trans hle hindex))
        henough.2 hnodes.2⟩

/-- Whether a pass comes to a node with all it needs to know of it: the node is old, or one that it
has made, and all below are old. -/
def Comes (plan : Plan) (isNew : NodeId → Bool) (Old : Node → Prop) (node : Node) : Prop :=
  (Old node ∨ isNew node.id = true ∧ plan.Made node.kind node.children)
    ∧ ∀ child ∈ node.children, child.All Old

theorem comes_of_all (h : node.All Old) : Comes plan isNew Old node :=
  ⟨.inl h.self, fun _ hchild => h.children _ hchild⟩

/-- What holds of all nodes behind each turn holds of all nodes behind a pass. -/
theorem all_visit (h : plan.Upholds isNew Old Done) (hreads : rule.Reads plan)
    (hsound : plan.Sound) (henough : Enough lines rule fuel next node)
    (hnew : ∀ index, next ≤ index → isNew (.fresh index) = true)
    (hnode : Comes plan isNew Old node) : (visit lines rule fuel next node).node.All Done := by
  have hclosed : ∀ {node : Node}, isOpen node.kind = false → Comes plan isNew Old node →
      node.All Done := by
    rintro ⟨label, children⟩ hkind ⟨hold | ⟨-, hmade⟩, hbelow⟩
    · exact h.unvisited hkind (Node.all_mk.2 ⟨hold, hbelow⟩)
    · obtain ⟨parent, before, rest, n, hfound, -⟩ := hmade.found
      rw [isOpen_of_synthesized (hsound.synthesized hfound)] at hkind
      cases hkind
  induction fuel generalizing next node with
  | zero => exact hclosed henough hnode
  | succ fuel ih =>
      obtain ⟨label, children⟩ := node
      cases hopen : isOpen label.kind with
      | false =>
          rw [visit, hopen, if_neg Bool.false_ne_true]
          exact hclosed hopen hnode
      | true =>
          obtain ⟨out, hout, hlevels⟩ :=
            levels_level lines hreads hsound label.kind next [] children
          have hbelow := henough hopen
          simp only [visit, hopen, if_true]
          rw [hout, List.reverse_nil, List.nil_append] at hbelow ⊢
          obtain ⟨hself, hchildren⟩ := hnode
          have hlater : ∀ index,
              (level lines rule label.kind next [] children).next ≤ index →
                isNew (.fresh index) = true :=
            fun index hindex => hnew index (Nat.le_trans hlevels.le hindex)
          have hturns : plan.Turns isNew label.kind children
              (visitEach (visit lines rule fuel)
                (level lines rule label.kind next [] children).next out).nodes :=
            ⟨lines, next, _, out, hlevels, hnew, forall₂_visitEach hlater⟩
          refine Node.all_mk.2 ⟨?_, ?_⟩
          · obtain hold | ⟨hid, hmade⟩ := hself
            · exact h.old hopen hold (fun child hchild => (hchildren child hchild).self) hturns
            · exact h.new hopen hid hmade (fun child hchild => (hchildren child hchild).self) hturns
          · refine forall_visitEach (fun index node hindex henough hcomes => ⟨ih henough
              (fun later hle => hlater later (Nat.le_trans hindex hle)) hcomes,
              le_next_visit lines rule fuel index node⟩) hbelow ?_
            -- a child was there before, or is new over children that were
            refine hlevels.forall_mem (fun child hchild => comes_of_all (hchildren child hchild)) ?_
            intro index kind first run hindex hmade hsub
            exact ⟨.inr ⟨hnew index hindex, hmade⟩,
              fun child hchild => hchildren child (hsub hchild)⟩

theorem all_run (h : plan.Upholds isNew Old Done) {pass : Pass} (hreads : pass.rule.Reads plan)
    (hsound : plan.Sound) (hnew : ∀ index, next ≤ index → isNew (.fresh index) = true)
    (hnode : node.All Old) : (pass.run lines next node).node.All Done :=
  all_visit h hreads hsound (enough_depthBound hreads hsound next node) hnew (comes_of_all hnode)

/-- What each of several passes keeps, all of them keep. -/
theorem all_runAll {passes : List Pass}
    (h : ∀ pass ∈ passes, ∃ plan, pass.rule.Reads plan ∧ plan.Sound ∧ plan.Upholds isNew Old Old)
    (hnew : ∀ index, next ≤ index → isNew (.fresh index) = true) (hnode : node.All Old) :
    (runAll passes lines next node).1.All Old := by
  induction passes generalizing next node with
  | nil => exact hnode
  | cons pass rest ih =>
      rw [List.forall_mem_cons] at h
      obtain ⟨⟨plan, hreads, hsound, hupholds⟩, hrest⟩ := h
      have hrun : (pass.run lines next node).node.All Old :=
        all_run hupholds hreads hsound hnew hnode
      refine ih hrest (fun index hindex => hnew index ?_) hrun
      exact Nat.le_trans (le_next_visit lines pass.rule (depthBound node) next node) hindex

end Pass

end ConcreteSyntax
