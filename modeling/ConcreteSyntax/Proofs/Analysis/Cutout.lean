import ConcreteSyntax.Proofs.Analysis.Depth
import ConcreteSyntax.Proofs.Node.Cutout

/-!
# Analysis outside a gap

No pass looks into directives: it does not visit them, and what a rule sees of a directive among
its siblings is not what stands in it (`Plan.Blind`).  So passes over trees that look the same
outside gaps go in step, and make trees that look the same (`Pass.cut_runAll`).
-/

namespace ConcreteSyntax

/-- Whether a plan does not look at what is inside a directive. -/
def Plan.Blind (plan : Plan) : Prop :=
  ∀ (scene : Scene) (inner : List Kind),
    scene.kinds.head?.any KindSet.directives.contains = true →
      plan { scene with inner } = plan scene

namespace Plan

/-- Only the plans for directives have to be blind. -/
theorem blind_dispatch {choose : Option Kind → Plan}
    (h : ∀ head, head.any KindSet.directives.contains = true → (choose head).Blind) :
    Blind (dispatch choose) := fun scene inner hhead => h _ hhead scene inner hhead

theorem blind_guarded {plan : Plan} {test : Scene → Bool}
    (htest : ∀ (scene : Scene) (inner : List Kind), test { scene with inner } = test scene)
    (h : plan.Blind) : Blind (guarded test plan) := fun scene inner hhead => by
  rw [guarded, guarded, htest, h scene inner hhead]

end Plan

variable {gap gap' : Gap} {lines lines' : LineIndex} {plan : Plan} {rule : Rule}

/-- As many significant siblings make runs of the same length among siblings of the same kinds. -/
theorem Closes.length_eq {n : Nat} {run run' after after' : List Node} (h : Closes n run)
    (h' : Closes n run')
    (hkinds : (run ++ after).map (·.kind) = (run' ++ after').map (·.kind)) :
    run.length = run'.length := by
  have hhead : ∀ {node node' : Node} {rest rest' : List Node},
      (node :: rest).map (·.kind) = (node' :: rest').map (·.kind) →
        node.kind.isSignificant = node'.kind.isSignificant := fun heq =>
    congrArg Kind.isSignificant (List.cons.inj heq).1
  induction h generalizing run' with
  | last hnode =>
      cases h' with
      | last => rfl
      | skip hnode' => rw [hhead hkinds, hnode'] at hnode; cases hnode
      | take hnode' hrest' => exact absurd hrest'.pos (Nat.lt_irrefl 0)
  | skip hnode hrest ih =>
      cases h' with
      | last hnode' | take hnode' => rw [hhead hkinds, hnode'] at hnode; cases hnode
      | skip hnode' hrest' => exact congrArg (· + 1) (ih hrest' (List.cons.inj hkinds).2)
  | take hnode hrest ih =>
      cases h' with
      | last hnode' => exact absurd hrest.pos (Nat.lt_irrefl 0)
      | skip hnode' => rw [hhead hkinds, hnode'] at hnode; cases hnode
      | take hnode' hrest' => exact congrArg (· + 1) (ih hrest' (List.cons.inj hkinds).2)

namespace Node

theorem filter_kinds_of_cut {nodes nodes' : List Node}
    (h : nodes.map (cut gap) = nodes'.map (cut gap')) :
    (nodes.filter (·.kind.isSignificant)).map (·.kind) =
      (nodes'.filter (·.kind.isSignificant)).map (·.kind) := by
  have hfilter : ∀ nodes : List Node, (nodes.filter (·.kind.isSignificant)).map (·.kind) =
      (nodes.map (·.kind)).filter (·.isSignificant) := fun nodes => by
    rw [List.filter_map]
    rfl
  rw [hfilter, hfilter, kinds_of_cut h]

/-- New nodes over runs that look the same look the same. -/
theorem cut_wrap (hgaps : gap.Alike gap' lines lines') {kind : Kind}
    (hkind : kind.isAtomic = false) (id id' : NodeId) {run run' : List Node} (hne : run ≠ [])
    (hrun : run.map (cut gap) = run'.map (cut gap')) :
    (wrap lines id kind run).cut gap = (wrap lines' id' kind run').cut gap' := by
  have hextents : run.map (fun node => gap.extent node.range) =
      run'.map (fun node => gap'.extent node.range) := map_of_cut extent_of_cut hrun
  have hend : ∀ {first first' : Option Node}, first ≠ none →
      first.map (fun node => gap.extent node.range) =
        first'.map (fun node => gap'.extent node.range) →
      gap.extent ((first.map (·.range)).getD default) =
        gap'.extent ((first'.map (·.range)).getD default) := by
    rintro (_ | first) (_ | first') hsome heq
    · exact absurd rfl hsome
    · cases heq
    · cases heq
    · exact Option.some.inj heq
  refine cut_eq hgaps.start (Label.alike_ofRange hgaps hkind id id' ?_) hrun
  refine Gap.extent_cover hgaps.start (hend ?_ ?_) (hend ?_ ?_)
  · rwa [ne_eq, List.head?_eq_none_iff]
  · rw [← List.head?_map, ← List.head?_map, hextents]
  · rwa [ne_eq, List.getLast?_eq_none_iff]
  · rw [← List.getLast?_map, ← List.getLast?_map, hextents]

end Node

namespace Plan

/-- A blind plan finds the same among siblings that look the same outside gaps. -/
theorem scene_of_cut (hstart : gap.start = gap'.start) (hblind : plan.Blind) {parent : Kind}
    {before before' rest rest' : List Node} {node node' : Node}
    (hnode : node.kind.isSignificant = true) (hcut : node.cut gap = node'.cut gap')
    (hbefore : before.map (Node.cut gap) = before'.map (Node.cut gap'))
    (hrest : rest.map (Node.cut gap) = rest'.map (Node.cut gap')) :
    plan (Lookahead.atAnchor parent before (node :: rest)).scene =
      plan (Lookahead.atAnchor parent before' (node' :: rest')).scene := by
  have hkind := Node.kind_of_cut hcut
  rw [scene_atAnchor hnode, scene_atAnchor (hkind ▸ hnode), Node.kinds_of_cut hbefore,
    Node.filter_kinds_of_cut hrest, hkind, Node.text?_of_cut hcut]
  cases hhides : node.label.hides gap with
  | false =>
      have hinner := Node.filter_kinds_of_cut (Node.children_of_cut hcut hhides hstart)
      rw [Node.significantChildren, hinner]
      rfl
  | true =>
      have hdirective : KindSet.directives.contains node'.kind = true :=
        hkind ▸ (Bool.and_eq_true_iff.1 hhides).1
      exact hblind
        ⟨parent, _, node'.kind :: _, node'.text?, node'.significantChildren.map (·.kind)⟩
        (node.significantChildren.map (·.kind)) hdirective

end Plan

namespace Pass

/-- A rule finds the same among siblings that look the same outside gaps. -/
theorem found?_of_cut (hreads : rule.Reads plan) (hplan : plan.Sound) (hblind : plan.Blind)
    (hstart : gap.start = gap'.start) {parent : Kind}
    {before before' rest rest' : List Node} {node node' : Node}
    (hnode : node.kind.isSignificant = true) (hcut : node.cut gap = node'.cut gap')
    (hbefore : before.map (Node.cut gap) = before'.map (Node.cut gap'))
    (hrest : rest.map (Node.cut gap) = rest'.map (Node.cut gap')) :
    rule.found? (.atAnchor parent before (node :: rest)) =
      rule.found? (.atAnchor parent before' (node' :: rest')) := by
  have hnode' : node'.kind.isSignificant = true := Node.kind_of_cut hcut ▸ hnode
  have hscene : plan (Lookahead.atAnchor parent before (node :: rest)).scene =
      plan (Lookahead.atAnchor parent before' (node' :: rest')).scene :=
    Plan.scene_of_cut hstart hblind hnode hcut hbefore hrest
  cases hfound : plan (Lookahead.atAnchor parent before (node :: rest)).scene with
  | none =>
      rw [hreads.found?_eq, hreads.found?_eq, ← hscene, hfound, Option.map_none, Option.map_none]
  | some found =>
      obtain ⟨kind, n⟩ := found
      obtain ⟨run, after, rfl, hcloses, hrule⟩ := found?_of_plan hreads hplan hnode hfound
      obtain ⟨run', after', rfl, hcloses', hrule'⟩ :=
        found?_of_plan hreads hplan hnode' (hscene.symm.trans hfound)
      have hkinds : ((node :: run) ++ after).map (·.kind) = ((node' :: run') ++ after').map (·.kind) :=
        congrArg₂ List.cons (Node.kind_of_cut hcut) (Node.kinds_of_cut hrest)
      have hlength := hcloses.length_eq hcloses' hkinds
      have hlength' := congrArg List.length hbefore
      simp only [List.length_map, List.length_cons] at hlength hlength'
      rw [hrule, hrule', hlength']
      congr 3
      omega

theorem level_of_none {parent : Kind} {next : Nat} {before rest : List Node} {node : Node}
    (hnode : node.kind.isSignificant = true)
    (hfound : (rule.found? (.atAnchor parent before (node :: rest))).filter
      (·.isAccepted parent before.length (before.length + (rest.length + 1))) = none) :
    (level lines rule parent next before (node :: rest)).children =
      (level lines rule parent next (node :: before) rest).children := by
  rw [level, if_pos hnode]
  simp only [hfound]

theorem level_of_some {parent : Kind} {next : Nat} {before rest : List Node} {node : Node}
    (hnode : node.kind.isSignificant = true) {found : Match}
    (hfound : (rule.found? (.atAnchor parent before (node :: rest))).filter
      (·.isAccepted parent before.length (before.length + (rest.length + 1))) = some found) :
    (level lines rule parent next before (node :: rest)).children =
      (level lines rule parent (next + 1)
        (Node.wrap lines (.fresh next) found.kind
            (((node :: rest).take (found.stop + 1 - before.length)).drop
              (found.start - before.length)) ::
          (((node :: rest).take (found.start - before.length)).reverse ++ before))
        (rest.drop (found.stop - before.length))).children := by
  rw [level, if_pos hnode]
  simp only [hfound]

/-- Siblings that look the same outside gaps are wrapped in the same way. -/
theorem cut_level (hreads : rule.Reads plan) (hplan : plan.Sound) (hblind : plan.Blind)
    (hgaps : gap.Alike gap' lines lines') (parent : Kind) (next next' : Nat)
    {before before' ahead ahead' : List Node}
    (hbefore : before.map (Node.cut gap) = before'.map (Node.cut gap'))
    (hahead : ahead.map (Node.cut gap) = ahead'.map (Node.cut gap')) :
    (level lines rule parent next before ahead).children.map (Node.cut gap) =
      (level lines' rule parent next' before' ahead').children.map (Node.cut gap') := by
  -- what is left ahead becomes shorter, also where a run is wrapped
  induction hlength : ahead.length using Nat.strongRecOn
    generalizing next next' before before' ahead ahead' with
  | _ length ih =>
    subst hlength
    obtain _ | ⟨node, rest⟩ := ahead
    · obtain rfl := List.map_eq_nil_iff.1 hahead.symm
      rw [level, level, List.map_reverse, List.map_reverse, hbefore]
    obtain ⟨node', rest', rfl, hcut, hrest⟩ := List.map_eq_cons_iff.1 hahead.symm
    have hkind := Node.kind_of_cut hcut
    cases hnode : node.kind.isSignificant with
    | false =>
        rw [level, level, if_neg (by rw [hnode]; decide), if_neg (by rw [hkind, hnode]; decide)]
        exact ih rest.length (Nat.lt_succ_self _) next next' (congrArg₂ List.cons hcut.symm hbefore)
          hrest.symm rfl
    | true =>
        have hnode' : node'.kind.isSignificant = true := hkind ▸ hnode
        have hrule : rule.found? (.atAnchor parent before (node :: rest)) =
            rule.found? (.atAnchor parent before' (node' :: rest')) :=
          found?_of_cut hreads hplan hblind hgaps.start hnode hcut.symm hbefore hrest.symm
        have hdone := congrArg List.length hbefore
        have hleft := congrArg List.length hrest
        rw [List.length_map, List.length_map] at hdone hleft
        cases hfound : (rule.found? (.atAnchor parent before (node :: rest))).filter
            (·.isAccepted parent before.length (before.length + (rest.length + 1))) with
        | none =>
            have hfound' := hfound
            rw [hrule, hdone, ← hleft] at hfound'
            rw [level_of_none hnode hfound, level_of_none hnode' hfound']
            exact ih rest.length (Nat.lt_succ_self _) next next'
              (congrArg₂ List.cons hcut.symm hbefore) hrest.symm rfl
        | some found =>
            have hfound' := hfound
            rw [hrule, hdone, ← hleft] at hfound'
            rw [level_of_some hnode hfound, level_of_some hnode' hfound', ← hdone]
            obtain ⟨hsome, haccepted⟩ := Option.filter_eq_some_iff.1 hfound
            have hcontainer := Kind.isAtomic_of_synthesized (hreads.synthesized hplan hsome)
            simp only [Match.isAccepted, Bool.and_eq_true, decide_eq_true_eq] at haccepted
            refine ih _ ?_ _ _ (congrArg₂ List.cons (Node.cut_wrap hgaps hcontainer _ _ ?_ ?_) ?_) ?_
              rfl
            · rw [List.length_drop, List.length_cons]
              omega
            · rw [← List.length_pos_iff, List.length_drop, List.length_take, List.length_cons]
              omega
            · rw [List.map_drop, List.map_drop, List.map_take, List.map_take, hahead]
            · rw [List.map_append, List.map_append, List.map_reverse, List.map_reverse,
                List.map_take, List.map_take, hahead, hbefore]
            · rw [List.map_drop, List.map_drop, hrest]

theorem cut_visitEach {visit visit' : Nat → Node → Run}
    (hvisit : ∀ next next' {node node' : Node}, node.cut gap = node'.cut gap' →
      (visit next node).node.cut gap = (visit' next' node').node.cut gap')
    (next next' : Nat) {nodes nodes' : List Node}
    (hnodes : nodes.map (Node.cut gap) = nodes'.map (Node.cut gap')) :
    (visitEach visit next nodes).nodes.map (Node.cut gap) =
      (visitEach visit' next' nodes').nodes.map (Node.cut gap') := by
  induction nodes generalizing nodes' next next' with
  | nil =>
      obtain rfl := List.map_eq_nil_iff.1 hnodes.symm
      rfl
  | cons node rest ih =>
      obtain ⟨node', rest', rfl, hnode, hrest⟩ := List.map_eq_cons_iff.1 hnodes.symm
      exact congrArg₂ List.cons (hvisit next next' hnode.symm) (ih _ _ hrest.symm)

/-- Trees that look the same outside gaps are visited in the same way. -/
theorem cut_visit (hreads : rule.Reads plan) (hplan : plan.Sound) (hblind : plan.Blind)
    (hgaps : gap.Alike gap' lines lines') (fuel next next' : Nat) {node node' : Node}
    (h : node.cut gap = node'.cut gap') :
    (visit lines rule fuel next node).node.cut gap =
      (visit lines' rule fuel next' node').node.cut gap' := by
  induction fuel generalizing next next' node node' with
  | zero => exact h
  | succ fuel ih =>
      have hlabel := Node.label_alike_of_cut h
      have hchildren := Node.children_of_cut h
      obtain ⟨label, children⟩ := node
      obtain ⟨label', children'⟩ := node'
      have hkind : label.kind = label'.kind := hlabel.kind
      cases hopen : isOpen label.kind with
      | false =>
          have hopen' : isOpen label'.kind = false := hkind ▸ hopen
          simpa only [visit, hopen, hopen', Bool.false_eq_true, if_false] using h
      | true =>
          have hopen' : isOpen label'.kind = true := hkind ▸ hopen
          -- a node that is visited is not the directive around the gap
          have hshown : label.hides gap = false := by
            simp only [isOpen, Bool.and_eq_true, Bool.not_eq_true'] at hopen
            rw [Label.hides, hopen.2, Bool.false_and]
          have hlevel : (level lines rule label.kind next [] children).children.map (Node.cut gap) =
              (level lines' rule label'.kind next' [] children').children.map (Node.cut gap') :=
            hkind ▸ cut_level hreads hplan hblind hgaps label.kind next next' rfl
              (hchildren hshown hgaps.start)
          simp only [visit, hopen, hopen', if_true]
          exact Node.cut_eq hgaps.start hlabel
            (cut_visitEach (fun next next' _ _ => ih next next') _ _ hlevel)

/-- Whether a pass follows a sound plan that does not look into directives. -/
def IsBlind (pass : Pass) : Prop := ∃ plan, pass.rule.Reads plan ∧ plan.Sound ∧ plan.Blind

theorem cut_run {pass : Pass} (hpass : pass.IsBlind) (hgaps : gap.Alike gap' lines lines')
    (next next' : Nat) {node node' : Node} (h : node.cut gap = node'.cut gap') :
    (pass.run lines next node).node.cut gap = (pass.run lines' next' node').node.cut gap' := by
  obtain ⟨plan, hreads, hplan, hblind⟩ := hpass
  -- the trees may have different depths, so both are visited to the greater bound
  let fuel := max (depthBound node) (depthBound node')
  have henough : ∀ {lines next} {node : Node}, depthBound node ≤ fuel →
      pass.run lines next node = visit lines pass.rule fuel next node := by
    intro lines next node hle
    refine visit_eq_visit (enough_depthBound hreads hplan next node)
      (enough_of_suffices hreads hplan (.inl ?_) next)
    unfold depthBound at hle
    omega
  rw [henough (Nat.le_max_left _ _), henough (Nat.le_max_right _ _)]
  exact cut_visit hreads hplan hblind hgaps fuel next next' h

/-- Passes that do not look into directives make trees that look the same outside gaps of such
trees. -/
theorem cut_runAll {passes : List Pass} (hpasses : ∀ pass ∈ passes, pass.IsBlind)
    (hgaps : gap.Alike gap' lines lines') (next next' : Nat) {node node' : Node}
    (h : node.cut gap = node'.cut gap') :
    (runAll passes lines next node).1.cut gap = (runAll passes lines' next' node').1.cut gap' := by
  induction passes generalizing next next' node node' with
  | nil => exact h
  | cons pass rest ih =>
      rw [List.forall_mem_cons] at hpasses
      exact ih hpasses.2 _ _ (cut_run hpasses.1 hgaps next next' h)

end Pass

end ConcreteSyntax
