import ConcreteSyntax.Proofs.Analysis.Depth
import ConcreteSyntax.Proofs.Skeleton

/-!
# Tidy trees

In a tidy tree the nodes that analysis makes begin and end with significant children.  What a
pass makes of a tidy tree is tidy, and its skeleton is what the same pass makes of the skeleton
of the tree (`Pass.skeleton_visit`).  Tidiness is needed where a rule finds all children of a
node of its own kind: layout around them would be the only difference between a run that is
wrapped and one that is not.
-/

namespace ConcreteSyntax

/-- Kinds of siblings without layout at either end, with those of `before` done, the nearest
first. -/
structure Snug (before ahead : List Kind) : Prop where
  first : before.find? (·.isSignificant) = none →
    before = [] ∧ ∀ kind ∈ ahead.head?, kind.isSignificant = true
  last : ∀ kind ∈ ahead.getLast?, kind.isSignificant = true

namespace Snug

variable {before run rest : List Kind} {kind : Kind}

theorem tail (h : Snug before (kind :: rest)) : Snug (kind :: before) rest where
  first hnone := by
    rw [List.find?_cons] at hnone
    cases hkind : kind.isSignificant with
    | true => simp [hkind] at hnone
    | false =>
        simp only [hkind] at hnone
        have hhead := (h.first hnone).2 kind (by simp)
        simp [hkind] at hhead
  last other hother := h.last other (List.mem_getLast?_cons hother)

theorem behind (h : Snug before (run ++ rest)) (hkind : kind.isSignificant = true) :
    Snug (kind :: before) rest where
  first hnone := by simp [hkind] at hnone
  last other hother := h.last other (List.mem_getLast?_append_of_mem_getLast? hother)

/-- Behind a run there is something significant, or nothing. -/
theorem eq_nil_of_filter (h : Snug before (run ++ rest))
    (hrest : rest.filter (·.isSignificant) = []) : rest = [] := by
  rw [List.filter_eq_nil_iff] at hrest
  cases hlast : rest.getLast? with
  | none => exact List.getLast?_eq_none_iff.1 hlast
  | some last =>
      have hsignificant := h.last last (List.mem_getLast?_append_of_mem_getLast? hlast)
      exact absurd hsignificant (hrest last (List.mem_of_getLast? hlast))

end Snug

/-- New nodes begin and end with significant children. -/
def Node.Tidy (node : Node) : Prop :=
  KindSet.synthesized.contains node.kind = true → Snug [] (node.children.map (·.kind))

theorem Closes.snug {n : Nat} {node : Node} {run : List Node} (h : Closes n (node :: run))
    (hnode : node.kind.isSignificant = true) : Snug [] ((node :: run).map (·.kind)) where
  first _ := by simp [hnode]
  last kind hkind := by
    rw [List.getLast?_map] at hkind
    obtain ⟨last, hlast, rfl⟩ := Option.map_eq_some_iff.1 hkind
    exact h.getLast_significant last hlast

/-- What a plan sees of siblings it sees of their skeletons. -/
theorem Skeleton.scene_atAnchor {parent : Kind} {before rest : List Node} {node : Node}
    (hnode : node.kind.isSignificant = true) :
    (Lookahead.atAnchor parent before (node :: rest)).scene =
      scene parent ((before.map (·.kind)).find? (·.isSignificant)) node.skeleton
        (Node.skeletons rest) := by
  rw [Plan.scene_atAnchor hnode, scene, Node.kind_skeleton, Node.text?_skeleton,
    Node.inner_skeleton, Node.map_kind_skeletons]

/-- A new node shows what its run shows. -/
theorem Node.skeleton_wrap {kind : Kind} (h : KindSet.synthesized.contains kind = true)
    (lines : LineIndex) (id : NodeId) (run : List Node) :
    (Node.wrap lines id kind run).skeleton = ⟨kind, none, skeletons run⟩ := by
  have htext : (Node.wrap lines id kind run).label.text? = none := by
    change (if kind.isAtomic then _ else none) = _
    rw [Kind.isAtomic_of_synthesized h]
    rfl
  have hskeleton : skeleton ⟨(Node.wrap lines id kind run).label, run⟩ = _ :=
    skeleton_mk run (Kind.notMem_directives_of_synthesized h)
  rw [htext] at hskeleton
  exact hskeleton

namespace Levels

variable {lines : LineIndex} {plan : Plan} {parent : Kind} {next next' : Nat}
  {before ahead out : List Node}

theorem eq_nil (h : Levels lines plan parent next before ahead next' []) : ahead = [] := by
  cases h
  rfl

theorem getLast_significant (hplan : plan.Sound)
    (h : Levels lines plan parent next before ahead next' out)
    (hlast : ∀ kind ∈ (ahead.map (·.kind)).getLast?, kind.isSignificant = true) :
    ∀ kind ∈ (out.map (·.kind)).getLast?, kind.isSignificant = true := by
  -- A last node that is still there was the last one, and a new one is significant.
  have hstep : ∀ {node : Node} {rest out : List Node} {next next' : Nat} {before : List Node},
      Levels lines plan parent next before rest next' out →
      (rest = [] → node.kind.isSignificant = true) →
      (∀ kind ∈ (out.map (·.kind)).getLast?, kind.isSignificant = true) →
      ∀ kind ∈ ((node :: out).map (·.kind)).getLast?, kind.isSignificant = true := by
    intro node rest out next next' before hrest hnode hout kind hkind
    rw [List.map_cons, List.getLast?_cons] at hkind
    cases hend : (out.map (·.kind)).getLast? with
    | none =>
        have hnil : out = [] := by simpa using hend
        subst hnil
        simp only [List.map_nil, List.getLast?_nil, Option.getD_none, Option.mem_some] at hkind
        exact hkind ▸ hnode hrest.eq_nil
    | some last =>
        simp only [hend, Option.getD_some, Option.mem_some] at hkind
        exact hout kind (by simp [hend, hkind])
  induction h with
  | done => simp
  | @pass _ _ before rest _ node hnode hrest ih =>
      refine hstep hrest (fun hnil => hlast _ (by simp [hnil])) (ih fun kind hkind => ?_)
      exact hlast kind (List.mem_getLast?_cons hkind)
  | keep hnode hkept hrest ih =>
      refine hstep hrest (fun _ => hnode) (ih fun kind hkind => ?_)
      exact hlast kind (List.mem_getLast?_cons hkind)
  | wrap hnode hcloses hfound hproper hrest ih =>
      refine hstep hrest (fun _ => Kind.isSignificant_of_synthesized (hplan.synthesized hfound))
        (ih fun kind hkind => hlast kind ?_)
      rw [List.map_append]
      exact List.mem_getLast?_append_of_mem_getLast? hkind

theorem snug (hplan : plan.Sound) (h : Levels lines plan parent next before ahead next' out)
    (hsnug : Snug (before.map (·.kind)) (ahead.map (·.kind))) :
    Snug (before.map (·.kind)) (out.map (·.kind)) where
  first hnone := by
    obtain ⟨hbefore, hhead⟩ := hsnug.first hnone
    refine ⟨hbefore, ?_⟩
    cases h with
    | done => simp
    | pass hnode hrest => simpa using hhead
    | keep hnode hkept hrest => simpa using hhead
    | wrap hnode hcloses hfound hproper hrest =>
        intro kind hkind
        simp only [List.map_cons, List.head?_cons, Option.mem_some] at hkind
        exact hkind ▸ Kind.isSignificant_of_synthesized (hplan.synthesized hfound)
  last := h.getLast_significant hplan hsnug.last

/-- Passes make of the skeletons of siblings the skeletons of what they make of the siblings. -/
theorem skeletons_eq (hplan : plan.Sound)
    (h : Levels lines plan parent next before ahead next' out)
    (hsnug : KindSet.synthesized.contains parent = true →
      Snug (before.map (·.kind)) (ahead.map (·.kind))) :
    Node.skeletons out =
      Skeleton.level plan parent ((before.map (·.kind)).find? (·.isSignificant))
        (Node.skeletons ahead) := by
  induction h with
  | done => simp [Skeleton.level]
  | @pass _ _ before rest out node hnode hrest ih =>
      rw [Node.skeletons_cons_of_not hnode, Node.skeletons_cons_of_not hnode,
        ih fun hs => (hsnug hs).tail]
      simp [hnode]
  | @keep _ _ before rest out node hnode hkept hrest ih =>
      rw [Node.skeletons_cons_of_significant hnode, Node.skeletons_cons_of_significant hnode,
        ih fun hs => (hsnug hs).tail, Skeleton.level]
      rw [← Skeleton.scene_atAnchor hnode]
      simp only [List.map_cons, List.find?_cons, hnode, Node.kind_skeleton]
      cases hplanned : plan (Lookahead.atAnchor parent before (node :: rest)).scene with
      | none => rfl
      | some found =>
          obtain ⟨kind, n⟩ := found
          obtain ⟨hbefore, hcloses, hparent⟩ := hkept kind n hplanned
          have hcount : n = (Node.skeletons rest).length + 1 := by
            rw [← hcloses.length_filter]
            simp [Node.skeletons, hnode]
          simp [hbefore, hcount, hparent]
  | @wrap next next' n before run rest out node kind hnode hcloses hfound hproper hrest ih =>
      have hsynthesized := hplan.synthesized hfound
      have hsignificant := Kind.isSignificant_of_synthesized hsynthesized
      have hcount : n = (Node.skeletons run).length + 1 := by
        rw [← hcloses.length_filter]
        simp [Node.skeletons, hnode]
      -- Layout cannot be what keeps the run from being the whole content.
      have hpart : ¬((before.map (·.kind)).find? (·.isSignificant) = none
          ∧ n = (Node.skeletons (run ++ rest)).length + 1 ∧ parent = kind) := by
        rintro ⟨hnone, hall, rfl⟩
        have hends := hsnug hsynthesized
        have hbefore := (hends.first hnone).1
        rw [Node.skeletons_append, List.length_append] at hall
        have hskeletons : Node.skeletons rest = [] := List.length_eq_zero_iff.1 (by omega)
        have hfilter : (rest.map (·.kind)).filter (·.isSignificant) = [] := by
          rw [List.filter_map]
          exact congrArg (List.map _) (List.map_eq_nil_iff.1 hskeletons)
        rw [List.map_append] at hends
        have hrestnil := hends.eq_nil_of_filter hfilter
        exact hproper ⟨List.map_eq_nil_iff.1 hbefore, List.map_eq_nil_iff.1 hrestnil, rfl⟩
      have hrestsnug : KindSet.synthesized.contains parent = true →
          Snug (kind :: before.map (·.kind)) (rest.map (·.kind)) := by
        intro hs
        have hends := hsnug hs
        rw [List.map_append] at hends
        exact hends.behind hsignificant
      have hnew : (Node.wrap lines (.fresh next) kind (node :: run)).kind = kind := rfl
      rw [List.cons_append, Node.skeletons_cons_of_significant hnode, Skeleton.level,
        Node.skeletons_cons_of_significant (hnew.symm ▸ hsignificant), ih hrestsnug,
        Node.skeleton_wrap hsynthesized]
      rw [List.cons_append, Skeleton.scene_atAnchor hnode] at hfound
      simp only [hfound, if_neg hpart]
      have htake : (node.skeleton :: Node.skeletons (run ++ rest)).take n =
          Node.skeletons (node :: run) := by
        rw [Node.skeletons_cons_of_significant hnode, Node.skeletons_append, hcount]
        simp
      have hdrop : (Node.skeletons (run ++ rest)).drop (n - 1) = Node.skeletons rest := by
        rw [Node.skeletons_append, hcount]
        simp
      rw [htake, hdrop]
      simp [hnew, hsignificant]

theorem all_tidy (h : Levels lines plan parent next before ahead next' out)
    (hahead : ∀ node ∈ ahead, node.All Node.Tidy) : ∀ node ∈ out, node.All Node.Tidy := by
  induction h with
  | done => simp
  | pass hnode hrest ih =>
      rw [List.forall_mem_cons] at hahead ⊢
      exact ⟨hahead.1, ih hahead.2⟩
  | keep hnode hkept hrest ih =>
      rw [List.forall_mem_cons] at hahead ⊢
      exact ⟨hahead.1, ih hahead.2⟩
  | wrap hnode hcloses hfound hproper hrest ih =>
      rw [List.forall_mem_append] at hahead
      rw [List.forall_mem_cons]
      exact ⟨Node.all_mk.2 ⟨fun _ => hcloses.snug hnode, hahead.1⟩, ih hahead.2⟩

end Levels

namespace Pass

variable {lines : LineIndex} {rule : Rule} {plan : Plan}

/-- What a visit keeps of a node, and what it makes of its skeleton. -/
structure Commutes (visit : Skeleton → Skeleton) (before after : Node) : Prop where
  label : after.label = before.label
  tidy : after.All Node.Tidy
  skeleton : after.skeleton = visit before.skeleton

theorem commutes_visitEach {visit : Nat → Node → Run} {change : Skeleton → Skeleton}
    {nodes : List Node} (h : ∀ next, ∀ node ∈ nodes, Commutes change node (visit next node).node)
    (next : Nat) :
    (visitEach visit next nodes).nodes.map (·.kind) = nodes.map (·.kind)
      ∧ (∀ node ∈ (visitEach visit next nodes).nodes, node.All Node.Tidy)
      ∧ Node.skeletons (visitEach visit next nodes).nodes = (Node.skeletons nodes).map change := by
  induction nodes generalizing next with
  | nil => simp [visitEach]
  | cons node rest ih =>
      have hnode := h next node (by simp)
      have hkind : (visit next node).node.kind = node.kind := congrArg Label.kind hnode.label
      obtain ⟨hkinds, htidy, hskeletons⟩ :=
        ih (fun next other hother => h next other (by simp [hother])) (visit next node).next
      refine ⟨by simp [visitEach, hkind, hkinds], ?_, ?_⟩
      · simp only [visitEach, List.forall_mem_cons]
        exact ⟨hnode.tidy, htidy⟩
      · cases hsignificant : node.kind.isSignificant with
        | true =>
            rw [visitEach, Node.skeletons_cons_of_significant (hkind.symm ▸ hsignificant),
              Node.skeletons_cons_of_significant hsignificant, hskeletons, hnode.skeleton,
              List.map_cons]
        | false =>
            rw [visitEach, Node.skeletons_cons_of_not (hkind.symm ▸ hsignificant),
              Node.skeletons_cons_of_not hsignificant, hskeletons]

theorem notMem_directives_of_isOpen {kind : Kind} (h : isOpen kind = true) :
    KindSet.directives.contains kind = false := by
  simp_all [isOpen]

/-- Visiting a tidy tree is visiting its skeleton. -/
theorem commutes_visit (hreads : rule.Reads plan) (hplan : plan.Sound) (fuel next : Nat)
    {node : Node} (h : node.All Node.Tidy) :
    Commutes (Skeleton.visit plan fuel) node (visit lines rule fuel next node).node := by
  induction fuel generalizing next node with
  | zero => exact ⟨rfl, h, rfl⟩
  | succ fuel ih =>
      obtain ⟨label, children⟩ := node
      obtain ⟨hself, hchildren⟩ := Node.all_mk.1 h
      cases hopen : isOpen label.kind with
      | false =>
          have hvisit : visit lines rule (fuel + 1) next ⟨label, children⟩ =
              ⟨⟨label, children⟩, next, []⟩ := by simp [visit, hopen]
          rw [hvisit]
          refine ⟨rfl, h, ?_⟩
          simp [Node.skeleton, Node.skeletonIn, Skeleton.visit, hopen]
      | true =>
          obtain ⟨out, hlevel, hlevels⟩ :=
            levels_level lines hreads hplan label.kind next [] children
          rw [List.reverse_nil, List.nil_append] at hlevel
          obtain ⟨hkinds, htidy, hskeletons⟩ := commutes_visitEach
            (fun next other hother => ih next (hlevels.all_tidy hchildren other hother))
            (level lines rule label.kind next [] children).next
          have hdirective := notMem_directives_of_isOpen hopen
          simp only [visit, hopen, if_true, hlevel]
          refine ⟨rfl, Node.all_mk.2 ⟨fun hs => ?_, htidy⟩, ?_⟩
          · rw [Node.children, hkinds]
            exact hlevels.snug hplan (hself hs)
          · rw [Node.skeleton_mk _ hdirective, Node.skeleton_mk _ hdirective, hskeletons,
              hlevels.skeletons_eq hplan hself]
            simp [Skeleton.visit, hopen]

end Pass

end ConcreteSyntax
