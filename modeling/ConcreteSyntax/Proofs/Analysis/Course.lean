import ConcreteSyntax.Proofs.Analysis.Depth
import ConcreteSyntax.Proofs.Analysis.Log
import ConcreteSyntax.Proofs.Analysis.Sparse
import ConcreteSyntax.Proofs.Analysis.Walk
import ConcreteSyntax.Proofs.Scan.Attempt
import ConcreteSyntax.Proofs.Tree.Construction

/-!
# The course of a walk

A walk over a text whose rules follow sound plans goes its way without breaking to its end, and
there the arena holds what the passes make of the tree as a value (`Walk.At.through_passes`).
At every point on the way the tree is sparse, and no step wraps all children of a node that the
pass under way has made.  A pass stays once in each container that its tree has in the end
(`Walk.At.follows_pass`).
-/

namespace ConcreteSyntax

namespace Tree

variable {tree : Tree} {lines : LineIndex} {next : Nat} {crumbs : List Crumb} {label : Label}
  {node : Node} {sound : Prop}

/-- Reading a node of a tree that an arena keeps. -/
theorem Keeps.nodeOf_eq (h : tree.Keeps lines next (.plug crumbs node))
    (hfits : node.All (Node.Fits lines sound)) : tree.nodeOf node.id = .ok node := by
  have hindex := h.index
  subst hindex
  obtain ⟨above, hshows⟩ := h.shows.at_place
  have hsize : node.size ≤ tree.size + 1 := by
    have hbelow := (Node.ids_sublist (Node.mem_descendants_plug crumbs node)).length_le
    rw [Node.length_ids, Node.length_ids, h.numbered.size_eq] at hbelow
    rw [size, h.compact.size]
    omega
  rw [nodeOf, node?, hshows.nodeWithin_eq hfits hsize]
  change (Text.cut tree.index.text node.range).map _ = _
  rw [Text.cut_eq hfits.self.start hfits.self.stop]
  rfl

theorem mapM_nodeOf {nodes : List Node} (h : ∀ node ∈ nodes, tree.nodeOf node.id = .ok node) :
    (nodes.map Node.id).mapM tree.nodeOf = .ok nodes := by
  induction nodes with
  | nil => rfl
  | cons node rest ih =>
      rw [List.forall_mem_cons] at h
      rw [List.map_cons, List.mapM_cons, h.1, ih h.2]
      rfl

/-- Looking at the children of a node of a tree that an arena keeps. -/
theorem Keeps.lookahead_eq {before ahead : List Node}
    (h : tree.Keeps lines next (.plug crumbs ⟨label, before.reverse ++ ahead⟩))
    (hfits : Node.All (Node.Fits lines sound) ⟨label, before.reverse ++ ahead⟩) :
    tree.lookahead label.id before.length = .ok (.atAnchor label.kind before ahead) := by
  obtain ⟨above, habove⟩ := h.record?_eq
  have hread : ((before.reverse ++ ahead).map Node.id).mapM tree.nodeOf =
      .ok (before.reverse ++ ahead) := by
    refine mapM_nodeOf fun child hchild => ?_
    obtain ⟨left, right, hsplit⟩ := List.append_of_mem hchild
    rw [hsplit] at h hfits
    have hplace : tree.Keeps lines next (.plug (⟨label, left, right⟩ :: crumbs) child) := h
    exact hplace.nodeOf_eq ((Node.all_mk.1 hfits).2 child (by simp))
  have htake : (before.reverse ++ ahead).take before.length = before.reverse :=
    List.take_left' (List.length_reverse ..)
  have hdrop : (before.reverse ++ ahead).drop before.length = ahead :=
    List.drop_left' (List.length_reverse ..)
  rw [lookahead, habove]
  change (((before.reverse ++ ahead).map Node.id).mapM tree.nodeOf >>= fun siblings => _) = _
  rw [hread]
  change Except.ok (Lookahead.atAnchor label.kind _ _) = _
  rw [htake, hdrop, List.reverse_reverse]

end Tree

namespace Walk

/-- A walk goes from one point to another over good ones. -/
inductive Through (good : Walk → Prop) : Walk → Walk → Prop
  | refl {walk : Walk} : Through good walk walk
  | step {walk next last : Walk} (hgood : good walk) (hstep : walk.step = .ok (some next))
      (hrest : Through good next last) : Through good walk last

namespace Through

variable {good : Walk → Prop} {walk mid last : Walk}

theorem trans (h : Through good walk mid) (hrest : Through good mid last) :
    Through good walk last := by
  induction h with
  | refl => exact hrest
  | step hgood hstep _ ih => exact .step hgood hstep (ih hrest)

theorem reaches (h : Through good walk last) : walk.Reaches last := by
  have hfrom : ∀ {start : Walk}, start.Reaches walk → start.Reaches last := by
    induction h with
    | refl => exact id
    | step _ hstep _ ih => exact fun hreaches => ih (.step hreaches hstep)
  exact hfrom .refl

/-- A walk that comes to its end passes all that it reaches. -/
theorem of_reaches (h : Through good walk last) (hend : last.step = .ok none)
    (hreaches : walk.Reaches mid) : Through good mid last := by
  induction hreaches with
  | refl => exact h
  | step _ hstep ih =>
      cases ih with
      | refl =>
          rw [hend] at hstep
          cases hstep
      | step _ hnext hrest =>
          rw [hnext] at hstep
          cases hstep
          exact hrest

theorem exists_step (h : Through good walk last) (hend : last.step = .ok none) :
    ∃ next, walk.step = .ok next := by
  cases h with
  | refl => exact ⟨none, hend⟩
  | step _ hstep _ => exact ⟨_, hstep⟩

theorem good_first (h : Through good walk last) (hlast : good last) : good walk := by
  cases h with
  | refl => exact hlast
  | step hgood _ _ => exact hgood

end Through

theorem Follows.through {good : Walk → Prop} {walk last : Walk} {log : List Event}
    (h : Follows good walk log last) : Through good walk last := by
  induction h with
  | refl => exact .refl
  | step hgood hstep _ ih => exact .step hgood hstep ih

/-- Whether no node that the pass under way has made is left with a node of the next step as its
only child: the step would have wrapped all its children. -/
def Spares (walk : Walk) : Prop :=
  ∀ owner next, walk.isNew owner = true → walk.step = .ok (some next) →
    next.tree.children owner ≠ [.fresh walk.tree.size]

/-- Whether the pass under way has made fewer than two nodes for each of the siblings in a child
list. -/
def IsBounded (walk : Walk) : Prop :=
  ∀ node ∈ walk.tree.rootNode.descendants, walk.isNew node.id = false →
    Node.newAboveAll walk.isNew node.children ≤
      2 * (Node.eraseAll walk.isNew node.children).length - 1

/-- What holds of a walk whose arena keeps a tree with names up to `next`, those of the pass
under way from `first` on. -/
structure At (lines : LineIndex) (first next : Nat) (root : Node) (walk : Walk) : Prop where
  keeps : walk.tree.Keeps lines next root
  fits : root.All (Node.Fits lines False)
  made : first + walk.wrapped = next
  sparse : root.All (Node.Sparse (NodeId.isFrom first))

/-- What holds of every point on the way of a walk. -/
structure Good (lines : LineIndex) (walk : Walk) : Prop where
  stands : ∃ first next root, walk.At lines first next root
  spares : walk.Spares

variable {lines : LineIndex} {first next : Nat} {root : Node} {walk : Walk}

theorem At.isNew_eq (h : walk.At lines first next root) : walk.isNew = NodeId.isFrom first := by
  funext id
  have hsize : walk.tree.size = next := h.keeps.compact.size
  have hmade := h.made
  rw [isNew, hsize, show next - walk.wrapped = first by omega]
  rfl

theorem At.isBounded (h : walk.At lines first next root) : walk.IsBounded := by
  intro node hnode _
  rw [(h.keeps.represents []).rootNode_eq h.keeps.numbered h.fits] at hnode
  rw [h.isNew_eq]
  exact Node.newAboveAll_le (h.sparse.below hnode)

/-- A step to a sparse tree wraps no whole child list of a node of the pass. -/
theorem At.spares (h : walk.At lines first next root) {after : Walk} {next' : Nat} {root' : Node}
    (hstep : walk.step = .ok (some after)) (hkeeps : after.tree.Keeps lines next' root')
    (hsparse : root'.All (Node.Sparse (NodeId.isFrom first))) : walk.Spares := by
  intro owner other hnew hother honly
  rw [hstep] at hother
  cases hother
  rw [h.isNew_eq] at hnew
  have hsize : walk.tree.size = next := h.keeps.compact.size
  unfold Tree.children at honly
  cases hrecord : after.tree.record? owner with
  | none => simp [hrecord] at honly
  | some record =>
      obtain ⟨node, hnode, rfl, parent, _, rfl⟩ :=
        (hkeeps.represents []).exists_node hkeeps.numbered hrecord
      have hchildren : node.children.map Node.id = [.fresh walk.tree.size] := by
        simpa [hrecord, Tree.recordOf] using honly
      obtain ⟨child, hchild, hid⟩ := List.map_eq_singleton_iff.1 hchildren
      have hold := ((hsparse node hnode) hnew).2 child hchild
      have hmade := h.made
      rw [hid, hsize, NodeId.isFrom, decide_eq_false_iff_not] at hold
      exact hold (show first ≤ next by omega)

theorem At.follows (h : walk.At lines first next root) {after : Walk} {next' : Nat} {root' : Node}
    {log : List Event} (hstep : walk.step = .ok (some after))
    (hafter : after.At lines first next' root') (hlog : walk.events after = log) :
    Follows (Good lines) walk log after := by
  rw [← hlog, ← List.append_nil (walk.events after)]
  exact .step ⟨⟨first, next, root, h⟩, h.spares hstep hafter.keeps hafter.sparse⟩ hstep .refl

/-! ## Levels -/

variable {crumbs : List Crumb} {label : Label} {plan : Plan} {rule : Rule}

/-- Where a walk stands does not matter for its tree. -/
theorem At.moved (h : walk.At lines first next root) {after : Walk} (htree : after.tree = walk.tree)
    (hwrapped : after.wrapped = walk.wrapped) : after.At lines first next root :=
  ⟨htree ▸ h.keeps, h.fits, hwrapped ▸ h.made, h.sparse⟩

/-- Wrapping a run of old siblings, which is not the whole child list of a new node. -/
theorem At.exists_wrap {before run after : List Node}
    (h : walk.At lines first next (.plug crumbs ⟨label, before ++ (run ++ after)⟩))
    (hrun : run ≠ []) (hold : ∀ node ∈ run, NodeId.isFrom first node.id = false)
    (hproper : NodeId.isFrom first label.id = true → ¬(before = [] ∧ after = [])) (kind : Kind) :
    ∃ tree, (Edit.wrapRun label.id before.length (before.length + run.length - 1) kind).run
        walk.tree = .ok (.fresh next) tree
      ∧ At lines first (next + 1)
        (.plug crumbs ⟨label, before ++ (Node.wrap lines (.fresh next) kind run :: after)⟩)
        { walk with
          tree, wrapped := walk.wrapped + 1, level := some (label.id, before.length + 1) } := by
  have hbelow := Node.mem_descendants_plug crumbs ⟨label, before ++ (run ++ after)⟩
  obtain ⟨tree, hedit, hkeeps⟩ := h.keeps.run_wrapRun (h.fits.below hbelow) hrun kind
  refine ⟨tree, hedit, hkeeps, ?_, ?_, ?_⟩
  · have hwrap : Wraps lines (fun _ => True) next ⟨label, before ++ (run ++ after)⟩
        ⟨label, before ++ (Node.wrap lines (.fresh next) kind run :: after)⟩ := .here hrun trivial
    exact (hwrap.plug crumbs).fits False.elim h.fits
  · have hmade := h.made
    change first + (walk.wrapped + 1) = next + 1
    omega
  · exact Node.all_sparse_plug h.sparse rfl
      (Node.all_sparse_wrap (h.sparse.below hbelow) hrun hold hproper lines _ kind)

variable {before ahead rest out : List Node} {node : Node} {next' : Nat} {find : Finder}
  {todo : List Finder} {stack : List NodeId}

/-- The child that a walk tries next in a level. -/
theorem At.step_eq
    (h : walk.At lines first next (.plug crumbs ⟨label, before.reverse ++ node :: rest⟩))
    (hlevel : walk.level = some (label.id, before.length)) :
    ∃ above record, above.kind = label.kind
      ∧ above.children.length = before.length + (rest.length + 1)
      ∧ walk.tree.record? node.id = some record ∧ record.kind = node.kind
      ∧ walk.step = (walk.tryAt label.id above before.length node.id).map some := by
  obtain ⟨parent, habove⟩ := h.keeps.record?_eq
  obtain ⟨nodeLabel, children⟩ := node
  have hplace : walk.tree.Keeps lines next
      (.plug (⟨label, before.reverse, rest⟩ :: crumbs) ⟨nodeLabel, children⟩) := h.keeps
  obtain ⟨owner, hrecord⟩ := hplace.record?_eq
  refine ⟨_, _, rfl, by simp [Tree.recordOf], hrecord, rfl, step_try hlevel habove ?_⟩
  simp [Tree.recordOf]

/-- A walk passes over siblings without meaning. -/
theorem At.step_of_not_isSignificant
    (h : walk.At lines first next (.plug crumbs ⟨label, before.reverse ++ node :: rest⟩))
    (hlevel : walk.level = some (label.id, before.length))
    (hnode : node.kind.isSignificant = false) :
    walk.step = .ok (some { walk with level := some (label.id, before.length + 1) }) := by
  obtain ⟨above, record, _, _, hrecord, hkind, hstep⟩ := h.step_eq hlevel
  rw [hstep, tryAt_of_not_isSignificant _ hrecord (hkind ▸ hnode)]
  rfl

/-- At other siblings, a walk takes the run that its rule finds, if it may. -/
theorem At.step_of_isSignificant
    (h : walk.At lines first next (.plug crumbs ⟨label, before.reverse ++ node :: rest⟩))
    (hlevel : walk.level = some (label.id, before.length)) (hfind : walk.find = rule.finder)
    (hreads : rule.Reads plan) (hnode : node.kind.isSignificant = true) :
    walk.step =
      (match (rule.found? (.atAnchor label.kind before (node :: rest))).filter
          (Match.isAccepted · label.kind before.length (before.length + (rest.length + 1))) with
        | some found => walk.wrap label.id found
        | none => .ok { walk with level := some (label.id, before.length + 1) }).map some := by
  obtain ⟨above, record, habove, hlength, hrecord, hkind, hstep⟩ := h.step_eq hlevel
  have hlook := h.keeps.lookahead_eq (h.fits.below (Node.mem_descendants_plug crumbs _))
  have hanswer : walk.find walk.tree label.id before.length =
      .ok (rule.found? (.atAnchor label.kind before (node :: rest))) := by
    rw [hfind, hreads.found?_eq, ← hreads]
    unfold Rule.finder
    rw [hlook]
    rfl
  have htry : walk.tryAt label.id above before.length node.id = _ :=
    tryAt_of_isSignificant hrecord (hkind ▸ hnode) hanswer
  rw [habove, hlength] at htry
  exact hstep.trans (congrArg (Except.map some) htry)

/-- A walk passes over siblings whose run is not to be wrapped. -/
theorem At.step_of_kept
    (h : walk.At lines first next (.plug crumbs ⟨label, before.reverse ++ node :: rest⟩))
    (hlevel : walk.level = some (label.id, before.length)) (hfind : walk.find = rule.finder)
    (hreads : rule.Reads plan) (hnode : node.kind.isSignificant = true)
    (hkept : ∀ kind n, plan (Lookahead.atAnchor label.kind before (node :: rest)).scene =
      some (kind, n) → before = [] ∧ Closes n (node :: rest) ∧ label.kind = kind) :
    walk.step = .ok (some { walk with level := some (label.id, before.length + 1) }) := by
  rw [h.step_of_isSignificant hlevel hfind hreads hnode, Pass.filter_of_kept hreads hnode hkept]
  rfl

/-- A walk wraps the run that the plan of its rule counts out. -/
theorem At.step_of_wrapped {run : List Node} {n : Nat} {kind : Kind}
    (h : walk.At lines first next (.plug crumbs ⟨label, before.reverse ++ (node :: run ++ rest)⟩))
    (hlevel : walk.level = some (label.id, before.length)) (hfind : walk.find = rule.finder)
    (hreads : rule.Reads plan) (hnode : node.kind.isSignificant = true)
    (hcloses : Closes n (node :: run))
    (hfound : plan (Lookahead.atAnchor label.kind before (node :: run ++ rest)).scene =
      some (kind, n))
    (hproper : ¬(before = [] ∧ rest = [] ∧ label.kind = kind)) :
    walk.step =
      (walk.wrap label.id ⟨kind, before.length, before.length + run.length⟩).map some := by
  rw [List.cons_append] at h
  rw [h.step_of_isSignificant hlevel hfind hreads hnode,
    Pass.filter_of_wrapped hreads hnode hcloses hfound hproper]

theorem At.children_eq {children : List Node}
    (h : walk.At lines first next (.plug crumbs ⟨label, children⟩)) :
    walk.tree.children label.id = children.map Node.id := by
  obtain ⟨above, habove⟩ := h.keeps.record?_eq
  rw [Tree.children, habove]
  rfl

/-- What a walk does at a child of a level. -/
theorem At.events_eq
    (h : walk.At lines first next (.plug crumbs ⟨label, before.reverse ++ node :: rest⟩))
    (hlevel : walk.level = some (label.id, before.length)) (after : Walk) :
    walk.events after =
      if node.kind.isSignificant then .tries node.id :: walk.wrapping after
      else [.pass node.id] := by
  obtain ⟨nodeLabel, children⟩ := node
  have hplace : walk.tree.Keeps lines next
      (.plug (⟨label, before.reverse, rest⟩ :: crumbs) ⟨nodeLabel, children⟩) := h.keeps
  obtain ⟨owner, hrecord⟩ := hplace.record?_eq
  have hchild : ((before.reverse ++ ⟨nodeLabel, children⟩ :: rest).map Node.id)[before.length]? =
      some nodeLabel.id := by
    simp
    rfl
  simp only [events, hlevel, h.children_eq, hchild, hrecord, Option.any_some]
  rfl

/-- What a walk does at the end of a level. -/
theorem At.events_of_end (h : walk.At lines first next (.plug crumbs ⟨label, before.reverse⟩))
    (hlevel : walk.level = some (label.id, before.length)) (after : Walk) :
    walk.events after = [.leave label.id (before.reverse.map Node.id)] := by
  have hnone : (before.reverse.map Node.id)[before.length]? = none := by simp
  simp only [events, hlevel, h.children_eq, hnone]

/-- A step that makes a node right before the place that it reaches wraps the children of it. -/
theorem At.wrapping_eq {after : Walk} {children : List Node} {made : Label}
    (h : after.At lines first next
      (.plug crumbs ⟨label, before.reverse ++ ⟨made, children⟩ :: rest⟩))
    (hlevel : after.level = some (label.id, before.length + 1))
    (hwrapped : after.wrapped = walk.wrapped + 1) :
    walk.wrapping after = [.wrap made.id (children.map Node.id)] := by
  have hplace : after.At lines first next
      (.plug (⟨label, before.reverse, rest⟩ :: crumbs) ⟨made, children⟩) := h
  have hmade : ((before.reverse ++ ⟨made, children⟩ :: rest).map Node.id)[before.length]? =
      some made.id := by
    simp
    rfl
  rw [wrapping, if_neg (by omega), hlevel]
  simp only [h.children_eq, Nat.add_sub_cancel, hmade, Option.toList_some, List.map_singleton,
    hplace.children_eq]

/-- Whether a walk is between two containers of a pass, with names on its stack. -/
structure Between (find : Finder) (todo : List Finder) (stack : List NodeId) (walk : Walk) :
    Prop where
  find_eq : walk.find = find
  todo_eq : walk.todo = todo
  stack_eq : walk.stack = stack
  level_eq : walk.level = none

/-- A walk goes through a level as a pass does. -/
theorem At.follows_level (hreads : rule.Reads plan)
    (hlevels : Levels lines plan label.kind next before ahead next' out)
    (h : walk.At lines first next (.plug crumbs ⟨label, before.reverse ++ ahead⟩))
    (hlevel : walk.level = some (label.id, before.length)) (hfind : walk.find = rule.finder)
    (htodo : walk.todo = todo) (hold : ∀ node ∈ ahead, NodeId.isFrom first node.id = false)
    (hfirm : NodeId.isFrom first label.id = true → before = [] → plan.Firm label.kind ahead) :
    ∃ after, Follows (Good lines) walk (out.flatMap (fun node => (node.piece first).events)
          ++ [.leave label.id ((before.reverse ++ out).map Node.id)]) after
      ∧ after.At lines first next' (.plug crumbs ⟨label, before.reverse ++ out⟩)
      ∧ after.Between rule.finder todo ((before.reverse ++ out).map Node.id ++ walk.stack) := by
  induction hlevels generalizing walk with
  | done =>
      obtain ⟨parent, habove⟩ := h.keeps.record?_eq
      have hend := h
      rw [List.append_nil] at hend
      refine ⟨_, h.follows (step_leave hlevel habove (by simp [Tree.recordOf])) (h.moved rfl rfl) ?_,
        h.moved rfl rfl, hfind, htodo, by simp [Tree.recordOf], rfl⟩
      rw [hend.events_of_end hlevel, List.append_nil]
      rfl
  | @pass next next' before rest out node hnode hrest ih =>
      simp only [List.reverse_cons, List.append_assoc, List.singleton_append] at ih
      rw [List.forall_mem_cons] at hold
      have hpassed : At lines first next (.plug crumbs ⟨label, before.reverse ++ node :: rest⟩)
        { walk with level := some (label.id, before.length + 1) } := h.moved rfl rfl
      obtain ⟨after, hrun, hafter⟩ := ih hpassed rfl hfind htodo hold.2 (by simp)
      have hstep := h.step_of_not_isSignificant hlevel hnode
      refine ⟨after, ?_, hafter⟩
      rw [List.flatMap_cons, List.append_assoc]
      refine (h.follows hstep hpassed ?_).trans hrun
      rw [h.events_eq hlevel, Node.piece_of_old hold.1, hnode]
      rfl
  | @keep next next' before rest out node hnode hkept hrest ih =>
      simp only [List.reverse_cons, List.append_assoc, List.singleton_append] at ih
      rw [List.forall_mem_cons] at hold
      have hpassed : At lines first next (.plug crumbs ⟨label, before.reverse ++ node :: rest⟩)
        { walk with level := some (label.id, before.length + 1) } := h.moved rfl rfl
      obtain ⟨after, hrun, hafter⟩ := ih hpassed rfl hfind htodo hold.2 (by simp)
      have hstep := h.step_of_kept hlevel hfind hreads hnode hkept
      refine ⟨after, ?_, hafter⟩
      rw [List.flatMap_cons, List.append_assoc]
      refine (h.follows hstep hpassed ?_).trans hrun
      rw [h.events_eq hlevel, if_pos hnode, wrapping, if_pos rfl, Node.piece_of_old hold.1,
        if_pos hnode]
      rfl
  | @wrap next next' n before run rest out node kind hnode hcloses hfound hproper hrest ih =>
      simp only [List.reverse_cons, List.append_assoc, List.singleton_append] at ih
      rw [List.forall_mem_append] at hold
      -- a node that this pass made is firm, so no run takes all of its children
      have hproperRun : NodeId.isFrom first label.id = true →
          ¬(before.reverse = [] ∧ rest = []) := by
        rintro hnew ⟨hbefore, rfl⟩
        obtain rfl := List.reverse_eq_nil_iff.1 hbefore
        rw [List.append_nil] at hfound hfirm
        exact hproper ⟨rfl, rfl, (hfirm hnew rfl kind n hfound hcloses).symm⟩
      obtain ⟨tree, hedit, hwrapped⟩ :=
        h.exists_wrap (List.cons_ne_nil node run) hold.1 hproperRun kind
      rw [List.length_reverse] at hedit hwrapped
      have hstep : walk.step = .ok (some { walk with
          tree, wrapped := walk.wrapped + 1
          level := some (label.id, before.length + 1) }) := by
        rw [h.step_of_wrapped hlevel hfind hreads hnode hcloses hfound hproper, wrap_of_run hedit]
        rfl
      obtain ⟨after, hrun, hafter⟩ := ih hwrapped rfl hfind htodo hold.2 (by simp)
      have hmade : first ≤ next := h.made ▸ Nat.le_add_right _ _
      refine ⟨after, ?_, hafter⟩
      rw [List.flatMap_cons, List.append_assoc]
      refine (h.follows hstep hwrapped ?_).trans hrun
      rw [List.cons_append] at h
      rw [h.events_eq hlevel, if_pos hnode, hwrapped.wrapping_eq rfl rfl, Node.piece_wrap hmade]
      rfl

/-! ## Containers -/

/-- Whether a pass that began with a name has still to visit a node: it has made nothing in it, and
if it has made the node itself, its rule will not take all children for a node of another kind. -/
structure Pending (first : Nat) (plan : Plan) (node : Node) : Prop where
  old : ∀ child ∈ node.children, ∀ id ∈ child.ids, NodeId.isFrom first id = false
  firm : NodeId.isFrom first node.id = true → plan.Firm node.kind node.children

theorem pending_of_old (h : ∀ id ∈ node.ids, NodeId.isFrom first id = false) :
    Pending first plan node := by
  rw [Node.ids_eq, List.forall_mem_cons] at h
  refine ⟨fun child hchild id hid => h.2 id (List.mem_flatMap.2 ⟨child, hchild, hid⟩),
    fun hnew => ?_⟩
  rw [h.1] at hnew
  cases hnew

/-- What a pass leaves in a child list has still to be visited. -/
theorem Pending.of_levels (h : Pending first plan ⟨label, ahead⟩) (hplan : plan.Sound)
    (hlevels : Levels lines plan label.kind next [] ahead next' out) :
    ∀ node ∈ out, Pending first plan node := by
  intro node hnode
  rcases hlevels.mem hplan node hnode with hmem | ⟨kind, index, run, rfl, _, _, hsub, _, hfirm⟩
  · exact pending_of_old (h.old node hmem)
  · exact ⟨fun child hchild => h.old child (hsub hchild), fun _ => hfirm⟩

/-- A walk takes the next node from its stack, and goes into it if it is open. -/
theorem At.step_of_between (h : walk.At lines first next (.plug crumbs node))
    (hwalk : walk.Between find todo (node.id :: stack)) :
    walk.step = .ok (some (if Pass.isOpen node.kind then
      { walk with stack, level := some (node.id, 0) } else { walk with stack })) := by
  obtain ⟨nodeLabel, children⟩ := node
  obtain ⟨parent, hrecord⟩ := h.keeps.record?_eq
  rw [step_visit hwalk.level_eq hwalk.stack_eq, visit,
    show walk.tree.record? (Node.mk nodeLabel children).id = _ from hrecord]
  rfl

/-- Between two containers, a walk does nothing but enter the next one. -/
theorem Between.events_eq {after : Walk} (h : walk.Between find todo stack) : walk.events after =
    after.level.toList.map fun (container, _) =>
      .enter container (walk.tree.children container) := by
  rw [events, h.level_eq]

/-- A walk passes over a closed node. -/
theorem At.follows_closed (h : walk.At lines first next (.plug crumbs node))
    (hwalk : walk.Between find todo (node.id :: stack)) (hclosed : Pass.isOpen node.kind = false) :
    ∃ after, Follows (Good lines) walk [] after ∧ after.At lines first next (.plug crumbs node)
      ∧ after.Between find todo stack := by
  have hstep := h.step_of_between hwalk
  rw [hclosed] at hstep
  refine ⟨_, h.follows hstep (h.moved rfl rfl) ?_, h.moved rfl rfl, hwalk.find_eq, hwalk.todo_eq,
    rfl, hwalk.level_eq⟩
  rw [hwalk.events_eq, if_neg (by decide), hwalk.level_eq]
  rfl

/-- Whether stays of a walk are those that a run of a pass tells of, and there is one in each
container of a tree that the run leaves. -/
structure Stays (nodes : List Node) (visits : List Visit) (stays : List Stay) : Prop where
  outcome : stays.map Stay.outcome = nodes.flatMap Node.containers
  tried : stays.map Stay.tried = visits.map Visit.tried

theorem Stays.append {nodes nodes' : List Node} {visits visits' : List Visit}
    {stays stays' : List Stay} (h : Stays nodes visits stays) (h' : Stays nodes' visits' stays') :
    Stays (nodes ++ nodes') (visits ++ visits') (stays ++ stays') where
  outcome := by rw [List.map_append, List.flatMap_append, h.outcome, h'.outcome]
  tried := by rw [List.map_append, List.map_append, h.tried, h'.tried]

theorem stays_closed (h : Pass.isOpen node.kind = false) : Stays [node] [] [] where
  outcome := by
    obtain ⟨nodeLabel, children⟩ := node
    have hopen : Pass.isOpen nodeLabel.kind = false := h
    rw [List.flatMap_singleton, Node.containers_of_not_isOpen hopen]
    rfl
  tried := rfl

/-- Whether a walk goes through a node as a run of a pass does. -/
def Visits (lines : LineIndex) (plan : Plan) (rule : Rule) (first next : Nat) (node : Node)
    (run : Run) : Prop :=
  ∀ (walk : Walk) (crumbs : List Crumb) (todo : List Finder) (stack : List NodeId),
    walk.At lines first next (.plug crumbs node) →
    walk.Between rule.finder todo (node.id :: stack) → Pending first plan node →
    ∃ after stays, Follows (Good lines) walk (stays.flatMap Stay.events) after
      ∧ Stays [run.node] run.visits stays
      ∧ after.At lines first run.next (.plug crumbs run.node)
      ∧ after.Between rule.finder todo stack

/-- A walk goes from one node of a level to the next as a pass does. -/
theorem At.follows_each {visit : Nat → Node → Run} {enough : Nat → Node → Prop}
    {before nodes : List Node}
    (hvisit : ∀ next node, enough next node →
      Visits lines plan rule first next node (visit next node))
    (henough : Pass.EachEnough visit enough next nodes)
    (h : walk.At lines first next (.plug crumbs ⟨label, before ++ nodes⟩))
    (hwalk : walk.Between rule.finder todo (nodes.map Node.id ++ stack))
    (hpending : ∀ node ∈ nodes, Pending first plan node) :
    ∃ after stays, Follows (Good lines) walk (stays.flatMap Stay.events) after
      ∧ Stays (Pass.visitEach visit next nodes).nodes (Pass.visitEach visit next nodes).visits stays
      ∧ after.At lines first (Pass.visitEach visit next nodes).next
        (.plug crumbs ⟨label, before ++ (Pass.visitEach visit next nodes).nodes⟩)
      ∧ after.Between rule.finder todo stack := by
  induction nodes generalizing before next walk with
  | nil => exact ⟨walk, [], .refl, ⟨rfl, rfl⟩, h, hwalk⟩
  | cons node rest ih =>
      rw [List.forall_mem_cons] at hpending
      obtain ⟨mid, stays, hrun, hstays, hmid, hbetween⟩ :=
        hvisit next node henough.1 walk (⟨label, before, rest⟩ :: crumbs) todo _ h hwalk hpending.1
      have hplace : Node.plug (⟨label, before, rest⟩ :: crumbs) (visit next node).node =
          .plug crumbs ⟨label, (before ++ [(visit next node).node]) ++ rest⟩ := by
        simp [Node.plug]
      rw [hplace] at hmid
      obtain ⟨after, stays', hrest, hstays', hat, hafter⟩ := ih henough.2 hmid hbetween hpending.2
      refine ⟨after, stays ++ stays', ?_, hstays.append hstays', ?_, hafter⟩
      · rw [List.flatMap_append]
        exact hrun.trans hrest
      · rwa [List.append_assoc, List.singleton_append] at hat

/-- A walk goes through a node as a pass does. -/
theorem visits_visit {fuel : Nat} (hreads : rule.Reads plan) (hplan : plan.Sound)
    (henough : Pass.Enough lines rule fuel next node) :
    Visits lines plan rule first next node (Pass.visit lines rule fuel next node) := by
  induction fuel generalizing next node with
  | zero =>
      intro walk crumbs todo stack h hwalk hpending
      obtain ⟨after, hrun, hafter⟩ := h.follows_closed hwalk henough
      exact ⟨after, [], hrun, stays_closed henough, hafter⟩
  | succ fuel ih =>
      intro walk crumbs todo stack h hwalk hpending
      obtain ⟨label, children⟩ := node
      cases hopen : Pass.isOpen label.kind with
      | false =>
          have hsame : Pass.visit lines rule (fuel + 1) next ⟨label, children⟩ =
              ⟨⟨label, children⟩, next, []⟩ := by simp [Pass.visit, hopen]
          rw [hsame]
          obtain ⟨after, hrun, hafter⟩ := h.follows_closed hwalk hopen
          exact ⟨after, [], hrun, stays_closed hopen, hafter⟩
      | true =>
          have hstep := h.step_of_between hwalk
          rw [show Pass.isOpen (Node.mk label children).kind = true from hopen] at hstep
          have hin : At lines first next (.plug crumbs ⟨label, children⟩)
            { walk with stack, level := some (label.id, 0) } := h.moved rfl rfl
          have hold : ∀ child ∈ children, NodeId.isFrom first child.id = false :=
            fun child hchild => hpending.old child hchild _ child.id_mem_ids
          have hmade : first ≤ next := h.made ▸ Nat.le_add_right _ _
          obtain ⟨out, hout, hlevels⟩ :=
            Pass.levels_level lines hreads hplan label.kind next [] children
          rw [List.reverse_nil, List.nil_append] at hout
          obtain ⟨mid, hlevel, hmid, hbetween⟩ := hin.follows_level hreads hlevels rfl
            hwalk.find_eq hwalk.todo_eq hold fun hnew _ => hpending.firm hnew
          have heach := henough hopen
          rw [hout] at heach
          obtain ⟨after, stays, hbelow, hstays, hat, hafter⟩ :=
            hmid.follows_each (fun next node => ih) heach hbetween
              (hpending.of_levels hplan hlevels)
          have hrun : Pass.visit lines rule (fuel + 1) next ⟨label, children⟩ =
              let level := Pass.level lines rule label.kind next [] children
              let below := Pass.visitEach (Pass.visit lines rule fuel) level.next out
              ⟨⟨label, below.nodes⟩, below.next, ⟨label.id, level.tries⟩ :: below.visits⟩ := by
            simp [Pass.visit, hopen, hout]
          rw [hrun]
          refine ⟨after, ⟨label.id, out.map (Node.piece first)⟩ :: stays, ?_, ⟨?_, ?_⟩, hat, hafter⟩
          · have henters : Follows (Good lines) walk [.enter label.id (children.map Node.id)]
                { walk with stack, level := some (label.id, 0) } := by
              refine h.follows hstep hin ?_
              rw [hwalk.events_eq, ← h.children_eq]
              rfl
            rw [List.flatMap_cons, hlevels.events_stay hmade hold]
            exact (henters.trans hlevel).trans hbelow
          · rw [List.map_cons, hstays.outcome, List.flatMap_singleton,
              Node.containers_of_isOpen hopen, Pass.map_id_visitEach]
            simp [Stay.outcome, Node.left_piece]
          · rw [List.map_cons, hstays.tried, List.map_cons, Visit.tried,
              Pass.tries_level hreads hlevels hmade hold]
            simp [Stay.tried, List.filterMap_map]

/-! ## Passes -/

/-- The next pass of a walk makes of a tree what it makes of it as a value, and does so in one stay
in each container. -/
theorem At.follows_pass {pass : Pass} (hreads : pass.rule.Reads plan) (hplan : plan.Sound)
    (h : walk.At lines first next root) (hwalk : walk.Between find (pass.rule.finder :: todo) []) :
    ∃ after stays, Follows (Good lines) walk (stays.flatMap Stay.events) after
      ∧ Stays [(pass.run lines next root).node] (pass.run lines next root).visits stays
      ∧ after.At lines next (pass.run lines next root).next (pass.run lines next root).node
      ∧ after.Between pass.rule.finder todo [] := by
  have hstep := step_pass hwalk.level_eq hwalk.stack_eq hwalk.todo_eq
  have hold : ∀ id ∈ root.ids, NodeId.isFrom next id = false := fun id hid =>
    decide_eq_false (Nat.not_le.2 (h.keeps.index_lt hid))
  have hbegun : At lines next next (.plug [] root) { walk with
      find := pass.rule.finder, todo, wrapped := 0, stack := [walk.tree.root] } :=
    ⟨h.keeps, h.fits, rfl, fun node hnode hnew => by
      rw [hold node.id (List.mem_map_of_mem hnode)] at hnew
      cases hnew⟩
  have hbegins : Follows (Good lines) walk (walk.events { walk with
      find := pass.rule.finder, todo, wrapped := 0, stack := [walk.tree.root] } ++ []) { walk with
        find := pass.rule.finder, todo, wrapped := 0, stack := [walk.tree.root] } :=
    .step ⟨⟨first, next, root, h⟩, h.spares hstep h.keeps h.sparse⟩ hstep .refl
  have hsilent : walk.events { walk with
      find := pass.rule.finder, todo, wrapped := 0, stack := [walk.tree.root] } = [] := by
    rw [hwalk.events_eq]
    simp [hwalk.level_eq]
  rw [hsilent] at hbegins
  obtain ⟨after, stays, hrun, hstays, hat, hafter⟩ :=
    visits_visit hreads hplan (Pass.enough_depthBound hreads hplan next root) _ [] todo [] hbegun
      ⟨rfl, rfl, by rw [h.keeps.root], hwalk.level_eq⟩ (pending_of_old hold)
  exact ⟨after, stays, hbegins.trans hrun, hstays, hat, hafter⟩

/-- A walk comes to the end of some passes, and there its arena keeps what they make of the tree. -/
theorem At.through_early {passes : List Pass}
    (hplans : ∀ pass ∈ passes, ∃ plan, pass.rule.Reads plan ∧ plan.Sound)
    (h : walk.At lines first next root)
    (hwalk : walk.Between find (passes.map (·.rule.finder) ++ todo) []) :
    ∃ after first' find', Through (Good lines) walk after
      ∧ after.At lines first' (Pass.runAll passes lines next root).2
        (Pass.runAll passes lines next root).1
      ∧ after.Between find' todo [] := by
  induction passes generalizing walk first next root find with
  | nil => exact ⟨walk, first, find, .refl, h, hwalk⟩
  | cons pass rest ih =>
      rw [List.forall_mem_cons] at hplans
      obtain ⟨⟨plan, hreads, hplan⟩, hrest⟩ := hplans
      obtain ⟨mid, _, hrun, -, hmid, hbetween⟩ := h.follows_pass hreads hplan hwalk
      obtain ⟨after, first', find', hpasses, hafter⟩ := ih hrest hmid hbetween
      exact ⟨after, first', find', hrun.through.trans hpasses, hafter⟩

/-- A walk comes to its end, and there its arena keeps what the passes make of the tree. -/
theorem At.through_passes {passes : List Pass}
    (hplans : ∀ pass ∈ passes, ∃ plan, pass.rule.Reads plan ∧ plan.Sound)
    (h : walk.At lines first next root)
    (hwalk : walk.Between find (passes.map (·.rule.finder)) []) :
    ∃ last, Through (Good lines) walk last ∧ last.step = .ok none
      ∧ Good lines last
      ∧ last.tree.Keeps lines (Pass.runAll passes lines next root).2
        (Pass.runAll passes lines next root).1 := by
  rw [← List.append_nil (passes.map _)] at hwalk
  obtain ⟨last, first', find', hthrough, hat, hbetween⟩ := h.through_early hplans hwalk
  have hend := step_done hbetween.level_eq hbetween.stack_eq hbetween.todo_eq
  refine ⟨last, hthrough, hend, ⟨⟨first', _, _, hat⟩, fun owner other _ hother => ?_⟩, hat.keeps⟩
  rw [hend] at hother
  cases hother

end Walk

end ConcreteSyntax
