import ConcreteSyntax.Analysis.Pass
import ConcreteSyntax.Proofs.Node

/-!
# Growth of trees

All that analysis does to a tree is to wrap runs of siblings, one after the other
(`Pass.grows_run`).  What one wrap preserves, whole passes preserve: the layout, the names,
and the tree that is left when the new nodes are taken out again.
-/

namespace ConcreteSyntax

namespace Node

mutual

/-- What is left of a tree without its new nodes: each of them gives way to its children. -/
def erase (isNew : NodeId → Bool) : Node → List Node
  | ⟨label, children⟩ =>
      if isNew label.id then eraseAll isNew children
      else [⟨label, eraseAll isNew children⟩]

/-- What is left of several trees without their new nodes. -/
def eraseAll (isNew : NodeId → Bool) : List Node → List Node
  | [] => []
  | node :: rest => erase isNew node ++ eraseAll isNew rest

end

theorem eraseAll_eq (isNew : NodeId → Bool) (nodes : List Node) :
    eraseAll isNew nodes = nodes.flatMap (erase isNew) := by
  induction nodes with
  | nil => rfl
  | cons node rest ih => simp [eraseAll, ih]

theorem erase_mk (isNew : NodeId → Bool) (label : Label) (children : List Node) :
    erase isNew ⟨label, children⟩ =
      if isNew label.id then children.flatMap (erase isNew)
      else [⟨label, children.flatMap (erase isNew)⟩] := by
  rw [erase, eraseAll_eq]

/-- Nothing is taken out of a tree without new nodes. -/
theorem erase_eq_self {isNew : NodeId → Bool} {node : Node}
    (h : ∀ id ∈ node.ids, isNew id = false) : node.erase isNew = [node] := by
  induction node with
  | mk label children ih =>
      simp only [ids_mk, List.forall_mem_cons, List.mem_flatMap, forall_exists_index,
        and_imp] at h
      have hchildren : children.flatMap (erase isNew) = children.flatMap fun child => [child] :=
        List.flatMap_congr fun child hchild =>
          ih child hchild fun id hid => h.2 id child hchild hid
      rw [erase_mk, h.1, hchildren]
      simp

end Node

/-- One run of siblings somewhere in a tree becomes a new node of one of several kinds,
which takes the `next`-th name. -/
inductive Wraps (lines : LineIndex) (kinds : Kind → Prop) (next : Nat) : Node → Node → Prop
  | here {label : Label} {before run after : List Node} {kind : Kind} (hrun : run ≠ [])
      (hkind : kinds kind) :
      Wraps lines kinds next ⟨label, before ++ (run ++ after)⟩
        ⟨label, before ++ (Node.wrap lines (.fresh next) kind run :: after)⟩
  | inside {label : Label} {before after : List Node} {child child' : Node}
      (hchild : Wraps lines kinds next child child') :
      Wraps lines kinds next ⟨label, before ++ (child :: after)⟩
        ⟨label, before ++ (child' :: after)⟩

/-- Runs of siblings are wrapped one after the other, from one index of names to another. -/
inductive Grows (lines : LineIndex) (kinds : Kind → Prop) : Nat → Node → Nat → Node → Prop
  | refl {next : Nat} {node : Node} : Grows lines kinds next node next node
  | step {next next' : Nat} {node mid node' : Node} (hwrap : Wraps lines kinds next node mid)
      (hrest : Grows lines kinds (next + 1) mid next' node') :
      Grows lines kinds next node next' node'

variable {lines : LineIndex} {kinds : Kind → Prop} {next next' : Nat} {node node' : Node}

theorem Wraps.grows (h : Wraps lines kinds next node node') :
    Grows lines kinds next node (next + 1) node' := .step h .refl

theorem Grows.trans {next'' : Nat} {node'' : Node} (h : Grows lines kinds next node next' node')
    (h' : Grows lines kinds next' node' next'' node'') :
    Grows lines kinds next node next'' node'' := by
  induction h with
  | refl => exact h'
  | step hwrap _ ih => exact .step hwrap (ih h')

theorem Wraps.mono {kinds' : Kind → Prop} (h : Wraps lines kinds next node node')
    (hkinds : ∀ kind, kinds kind → kinds' kind) : Wraps lines kinds' next node node' := by
  induction h with
  | here hrun hkind => exact .here hrun (hkinds _ hkind)
  | inside _ ih => exact .inside ih

theorem Grows.mono {kinds' : Kind → Prop} (h : Grows lines kinds next node next' node')
    (hkinds : ∀ kind, kinds kind → kinds' kind) : Grows lines kinds' next node next' node' := by
  induction h with
  | refl => exact .refl
  | step hwrap _ ih => exact .step (hwrap.mono hkinds) ih

theorem Grows.inside {label : Label} {before after : List Node}
    (h : Grows lines kinds next node next' node') :
    Grows lines kinds next ⟨label, before ++ (node :: after)⟩ next'
      ⟨label, before ++ (node' :: after)⟩ := by
  induction h with
  | refl => exact .refl
  | step hwrap _ ih => exact .step (.inside hwrap) ih

/-! ## What a wrap preserves -/

theorem Wraps.label_eq (h : Wraps lines kinds next node node') : node'.label = node.label := by
  cases h <;> rfl

theorem Abut.head_start {start stop : Nat} {first : Node} {nodes : List Node}
    (h : Abut start nodes stop) (hfirst : nodes.head? = some first) :
    first.range.start = start := by
  cases nodes with
  | nil => simp at hfirst
  | cons node rest =>
      simp only [List.head?_cons, Option.some.injEq] at hfirst
      exact hfirst ▸ h.1

theorem Abut.last_stop {start stop : Nat} {last : Node} {nodes : List Node}
    (h : Abut start nodes stop) (hlast : nodes.getLast? = some last) :
    last.range.stop = stop ∧ start ≤ last.range.start := by
  induction nodes generalizing start with
  | nil => simp at hlast
  | cons node rest ih =>
      cases rest with
      | nil =>
          simp only [List.getLast?_singleton, Option.some.injEq] at hlast
          subst hlast
          exact ⟨h.2, Nat.le_of_eq h.1.symm⟩
      | cons other rest =>
          rw [List.getLast?_cons_cons] at hlast
          obtain ⟨hstop, hstart⟩ := ih h.2 hlast
          have := node.range.start_le_stop
          have := h.1
          exact ⟨hstop, by omega⟩

/-- A new node takes the bytes of its run. -/
theorem Node.range_wrap (lines : LineIndex) (id : NodeId) (kind : Kind) {run : List Node}
    {start stop : Nat} (habut : Abut start run stop) (hrun : run ≠ []) :
    (Node.wrap lines id kind run).range.start = start
      ∧ (Node.wrap lines id kind run).range.stop = stop := by
  obtain ⟨first, hfirst⟩ : ∃ first, run.head? = some first :=
    Option.isSome_iff_exists.1 (by simpa using hrun)
  obtain ⟨last, hlast⟩ : ∃ last, run.getLast? = some last :=
    Option.isSome_iff_exists.1 (by simpa using hrun)
  have hstart := habut.head_start hfirst
  obtain ⟨hstop, hle⟩ := habut.last_stop hlast
  have hfirst_le := first.range.start_le_stop
  have hlast_le := last.range.start_le_stop
  have hwithin : first.range.stop ≤ stop := by
    cases run with
    | nil => simp at hrun
    | cons node rest =>
        simp only [List.head?_cons, Option.some.injEq] at hfirst
        exact hfirst ▸ habut.2.le
  have hrange : (Node.wrap lines id kind run).range =
      ((run.head?.map Node.range).getD default).cover
        ((run.getLast?.map Node.range).getD default) := rfl
  rw [hrange, hfirst, hlast]
  simp only [Option.map_some, Option.getD_some, Range.cover]
  omega

/-- A wrap leaves every node in its place. -/
theorem Wraps.fits {sound : Prop} (h : Wraps lines kinds next node node')
    (hkinds : sound → ∀ kind, kinds kind → kind.isAtomic = false)
    (hfits : node.All (Node.Fits lines sound)) : node'.All (Node.Fits lines sound) := by
  induction h with
  | @here label before run after kind hrun hkind =>
      obtain ⟨hself, hchildren⟩ := Node.all_mk.1 hfits
      have hnonempty : before ++ (run ++ after) ≠ [] := by simp [hrun]
      obtain ⟨first, hbefore, hrest⟩ := abut_append.1 (hself.tiled hnonempty)
      obtain ⟨last, hmiddle, hafter⟩ := abut_append.1 hrest
      obtain ⟨hstart, hstop⟩ := Node.range_wrap lines (.fresh next) kind hmiddle hrun
      have hfirst : Text.isBoundary lines.text first = true :=
        hbefore.isBoundary hself.start fun child hchild =>
          (hchildren child (by simp [hchild])).self.stop
      have hlast : Text.isBoundary lines.text last = true :=
        hmiddle.isBoundary hfirst fun child hchild =>
          (hchildren child (by simp [hchild])).self.stop
      have hwrapped : (Node.wrap lines (.fresh next) kind run).All (Node.Fits lines sound) := by
        refine Node.fits_container (fun hs => hkinds hs kind hkind) (hstart ▸ hfirst)
          (hstop ▸ hlast) ?_ fun child hchild => hchildren child (by simp [hchild])
        change Abut (Node.wrap lines (.fresh next) kind run).range.start run
          (Node.wrap lines (.fresh next) kind run).range.stop
        rwa [hstart, hstop]
      refine Node.all_mk.2 ⟨{ hself with
        tiled := fun _ => ?_
        leaf := fun hsound hatomic => absurd (hself.leaf hsound hatomic) hnonempty
        empty := fun _ _ hnil => absurd hnil (by simp [Node.children]) }, fun child hchild => ?_⟩
      · exact abut_append.2 ⟨first, hbefore, hstart, hstop ▸ hafter⟩
      · rcases List.mem_append.1 hchild with hchild | hchild
        · exact hchildren child (by simp [hchild])
        · rcases List.mem_cons.1 hchild with rfl | hchild
          · exact hwrapped
          · exact hchildren child (by simp [hchild])
  | @inside label before after child child' hchild ih =>
      obtain ⟨hself, hchildren⟩ := Node.all_mk.1 hfits
      have hnonempty : before ++ (child :: after) ≠ [] := by simp
      have hrange : child'.range = child.range := by rw [Node.range, hchild.label_eq]; rfl
      obtain ⟨first, hbefore, hstart, hafter⟩ := abut_append.1 (hself.tiled hnonempty)
      refine Node.all_mk.2 ⟨{ hself with
        tiled := fun _ => abut_append.2 ⟨first, hbefore, hrange ▸ hstart, hrange ▸ hafter⟩
        leaf := fun hsound hatomic => absurd (hself.leaf hsound hatomic) hnonempty
        empty := fun _ _ hnil => absurd hnil (by simp [Node.children]) }, fun other hother => ?_⟩
      rcases List.mem_append.1 hother with hother | hother
      · exact hchildren other (by simp [hother])
      · rcases List.mem_cons.1 hother with rfl | hother
        · exact ih (hchildren child (by simp))
        · exact hchildren other (by simp [hother])

/-- A wrap adds one name to a tree. -/
theorem Wraps.ids_perm (h : Wraps lines kinds next node node') :
    node'.ids.Perm (.fresh next :: node.ids) := by
  induction h with
  | @here label before run after kind hrun hkind =>
      have hwrapped : (Node.wrap lines (.fresh next) kind run).ids =
          .fresh next :: run.flatMap Node.ids := Node.ids_mk _ _
      simp only [Node.ids_mk, List.flatMap_append, List.flatMap_cons, hwrapped]
      change (label.id :: before.flatMap Node.ids ++
        .fresh next :: (run.flatMap Node.ids ++ after.flatMap Node.ids)).Perm _
      exact List.perm_middle
  | @inside label before after child child' hchild ih =>
      simp only [Node.ids_mk, List.flatMap_append, List.flatMap_cons]
      have hinner : (label.id :: before.flatMap Node.ids ++
            (child'.ids ++ after.flatMap Node.ids)).Perm
          (label.id :: before.flatMap Node.ids ++
            (.fresh next :: child.ids ++ after.flatMap Node.ids)) :=
        (ih.append_right _).append_left _
      exact hinner.trans List.perm_middle

theorem Wraps.erase_eq {isNew : NodeId → Bool} (h : Wraps lines kinds next node node')
    (hnew : isNew (.fresh next) = true) : node'.erase isNew = node.erase isNew := by
  induction h with
  | @here label before run after kind hrun hkind =>
      have hwrapped : (Node.wrap lines (.fresh next) kind run).erase isNew =
          run.flatMap (Node.erase isNew) := by
        rw [Node.wrap, Node.erase_mk]
        exact if_pos hnew
      simp [Node.erase_mk, hwrapped]
  | @inside label before after child child' hchild ih => simp [Node.erase_mk, ih]

/-! ## What growth preserves -/

theorem Grows.label_eq (h : Grows lines kinds next node next' node') :
    node'.label = node.label := by
  induction h with
  | refl => rfl
  | step hwrap _ ih => rw [ih, hwrap.label_eq]

theorem Grows.le (h : Grows lines kinds next node next' node') : next ≤ next' := by
  induction h with
  | refl => exact Nat.le_refl _
  | step _ _ ih => omega

theorem Grows.fits {sound : Prop} (h : Grows lines kinds next node next' node')
    (hkinds : sound → ∀ kind, kinds kind → kind.isAtomic = false)
    (hfits : node.All (Node.Fits lines sound)) : node'.All (Node.Fits lines sound) := by
  induction h with
  | refl => exact hfits
  | step hwrap _ ih => exact ih (hwrap.fits hkinds hfits)

/-- The names of a tree are the first ones, each taken once. -/
def Node.Numbered (node : Node) (next : Nat) : Prop :=
  node.ids.Perm ((List.range next).map .fresh)

theorem Wraps.numbered (h : Wraps lines kinds next node node') (hids : node.Numbered next) :
    node'.Numbered (next + 1) := by
  rw [Node.Numbered, List.range_succ, List.map_append]
  exact h.ids_perm.trans ((hids.cons _).trans (List.perm_append_singleton _ _).symm)

theorem Grows.numbered (h : Grows lines kinds next node next' node')
    (hids : node.Numbered next) : node'.Numbered next' := by
  induction h with
  | refl => exact hids
  | step hwrap _ ih => exact ih (hwrap.numbered hids)

/-- Without the nodes that growth has added, a tree is what it was. -/
theorem Grows.erase_eq {isNew : NodeId → Bool} (h : Grows lines kinds next node next' node')
    (hnew : ∀ index, next ≤ index → isNew (.fresh index) = true) :
    node'.erase isNew = node.erase isNew := by
  induction h with
  | refl => rfl
  | @step next _ _ _ _ hwrap _ ih =>
      rw [ih fun index hindex => hnew index (by omega), hwrap.erase_eq (hnew next (Nat.le_refl _))]

/-! ## Passes grow trees -/

namespace Pass

variable {rule : Rule}

/-- An accepted run cuts the siblings ahead into those before it, the run itself, which is
not empty, and those behind it. -/
theorem split_of_isAccepted {found : Match} {parent : Kind} {anchor : Nat} {rest : List Node}
    (node : Node)
    (h : found.isAccepted parent anchor (anchor + (rest.length + 1)) = true) :
    node :: rest = (node :: rest).take (found.start - anchor) ++
        (((node :: rest).take (found.stop + 1 - anchor)).drop (found.start - anchor) ++
          rest.drop (found.stop - anchor))
      ∧ ((node :: rest).take (found.stop + 1 - anchor)).drop (found.start - anchor) ≠ [] := by
  simp only [Match.isAccepted, Bool.and_eq_true, decide_eq_true_eq] at h
  obtain ⟨⟨⟨hanchor, hle⟩, hlength⟩, _⟩ := h
  constructor
  · have htake : (node :: rest).take (found.start - anchor) =
        ((node :: rest).take (found.stop + 1 - anchor)).take (found.start - anchor) := by
      rw [List.take_take, Nat.min_eq_left (by omega)]
    have hdrop : rest.drop (found.stop - anchor) =
        (node :: rest).drop (found.stop + 1 - anchor) := by
      rw [Nat.succ_sub (by omega), List.drop_succ_cons]
    rw [← List.append_assoc, htake, hdrop, List.take_append_drop, List.take_append_drop]
  · intro hnil
    have hlen := congrArg List.length hnil
    simp only [List.length_drop, List.length_take, List.length_cons, List.length_nil] at hlen
    omega

theorem grows_level (hkinds : ∀ look found, rule.found? look = some found → kinds found.kind)
    (label : Label) (next : Nat) (before ahead : List Node) :
    Grows lines kinds next ⟨label, before.reverse ++ ahead⟩
      (level lines rule label.kind next before ahead).next
      ⟨label, (level lines rule label.kind next before ahead).children⟩ := by
  generalize label.kind = parent
  fun_induction level lines rule parent next before ahead with
  | case1 next before => rw [List.append_nil]; exact .refl
  | case2 next before node rest hnode look anchor hfound below ih => simpa using ih
  | case3 next before node rest hnode look anchor found hfound skipped run wrapped below ih =>
      obtain ⟨hsome, haccepted⟩ := Option.filter_eq_some_iff.1 hfound
      obtain ⟨hsplit, hrun⟩ := split_of_isAccepted node haccepted
      have hwrap : Wraps lines kinds next ⟨label, before.reverse ++ (node :: rest)⟩
          ⟨label, (before.reverse ++ skipped) ++
            (wrapped :: rest.drop (found.stop - anchor))⟩ := by
        rw [hsplit, ← List.append_assoc]
        exact .here hrun (hkinds _ _ hsome)
      exact .step hwrap (by simpa using ih)
  | case4 next before node rest hnode ih => simpa using ih

theorem grows_visitEach {visit : Nat → Node → Run}
    (hvisit : ∀ next node, Grows lines kinds next node (visit next node).next (visit next node).node)
    (label : Label) (next : Nat) (done nodes : List Node) :
    Grows lines kinds next ⟨label, done ++ nodes⟩ (visitEach visit next nodes).next
      ⟨label, done ++ (visitEach visit next nodes).nodes⟩ := by
  induction nodes generalizing next done with
  | nil => exact .refl
  | cons node rest ih =>
      have hrest := ih (visit next node).next (done ++ [(visit next node).node])
      simp only [List.append_assoc, List.singleton_append] at hrest
      exact (hvisit next node).inside.trans hrest

theorem grows_visit (hkinds : ∀ look found, rule.found? look = some found → kinds found.kind)
    (fuel next : Nat) (node : Node) :
    Grows lines kinds next node (visit lines rule fuel next node).next
      (visit lines rule fuel next node).node := by
  induction fuel generalizing next node with
  | zero => exact .refl
  | succ fuel ih =>
      obtain ⟨label, children⟩ := node
      unfold visit
      split
      · exact (grows_level hkinds label next [] children).trans
          (grows_visitEach ih label _ [] _)
      · exact .refl

theorem le_next_level (lines : LineIndex) (rule : Rule) (label : Label) (next : Nat)
    (before ahead : List Node) : next ≤ (level lines rule label.kind next before ahead).next :=
  have hgrows : Grows lines (fun _ => True) next _ _ _ :=
    grows_level (fun _ _ _ => trivial) label next before ahead
  hgrows.le

theorem le_next_visit (lines : LineIndex) (rule : Rule) (fuel next : Nat) (node : Node) :
    next ≤ (visit lines rule fuel next node).next :=
  have hgrows : Grows lines (fun _ => True) next _ _ _ :=
    grows_visit (fun _ _ _ => trivial) fuel next node
  hgrows.le

/-- Whole passes only wrap runs of siblings. -/
theorem grows_runAll {passes : List Pass}
    (hkinds : ∀ pass ∈ passes, ∀ look found, pass.rule.found? look = some found →
      kinds found.kind) (next : Nat) (node : Node) :
    Grows lines kinds next node (runAll passes lines next node).2
      (runAll passes lines next node).1 := by
  induction passes generalizing next node with
  | nil => exact .refl
  | cons pass rest ih =>
      exact (grows_visit (hkinds pass (by simp)) (depthBound node) next node).trans
        (ih (fun other hother => hkinds other (by simp [hother])) _ _)

end Pass

end ConcreteSyntax
