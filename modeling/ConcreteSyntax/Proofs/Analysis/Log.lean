import ConcreteSyntax.Analysis.Walk
import ConcreteSyntax.Proofs.Analysis.Run
import ConcreteSyntax.Proofs.Node
import Mathlib.Data.List.Flatten

/-!
# The log of a walk

A step of a walk enters a container, passes over a child, tries the rule at a child or leaves the
container, and which of these it does is read off the points between which it leads
(`Walk.events`).  The events of all steps from one point to another are the log of the walk between
them (`Walk.Follows`).  What a walk does in one container from entering it to leaving it is a
`Stay`, and a pass over a tree as a value tells what the stays are to be (`Levels.tried_eq`).
-/

namespace ConcreteSyntax

/-! ## Events -/

namespace Walk

/-- What a walk does. -/
inductive Event where
  /-- It enters a container with some children. -/
  | enter (container : NodeId) (children : List NodeId)
  /-- It passes over a child without meaning. -/
  | pass (child : NodeId)
  /-- It tries its rule at a child. -/
  | tries (child : NodeId)
  /-- It wraps a run of children in a new node. -/
  | wrap (made : NodeId) (run : List NodeId)
  /-- It leaves a container, which has some children by then. -/
  | leave (container : NodeId) (children : List NodeId)
deriving DecidableEq

/-- The run that a step has wrapped, if it has: the new node stands right before the place that the
step has reached. -/
def wrapping (walk next : Walk) : List Event :=
  if next.wrapped = walk.wrapped then []
  else match next.level with
    | some (container, reached) =>
        ((next.tree.children container)[reached - 1]?).toList.map fun made =>
          .wrap made (next.tree.children made)
    | none => []

/-- What a step does that leads from one point to another. -/
def events (walk next : Walk) : List Event :=
  match walk.level with
  | some (container, index) =>
      match (walk.tree.children container)[index]? with
      | some child =>
          if (walk.tree.record? child).any (·.kind.isSignificant) then
            .tries child :: walk.wrapping next
          else [.pass child]
      | none => [.leave container (walk.tree.children container)]
  | none =>
      next.level.toList.map fun (container, _) => .enter container (walk.tree.children container)

/-- A walk goes from one point to another over good ones, with a log of what it does. -/
inductive Follows (good : Walk → Prop) : Walk → List Event → Walk → Prop
  | refl {walk : Walk} : Follows good walk [] walk
  | step {walk next last : Walk} {log : List Event} (hgood : good walk)
      (hstep : walk.step = .ok (some next)) (hrest : Follows good next log last) :
      Follows good walk (walk.events next ++ log) last

namespace Follows

variable {good good' : Walk → Prop} {walk mid last : Walk} {log log' : List Event}

theorem trans (h : Follows good walk log mid) (hrest : Follows good mid log' last) :
    Follows good walk (log ++ log') last := by
  induction h with
  | refl => exact hrest
  | step hgood hstep _ ih =>
      rw [List.append_assoc]
      exact .step hgood hstep (ih hrest)

theorem mono (h : Follows good walk log last) (hgood : ∀ walk, good walk → good' walk) :
    Follows good' walk log last := by
  induction h with
  | refl => exact .refl
  | step hwalk hstep _ ih => exact .step (hgood _ hwalk) hstep ih

end Follows

end Walk

/-! ## Stays -/

/-- What becomes of children of a container while a walk is in it. -/
inductive Piece where
  /-- A child without meaning is passed over. -/
  | passed (child : NodeId)
  /-- The rule is tried at a child, and nothing is wrapped. -/
  | kept (child : NodeId)
  /-- The rule is tried at the first child of a run, and the run is wrapped. -/
  | wrapped (made first : NodeId) (rest : List NodeId)

namespace Piece

/-- The children that were there. -/
def old : Piece → List NodeId
  | passed child | kept child => [child]
  | wrapped _ first rest => first :: rest

/-- The child that there is by then. -/
def left : Piece → NodeId
  | passed child | kept child => child
  | wrapped made _ _ => made

/-- The child at which the rule is tried. -/
def tried? : Piece → Option NodeId
  | passed _ => none
  | kept child => some child
  | wrapped _ first _ => some first

/-- What the walk does. -/
def events : Piece → List Walk.Event
  | passed child => [.pass child]
  | kept child => [.tries child]
  | wrapped made first rest => [.tries first, .wrap made (first :: rest)]

end Piece

/-- What a walk does in a container, from the first child to the last. -/
structure Stay where
  container : NodeId
  pieces : List Piece

namespace Stay

/-- What the walk does from entering the container to leaving it. -/
def events (stay : Stay) : List Walk.Event :=
  .enter stay.container (stay.pieces.flatMap Piece.old) ::
    (stay.pieces.flatMap Piece.events ++ [.leave stay.container (stay.pieces.map Piece.left)])

/-- The container and the children that it is left with. -/
def outcome (stay : Stay) : NodeId × List NodeId :=
  (stay.container, stay.pieces.map Piece.left)

/-- The container and the children at which the rule is tried. -/
def tried (stay : Stay) : NodeId × List NodeId :=
  (stay.container, stay.pieces.filterMap Piece.tried?)

end Stay

/-- The container of a visit and the children at which the rule is tried. -/
def Visit.tried (visit : Visit) : NodeId × List NodeId :=
  (visit.container, visit.tries.filterMap fun look => look.node?.map Node.id)

namespace Node

mutual

/-- The containers of a tree, each before those below it, with the names of their children.
Directives are left out, with all that is in them. -/
def containers : Node → List (NodeId × List NodeId)
  | ⟨label, children⟩ =>
      if Pass.isOpen label.kind then (label.id, children.map id) :: containersAll children else []

/-- The containers of several trees. -/
def containersAll : List Node → List (NodeId × List NodeId)
  | [] => []
  | node :: rest => containers node ++ containersAll rest

end

theorem containersAll_eq (nodes : List Node) : containersAll nodes = nodes.flatMap containers := by
  induction nodes with
  | nil => rfl
  | cons node rest ih => rw [containersAll, ih, List.flatMap_cons]

theorem containers_of_isOpen {label : Label} (h : Pass.isOpen label.kind = true)
    (children : List Node) : containers ⟨label, children⟩ =
      (label.id, children.map id) :: children.flatMap containers := by
  rw [containers, if_pos h, containersAll_eq]

theorem containers_of_not_isOpen {label : Label} (h : Pass.isOpen label.kind = false)
    (children : List Node) : containers ⟨label, children⟩ = [] := by
  rw [containers, if_neg (by rw [h]; decide)]

theorem containers_sublist (node : Node) : (node.containers.map Prod.fst).Sublist node.ids := by
  induction node with
  | mk label children ih =>
      cases hopen : Pass.isOpen label.kind with
      | false => simp [containers_of_not_isOpen hopen]
      | true =>
          rw [containers_of_isOpen hopen, ids_mk, List.map_cons, List.map_flatMap]
          exact (List.Sublist.flatMap_right _ ih).cons_cons _

end Node

/-! ## Levels -/

/-- Whether a name was given out from an index on. -/
def NodeId.isFrom (first : Nat) (id : NodeId) : Bool := decide (first ≤ id.index)

/-- What a node tells of the piece that it is left of, where the names from `first` on are those of
new nodes. -/
def Node.piece (first : Nat) (node : Node) : Piece :=
  match node.id.isFrom first, node.children with
  | true, child :: rest => .wrapped node.id child.id (rest.map id)
  | _, _ => if node.kind.isSignificant then .kept node.id else .passed node.id

variable {lines : LineIndex} {rule : Rule} {plan : Plan} {parent kind : Kind}
  {first next next' n : Nat} {before ahead run rest out : List Node} {node : Node}

theorem Node.left_piece (first : Nat) (node : Node) : (node.piece first).left = node.id := by
  unfold piece
  split
  · rfl
  · split <;> rfl

theorem Node.piece_of_old (h : node.id.isFrom first = false) :
    node.piece first = if node.kind.isSignificant then .kept node.id else .passed node.id := by
  unfold piece
  rw [h]

theorem Node.piece_wrap (h : first ≤ next) :
    (Node.wrap lines (.fresh next) kind (node :: run)).piece first =
      .wrapped (.fresh next) node.id (run.map id) := by
  have hnew : NodeId.isFrom first (.fresh next) = true := decide_eq_true h
  unfold piece
  rw [show (Node.wrap lines (.fresh next) kind (node :: run)).id = .fresh next from rfl, hnew]
  rfl

theorem Lookahead.node?_atAnchor (h : node.kind.isSignificant = true) :
    (atAnchor parent before (node :: rest)).node? = some node := by
  simp [node?, next?, atAnchor, firstFrom, h]

namespace Pass

/-- What a rule finds at a child that is kept is not accepted. -/
theorem filter_of_kept (hreads : rule.Reads plan) (hnode : node.kind.isSignificant = true)
    (hkept : ∀ kind n, plan (Lookahead.atAnchor parent before (node :: rest)).scene =
      some (kind, n) → before = [] ∧ Closes n (node :: rest) ∧ parent = kind) :
    (rule.found? (.atAnchor parent before (node :: rest))).filter
      (Match.isAccepted · parent before.length (before.length + (rest.length + 1))) = none := by
  rw [Option.filter_eq_none_iff]
  intro found hfound
  rw [hreads.found?_eq, Option.map_eq_some_iff] at hfound
  obtain ⟨⟨kind, n⟩, hplan, rfl⟩ := hfound
  obtain ⟨rfl, hcloses, rfl⟩ := hkept kind n hplan
  have hahead : (Lookahead.atAnchor parent [] (node :: rest)).ahead = node :: rest ++ [] :=
    (List.append_nil _).symm
  dsimp only
  rw [Lookahead.runOf_of_closes hcloses hahead hnode]
  have hwhole := @isAccepted_iff parent parent 0 rest.length 0
  exact hwhole.not.2 (not_not_intro ⟨rfl, rfl, rfl⟩)

/-- The run that the plan of a rule counts out is found and accepted. -/
theorem filter_of_wrapped (hreads : rule.Reads plan) (hnode : node.kind.isSignificant = true)
    (hcloses : Closes n (node :: run))
    (hfound : plan (Lookahead.atAnchor parent before (node :: run ++ rest)).scene = some (kind, n))
    (hproper : ¬(before = [] ∧ rest = [] ∧ parent = kind)) :
    (rule.found? (.atAnchor parent before (node :: (run ++ rest)))).filter
        (Match.isAccepted · parent before.length
          (before.length + ((run ++ rest).length + 1))) =
      some ⟨kind, before.length, before.length + run.length⟩ := by
  have hmatch : rule.found? (.atAnchor parent before (node :: (run ++ rest))) =
      some ⟨kind, before.length, before.length + run.length⟩ := by
    rw [hreads.found?_eq, ← List.cons_append, hfound]
    exact congrArg some (Lookahead.runOf_of_closes hcloses rfl hnode kind)
  have haccepted : Match.isAccepted ⟨kind, before.length, before.length + run.length⟩ parent
      before.length (before.length + ((run ++ rest).length + 1)) = true := by
    rw [List.length_append]
    exact isAccepted_iff.2 (by simpa using hproper)
  rw [hmatch, Option.filter_some, if_pos haccepted]

/-- A pass tries its rule at the children of a level that its plan tells, and only there. -/
theorem tries_level (hreads : rule.Reads plan)
    (h : Levels lines plan parent next before ahead next' out) (hnext : first ≤ next)
    (hold : ∀ node ∈ ahead, NodeId.isFrom first node.id = false) :
    (level lines rule parent next before ahead).tries.filterMap (fun look => look.node?.map Node.id) =
      out.filterMap fun node => (node.piece first).tried? := by
  induction h with
  | done => rw [level]; rfl
  | @pass next next' before rest out node hnode hrest ih =>
      rw [List.forall_mem_cons] at hold
      rw [level, hnode, if_neg (by decide), ih hnext hold.2, List.filterMap_cons,
        Node.piece_of_old hold.1, hnode]
      rfl
  | @keep next next' before rest out node hnode hkept hrest ih =>
      rw [List.forall_mem_cons] at hold
      have hlook : (Lookahead.atAnchor parent before (node :: rest)).node? = some node :=
        Lookahead.node?_atAnchor hnode
      rw [level, if_pos hnode]
      simp only [filter_of_kept hreads hnode hkept]
      rw [List.filterMap_cons, hlook, ih hnext hold.2, List.filterMap_cons,
        Node.piece_of_old hold.1, if_pos hnode]
      rfl
  | @wrap next next' n before run rest out node kind hnode hcloses hfound hproper hrest ih =>
      rw [List.forall_mem_append] at hold
      have hlook : (Lookahead.atAnchor parent before (node :: (run ++ rest))).node? = some node :=
        Lookahead.node?_atAnchor hnode
      have hcount : before.length + run.length + 1 - before.length = run.length + 1 := by omega
      rw [List.cons_append, level, if_pos hnode]
      simp only [filter_of_wrapped hreads hnode hcloses hfound hproper, Nat.sub_self,
        Nat.add_sub_cancel_left, List.take_zero, List.drop_zero, List.drop_left, hcount,
        List.take_succ_cons, List.take_left, List.reverse_nil, List.nil_append]
      rw [List.filterMap_cons, hlook, ih (Nat.le_succ_of_le hnext) hold.2, List.filterMap_cons,
        Node.piece_wrap hnext]
      rfl

end Pass

/-- The pieces that the nodes of a level tell of make up the children that there were. -/
theorem Levels.flatMap_old (h : Levels lines plan parent next before ahead next' out)
    (hnext : first ≤ next) (hold : ∀ node ∈ ahead, NodeId.isFrom first node.id = false) :
    out.flatMap (fun node => (node.piece first).old) = ahead.map Node.id := by
  induction h with
  | done => rfl
  | @pass next next' before rest out node hnode hrest ih =>
      rw [List.forall_mem_cons] at hold
      rw [List.flatMap_cons, ih hnext hold.2, Node.piece_of_old hold.1, hnode]
      rfl
  | @keep next next' before rest out node hnode hkept hrest ih =>
      rw [List.forall_mem_cons] at hold
      rw [List.flatMap_cons, ih hnext hold.2, Node.piece_of_old hold.1, hnode]
      rfl
  | @wrap next next' n before run rest out node kind hnode hcloses hfound hproper hrest ih =>
      rw [List.forall_mem_append] at hold
      rw [List.flatMap_cons, ih (Nat.le_succ_of_le hnext) hold.2, Node.piece_wrap hnext]
      simp [Piece.old]

/-- A stay in a container, by what it does at each of the children that it leaves. -/
theorem Levels.events_stay (h : Levels lines plan parent next [] ahead next' out)
    (hnext : first ≤ next) (hold : ∀ node ∈ ahead, NodeId.isFrom first node.id = false)
    (container : NodeId) : Stay.events ⟨container, out.map (Node.piece first)⟩ =
      [.enter container (ahead.map Node.id)] ++ (out.flatMap (fun node => (node.piece first).events)
        ++ [.leave container (out.map Node.id)]) := by
  have hleft : (out.map (Node.piece first)).map Piece.left = out.map Node.id := by
    simp [Node.left_piece]
  rw [Stay.events, hleft, List.flatMap_map, List.flatMap_map, h.flatMap_old hnext hold]
  rfl

namespace Pass

/-- A visit does not change the name of a node. -/
theorem id_visit (lines : LineIndex) (rule : Rule) (fuel next : Nat) (node : Node) :
    (visit lines rule fuel next node).node.id = node.id := by
  obtain ⟨label, children⟩ := node
  cases fuel with
  | zero => rfl
  | succ fuel =>
      unfold visit
      split <;> rfl

theorem map_id_visitEach (lines : LineIndex) (rule : Rule) (fuel next : Nat) (nodes : List Node) :
    (visitEach (visit lines rule fuel) next nodes).nodes.map Node.id = nodes.map Node.id := by
  induction nodes generalizing next with
  | nil => rfl
  | cons node rest ih => rw [visitEach, List.map_cons, List.map_cons, id_visit, ih]

end Pass

end ConcreteSyntax
