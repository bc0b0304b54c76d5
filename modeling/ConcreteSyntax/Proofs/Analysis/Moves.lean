import ConcreteSyntax.Proofs.Analysis.Run

/-!
# Moves over siblings

A rule goes on by a few moves, and each of them leads past some of the significant siblings ahead
(`Move.exists_past`).  So wherever a rule has come to, what it reads are the children from its
position on, and a run that it ends there begins and ends with siblings that it has consumed
(`Attempt.Reads`).
-/

namespace ConcreteSyntax

/-- What a rule can do at its place. -/
inductive Move where
  | start
  | advance
  | eat (kind : Kind)
  | eatThrough (stop : Kind) (allowed : Kind → Bool)
  | skipWhile (allowed : Kind → Bool)
  | complete (marker : Marker) (kind : Kind)
  | abandon (marker : Marker)

/-- Whether the child at an index is the first significant one of a kind from a position on, and
all significant children before it are allowed. -/
structure IsStop (children : List Node) (position : Nat) (stop : Kind) (allowed : Kind → Bool)
    (index : Nat) : Prop where
  le : position ≤ index
  here : ∃ node, children[index]? = some node ∧ node.kind.isSignificant = true ∧ node.kind = stop
  before : ∀ earlier node, position ≤ earlier → earlier < index → children[earlier]? = some node →
    node.kind.isSignificant = true → node.kind ≠ stop ∧ allowed node.kind = true

/-- Whether a run holds just those significant children that were consumed between two positions,
and begins and ends with one of them. -/
structure IsConsumed (children : List Node) (start stop : Nat) (found : Match) : Prop where
  le : found.start ≤ found.stop
  lt : found.stop < children.length
  first : ∃ node, children[found.start]? = some node ∧ node.kind.isSignificant = true
  last : ∃ node, children[found.stop]? = some node ∧ node.kind.isSignificant = true
  consumed : ∀ index node, children[index]? = some node → node.kind.isSignificant = true →
    (start ≤ index ∧ index < stop ↔ found.start ≤ index ∧ index ≤ found.stop)

variable {children nodes rest : List Node} {look : Lookahead} {stop : Kind}
  {allowed : Kind → Bool} {n index : Nat}

/-! ## Significant siblings -/

namespace Lookahead

theorem exists_of_firstFrom {found : Nat} {node : Node}
    (h : firstFrom index nodes = some (found, node, rest)) :
    ∃ skipped, nodes = skipped ++ node :: rest ∧ found = index + skipped.length
      ∧ node.kind.isSignificant = true
      ∧ ∀ other ∈ skipped, other.kind.isSignificant = false := by
  induction nodes generalizing index with
  | nil => cases h
  | cons head tail ih =>
      unfold firstFrom at h
      split at h
      · next hhead =>
          simp only [Option.some.injEq, Prod.mk.injEq] at h
          obtain ⟨rfl, rfl, rfl⟩ := h
          exact ⟨[], rfl, rfl, hhead, by simp⟩
      · next hhead =>
          obtain ⟨skipped, rfl, rfl, hnode, hskipped⟩ := ih h
          refine ⟨head :: skipped, rfl, by rw [List.length_cons]; omega, hnode, ?_⟩
          exact List.forall_mem_cons.2 ⟨Bool.eq_false_iff.2 hhead, hskipped⟩

theorem advance_of_kinds_eq_nil (h : look.kinds = []) : look.advance = look := by
  have hnone : look.next? = none := firstFrom_eq_none.2 (List.map_eq_nil_iff.1 h)
  rw [advance, hnone]

/-- Whether a place is one among children: those from its position on are ahead. -/
def IsOver (look : Lookahead) (children : List Node) : Prop :=
  look.ahead = children.drop look.position

namespace IsOver

/-- Significant siblings that lie ahead are consumed with what is between them, up to the last. -/
theorem exists_run (h : look.IsOver children) (hpos : 0 < n) (hle : n ≤ look.kinds.length) :
    ∃ run rest, children.drop look.position = run ++ rest ∧ Closes n run
      ∧ look.past n =
        { look with
          ahead := rest
          position := look.position + run.length
          last := some (look.position + run.length - 1) } := by
  rw [kinds, List.length_map] at hle
  obtain ⟨run, rest, hsplit, hcloses⟩ := exists_closes hpos hle
  exact ⟨run, rest, h ▸ hsplit, hcloses, past_of_closes hcloses hsplit⟩

theorem getElem? (h : look.IsOver children) (offset : Nat) :
    children[look.position + offset]? = look.ahead[offset]? := by
  rw [h, List.getElem?_drop]

theorem past (h : look.IsOver children) (hle : n ≤ look.kinds.length) :
    (look.past n).IsOver children := by
  rcases Nat.eq_zero_or_pos n with rfl | hpos
  · exact h
  · obtain ⟨run, rest, hsplit, _, hpast⟩ := h.exists_run hpos hle
    rw [IsOver, hpast, ← List.drop_drop, hsplit, List.drop_left]

/-- A run begins at the first significant sibling. -/
theorem startIndex (h : look.IsOver children) (hne : look.kinds ≠ []) :
    look.position ≤ look.startIndex
      ∧ (∃ node, children[look.startIndex]? = some node ∧ node.kind.isSignificant = true)
      ∧ ∀ index node, look.position ≤ index → index < look.startIndex →
        children[index]? = some node → node.kind.isSignificant = false := by
  cases hnext : look.next? with
  | none => exact absurd (List.map_eq_nil_iff.2 (firstFrom_eq_none.1 hnext)) hne
  | some found =>
      obtain ⟨first, node, rest⟩ := found
      obtain ⟨skipped, hahead, rfl, hnode, hskipped⟩ := exists_of_firstFrom hnext
      rw [Lookahead.startIndex, hnext]
      refine ⟨Nat.le_add_right _ _, ⟨node, by rw [h.getElem?, hahead]; simp, hnode⟩, ?_⟩
      intro index other hle hlt hother
      obtain ⟨offset, rfl⟩ := Nat.exists_eq_add_of_le hle
      rw [h.getElem?, hahead, List.getElem?_append_left (Nat.lt_of_add_lt_add_left hlt)] at hother
      exact hskipped other (List.mem_of_getElem? hother)

/-- What was consumed since a run began makes up the run. -/
theorem isConsumed (h : look.IsOver children) (hpos : 0 < n) (hle : n ≤ look.kinds.length)
    (kind : Kind) :
    IsConsumed children look.position (look.past n).position
      ((look.past n).run look.startIndex kind) := by
  obtain ⟨run, rest, hsplit, hcloses, hpast⟩ := h.exists_run hpos hle
  obtain ⟨hstart, hfirst, hbefore⟩ :=
    h.startIndex (List.ne_nil_of_length_pos (Nat.lt_of_lt_of_le hpos hle))
  have hlength := hcloses.length_pos
  obtain ⟨last, hlast⟩ : ∃ last, run.getLast? = some last :=
    ⟨_, List.getLast?_eq_some_getLast (List.ne_nil_of_length_pos hlength)⟩
  have hsignificant := hcloses.getLast_significant last hlast
  have hget : children[look.position + run.length - 1]? = some last := by
    rw [Nat.add_sub_assoc hlength, ← List.getElem?_drop, hsplit,
      List.getElem?_append_left (by omega), ← List.getLast?_eq_getElem?, hlast]
  -- a significant child is not in front of where the run begins
  have hreached : ∀ index node, look.position ≤ index → children[index]? = some node →
      node.kind.isSignificant = true → look.startIndex ≤ index := fun index node hle hnode hkind =>
    Nat.le_of_not_lt fun hlt =>
      Bool.false_ne_true ((hbefore index node hle hlt hnode).symm.trans hkind)
  have hle := hreached (look.position + run.length - 1) last (by omega) hget hsignificant
  rw [hpast, Lookahead.run, Option.getD_some]
  refine ⟨hle, (List.getElem?_eq_some_iff.1 hget).1, hfirst, ⟨last, hget, hsignificant⟩, ?_⟩
  intro index node hnode hkind
  dsimp only
  constructor
  · rintro ⟨hfrom, hto⟩
    exact ⟨hreached index node hfrom hnode hkind, by omega⟩
  · rintro ⟨hfrom, hto⟩
    omega

end IsOver

end Lookahead

/-! ## Stops -/

namespace Closes

/-- The significant nodes among some, and one more behind them. -/
theorem concat {node : Node} (hnode : node.kind.isSignificant = true) (skipped : List Node) :
    Closes ((skipped.filter (·.kind.isSignificant)).length + 1) (skipped ++ [node]) := by
  induction skipped with
  | nil => exact .last hnode
  | cons head tail ih =>
      cases hhead : head.kind.isSignificant with
      | true => simpa [hhead] using Closes.take hhead ih
      | false => simpa [hhead] using Closes.skip hhead ih

end Closes

namespace Lookahead.IsOver

/-- A stop by what is in front of it. -/
theorem isStop_iff (h : look.IsOver children) :
    IsStop children look.position stop allowed index ↔
      ∃ skipped node rest, look.ahead = skipped ++ node :: rest
        ∧ index = look.position + skipped.length
        ∧ node.kind.isSignificant = true ∧ node.kind = stop
        ∧ ∀ other ∈ skipped, other.kind.isSignificant = true →
          other.kind ≠ stop ∧ allowed other.kind = true := by
  constructor
  · intro hstop
    obtain ⟨offset, rfl⟩ := Nat.exists_eq_add_of_le hstop.le
    obtain ⟨node, hnode, hkind, hsame⟩ := hstop.here
    rw [h.getElem?] at hnode
    obtain ⟨hlt, rfl⟩ := List.getElem?_eq_some_iff.1 hnode
    refine ⟨look.ahead.take offset, look.ahead[offset], look.ahead.drop (offset + 1), ?_, ?_, hkind,
      hsame, fun other hother => ?_⟩
    · rw [← List.drop_eq_getElem_cons hlt, List.take_append_drop]
    · rw [List.length_take, Nat.min_eq_left (Nat.le_of_lt hlt)]
    · obtain ⟨earlier, hearlier⟩ := List.mem_iff_getElem?.1 hother
      rw [List.getElem?_take] at hearlier
      split at hearlier
      · next hbefore =>
          exact hstop.before (look.position + earlier) other (Nat.le_add_right _ _)
            (Nat.add_lt_add_left hbefore _) (h.getElem? earlier ▸ hearlier)
      · cases hearlier
  · rintro ⟨skipped, node, rest, hahead, rfl, hkind, hsame, hskipped⟩
    refine ⟨Nat.le_add_right _ _, ⟨node, by rw [h.getElem?, hahead]; simp, hkind, hsame⟩, ?_⟩
    intro earlier other hle hlt hother
    obtain ⟨offset, rfl⟩ := Nat.exists_eq_add_of_le hle
    rw [h.getElem?, hahead, List.getElem?_append_left (Nat.lt_of_add_lt_add_left hlt)] at hother
    exact hskipped other (List.mem_of_getElem? hother)

/-- A place that is moved through up to a stop is right behind it. -/
theorem through_of_isStop (h : look.IsOver children)
    (hstop : IsStop children look.position stop allowed index) :
    ∃ n, Plan.through stop allowed look.kinds = some n ∧ (look.past n).position = index + 1
      ∧ (look.past n).last = some index := by
  obtain ⟨skipped, node, rest, hahead, rfl, hkind, rfl, hskipped⟩ := h.isStop_iff.1 hstop
  have hkinds : look.kinds = (skipped.filter (·.kind.isSignificant)).map (·.kind)
      ++ node.kind :: (rest.filter (·.kind.isSignificant)).map (·.kind) := by
    simp [kinds, significant, hahead, hkind]
  have hfront : ∀ kind ∈ (skipped.filter (·.kind.isSignificant)).map (·.kind),
      kind ≠ node.kind ∧ allowed kind = true := List.forall_mem_map.2 fun other hother =>
    hskipped other (List.mem_filter.1 hother).1 (List.mem_filter.1 hother).2
  have hpast := past_of_closes (Closes.concat hkind skipped)
    (hahead.trans (List.append_cons skipped node rest))
  refine ⟨(skipped.filter (·.kind.isSignificant)).length + 1, ?_, ?_, ?_⟩
  · rw [hkinds, Plan.through_append allowed hfront, List.length_map]
  all_goals
    rw [hpast]
    simp [Nat.add_assoc]

/-- Where a place is moved through up to a kind, there is a stop. -/
theorem exists_isStop (h : look.IsOver children)
    (hthrough : Plan.through stop allowed look.kinds = some n) :
    ∃ index, IsStop children look.position stop allowed index := by
  obtain ⟨front, back, hkinds, -, hfront⟩ := Plan.through_eq_some_iff.1 hthrough
  obtain ⟨before, behind, hsplit, rfl, hbehind⟩ := List.map_eq_append_iff.1 hkinds
  obtain ⟨node, behind, rfl, hsame, rfl⟩ := List.map_eq_cons_iff.1 hbehind
  obtain ⟨skipped, ahead, hahead, rfl, hfilter⟩ := List.filter_eq_append_iff.1 hsplit
  obtain ⟨trivia, rest, rfl, htrivia, hkind, _⟩ := List.filter_eq_cons_iff.1 hfilter
  refine ⟨_, h.isStop_iff.2 ⟨skipped ++ trivia, node, rest, ?_, rfl, hkind, hsame, ?_⟩⟩
  · rw [hahead, List.append_assoc]
  · intro other hother hsignificant
    rcases List.mem_append.1 hother with hother | hother
    · exact hfront _ (List.mem_map_of_mem (List.mem_filter.2 ⟨hother, hsignificant⟩))
    · exact absurd hsignificant (htrivia other hother)

end Lookahead.IsOver

namespace Move

/-! ## Moves -/

/-- The action of a move, which tells whether siblings were consumed. -/
def action : Move → Action Bool
  | start => do
      let _ ← Action.start
      return false
  | advance => do
      let look ← Action.place
      Action.advance
      return look.current?.isSome
  | eat kind => Action.eat kind
  | eatThrough stop allowed => Action.eatThrough stop allowed
  | skipWhile allowed => do
      let look ← Action.place
      Action.skipWhile allowed
      return look.current?.any allowed
  | complete marker kind => do
      let _ ← Action.complete marker kind
      return false
  | abandon marker => do
      Action.abandon marker
      return false

/-- The actions of several moves, which tell whether any of them consumed siblings. -/
def actions : List Move → Action Bool
  | [] => return false
  | move :: rest => do
      let moved ← move.action
      let more ← actions rest
      return moved || more

/-- A move leads past significant siblings that are there, and tells whether there are any. -/
theorem exists_past (move : Move) (attempt : Attempt) :
    ∃ n ≤ attempt.look.kinds.length, ∃ markers,
      move.action.run attempt = .ok (decide (0 < n)) ⟨attempt.look.past n, markers⟩ := by
  obtain ⟨look, markers⟩ := attempt
  cases move with
  | start => exact ⟨0, Nat.zero_le _, _, rfl⟩
  | complete marker kind => exact ⟨0, Nat.zero_le _, _, rfl⟩
  | abandon marker => exact ⟨0, Nat.zero_le _, _, rfl⟩
  | advance =>
      have hrun : (action .advance).run ⟨look, markers⟩ =
          .ok look.current?.isSome ⟨look.advance, markers⟩ := rfl
      rw [hrun, Lookahead.current?_eq]
      cases hkinds : look.kinds with
      | nil => exact ⟨0, Nat.le_refl _, _, by rw [Lookahead.advance_of_kinds_eq_nil hkinds]; rfl⟩
      | cons kind rest => exact ⟨1, Nat.succ_le_succ (Nat.zero_le _), _, rfl⟩
  | eat kind =>
      rw [action, Action.run_eat]
      cases hkinds : look.kinds with
      | nil => exact ⟨0, Nat.le_refl _, _, rfl⟩
      | cons head rest =>
          by_cases hhead : head = kind
          · exact ⟨1, Nat.succ_le_succ (Nat.zero_le _), markers, by simp [hhead]⟩
          · exact ⟨0, Nat.zero_le _, markers, by simp [hhead]⟩
  | eatThrough stop allowed =>
      rw [action, Action.run_eatThrough]
      cases hthrough : Plan.through stop allowed look.kinds with
      | none => exact ⟨0, Nat.zero_le _, _, rfl⟩
      | some n =>
          exact ⟨n, Plan.through_le hthrough, markers, by simp [Plan.through_pos hthrough]⟩
  | skipWhile allowed =>
      have hrun : (action (.skipWhile allowed)).run ⟨look, markers⟩ =
          .ok (look.current?.any allowed) ⟨look.skipWhile allowed, markers⟩ := rfl
      rw [hrun, Lookahead.skipWhile_eq, Lookahead.current?_eq]
      refine ⟨_, Plan.countWhile_le allowed look.kinds, markers, ?_⟩
      congr 1
      cases hkinds : look.kinds with
      | nil => rfl
      | cons head rest => cases hhead : allowed head <;> simp [Plan.countWhile, hhead]

/-- So do several moves. -/
theorem exists_past_actions (moves : List Move) (attempt : Attempt) :
    ∃ n ≤ attempt.look.kinds.length, ∃ markers,
      (actions moves).run attempt = .ok (decide (0 < n)) ⟨attempt.look.past n, markers⟩ := by
  induction moves generalizing attempt with
  | nil => exact ⟨0, Nat.zero_le _, _, rfl⟩
  | cons move rest ih =>
      obtain ⟨n, hn, markers, hmove⟩ := move.exists_past attempt
      obtain ⟨m, hm, markers', hrest⟩ := ih ⟨attempt.look.past n, markers⟩
      rw [Lookahead.kinds_past, List.length_drop] at hm
      refine ⟨n + m, by omega, markers', ?_⟩
      rw [actions, Action.run_bind, hmove]
      dsimp only
      rw [Action.run_bind, hrest]
      dsimp only
      rw [Action.run_pure, Lookahead.past_past]
      congr 1
      rw [Bool.eq_iff_iff]
      simp only [Bool.or_eq_true, decide_eq_true_eq]
      omega

end Move

/-! ## Readings -/

/-- What a rule reads and does where it has come to among children.  The siblings that it counts
are the children from its position on that are neither trivia nor comments.  It moves through to a
kind just where there is a stop, right behind which it is then, and where a run ends; otherwise
nothing changes.  And whatever it does after it has marked the start of a run, if it consumes
siblings, they make up the run. -/
structure Attempt.Reads (attempt : Attempt) (children : List Node) : Prop where
  nth : ∀ n, attempt.look.nth? n =
    (((children.drop attempt.look.position).filter fun node =>
      !node.kind.isTrivia && !node.kind.isComment)[n]?).map (·.kind)
  through : ∀ stop allowed index, IsStop children attempt.look.position stop allowed index →
    ∃ after, (Action.eatThrough stop allowed).run attempt = .ok true after
      ∧ after.look.position = index + 1
      ∧ ∀ marker kind, ∃ done,
        (Action.complete marker kind).run after = .ok ⟨kind, marker.start, index⟩ done
  refused : ∀ stop allowed, (∀ index, ¬ IsStop children attempt.look.position stop allowed index) →
    (Action.eatThrough stop allowed).run attempt = .ok false attempt
  completed : ∀ moves kind, ∃ marker marked moved after found done,
    Action.start.run attempt = .ok marker marked
      ∧ (Move.actions moves).run marked = .ok moved after
      ∧ (Action.complete marker kind).run after = .ok found done
      ∧ (moved = true →
        IsConsumed children attempt.look.position after.look.position found)

theorem Lookahead.IsOver.reads {attempt : Attempt} (h : attempt.look.IsOver children) :
    attempt.Reads children where
  nth n := by rw [nth?_eq, kinds, significant, h, List.getElem?_map]; rfl
  through stop allowed index hstop := by
    obtain ⟨n, hthrough, hposition, hlast⟩ := h.through_of_isStop hstop
    have hrun := Action.run_eatThrough stop allowed attempt
    rw [hthrough] at hrun
    refine ⟨_, hrun, hposition, fun marker kind => ?_⟩
    rw [Action.run_complete, Option.getD_some, run, hlast]
    exact ⟨_, rfl⟩
  refused stop allowed hnone := by
    rw [Action.run_eatThrough]
    cases hthrough : Plan.through stop allowed attempt.look.kinds with
    | none => rfl
    | some n => exact (h.exists_isStop hthrough).elim fun index hstop => absurd hstop (hnone index)
  completed moves kind := by
    obtain ⟨n, hn, markers, hmoves⟩ :=
      Move.exists_past_actions moves { attempt with markers := attempt.markers + 1 }
    refine ⟨_, _, _, _, _, _, Action.run_start attempt, hmoves, Action.run_complete _ kind _, ?_⟩
    exact fun hmoved => h.isConsumed (of_decide_eq_true hmoved) hn kind

/-- The place at the child of a node with an index. -/
def Node.lookAt (parent : Node) (anchor : Nat) : Lookahead :=
  .atAnchor parent.kind (parent.children.take anchor).reverse (parent.children.drop anchor)

/-- Wherever a rule gets by whatever moves from whichever child of a node, it reads the children of
the node. -/
theorem Move.reads_children (parent : Node) (anchor : Nat) (moves : List Move) :
    ∃ moved attempt, (actions moves).run ⟨parent.lookAt anchor, 0⟩ = .ok moved attempt
      ∧ attempt.Reads parent.children := by
  have hover : (parent.lookAt anchor).IsOver parent.children := by
    rw [Lookahead.IsOver, Node.lookAt, Lookahead.atAnchor, List.length_reverse, List.length_take]
    rcases Nat.le_total anchor parent.children.length with hle | hle
    · rw [Nat.min_eq_left hle]
    · rw [Nat.min_eq_right hle, List.drop_eq_nil_of_le hle, List.drop_length]
  obtain ⟨n, hn, markers, hmoves⟩ := exists_past_actions moves ⟨parent.lookAt anchor, 0⟩
  exact ⟨_, _, hmoves, (hover.past hn).reads⟩

end ConcreteSyntax
