import ConcreteSyntax.Proofs.Analysis.Growth
import ConcreteSyntax.Proofs.Analysis.Run

/-!
# Fences between siblings

A pass takes the siblings in front first.  Where none of its runs that begin in front reaches
across a place, what it makes of the siblings behind the place is a matter of those alone
(`Levels.exists_behind`).
-/

namespace ConcreteSyntax

namespace Plan

/-- Whether a run that begins in some siblings ends in them, whatever stands behind them. -/
def StaysWithin (plan : Plan) : List Kind → Prop
  | [] => True
  | kind :: rest =>
      (∀ scene behind found n, scene.kinds = kind :: (rest ++ behind) →
        plan scene = some (found, n) → n ≤ rest.length + 1) ∧ plan.StaysWithin rest

variable {plan : Plan} {kinds kinds' : List Kind}

theorem StaysWithin.append (h : plan.StaysWithin kinds) (h' : plan.StaysWithin kinds') :
    plan.StaysWithin (kinds ++ kinds') := by
  induction kinds with
  | nil => exact h'
  | cons kind rest ih =>
      rw [List.cons_append]
      refine ⟨fun scene behind found n hscene hfound => ?_, ih h.2⟩
      rw [List.append_assoc] at hscene
      have hle := h.1 scene (kinds' ++ behind) found n hscene hfound
      rw [List.length_append]
      omega

theorem StaysWithin.of_append (h : plan.StaysWithin (kinds ++ kinds')) :
    plan.StaysWithin kinds' := by
  induction kinds with
  | nil => exact h
  | cons kind rest ih => exact ih h.2

theorem staysWithin_flatMap {α : Type} {parts : List α} {kindsOf : α → List Kind}
    (h : ∀ part ∈ parts, plan.StaysWithin (kindsOf part)) :
    plan.StaysWithin (parts.flatMap kindsOf) := by
  induction parts with
  | nil => trivial
  | cons part rest ih =>
      rw [List.forall_mem_cons] at h
      exact h.1.append (ih h.2)

end Plan

namespace Closes

variable {n m : Nat} {run run' extra nodes rest rest' : List Node}

theorem eq_nil_of_append (h : Closes n run) (h' : Closes n (run ++ extra)) : extra = [] := by
  by_contra hne
  have hlast := h'.getLast_significant (extra.getLast hne) (by
    rw [List.getLast?_append_of_ne_nil run hne, List.getLast?_eq_getLast_of_ne_nil hne])
  have hcount := h'.length_filter
  rw [List.filter_append, List.length_append, h.length_filter, Nat.add_eq_left,
    List.length_eq_zero_iff, List.filter_eq_nil_iff] at hcount
  exact hcount _ (List.getLast_mem hne) hlast

theorem eq_nil_iff (h : Closes n run) (h' : Closes m (run ++ extra)) : extra = [] ↔ n = m := by
  constructor
  · rintro rfl
    rw [List.append_nil] at h'
    exact h.length_filter.symm.trans h'.length_filter
  · rintro rfl
    exact h.eq_nil_of_append h'

/-- A run in front of siblings is told by the number of its significant ones. -/
theorem eq_of_prefix (h : Closes n run) (h' : Closes n run') (hrun : run <+: nodes)
    (hrun' : run' <+: nodes) : run = run' := by
  rcases List.prefix_or_prefix_of_prefix hrun hrun' with ⟨extra, rfl⟩ | ⟨extra, rfl⟩
  · rw [h.eq_nil_of_append h', List.append_nil]
  · rw [h'.eq_nil_of_append h, List.append_nil]

/-- A run of no more significant siblings than there are in front ends in front. -/
theorem exists_left (h : Closes n run) (hsplit : run ++ rest = nodes ++ rest')
    (hle : n ≤ (nodes.filter (·.kind.isSignificant)).length) :
    ∃ left, nodes = run ++ left ∧ rest = left ++ rest' := by
  obtain ⟨run', left, rfl, hrun'⟩ := exists_closes h.pos hle
  rw [List.append_assoc] at hsplit
  obtain rfl := h.eq_of_prefix hrun' ⟨rest, rfl⟩ ⟨left ++ rest', hsplit.symm⟩
  exact ⟨left, rfl, List.append_cancel_left hsplit⟩

theorem of_getLast {nodes : List Node}
    (h : nodes.getLast?.any (·.kind.isSignificant) = true) :
    Closes (nodes.filter (·.kind.isSignificant)).length nodes := by
  induction nodes with
  | nil => cases h
  | cons node rest ih =>
      cases rest with
      | nil =>
          have hnode : node.kind.isSignificant = true := by simpa using h
          simpa [hnode] using Closes.last hnode
      | cons next rest =>
          rw [List.getLast?_cons_cons] at h
          cases hnode : node.kind.isSignificant with
          | true => simpa [List.filter_cons, hnode] using (ih h).take hnode
          | false => simpa [List.filter_cons, hnode] using (ih h).skip hnode

end Closes

/-- A new node gives way to its run. -/
theorem Node.erase_wrap {lines : LineIndex} {isNew : NodeId → Bool} {id : NodeId}
    (h : isNew id = true) (kind : Kind) (run : List Node) :
    (Node.wrap lines id kind run).erase isNew = run.flatMap (Node.erase isNew) := by
  rw [Node.wrap, Node.erase_mk]
  exact if_pos h

namespace Levels

variable {lines : LineIndex} {plan : Plan} {parent : Kind} {next next' : Nat}
  {before ahead front behind out : List Node} {isNew : NodeId → Bool}

theorem le (h : Levels lines plan parent next before ahead next' out) : next ≤ next' := by
  induction h with
  | done => exact Nat.le_refl _
  | pass _ _ ih | keep _ _ _ ih => exact ih
  | wrap _ _ _ _ _ ih => omega

/-- Without the new nodes, siblings are what they were. -/
theorem erase_eq (h : Levels lines plan parent next before ahead next' out)
    (hnew : ∀ index, next ≤ index → isNew (.fresh index) = true) :
    out.flatMap (Node.erase isNew) = ahead.flatMap (Node.erase isNew) := by
  induction h with
  | done => rfl
  | pass _ _ ih | keep _ _ _ ih => rw [List.flatMap_cons, List.flatMap_cons, ih hnew]
  | @wrap next _ _ _ run rest _ node kind _ _ _ _ _ ih =>
      rw [List.flatMap_cons, Node.erase_wrap (hnew next (Nat.le_refl next)), List.flatMap_append,
        ih fun index hindex => hnew index (Nat.le_of_succ_le hindex)]

/-- Behind siblings in which all runs stay that begin there, a level begins anew. -/
theorem exists_behind (h : Levels lines plan parent next before (front ++ behind) next' out)
    (hstays : plan.StaysWithin ((front.filter (·.kind.isSignificant)).map (·.kind)))
    (hnew : ∀ index, next ≤ index → isNew (.fresh index) = true) :
    ∃ done mid before' out', out = done ++ out' ∧ next ≤ mid
      ∧ done.flatMap (Node.erase isNew) = front.flatMap (Node.erase isNew)
      ∧ Levels lines plan parent mid before' behind next' out' := by
  generalize hahead : front ++ behind = ahead at h
  induction h generalizing front with
  | @done next before =>
      obtain ⟨rfl, rfl⟩ := List.append_eq_nil_iff.1 hahead
      exact ⟨[], next, before, [], rfl, Nat.le_refl next, rfl, .done⟩
  | @pass next next' before rest out node hnode hrest ih =>
      cases front with
      | nil =>
          obtain rfl : behind = node :: rest := hahead
          exact ⟨[], next, before, _, rfl, Nat.le_refl next, rfl, .pass hnode hrest⟩
      | cons first front =>
          obtain ⟨rfl, rfl⟩ := List.cons.inj hahead
          simp only [List.filter_cons, hnode, Bool.false_eq_true, if_false] at hstays
          obtain ⟨done, mid, before', out', rfl, hmid, herase, hbehind⟩ := ih hstays hnew rfl
          exact ⟨first :: done, mid, before', out', rfl, hmid, by simp [herase], hbehind⟩
  | @keep next next' before rest out node hnode hkept hrest ih =>
      cases front with
      | nil =>
          obtain rfl : behind = node :: rest := hahead
          exact ⟨[], next, before, _, rfl, Nat.le_refl next, rfl, .keep hnode hkept hrest⟩
      | cons first front =>
          obtain ⟨rfl, rfl⟩ := List.cons.inj hahead
          simp only [List.filter_cons, hnode, if_true, List.map_cons] at hstays
          obtain ⟨done, mid, before', out', rfl, hmid, herase, hbehind⟩ := ih hstays.2 hnew rfl
          exact ⟨first :: done, mid, before', out', rfl, hmid, by simp [herase], hbehind⟩
  | @wrap next next' n before run rest out node kind hnode hcloses hfound hproper hrest ih =>
      cases front with
      | nil =>
          obtain rfl : behind = node :: run ++ rest := hahead
          exact ⟨[], next, before, _, rfl, Nat.le_refl next, rfl,
            .wrap hnode hcloses hfound hproper hrest⟩
      | cons first front =>
          rw [List.cons_append, List.cons_append] at hahead
          obtain ⟨rfl, hbehind⟩ := List.cons.inj hahead
          -- the run was counted out in front, so it ends there
          have hle : n ≤ ((first :: front).filter (·.kind.isSignificant)).length := by
            have hcount := hstays
            simp only [List.filter_cons, hnode, if_true, List.map_cons] at hcount
            rw [List.cons_append, ← hbehind, Plan.scene_atAnchor hnode] at hfound
            have hle := hcount.1 _ ((behind.filter (·.kind.isSignificant)).map (·.kind)) kind n
              (by simp) hfound
            simpa [hnode] using hle
          obtain ⟨left, hfront, rfl⟩ := hcloses.exists_left hahead.symm hle
          rw [hfront] at hstays ⊢
          rw [List.filter_append, List.map_append] at hstays
          obtain ⟨done, mid, before', out', rfl, hmid, herase, hlevels⟩ :=
            ih hstays.of_append (fun index hindex => hnew index (Nat.le_of_succ_le hindex)) rfl
          refine ⟨_ :: done, mid, before', out', rfl, Nat.le_of_succ_le hmid, ?_, hlevels⟩
          rw [List.flatMap_cons, Node.erase_wrap (hnew next (Nat.le_refl next)), herase,
            List.flatMap_append]

end Levels

end ConcreteSyntax
