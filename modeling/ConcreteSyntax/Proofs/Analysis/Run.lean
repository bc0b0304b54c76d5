import ConcreteSyntax.Analysis.Pass
import ConcreteSyntax.Proofs.Analysis.Plan

/-!
# Runs of siblings

A rule that follows a plan finds runs that begin with their anchor and end with a significant
sibling.  What a sound plan sees of such a run inside the new node is what it saw before, so
no rule of a sound plan wraps the whole content of a node that it has made itself.
-/

namespace ConcreteSyntax

/-- Siblings of which `n` are significant, the last one among them. -/
inductive Closes : Nat → List Node → Prop
  | last {node : Node} (hnode : node.kind.isSignificant = true) : Closes 1 [node]
  | skip {n : Nat} {node : Node} {rest : List Node} (hnode : node.kind.isSignificant = false)
      (hrest : Closes n rest) : Closes n (node :: rest)
  | take {n : Nat} {node : Node} {rest : List Node} (hnode : node.kind.isSignificant = true)
      (hrest : Closes n rest) : Closes (n + 1) (node :: rest)

namespace Closes

variable {n : Nat} {run : List Node}

theorem length_filter (h : Closes n run) : (run.filter (·.kind.isSignificant)).length = n := by
  induction h with
  | last hnode => simp [hnode]
  | skip hnode _ ih => simp [hnode, ih]
  | take hnode _ ih => simp [hnode, ih]

theorem pos (h : Closes n run) : 0 < n := by
  induction h with
  | last _ => omega
  | skip _ _ ih => exact ih
  | take _ _ _ => omega

theorem length_pos (h : Closes n run) : 0 < run.length := by
  cases h <;> simp

theorem getLast_significant (h : Closes n run) :
    ∀ last, run.getLast? = some last → last.kind.isSignificant = true := by
  induction h with
  | @last node hnode =>
      intro last hlast
      simp only [List.getLast?_singleton, Option.some.injEq] at hlast
      exact hlast ▸ hnode
  | @skip n node rest hnode hrest ih =>
      intro last hlast
      have hne : rest ≠ [] := List.length_pos_iff.1 hrest.length_pos
      rw [List.getLast?_cons_of_ne_nil hne] at hlast
      exact ih last hlast
  | @take n node rest hnode hrest ih =>
      intro last hlast
      have hne : rest ≠ [] := List.length_pos_iff.1 hrest.length_pos
      rw [List.getLast?_cons_of_ne_nil hne] at hlast
      exact ih last hlast

end Closes

theorem exists_closes {n : Nat} {nodes : List Node} (hpos : 0 < n)
    (hle : n ≤ (nodes.filter (·.kind.isSignificant)).length) :
    ∃ run rest, nodes = run ++ rest ∧ Closes n run := by
  induction nodes generalizing n with
  | nil =>
      simp only [List.filter_nil, List.length_nil] at hle
      omega
  | cons node rest ih =>
      cases hnode : node.kind.isSignificant with
      | false =>
          simp only [List.filter_cons, hnode, Bool.false_eq_true, if_false] at hle
          obtain ⟨run, after, hsplit, hcloses⟩ := ih hpos hle
          exact ⟨node :: run, after, by rw [hsplit, List.cons_append], .skip hnode hcloses⟩
      | true =>
          simp only [List.filter_cons, hnode, if_true, List.length_cons] at hle
          by_cases hone : n = 1
          · exact ⟨[node], rest, rfl, hone ▸ .last hnode⟩
          · obtain ⟨m, rfl⟩ : ∃ m, n = m + 1 := ⟨n - 1, by omega⟩
            obtain ⟨run, after, hsplit, hcloses⟩ := ih (n := m) (by omega) (by omega)
            exact ⟨node :: run, after, by rw [hsplit, List.cons_append], .take hnode hcloses⟩

namespace Lookahead

theorem advance_of_significant {look : Lookahead} {node : Node} {rest : List Node}
    (hahead : look.ahead = node :: rest) (hnode : node.kind.isSignificant = true) :
    look.advance =
      { look with ahead := rest, position := look.position + 1, last := some look.position } := by
  simp [advance, next?, hahead, firstFrom, hnode]

theorem advance_of_not_significant {look : Lookahead} {node : Node} {rest : List Node}
    (hahead : look.ahead = node :: rest) (hnode : node.kind.isSignificant = false)
    (hrest : (rest.filter (·.kind.isSignificant)) ≠ []) :
    look.advance = { look with ahead := rest, position := look.position + 1 }.advance := by
  have hsome : firstFrom (look.position + 1) rest ≠ none := fun h => hrest (firstFrom_eq_none.1 h)
  simp only [advance, next?, hahead, firstFrom, hnode]
  cases hfirst : firstFrom (look.position + 1) rest with
  | none => exact absurd hfirst hsome
  | some found => simp

/-- The place behind a run that holds `n` significant siblings. -/
theorem past_of_closes {n : Nat} {run : List Node} (h : Closes n run) {look : Lookahead}
    {rest : List Node} (hahead : look.ahead = run ++ rest) :
    look.past n =
      { look with
        ahead := rest
        position := look.position + run.length
        last := some (look.position + run.length - 1) } := by
  induction h generalizing look with
  | last hnode =>
      rw [past_one, advance_of_significant hahead hnode]
      rfl
  | @skip n node run hnode hrest ih =>
      obtain ⟨m, rfl⟩ : ∃ m, n = m + 1 := ⟨n - 1, by have := hrest.pos; omega⟩
      have hne : ((run ++ rest).filter (·.kind.isSignificant)) ≠ [] := by
        have hlength := hrest.length_filter
        intro hnil
        rw [List.filter_append, List.append_eq_nil_iff] at hnil
        rw [hnil.1] at hlength
        simp at hlength
      rw [past_succ, advance_of_not_significant hahead hnode hne, ← past_succ, ih rfl]
      have hlength := hrest.length_pos
      simp only [List.length_cons, mk.injEq, Option.some.injEq, true_and]
      omega
  | @take n node run hnode hrest ih =>
      rw [past_succ, advance_of_significant hahead hnode, ih rfl]
      have hlength := hrest.length_pos
      simp only [List.length_cons, mk.injEq, Option.some.injEq, true_and]
      omega

theorem runOf_of_closes {n : Nat} {run rest : List Node} {node : Node} (h : Closes n (node :: run))
    {look : Lookahead} (hahead : look.ahead = node :: run ++ rest)
    (hnode : node.kind.isSignificant = true) (kind : Kind) :
    look.runOf n kind = ⟨kind, look.position, look.position + run.length⟩ := by
  have hstart : look.startIndex = look.position := by
    simp [startIndex, next?, hahead, firstFrom, hnode]
  rw [runOf, past_of_closes h hahead, Lookahead.run, hstart]
  simp only [List.length_cons, Option.getD_some]
  congr 1

end Lookahead

namespace Plan

/-- What a plan sees from the first of the children of a node. -/
def look (parent : Kind) (nodes : List Node) : Scene := (Lookahead.atAnchor parent [] nodes).scene

/-- Whether a plan can only take all children of a node for one of the same kind. -/
def Firm (plan : Plan) (parent : Kind) (nodes : List Node) : Prop :=
  ∀ kind n, plan (look parent nodes) = some (kind, n) → Closes n nodes → kind = parent

variable {plan : Plan}

theorem scene_atAnchor {parent : Kind} {before rest : List Node} {node : Node}
    (hnode : node.kind.isSignificant = true) :
    (Lookahead.atAnchor parent before (node :: rest)).scene =
      { parent
        previous := (before.map (·.kind)).find? (·.isSignificant)
        kinds := node.kind :: (rest.filter (·.kind.isSignificant)).map (·.kind)
        text? := node.text?
        inner := node.significantChildren.map (·.kind) } := by
  have hsome : (Lookahead.atAnchor parent before (node :: rest)).node? = some node := by
    simp [Lookahead.node?_eq, Lookahead.significant, Lookahead.atAnchor, hnode]
  simp only [Lookahead.scene, Lookahead.text?, hsome]
  simp [Lookahead.kinds, Lookahead.significant, Lookahead.previous?, Lookahead.atAnchor, hnode]

/-- In the node over a run, its plan sees the run again. -/
theorem look_eq_within {parent : Kind} {before run rest : List Node} {node : Node} {n : Nat}
    (hnode : node.kind.isSignificant = true) (hcloses : Closes n (node :: run)) (kind : Kind) :
    look kind (node :: run) =
      (Lookahead.atAnchor parent before (node :: run ++ rest)).scene.within kind n := by
  have hlength := hcloses.length_filter
  simp only [List.filter_cons, hnode, if_true, List.length_cons] at hlength
  rw [look, List.cons_append, scene_atAnchor hnode, scene_atAnchor hnode, Scene.within]
  simp [← hlength]

/-- A node that a sound plan makes is firm. -/
theorem firm_of_found (hplan : plan.Sound) {parent kind : Kind} {before run rest : List Node}
    {node : Node} {n : Nat} (hnode : node.kind.isSignificant = true)
    (hcloses : Closes n (node :: run))
    (hfound : plan (Lookahead.atAnchor parent before (node :: run ++ rest)).scene =
      some (kind, n)) : plan.Firm kind (node :: run) := by
  intro other m hother hwhole
  have hcount : m = n := hwhole.length_filter.symm.trans hcloses.length_filter
  rw [look_eq_within hnode hcloses, hcount] at hother
  exact hplan.steady hfound hother

end Plan

/-- What a pass makes of a child list, by the plan of its rule. -/
inductive Levels (lines : LineIndex) (plan : Plan) (parent : Kind) :
    Nat → List Node → List Node → Nat → List Node → Prop
  | done {next : Nat} {before : List Node} : Levels lines plan parent next before [] next []
  | pass {next next' : Nat} {before rest out : List Node} {node : Node}
      (hnode : node.kind.isSignificant = false)
      (hrest : Levels lines plan parent next (node :: before) rest next' out) :
      Levels lines plan parent next before (node :: rest) next' (node :: out)
  | keep {next next' : Nat} {before rest out : List Node} {node : Node}
      (hnode : node.kind.isSignificant = true)
      (hkept : ∀ kind n, plan (Lookahead.atAnchor parent before (node :: rest)).scene =
        some (kind, n) → before = [] ∧ Closes n (node :: rest) ∧ parent = kind)
      (hrest : Levels lines plan parent next (node :: before) rest next' out) :
      Levels lines plan parent next before (node :: rest) next' (node :: out)
  | wrap {next next' n : Nat} {before run rest out : List Node} {node : Node} {kind : Kind}
      (hnode : node.kind.isSignificant = true) (hcloses : Closes n (node :: run))
      (hfound : plan (Lookahead.atAnchor parent before (node :: run ++ rest)).scene =
        some (kind, n))
      (hproper : ¬(before = [] ∧ rest = [] ∧ parent = kind))
      (hrest : Levels lines plan parent (next + 1)
        (Node.wrap lines (.fresh next) kind (node :: run) :: before) rest next' out) :
      Levels lines plan parent next before (node :: run ++ rest) next'
        (Node.wrap lines (.fresh next) kind (node :: run) :: out)

namespace Pass

variable {lines : LineIndex} {rule : Rule} {plan : Plan}

/-- A rule that follows a plan takes the run that the plan counts out. -/
theorem found?_of_plan (hreads : rule.Reads plan) (hsound : plan.Sound) {parent kind : Kind}
    {before rest : List Node} {node : Node} {n : Nat} (hnode : node.kind.isSignificant = true)
    (hplan : plan (Lookahead.atAnchor parent before (node :: rest)).scene = some (kind, n)) :
    ∃ run after, rest = run ++ after ∧ Closes n (node :: run)
      ∧ rule.found? (.atAnchor parent before (node :: rest)) =
        some ⟨kind, before.length, before.length + run.length⟩ := by
  have hle : n ≤ ((node :: rest).filter (·.kind.isSignificant)).length := by
    have hkinds := hsound.le hplan
    simpa [Lookahead.scene, Lookahead.kinds, Lookahead.significant, Lookahead.atAnchor] using hkinds
  obtain ⟨run, after, hsplit, hcloses⟩ := exists_closes (hsound.pos hplan) hle
  cases run with
  | nil => exact absurd hcloses.length_pos (by simp)
  | cons first run =>
      rw [List.cons_append, List.cons.injEq] at hsplit
      obtain ⟨rfl, hrest⟩ := hsplit
      refine ⟨run, after, hrest, hcloses, ?_⟩
      have hahead : (Lookahead.atAnchor parent before (node :: rest)).ahead =
          node :: run ++ after := by
        rw [hrest]
        rfl
      rw [hreads.found?_eq, hplan, Option.map_some]
      exact congrArg some (Lookahead.runOf_of_closes hcloses hahead hnode kind)

/-- A run from its anchor on is accepted unless it is the whole content of a node of its own
kind. -/
theorem isAccepted_iff {kind parent : Kind} {before run after : Nat} :
    Match.isAccepted ⟨kind, before, before + run⟩ parent before (before + (run + after + 1)) = true
      ↔ ¬(before = 0 ∧ after = 0 ∧ parent = kind) := by
  have hlt : run < run + after + 1 := by omega
  have hwhole : before + run + 1 = before + (run + after + 1) ↔ after = 0 := by omega
  by_cases hbefore : before = 0 <;> by_cases hafter : after = 0 <;>
    simp [Match.isAccepted, hlt, hwhole, hbefore, hafter]

theorem levels_level (lines : LineIndex) (hreads : rule.Reads plan) (hsound : plan.Sound)
    (parent : Kind) (next : Nat) (before ahead : List Node) :
    ∃ out, (level lines rule parent next before ahead).children = before.reverse ++ out
      ∧ Levels lines plan parent next before ahead
        (level lines rule parent next before ahead).next out := by
  fun_induction level lines rule parent next before ahead with
  | case1 next before => exact ⟨[], by simp, .done⟩
  | case2 next before node rest hnode look anchor hfound below ih =>
      obtain ⟨out, hchildren, hlevels⟩ := ih
      refine ⟨node :: out, by simp [hchildren, below], .keep hnode (fun kind n hplan => ?_) hlevels⟩
      obtain ⟨run, after, rfl, hcloses, hrule⟩ := found?_of_plan hreads hsound hnode hplan
      -- what is found and kept would take all children for a node of the kind of their parent
      have hrejected : ¬Match.isAccepted ⟨kind, before.length, before.length + run.length⟩ parent
          before.length (before.length + (run.length + after.length + 1)) = true := by
        rw [Option.filter_eq_none_iff] at hfound
        have hnone := hfound _ hrule
        rwa [List.length_append] at hnone
      rw [isAccepted_iff, Decidable.not_not, List.length_eq_zero_iff,
        List.length_eq_zero_iff] at hrejected
      obtain ⟨hbefore, rfl, hparent⟩ := hrejected
      exact ⟨hbefore, by rwa [List.append_nil], hparent⟩
  | case3 next before node rest hnode look anchor found hfound skipped run wrapped below ih =>
      obtain ⟨out, hchildren, hlevels⟩ := ih
      obtain ⟨hsome, haccepted⟩ := Option.filter_eq_some_iff.1 hfound
      have hrule := hsome
      rw [hreads.found?_eq, Option.map_eq_some_iff] at hrule
      obtain ⟨⟨kind, n⟩, hplan, _⟩ := hrule
      obtain ⟨inner, after, rfl, hcloses, hrule⟩ := found?_of_plan hreads hsound hnode hplan
      obtain rfl : found = ⟨kind, before.length, before.length + inner.length⟩ :=
        Option.some.inj (hsome.symm.trans hrule)
      have hproper := haccepted
      rw [List.length_append, isAccepted_iff, List.length_eq_zero_iff,
        List.length_eq_zero_iff] at hproper
      -- the run begins at its anchor, so nothing is skipped in front of it
      have hcount : before.length + inner.length + 1 - before.length = inner.length + 1 := by
        omega
      have hrun : run = node :: inner := by simp [run, anchor, hcount]
      have hskipped : skipped = [] := by simp [skipped, anchor]
      have hrest : (inner ++ after).drop (before.length + inner.length - anchor) = after := by
        simp [anchor]
      have hwrapped : wrapped = Node.wrap lines (.fresh next) kind (node :: inner) := by
        simp only [wrapped, hrun]
      simp only [hrest, hskipped, hwrapped, List.reverse_nil, List.nil_append] at hchildren hlevels
      refine ⟨wrapped :: out, ?_, ?_⟩
      · simp only [below, hrest, hskipped, hwrapped, List.reverse_nil, List.nil_append]
        rw [hchildren, List.reverse_cons, List.append_assoc, List.singleton_append]
      · simp only [below, hrest, hskipped, hwrapped, List.reverse_nil, List.nil_append]
        exact .wrap hnode hcloses hplan hproper hlevels
  | case4 next before node rest hnode ih =>
      obtain ⟨out, hchildren, hlevels⟩ := ih
      exact ⟨node :: out, by simp [hchildren], .pass (by simpa using hnode) hlevels⟩

end Pass

end ConcreteSyntax
