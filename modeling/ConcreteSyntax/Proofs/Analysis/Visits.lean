import ConcreteSyntax.Proofs.Totality

/-!
# Visits of a pass

While a pass is under way, the stack of a walk is filled from child lists in which the pass has just
put new nodes.  All the same each container of the tree that the pass leaves is entered once, a
parent before its children and siblings from left to right, and nothing else is entered.  In each of
them the rule is tried at all children with a meaning, but for those that a run was wrapped over
before their turn came (`Walk.visits_containers_once`).
-/

namespace ConcreteSyntax

namespace Walk

/-- Whether a walk stands in front of some passes, with the tree of a text in its arena. -/
structure Rests (todo : List Finder) (parse : Parse) (walk : Walk) : Prop where
  tree_eq : walk.tree = .ofParse parse
  todo_eq : walk.todo = todo
  stack_eq : walk.stack = []
  level_eq : walk.level = none

theorem At.rests {parse : Parse} {first : Nat} {find : Finder} {todo : List Finder} {walk : Walk}
    (h : walk.At parse.lines first parse.next parse.root) (hwalk : walk.Between find todo []) :
    walk.Rests todo parse where
  tree_eq := (h.keeps.represents parse.notes).eq_ofParse h.keeps.numbered
  todo_eq := hwalk.todo_eq
  stack_eq := hwalk.stack_eq
  level_eq := hwalk.level_eq

/-- Each pass visits each container once.  In a walk over a built tree with passes of languages, let
a pass come after some others.  The log of the walk from the beginning of the pass to its end is made
up of stays.  There is one for each container of the tree that the pass leaves, in the order of the
tree, directives and what is in them apart.  These are the visits that the run of the pass tells
of, and the rule is tried in them where it tells. -/
theorem visits_containers_once (grammar : Grammar) (text : List Char) (early : List Pass)
    (pass : Pass) (late : List Pass)
    (hpasses : ∀ other ∈ early ++ pass :: late,
      ∃ language : Language, other ∈ language.grammar.passes) :
    let built := (Parse.build grammar text).analyse early
    let run := pass.run built.lines built.next built.root
    let left := (Parse.build grammar text).analyse (early ++ [pass])
    ∃ before after, ∃ stays : List Stay,
      (start (.ofParse (.build grammar text))
        ((early ++ pass :: late).map (·.rule.finder))).Reaches before
        ∧ before.Rests ((pass :: late).map (·.rule.finder)) built
        ∧ Follows (fun _ => True) before (stays.flatMap Stay.events) after
        ∧ after.Rests (late.map (·.rule.finder)) left
        ∧ stays.map Stay.outcome = left.root.containers
        ∧ (stays.map Stay.container).Nodup
        ∧ stays.map Stay.tried = run.visits.map Visit.tried := by
  intro built run left
  have hplanned : ∀ other ∈ early ++ pass :: late, other.Planned := by
    intro other hother
    obtain ⟨language, hmem⟩ := hpasses other hother
    exact language.planned_passes other hmem
  rw [List.forall_mem_append, List.forall_mem_cons] at hplanned
  obtain ⟨hearly, ⟨plan, hreads, hplan⟩, -⟩ := hplanned
  have hlaid : (Parse.build grammar text).WellLaid grammar.IsSound := Parse.wellLaid_build id text
  have hbegins : Between (fun _ _ _ => .ok none)
      (early.map (·.rule.finder) ++ (pass :: late).map (·.rule.finder)) []
      (start (.ofParse (.build grammar text)) ((early ++ pass :: late).map (·.rule.finder))) :=
    ⟨rfl, List.map_append, rfl, rfl⟩
  obtain ⟨before, first, find, hthrough, hbefore, hbetween⟩ :=
    (at_start hlaid _).through_early hearly hbegins
  have hat : before.At built.lines first built.next built.root := hbefore
  obtain ⟨after, stays, hlog, hstays, hafter, hrests⟩ := hat.follows_pass hreads hplan hbetween
  have hleft : left = { built with root := run.node, next := run.next } :=
    Parse.analyse_append _ early [pass]
  have houtcome : stays.map Stay.outcome = run.node.containers := by
    rw [hstays.outcome, List.flatMap_singleton]
  have hcontainers : stays.map Stay.container = run.node.containers.map Prod.fst := by
    rw [← houtcome, List.map_map]
    rfl
  refine ⟨before, after, stays, hthrough.reaches, hat.rests hbetween,
    hlog.mono fun _ _ => trivial, ?_, ?_, ?_, hstays.tried⟩
  · rw [hleft]
    exact hafter.rests hrests
  · rw [hleft]
    exact houtcome
  · rw [hcontainers]
    exact hafter.keeps.numbered.nodup.sublist (Node.containers_sublist _)

/-- The pass for control flow wraps a `return` in a block, and stays in the new node behind the
block. -/
theorem visits_containers_once_return :
    ∃ before after, ∃ stays : List Stay,
      (start (.ofParse (.build CFamily.cGrammar "{return x;}".toList))
        (CFamily.passes.map (·.rule.finder))).Reaches before
        ∧ Follows (fun _ => True) before (stays.flatMap Stay.events) after
        ∧ stays.map Stay.outcome = [(.fresh 0, [.fresh 1]),
          (.fresh 1, [.fresh 2, .fresh 8, .fresh 7]),
          (.fresh 8, [.fresh 3, .fresh 4, .fresh 5, .fresh 6])] := by
  obtain ⟨before, after, stays, hreaches, -, hlog, -, houtcome, -⟩ :=
    visits_containers_once CFamily.cGrammar "{return x;}".toList (CFamily.passes.take 3)
      ⟨"flow", CFamily.flow⟩ (CFamily.passes.drop 4) fun other hother => ⟨.c, hother⟩
  refine ⟨before, after, stays, hreaches, hlog, houtcome.trans ?_⟩
  decide +kernel

end Walk

end ConcreteSyntax
