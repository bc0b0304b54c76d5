import ConcreteSyntax.Proofs.CFamily.Stages

/-!
# Tight nodes

A run is wrapped from its first significant sibling through its last one, and whatever a later pass
puts in their place is significant, too.  So the nodes that analysis makes begin and end with
neither trivia nor comments, at every stage (`Language.tight_parse`).
-/

namespace ConcreteSyntax

/-- Whether the first and the last child of a node are neither trivia nor comments. -/
structure Node.IsTight (node : Node) : Prop where
  first : ∃ first, node.children.head? = some first ∧ first.kind.isTrivia = false
    ∧ first.kind.isComment = false
  last : ∃ last, node.children.getLast? = some last ∧ last.kind.isTrivia = false
    ∧ last.kind.isComment = false

/-- Whether siblings of some kinds begin and end with significant ones. -/
structure EndsTight (kinds : List Kind) : Prop where
  ne_nil : kinds ≠ []
  snug : Snug [] kinds

theorem Kind.isSignificant_eq_true {kind : Kind} (h : kind.isSignificant = true) :
    kind.isTrivia = false ∧ kind.isComment = false := by
  simpa [isSignificant] using h

theorem EndsTight.isTight {node : Node} (h : EndsTight (node.children.map (·.kind))) :
    node.IsTight := by
  have hne : node.children ≠ [] := fun hnil => h.ne_nil (by rw [hnil]; rfl)
  constructor
  · refine ⟨node.children.head hne, List.head?_eq_some_head hne, ?_⟩
    apply Kind.isSignificant_eq_true
    apply (h.snug.first rfl).2
    rw [List.head?_map, List.head?_eq_some_head hne]
    rfl
  · refine ⟨node.children.getLast hne, List.getLast?_eq_some_getLast hne, ?_⟩
    apply Kind.isSignificant_eq_true
    apply h.snug.last
    rw [List.getLast?_map, List.getLast?_eq_some_getLast hne]
    rfl

namespace Plan

variable {plan : Plan} {isNew : NodeId → Bool} {parent kind : Kind}
  {children children' run : List Node}

/-- A turn leaves significant siblings at both ends, be they old or new. -/
theorem Turns.endsTight (h : plan.Turns isNew parent children children') (hsound : plan.Sound)
    (hchildren : EndsTight (children.map (·.kind))) : EndsTight (children'.map (·.kind)) := by
  obtain ⟨lines, next, next', out, hlevels, -, hout⟩ := h
  rw [Node.map_kind_of_resembles hout]
  refine ⟨fun hnil => hchildren.ne_nil ?_, hlevels.snug hsound hchildren.snug⟩
  obtain rfl := List.map_eq_nil_iff.1 hnil
  rw [hlevels.eq_nil]
  rfl

/-- What is counted out begins and ends with significant siblings. -/
theorem Made.endsTight (h : plan.Made kind run) : EndsTight (run.map (·.kind)) := by
  obtain ⟨parent, before, rest, n, -, hcloses⟩ := h.found
  obtain ⟨first, hhead, hfirst⟩ := (Option.any_eq_true _ _).1 h.first
  obtain ⟨others, rfl⟩ := List.head?_eq_some_iff.1 hhead
  exact ⟨by simp, hcloses.snug hfirst⟩

theorem upholds_endsTight (hsound : plan.Sound) :
    plan.Upholds isNew
      (fun node => KindSet.synthesized.contains node.kind = true →
        EndsTight (node.children.map (·.kind)))
      fun node => KindSet.synthesized.contains node.kind = true →
        EndsTight (node.children.map (·.kind)) where
  unvisited _ h := h
  old _ hold _ hturns hkind := hturns.endsTight hsound (hold hkind)
  new _ _ hmade _ hturns _ := hturns.endsTight hsound hmade.endsTight

end Plan

namespace Language

theorem endsTight_stage (language : Language) (count : Nat) (text : List Char) :
    (language.stage count text).root.All fun node =>
      KindSet.synthesized.contains node.kind = true →
        EndsTight (node.children.map (·.kind)) := by
  refine all_analyse_of_all text (fun node hnode hkind => ?_) fun pass hpass => ?_
  · -- pairing makes no such nodes
    have hplain := Grammar.keeps_pair language.keeps_grammar
      (LineIndex.ofText (language.prepare text)) node hnode
    rw [hplain] at hkind
    cases hkind
  · obtain ⟨plan, hreads, hsound⟩ :=
      language.planned_passes pass (List.mem_of_mem_take hpass)
    exact ⟨plan, hreads, hsound, Plan.upholds_endsTight hsound⟩

/-- In the tree of every text, each node of a kind of analysis begins and ends with a child that is
neither trivia nor a comment, and so it does behind every pass on the way there. -/
theorem tight_parse (language : Language) (text : List Char) :
    (∀ node ∈ (language.parse true text).root.descendants,
      KindSet.synthesized.contains node.kind = true → node.IsTight)
    ∧ ∀ count, ∀ node ∈ (language.stage count text).root.descendants,
      KindSet.synthesized.contains node.kind = true → node.IsTight := by
  have hstages : ∀ count, ∀ node ∈ (language.stage count text).root.descendants,
      KindSet.synthesized.contains node.kind = true → node.IsTight :=
    fun count node hnode hkind => (language.endsTight_stage count text node hnode hkind).isTight
  refine ⟨?_, hstages⟩
  rw [parse_eq_stage]
  exact hstages _

/-- A group that a label begins ends with a call, which a later pass has put at its end, and not
with the comment behind it. -/
theorem tight_parse_label :
    ∃ node ∈ (Language.c.parse true "\x7bcase 1: f() /**/\n\x7d".toList).root.descendants,
      KindSet.synthesized.contains node.kind = true ∧ node.kind = .flowCase
        ∧ node.children.getLast?.map Node.kind = some .functionCall ∧ node.IsTight := by
  obtain ⟨node, hnode, hsynthesized, hkind, hlast⟩ :
      ∃ node ∈ (Language.c.parse true "\x7bcase 1: f() /**/\n\x7d".toList).root.descendants,
        KindSet.synthesized.contains node.kind = true ∧ node.kind = .flowCase
          ∧ node.children.getLast?.map Node.kind = some .functionCall := by
    decide +kernel
  exact ⟨node, hnode, hsynthesized, hkind, hlast, (tight_parse .c _).1 node hnode hsynthesized⟩

end Language

end ConcreteSyntax
