import ConcreteSyntax.Proofs.Analysis.Walk
import ConcreteSyntax.Proofs.Edit.History

/-!
# Revisions

A call that succeeds raises the revisions of the nodes around the place of the edit, and leaves
all other nodes with all that is below them as they were (`Call.Does.fate`).  So a node whose
revision is the same after any number of calls has not changed, and neither has what is below
it (`Language.revisions_tell_changes`).
-/

namespace ConcreteSyntax

variable {tree tree' grown : Tree} {id : NodeId} {call : Call}

namespace Tree

/-- The revision of a node. -/
def revision (tree : Tree) (id : NodeId) : Nat := ((tree.record? id).map (·.revision)).getD 0

theorem exists_record_of_node? {node : Node} (h : tree.node? id = some node) :
    ∃ record, tree.record? id = some record ∧ tree.labelOf id record = node.label := by
  unfold node? nodeWithin at h
  cases hrecord : tree.record? id with
  | none => simp [hrecord] at h
  | some record =>
      simp only [hrecord, Option.some.injEq] at h
      exact ⟨record, rfl, by rw [← h, Node.label]⟩

theorem revision_eq {node : Node} (h : tree.node? id = some node) :
    tree.revision id = node.label.revision := by
  obtain ⟨record, hrecord, hlabel⟩ := exists_record_of_node? h
  rw [revision, hrecord, ← hlabel]
  rfl

theorem label?_eq {node : Node} (h : tree.node? id = some node) :
    tree.label? id = some node.label := by
  obtain ⟨record, hrecord, hlabel⟩ := exists_record_of_node? h
  rw [label?, hrecord, ← hlabel]
  rfl

end Tree

/-- What a call that succeeds makes of a node: the node has its revision raised, or it is as it
was, with all that is below it. -/
theorem Call.Does.fate (h : Does tree call tree') (hforest : tree.IsForest)
    (hid : tree.contains id = true) (hid' : tree'.contains id = true) :
    ∃ node node', tree.node? id = some node ∧ tree'.node? id = some node'
      ∧ (id ∈ call.raises tree ∧ node'.label = node.label.raise
        ∨ id ∉ call.raises tree ∧ node' = node) := by
  obtain ⟨grown, hgrows, hrest⟩ := h.steps hforest
  have hsame := hgrows.node?_eq hforest hid
  rcases hrest with ⟨rfl, hraises⟩ | ⟨s, happlies, hraises⟩
  · obtain ⟨crumbs, node, rfl, hholds, _⟩ := hforest.exists_place hid
    have hnode := hforest.node?_eq hholds
    exact ⟨node, node, hnode, hsame.trans hnode, .inr ⟨by simp [hraises], rfl⟩⟩
  · obtain ⟨node, node', hnode, hnode', hfate⟩ := happlies.fate (hgrows.isForest hforest) hid'
    rw [hsame] at hnode
    refine ⟨node, node', hnode, hnode', ?_⟩
    rw [hraises, List.mem_append]
    cases hfate with
    | above hlineage hlabel => exact .inl ⟨.inr hlineage, hlabel⟩
    | raised hraised _ hlabel => exact .inl ⟨.inl hraised, hlabel⟩
    | same hlineage hraised => exact .inr ⟨not_or.2 ⟨hraised, hlineage⟩, rfl⟩

/-- What a call does to a revision. -/
theorem Call.Does.revision_eq (h : Does tree call tree') (hforest : tree.IsForest)
    (hid : tree.contains id = true) (hid' : tree'.contains id = true) :
    tree'.revision id = tree.revision id + if id ∈ call.raises tree then 1 else 0 := by
  obtain ⟨node, node', hnode, hnode', ⟨hraises, hlabel⟩ | ⟨hraises, rfl⟩⟩ := h.fate hforest hid hid'
  · rw [Tree.revision_eq hnode, Tree.revision_eq hnode', hlabel, if_pos hraises]
    rfl
  · rw [Tree.revision_eq hnode, Tree.revision_eq hnode', if_neg hraises]
    rfl

/-- A call that does not raise the revision of a node leaves the node as it was. -/
theorem Call.Does.node?_eq (h : Does tree call tree') (hforest : tree.IsForest)
    (hid : tree.contains id = true) (hid' : tree'.contains id = true)
    (hsame : tree'.revision id = tree.revision id) : tree'.node? id = tree.node? id := by
  have hraises : id ∉ call.raises tree := by
    intro hraises
    rw [h.revision_eq hforest hid hid', if_pos hraises] at hsame
    omega
  obtain ⟨node, node', hnode, hnode', ⟨hmem, _⟩ | ⟨_, rfl⟩⟩ := h.fate hforest hid hid'
  · exact absurd hmem hraises
  · rw [hnode, hnode']

namespace Tree

/-- Over any number of calls that a node survives its revision never decreases, and where it is
the same in the end, so is the node. -/
theorem IsForest.revision_after (h : tree.IsForest) (calls : List Call)
    (hlive : ∀ done, done <+: calls → (tree.after done).contains id = true) :
    tree.revision id ≤ (tree.after calls).revision id
      ∧ ((tree.after calls).revision id = tree.revision id →
        (tree.after calls).node? id = tree.node? id) := by
  induction calls generalizing tree with
  | nil => exact ⟨Nat.le_refl _, fun _ => rfl⟩
  | cons call rest ih =>
      have hid := hlive [] (List.nil_prefix)
      have hrest : ∀ done, done <+: rest → call :: done <+: call :: rest := fun done hdone =>
        (List.prefix_cons_inj call).2 hdone
      rcases call.after_cons_cases h with hsame | ⟨tree', hdoes, hsame⟩
      · simp only [hsame]
        refine ih h fun done hdone => ?_
        rw [← hsame]
        exact hlive _ (hrest done hdone)
      · simp only [hsame]
        have hlive' : ∀ done, done <+: rest → (tree'.after done).contains id = true := by
          intro done hdone
          rw [← hsame]
          exact hlive _ (hrest done hdone)
        have hid' := hlive' [] (List.nil_prefix)
        obtain ⟨hle, heq⟩ := ih (hdoes.isForest h) hlive'
        have hstep := hdoes.revision_eq h hid hid'
        refine ⟨by omega, fun hend => ?_⟩
        rw [heq (by omega), hdoes.node?_eq h hid hid' (by omega)]

end Tree

namespace Language

/-- Revisions tell all changes.  While a node is there its revision never decreases, and as long
as it is the same, so is the node with all that is below it.  A call that succeeds raises by one
the revisions of the node whose children it edits, of the nodes above that, and of the node that
keeps the children of another, and no other; a call that does not succeed was refused, and
changes nothing. -/
theorem revisions_tell_changes (language : Language) (analysis : Bool) (text : List Char)
    (calls : List Call) :
    (∀ more id,
      (∀ done, done <+: more →
        (language.edited analysis text (calls ++ done)).contains id = true) →
      (language.edited analysis text calls).revision id ≤
          (language.edited analysis text (calls ++ more)).revision id
        ∧ ((language.edited analysis text (calls ++ more)).revision id =
            (language.edited analysis text calls).revision id →
          (language.edited analysis text (calls ++ more)).node? id =
            (language.edited analysis text calls).node? id))
    ∧ ∀ call : Call,
      match call.edit.run (language.edited analysis text calls) with
      | .ok _ tree' => ∀ id,
          (language.edited analysis text calls).contains id = true → tree'.contains id = true →
          tree'.revision id = (language.edited analysis text calls).revision id
            + if id ∈ call.raises (language.edited analysis text calls) then 1 else 0
      | .error halt tree' =>
          (∃ error, halt = .refused error) ∧ tree' = language.edited analysis text calls := by
  have hforest := language.isForest_edited analysis text calls
  constructor
  · intro more id hlive
    simp only [edited_append] at hlive ⊢
    exact hforest.revision_after more hlive
  · intro call
    have hyields := call.yields hforest
    rw [Edit.Yields] at hyields
    cases hrun : call.edit.run (language.edited analysis text calls) with
    | ok made tree' =>
        rw [hrun] at hyields
        exact fun id hid hid' => Call.Does.revision_eq hyields hforest hid hid'
    | error halt tree' =>
        rw [hrun] at hyields
        cases halt with
        | refused error => exact ⟨⟨error, rfl⟩, hyields⟩
        | broken fault => exact absurd hyields id

/-- A leaf that gives way to a text raises the revision of the root. -/
theorem revisions_tell_changes_letter :
    (Language.c.edited false ['a'] []).revision (.fresh 0) = 0
      ∧ (Language.c.edited false ['a'] [.replaceWithText (.fresh 1) ['b']]).revision (.fresh 0) = 1
      ∧ ((Language.c.edited false ['a'] [.newNode .flowReturn]).revision (.fresh 0) =
          (Language.c.edited false ['a'] []).revision (.fresh 0) →
        (Language.c.edited false ['a'] [.newNode .flowReturn]).node? (.fresh 0) =
          (Language.c.edited false ['a'] []).node? (.fresh 0)) := by
  have hparse : Language.c.parse false ['a'] = Parse.build CFamily.cGrammar ['a'] := rfl
  refine ⟨?_, ?_, ((revisions_tell_changes .c false ['a'] []).1 [.newNode .flowReturn] (.fresh 0)
    fun done hdone => ?_).2⟩
  · rw [edited, hparse, Walk.build_letter]
    decide +kernel
  · rw [edited, hparse, Walk.build_letter]
    decide +kernel
  · have hcases : done = [] ∨ done = [.newNode .flowReturn] := by
      rcases List.prefix_cons_iff.1 hdone with rfl | ⟨rest, rfl, hrest⟩
      · exact .inl rfl
      · exact .inr (by rw [List.prefix_nil.1 hrest])
    rcases hcases with rfl | rfl
    · rw [edited, hparse, Walk.build_letter]
      decide +kernel
    · rw [edited, hparse, Walk.build_letter]
      decide +kernel

end Language

end ConcreteSyntax
