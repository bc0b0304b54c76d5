import Mathlib.Data.List.Induction
import ConcreteSyntax.Proofs.CFamily.Headers

/-!
# Introductions of classes

A class, a category or a protocol of Objective-C begins with its keyword and a chain of names and
what can join names, or stand behind them in a call.  The pass for classes and the passes behind it
leave the chain in front, up to a colon or a body (`Introduced`).  Only the last pass looks for
calls in it.
-/

namespace ConcreteSyntax

namespace CFamily

open Plan

variable {isNew : NodeId → Bool} {parent kind : Kind}

/-! ## What new nodes begin with -/

/-- Whether a node, if it is new, was put over siblings that begin with one of some kinds. -/
def Opens (heads : KindSet) (isNew : NodeId → Bool) (node : Node) : Prop :=
  isNew node.id = true → ∃ label rest, Node.significantLabels (node.erase isNew) = label :: rest
    ∧ heads.contains label.kind = true

/-- What a plan makes begins with a kind at which it finds something. -/
theorem upholds_opens {plan : Plan} {heads made : KindSet} (hsound : plan.Sound)
    (hplan : ∀ {scene : Scene} {kind}, scene.kinds.head? = some kind →
      heads.contains kind = false → plan scene = none)
    (hheads : heads.IsDisjoint KindSet.synthesized) :
    plan.Upholds isNew (fun node => node.Staged isNew made ∧ Opens heads isNew node)
      (Opens heads isNew) where
  unvisited _ hall node hnode := (hall node hnode).2
  old {label children children'} _ hold _ hturns hnew := by
    have hid : isNew label.id = true := hnew
    obtain ⟨first, rest, hlabels, hfirst⟩ := hold.2 hnew
    refine ⟨first, rest, ?_, hfirst⟩
    rw [Node.erase_mk, if_pos hid] at hlabels ⊢
    rwa [hturns.erase_eq]
  new {label children children'} _ hnew hmade hchildren hturns _ := by
    have hid : isNew label.id = true := hnew
    obtain ⟨scene, behind, hfound, hscene⟩ := hmade.exists_scene
    obtain ⟨first, rest, hlabels⟩ := List.exists_cons_of_length_pos (hsound.pos hfound)
    have hfirst : heads.contains first.kind = true := by
      have hhead : scene.kinds.head? = some first.kind := by rw [hscene, hlabels]; rfl
      by_contra hnot
      rw [hplan hhead (Bool.not_eq_true _ ▸ hnot)] at hfound
      cases hfound
    obtain ⟨right, -, -, hsplits⟩ := exists_splits
      (fun child hchild => (hchildren child hchild).1)
      (show Node.significantLabels children = [first] ++ rest from hlabels) (by
        rw [List.forall_mem_singleton]
        exact KindSet.not_contains_of_disjoint hheads hfirst)
    refine ⟨first, Node.significantLabels (right.flatMap (Node.erase isNew)), ?_, hfirst⟩
    rw [Node.erase_mk, if_pos hid, hturns.erase_eq, hsplits.erased]
    rfl

theorem conditionalPlan_eq_none {scene : Scene} (hhead : scene.kinds.head? = some kind)
    (h : conditionalOpeners.contains kind = false) : conditionalPlan scene = none := by
  unfold conditionalPlan guarded
  rw [if_neg]
  simp [hhead, h]

/-! ## Chains -/

/-- Kinds of names, of what joins them, and of the arguments of a call. -/
def chainKinds : KindSet := callees ∪ memberAccess ∪ .ofList [.parenthesis]

/-- Kinds at which a name ends whatever follows. -/
def stopKinds : KindSet := .ofList [.colon, .braces]

/-- Whether a chain in front of some labels ends there, and neither at a colon nor at a body. -/
def EndsChain (labels : List Label) : Prop :=
  ∀ label ∈ labels.head?, (chainKinds ∪ stopKinds).contains label.kind = false

theorem EndsChain.follows {behind behind' : List Label} (h : EndsChain behind)
    (hfollows : Follows behind behind') : EndsChain behind' := by
  obtain hsame | ⟨-, label, rest, rfl, hkind⟩ := hfollows
  · unfold EndsChain
    rwa [hsame]
  · intro other hother
    obtain rfl := Option.some.inj hother
    exact KindSet.not_contains_of_disjoint (by decide) hkind

/-- Without new nodes a chain does not go on either. -/
theorem EndsChain.erase {nodes : List Node} (h : EndsChain (Node.significantLabels nodes))
    (hnodes : ∀ node ∈ nodes, Opens conditionalOpeners isNew node) :
    EndsChain (Node.significantLabels (nodes.flatMap (Node.erase isNew))) := by
  induction nodes with
  | nil => exact h
  | cons node rest ih =>
      rw [List.forall_mem_cons] at hnodes
      obtain ⟨hopens, hrest⟩ := hnodes
      rw [List.flatMap_cons, Node.significantLabels_append]
      cases hid : isNew node.id with
      | true =>
          obtain ⟨label, others, hlabels, hopener⟩ := hopens hid
          rw [hlabels]
          intro other hother
          obtain rfl := Option.some.inj hother
          exact KindSet.not_contains_of_disjoint (by decide) hopener
      | false =>
          rw [Node.significantLabels_erase_of_old hid]
          cases hsignificant : node.kind.isSignificant with
          | true =>
              rw [Node.significantLabels_cons hsignificant] at h ⊢
              exact h
          | false =>
              rw [Node.significantLabels_cons_of_not hsignificant] at h ⊢
              exact ih h hrest

/-- How far a chain goes, and whether a colon or a body ends it. -/
theorem exists_chain (labels : List Label) :
    ∃ chain stop behind, labels = chain ++ stop ++ behind
      ∧ (∀ label ∈ chain, chainKinds.contains label.kind = true)
      ∧ ((∃ label, stop = [label] ∧ stopKinds.contains label.kind = true)
        ∨ stop = [] ∧ EndsChain behind) := by
  induction labels with
  | nil => exact ⟨[], [], [], rfl, by simp, .inr ⟨rfl, by simp [EndsChain]⟩⟩
  | cons label rest ih =>
      by_cases hchain : chainKinds.contains label.kind = true
      · obtain ⟨chain, stop, behind, rfl, hkinds, hstop⟩ := ih
        exact ⟨label :: chain, stop, behind, rfl, List.forall_mem_cons.2 ⟨hchain, hkinds⟩, hstop⟩
      by_cases hstop : stopKinds.contains label.kind = true
      · exact ⟨[], [label], rest, rfl, by simp, .inl ⟨label, rfl, hstop⟩⟩
      · refine ⟨[], [], label :: rest, rfl, by simp, .inr ⟨rfl, fun other hother => ?_⟩⟩
        obtain rfl := Option.some.inj hother
        simp [Bool.not_eq_true _ ▸ hchain, Bool.not_eq_true _ ▸ hstop]

/-! ## Classes -/

/-- Words that introduce a class, a category or a protocol. -/
def classWords : KindSet := .ofList [.atInterfaceKw, .atImplementationKw, .atProtocolKw]

/-- Kinds that begin a run of the pass for classes. -/
def classHeads : KindSet :=
  classWords ∪ .ofList [.atPropertyKw, .atSynthesizeKw, .operator]

theorem classesPlan_eq_none {scene : Scene} (hhead : scene.kinds.head? = some kind)
    (h : classHeads.contains kind = false) : classesPlan scene = none := by
  have hnothing : classAtPlan (some kind) = .nothing := by
    unfold classAtPlan
    split
    case h_7 => rfl
    all_goals
      rename_i heq
      obtain rfl := Option.some.inj heq
      exact absurd h (by decide)
  unfold classesPlan dispatch
  rw [hhead, hnothing]
  rfl

/-- A class is found from its keyword on. -/
theorem classes_head {scene : Scene} {n : Nat} (h : classesPlan scene = some (kind, n))
    (hkind : methodContainers.contains kind = true) :
    ∃ keyword, introducer? kind = some keyword ∧ scene.kinds.head? = some keyword := by
  have hthrough {stop found : Kind} {barred : KindSet}
      (hfound : wordThroughPlan stop barred found scene = some (kind, n)) : kind = found := by
    simp only [wordThroughPlan, Option.map_eq_some_iff, Prod.mk.injEq] at hfound
    obtain ⟨-, -, rfl, -⟩ := hfound
    rfl
  unfold classesPlan dispatch at h
  generalize hhead : scene.kinds.head? = head at h
  unfold classAtPlan at h
  split at h
  · obtain rfl := hthrough h
    exact ⟨_, rfl, rfl⟩
  · obtain rfl := hthrough h
    exact ⟨_, rfl, rfl⟩
  · unfold protocolPlan guarded at h
    split at h
    · obtain rfl := hthrough h
      exact ⟨_, rfl, rfl⟩
    · cases h
  · obtain rfl := hthrough h
    exact absurd hkind (by decide)
  · obtain rfl := hthrough h
    exact absurd hkind (by decide)
  · obtain ⟨-, -, -, rfl | rfl⟩ := method_spec h <;> exact absurd hkind (by decide)
  · cases h

/-- Whether a class begins with its keyword and a chain, up to a colon or a body if one ends it. -/
def Introduced (isNew : NodeId → Bool) (node : Node) : Prop :=
  ∃ first chain stop behind written,
    Splits isNew node.children (first :: (chain ++ stop)) behind written
      ∧ introducer? node.kind = some first.kind
      ∧ (∀ label ∈ chain, chainKinds.contains label.kind = true)
      ∧ ((∃ label, stop = [label] ∧ stopKinds.contains label.kind = true)
        ∨ stop = [] ∧ EndsChain behind ∧ EndsChain written)

theorem classWords_of_introducer {keyword : Kind} (hkind : methodContainers.contains kind = true)
    (h : introducer? kind = some keyword) : classWords.contains keyword = true := by
  have hintroduced : methodContainers.toList.all (fun kind =>
      (introducer? kind).all classWords.contains) = true := by decide +kernel
  have hall := List.all_eq_true.1 hintroduced kind (KindSet.mem_toList.2 hkind)
  rwa [h] at hall

/-- A pass that finds nothing in the introduction of a class leaves it in front. -/
theorem upholds_introduced {plan : Plan} {made : KindSet} (hsound : plan.Sound)
    (hmakes : plan.Makes made)
    (hdisjoint : made.IsDisjoint methodContainers)
    (hsilent : ∀ {parent keyword chain stop behind}, methodContainers.contains parent = true →
      classWords.contains keyword = true → (∀ kind ∈ chain, chainKinds.contains kind = true) →
        (∀ kind ∈ stop, stopKinds.contains kind = true) →
          plan.Silent parent none (keyword :: (chain ++ stop)) behind) :
    plan.Upholds isNew
      (fun node => methodContainers.contains node.kind = true → Introduced isNew node)
      fun node => methodContainers.contains node.kind = true → Introduced isNew node := by
  refine upholds_of_kinds (fun scene kind n hfound =>
    KindSet.not_contains_of_disjoint hdisjoint (hmakes hfound)) ?_
  rintro label children children' hkind ⟨first, chain, stop, behind, written, hsplits, hkeyword,
    hchain, hstop⟩ hturns
  have hstops : ∀ label ∈ stop, stopKinds.contains label.kind = true := by
    obtain ⟨last, rfl, hlast⟩ | ⟨rfl, -⟩ := hstop
    · simpa using hlast
    · simp
  obtain ⟨behind', hsplits', hfollows⟩ := hsplits.turn hsound hturns (by
    rw [List.map_cons, List.map_append]
    exact hsilent hkind (classWords_of_introducer hkind hkeyword)
      (List.forall_mem_map.2 hchain) (List.forall_mem_map.2 hstops))
  refine ⟨first, chain, stop, behind', written, hsplits', hkeyword, hchain, hstop.imp_right ?_⟩
  exact fun ⟨hnil, hbehind, hwritten⟩ => ⟨hnil, hbehind.follows hfollows, hwritten⟩

/-- Kinds of the introduction of a class. -/
def introductionKinds : KindSet := classWords ∪ chainKinds ∪ stopKinds

theorem introductionKinds_of_mem {keyword : Kind} {chain stop : List Kind}
    (hkeyword : classWords.contains keyword = true)
    (hchain : ∀ kind ∈ chain, chainKinds.contains kind = true)
    (hstop : ∀ kind ∈ stop, stopKinds.contains kind = true) :
    ∀ kind ∈ keyword :: (chain ++ stop), introductionKinds.contains kind = true := by
  intro kind hkind
  rw [List.mem_cons, List.mem_append] at hkind
  rcases hkind with rfl | hkind | hkind
  · exact KindSet.contains_of_subset (by decide) hkeyword
  · exact KindSet.contains_of_subset (by decide) (hchain kind hkind)
  · exact KindSet.contains_of_subset (by decide) (hstop kind hkind)

theorem upholds_introduced_types :
    typesPlan.Upholds isNew
      (fun node => methodContainers.contains node.kind = true → Introduced isNew node)
      fun node => methodContainers.contains node.kind = true → Introduced isNew node :=
  upholds_introduced sound_types makes_types (by decide) fun _ hkeyword hchain hstop =>
    silent_of_heads typesPlan_eq_none (fun kind hkind =>
      KindSet.not_contains_of_disjoint (by decide)
        (introductionKinds_of_mem hkeyword hchain hstop kind hkind)) none

theorem functionPlan_eq_none {scene : Scene} (hhead : scene.kinds.head? = some kind)
    (h : declarationWords.contains kind = false) : functionPlan scene = none := by
  unfold functionPlan guarded
  rw [if_neg]
  simp [hhead, h]

theorem upholds_introduced_function :
    functionPlan.Upholds isNew
      (fun node => methodContainers.contains node.kind = true → Introduced isNew node)
      fun node => methodContainers.contains node.kind = true → Introduced isNew node := by
  refine upholds_introduced sound_function makes_function (by decide)
    fun {parent keyword chain stop behind} _ hkeyword hchain hstop => ?_
  -- no boundary stands in front of the chain, or in it
  have hboundary : ∀ kind ∈ keyword :: chain, boundary.contains kind = false := by
    rw [List.forall_mem_cons]
    exact ⟨KindSet.not_contains_of_disjoint (by decide) hkeyword, fun kind hkind =>
      KindSet.not_contains_of_disjoint (by decide) (hchain kind hkind)⟩
  have hword : declarationWords.contains keyword = false :=
    KindSet.not_contains_of_disjoint (by decide) hkeyword
  refine ⟨fun scene _ _ hscene => functionPlan_eq_none (by rw [hscene]; rfl) hword,
    silent_append.2 ⟨?_, ?_⟩⟩
  · exact silent_function (hboundary keyword (List.mem_cons_self ..))
      fun kind hkind => hboundary kind (List.mem_cons_of_mem _ hkind)
  · exact silent_of_heads functionPlan_eq_none (fun kind hkind =>
      KindSet.not_contains_of_disjoint (by decide) (hstop kind hkind)) _

theorem upholds_introduced_flow :
    flowPlan.Upholds isNew
      (fun node => methodContainers.contains node.kind = true → Introduced isNew node)
      fun node => methodContainers.contains node.kind = true → Introduced isNew node :=
  upholds_introduced sound_flow makes_flow (by decide) fun _ hkeyword hchain hstop =>
    silent_flow fun kind hkind => KindSet.not_contains_of_disjoint (by decide)
      (introductionKinds_of_mem hkeyword hchain hstop kind hkind)

theorem upholds_introduced_labels :
    labelsPlan.Upholds isNew
      (fun node => methodContainers.contains node.kind = true → Introduced isNew node)
      fun node => methodContainers.contains node.kind = true → Introduced isNew node := by
  refine upholds_introduced sound_labels makes_labels (by decide) fun hparent _ _ _ =>
    silent_labels ?_
  rintro rfl
  exact absurd hparent (by decide)

/-- The pass for classes finds the keyword in front of each class that it makes, and leaves the
chain behind it where it is. -/
theorem upholds_introduced_classes {made : KindSet}
    (hdisjoint : methodContainers.IsDisjoint made) :
    classesPlan.Upholds isNew
      (fun node => node.Staged isNew made ∧ Opens conditionalOpeners isNew node)
      fun node => methodContainers.contains node.kind = true → Introduced isNew node := by
  refine upholds_of_made (fun node hnode => hnode.1.not_later (by decide) hdisjoint) ?_
  intro label children children' _ hkind hmade hchildren hturns
  obtain ⟨scene, after, hfound, hscene⟩ := hmade.exists_scene
  obtain ⟨keyword, hkeyword, hhead⟩ := classes_head hfound hkind
  obtain ⟨first, rest, hlabels⟩ := List.exists_cons_of_length_pos (sound_classes.pos hfound)
  have hfirst : first.kind = keyword := by
    rw [hscene, hlabels] at hhead
    exact Option.some.inj hhead
  obtain ⟨chain, stop, behind, rfl, hchain, hstop⟩ := exists_chain rest
  have hstops : ∀ label ∈ stop, stopKinds.contains label.kind = true := by
    obtain ⟨last, rfl, hlast⟩ | ⟨rfl, -⟩ := hstop
    · simpa using hlast
    · simp
  have hkinds := introductionKinds_of_mem (classWords_of_introducer hkind (hfirst ▸ hkeyword))
    (List.forall_mem_map.2 hchain) (List.forall_mem_map.2 hstops)
  rw [← List.map_append, ← List.map_cons, List.forall_mem_map] at hkinds
  have hsplit : Node.significantLabels children = first :: (chain ++ stop) ++ behind := hlabels
  obtain ⟨right, hright, hbehind, hsplits⟩ := exists_splits
    (fun child hchild => (hchildren child hchild).1) hsplit fun label hlabel =>
      KindSet.not_contains_of_disjoint (by decide) (hkinds label hlabel)
  obtain ⟨behind', hsplits', hfollows⟩ := hsplits.turn_of_made sound_classes exact_classes hmade
    hturns (silent_of_heads classesPlan_eq_none (fun kind hkind => by
      obtain ⟨other, hother, rfl⟩ := List.mem_map.1 hkind
      rcases List.mem_append.1 hother with hother | hother
      · exact KindSet.not_contains_of_disjoint (by decide) (hchain other hother)
      · exact KindSet.not_contains_of_disjoint (by decide) (hstops other hother)) _)
  refine ⟨first, chain, stop, behind', _, hsplits', hfirst ▸ hkeyword, hchain,
    hstop.imp_right ?_⟩
  rintro ⟨hnil, hends⟩
  refine ⟨hnil, hends.follows hfollows, EndsChain.erase (hbehind ▸ hends) fun node hnode => ?_⟩
  exact (hchildren node (hright.subset hnode)).2

end CFamily

namespace Language

/-- What passes make begins with kinds at which they find something. -/
theorem opens_analyse (language : Language) (text : List Char) (passes : List Pass)
    (heads : KindSet)
    (hheads : heads.IsDisjoint KindSet.synthesized)
    (h : ∀ pass ∈ passes, ∃ plan, pass.rule.Reads plan ∧ plan.Sound
      ∧ ∀ {scene : Scene} {kind}, scene.kinds.head? = some kind → heads.contains kind = false →
        plan scene = none) :
    ((language.stage 0 text).analyse passes).root.All
      (CFamily.Opens heads (language.isAdded text)) := by
  induction passes using List.reverseRecOn with
  | nil =>
      intro node hnode hnew
      have hold : language.isAdded text node.id = false := language.isAdded_stage text hnode
      rw [hold] at hnew
      cases hnew
  | append_singleton early pass ih =>
      rw [List.forall_mem_append, List.forall_mem_singleton] at h
      obtain ⟨hearly, plan, hreads, hsound, hplan⟩ := h
      have hstaged := language.staged_of_planned text fun pass hpass =>
        (hearly pass hpass).imp fun _ hplan => ⟨hplan.1, hplan.2.1⟩
      exact all_analyse text early pass []
        (fun node hnode => ⟨hstaged node hnode, ih hearly node hnode⟩) hreads hsound
        (CFamily.upholds_opens hsound hplan hheads) (by simp)

end Language

end ConcreteSyntax
