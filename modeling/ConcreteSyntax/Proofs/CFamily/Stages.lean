import ConcreteSyntax.Proofs.Analysis.Course
import ConcreteSyntax.Proofs.Analysis.Upkeep
import ConcreteSyntax.Proofs.CFamily.Balance
import ConcreteSyntax.Proofs.CFamily.Bodies
import ConcreteSyntax.Proofs.CFamily.Pound
import ConcreteSyntax.Proofs.KindSet
import ConcreteSyntax.Proofs.Layout

/-!
# Stages of analysis

Each pass of the C family makes nodes of kinds of its own (`Plan.Makes`).  So in front of a pass
there are none of its kinds, and what it makes true of the nodes of one of them holds at the end of
analysis if the later passes keep it (`Language.all_parse`).
-/

namespace ConcreteSyntax

/-- Whether a plan makes nodes of some kinds only. -/
def Plan.Makes (plan : Plan) (kinds : KindSet) : Prop :=
  ∀ {scene kind n}, plan scene = some (kind, n) → kinds.contains kind = true

theorem Plan.Makes.mono {plan : Plan} {kinds kinds' : KindSet} (h : plan.Makes kinds)
    (hsub : kinds.IsSubset kinds') : plan.Makes kinds' :=
  fun hfound => KindSet.contains_of_subset hsub (h hfound)

namespace CFamily

open Plan

theorem map_kind_significantLabels (nodes : List Node) :
    (Node.significantLabels nodes).map (·.kind) = significantKinds nodes :=
  Node.map_kind_significantLabels nodes

theorem makes_wordThrough {stop kind : Kind} {barred kinds : KindSet}
    (hkind : kinds.contains kind = true) : (wordThroughPlan stop barred kind).Makes kinds := by
  intro scene found n h
  simp only [wordThroughPlan, Option.map_eq_some_iff, Prod.mk.injEq] at h
  obtain ⟨-, -, rfl, -⟩ := h
  exact hkind

theorem makes_wordWithArgument {kind : Kind} {kinds : KindSet}
    (hkind : kinds.contains kind = true) : (wordWithArgumentPlan kind).Makes kinds := by
  intro scene found n h
  unfold wordWithArgumentPlan at h
  split at h
  · simp only [Option.some.injEq, Prod.mk.injEq] at h
    exact h.1 ▸ hkind
  · cases h

theorem makes_guarded {test : Scene → Bool} {plan : Plan} {kinds : KindSet}
    (h : plan.Makes kinds) : (guarded test plan).Makes kinds := by
  intro scene kind n hfound
  unfold guarded at hfound
  split at hfound
  · exact h hfound
  · cases hfound

theorem makes_nothing (kinds : KindSet) : nothing.Makes kinds := nofun

theorem makes_dispatch {choose : Option Kind → Plan} {kinds : KindSet}
    (h : ∀ head, (choose head).Makes kinds) : (dispatch choose).Makes kinds :=
  fun hfound => h _ hfound

theorem makes_conditional : conditionalPlan.Makes (.ofList [.preprocessorConditional]) := by
  refine makes_guarded fun {scene kind n} h => ?_
  simp only [Option.map_eq_some_iff, Prod.mk.injEq] at h
  obtain ⟨-, -, rfl, -⟩ := h
  decide

/-- Kinds of type definitions, records and namespaces, and of the words like them. -/
def typeKinds : KindSet := .ofList [
  .typedefDeclaration, .typeStruct, .typeUnion, .typeEnum, .cppClass, .sizeof, .typeof,
  .cppNamespace]

theorem makes_record {kind : Kind} {kinds : KindSet} (hkind : kinds.contains kind = true) :
    (recordPlan kind).Makes kinds := by
  intro scene found n h
  unfold recordPlan at h
  dsimp only at h
  split at h
  · split at h <;>
    · simp only [Option.some.injEq, Prod.mk.injEq] at h
      exact h.1 ▸ hkind
  · cases h

theorem makes_nameSpace : nameSpacePlan.Makes typeKinds := by
  intro scene found n h
  unfold nameSpacePlan at h
  dsimp only at h
  split at h
  · simp only [Option.some.injEq, Prod.mk.injEq] at h
    rw [← h.1]
    decide
  · cases h

theorem makes_types : typesPlan.Makes typeKinds := by
  refine makes_dispatch fun head => ?_
  unfold typeAtPlan
  split
  · exact makes_wordThrough (by decide)
  · exact makes_record (by decide)
  · exact makes_record (by decide)
  · exact makes_record (by decide)
  · exact makes_record (by decide)
  · exact makes_wordWithArgument (by decide)
  · exact makes_wordWithArgument (by decide)
  · exact makes_nameSpace
  · exact makes_nothing _

/-- Kinds of classes, protocols, properties and methods. -/
def classKinds : KindSet := .ofList [
  .objcInterface, .objcImplementation, .objcProtocol, .objcProperty, .objcSynthesize,
  .objcMethodDeclaration, .objcMethodImplementation]

theorem makes_method : methodPlan.Makes classKinds := by
  intro scene kind n h
  obtain ⟨-, -, -, rfl | rfl⟩ := method_spec h <;> decide

theorem makes_classes : classesPlan.Makes classKinds := by
  refine makes_dispatch fun head => ?_
  unfold classAtPlan
  split
  · exact makes_wordThrough (by decide)
  · exact makes_wordThrough (by decide)
  · exact makes_guarded (makes_wordThrough (by decide))
  · exact makes_wordThrough (by decide)
  · exact makes_wordThrough (by decide)
  · exact makes_method
  · exact makes_nothing _

/-- Kinds of what the passes in front of that for functions make. -/
def declarationKinds : KindSet := .ofList [.preprocessorConditional] ∪ typeKinds ∪ classKinds

/-- Kinds of functions. -/
def functionKinds : KindSet := .ofList [.functionDefinition, .functionPrototype]

theorem makes_function : functionPlan.Makes functionKinds := by
  intro scene kind n h
  obtain ⟨-, -, ⟨-, rfl⟩ | ⟨-, rfl⟩⟩ := function_spec h <;> decide

/-- Kinds of conditions, loops, jumps and exceptions, and of allocations. -/
def flowKinds : KindSet := .ofList [
  .conditionIf, .conditionElseIf, .conditionElse, .flowSwitch, .flowFor, .flowWhile,
  .flowDoWhile, .flowReturn, .flowGoto, .cppTry, .cppCatch, .cppThrow, .cppDelete, .cppNew,
  .objcTry, .objcCatch, .objcFinally, .objcThrow, .objcSynchronized]

theorem makes_flowKind {scene : Scene} {kind : Kind} (h : flowKindOf scene = some kind) :
    flowKinds.contains kind = true := by
  unfold flowKindOf at h
  split at h <;> (try split at h) <;> simp only [Option.some.injEq, reduceCtorEq] at h <;>
    subst h <;> decide

theorem makes_flow : flowPlan.Makes flowKinds := by
  intro scene kind n h
  rw [flowPlan_eq] at h
  split at h
  · unfold allocationPlan at h
    split at h
    · dsimp only at h
      split at h <;>
      · simp only [Option.some.injEq, Prod.mk.injEq] at h
        rw [← h.1]
        decide
    · cases h
  · exact makes_flowKind (flowStatement_spec h).1

/-- Kinds of labels. -/
def labelKinds : KindSet := .ofList [
  .flowCase, .flowDefault, .cppPublic, .cppProtected, .cppPrivate, .flowLabel]

theorem makes_labelGroup {kind : Kind} (hkind : labelKinds.contains kind = true) :
    (labelGroupPlan kind).Makes labelKinds := by
  intro scene found n h
  simp only [labelGroupPlan, Option.map_eq_some_iff, Prod.mk.injEq] at h
  obtain ⟨-, -, rfl, -⟩ := h
  exact hkind

theorem makes_labels : labelsPlan.Makes labelKinds := by
  refine makes_guarded (makes_dispatch fun head => ?_)
  unfold labelAtPlan
  split
  · exact makes_labelGroup (by decide)
  · exact makes_labelGroup (by decide)
  · exact makes_guarded (makes_labelGroup (by decide))
  · exact makes_guarded (makes_labelGroup (by decide))
  · exact makes_guarded (makes_labelGroup (by decide))
  · refine makes_guarded fun {scene kind n} h => ?_
    split at h
    · simp only [Option.some.injEq, Prod.mk.injEq] at h
      rw [← h.1]
      decide
    · cases h
  · exact makes_nothing _

/-- Kinds of calls, of messages, and of the literals of Objective-C. -/
def callKinds : KindSet := .ofList [.functionCall, .objcSelector, .objcEncode, .objcMethodCall]

theorem makes_call : callPlan.Makes callKinds := by
  refine makes_guarded fun {scene kind n} h => ?_
  dsimp only at h
  split at h
  · simp only [Option.some.injEq, Prod.mk.injEq] at h
    rw [← h.1]
    decide
  · cases h

theorem makes_bracketed : bracketedPlan.Makes callKinds := by
  intro scene kind n h
  unfold bracketedPlan at h
  split at h
  · simp only [Option.some.injEq, Prod.mk.injEq] at h
    rw [← h.1]
    decide
  · cases h

theorem makes_messages : messagesPlan.Makes callKinds := by
  refine makes_dispatch fun head => ?_
  unfold callAtPlan
  split
  · exact makes_nothing _
  · exact makes_wordWithArgument (by decide)
  · exact makes_wordWithArgument (by decide)
  · exact makes_bracketed
  · exact makes_call

end CFamily

/-! ## Old nodes and new ones -/

/-- What the kind of a node tells about its name: new nodes are of kinds of analysis, and of some of
them only, and old nodes are of other kinds. -/
structure Node.Staged (isNew : NodeId → Bool) (made : KindSet) (node : Node) : Prop where
  new : isNew node.id = true →
    KindSet.synthesized.contains node.kind = true ∧ made.contains node.kind = true
  old : isNew node.id = false → KindSet.synthesized.contains node.kind = false

namespace Node

variable {isNew : NodeId → Bool} {made : KindSet} {node : Node}

theorem Staged.isNew_eq_false (h : node.Staged isNew made)
    (hkind : KindSet.synthesized.contains node.kind = false) : isNew node.id = false := by
  by_contra hnew
  rw [(h.new (Bool.not_eq_false _ ▸ hnew)).1] at hkind
  cases hkind

theorem Staged.isNew_eq_false_of_empty (h : node.Staged isNew ∅) : isNew node.id = false := by
  by_contra hnew
  have hmade := (h.new (Bool.not_eq_false _ ▸ hnew)).2
  simp at hmade

/-- There are no nodes of the kinds that later passes make. -/
theorem Staged.not_later (h : node.Staged isNew made) {kinds : KindSet}
    (hsub : kinds.IsSubset KindSet.synthesized)
    (hdisjoint : kinds.IsDisjoint made) :
    kinds.contains node.kind = false := by
  by_contra hkind
  have hmem : kinds.contains node.kind = true := Bool.not_eq_false _ ▸ hkind
  cases hid : isNew node.id with
  | true =>
      have hmade := (h.new hid).2
      rw [KindSet.not_contains_of_disjoint hdisjoint hmem] at hmade
      cases hmade
  | false =>
      have hsynthesized := KindSet.contains_of_subset hsub hmem
      rw [h.old hid] at hsynthesized
      cases hsynthesized

theorem erase_of_old (h : isNew node.id = false) :
    node.erase isNew = [⟨node.label, node.children.flatMap (erase isNew)⟩] := by
  obtain ⟨label, children⟩ := node
  have hid : isNew label.id = false := h
  rw [erase_mk, hid]
  rfl

theorem erase_of_new (h : isNew node.id = true) :
    node.erase isNew = node.children.flatMap (erase isNew) := by
  obtain ⟨label, children⟩ := node
  have hid : isNew label.id = true := h
  rw [erase_mk, hid]
  rfl

/-- An old node shows the same label as without new nodes below it. -/
theorem significantLabels_erase_of_old (h : isNew node.id = false) :
    significantLabels (node.erase isNew) = significantLabels [node] := by
  rw [erase_of_old h]
  have hkind : Node.kind ⟨node.label, node.children.flatMap (erase isNew)⟩ = node.kind := rfl
  cases hnode : node.kind.isSignificant with
  | true =>
      rw [significantLabels_cons (hkind ▸ hnode), significantLabels_cons hnode]
      rfl
  | false =>
      rw [significantLabels_cons_of_not (hkind ▸ hnode), significantLabels_cons_of_not hnode]

theorem significantLabels_erase {nodes : List Node} (h : ∀ node ∈ nodes, isNew node.id = false) :
    significantLabels (nodes.flatMap (erase isNew)) = significantLabels nodes := by
  induction nodes with
  | nil => rfl
  | cons node rest ih =>
      rw [List.forall_mem_cons] at h
      rw [List.flatMap_cons, significantLabels_append, significantLabels_erase_of_old h.1, ih h.2,
        ← significantLabels_append, List.singleton_append]

end Node

/-- Whether there are no new nodes in a node that passes do not look into. -/
def Node.HidesNew (isNew : NodeId → Bool) (node : Node) : Prop :=
  Pass.isOpen node.kind = false → ∀ below ∈ node.descendants, isNew below.id = false

theorem Plan.upholds_hidesNew {plan : Plan} {isNew : NodeId → Bool} :
    plan.Upholds isNew (Node.HidesNew isNew) (Node.HidesNew isNew) where
  unvisited _ h := h
  old hopen _ _ _ hclosed := by
    cases hopen.symm.trans hclosed
  new hopen _ _ _ _ hclosed := by
    cases hopen.symm.trans hclosed

/-- What concerns nodes of some kinds of analysis becomes something else in a turn of a plan that
makes none of them. -/
theorem Plan.upholds_of_turns {plan : Plan} {isNew : NodeId → Bool} {kinds made : KindSet}
    {Old Done : Node → Prop} (hkinds : kinds.IsSubset KindSet.synthesized)
    (hmakes : ∀ scene kind n, plan scene = some (kind, n) → kinds.contains kind = false)
    (hturns : ∀ {label children children'}, kinds.contains label.kind = true →
      Old ⟨label, children⟩ → (∀ child ∈ children, child.Staged isNew made) →
      plan.Turns isNew label.kind children children' → Done ⟨label, children'⟩) :
    plan.Upholds isNew
      (fun node => (kinds.contains node.kind = true → Old node) ∧ node.Staged isNew made
        ∧ node.HidesNew isNew)
      fun node => kinds.contains node.kind = true → Done node where
  unvisited {node} hclosed hall below hbelow hkind := by
    -- there are no new nodes in one that the pass does not look into
    have hold := (hall node node.self_mem_descendants).2.2 hclosed below hbelow
    have hsynthesized := (hall below hbelow).2.1.old hold
    rw [KindSet.contains_of_subset hkinds hkind] at hsynthesized
    cases hsynthesized
  old _ hold hchildren hturned hkind :=
    hturns hkind (hold.1 hkind) (fun child hchild => (hchildren child hchild).2.1) hturned
  new {label _ _} _ _ hmade _ _ hkind := by
    obtain ⟨_, _, _, _, hfound, -⟩ := hmade.found
    have hlabel : kinds.contains label.kind = true := hkind
    cases (hmakes _ _ _ hfound).symm.trans hlabel

namespace Parse

theorem grows_analyse (parse : Parse) (passes : List Pass) :
    Grows parse.lines (fun _ => True) parse.next parse.root (parse.analyse passes).next
      (parse.analyse passes).root :=
  Pass.grows_runAll (fun _ _ _ _ _ => trivial) parse.next parse.root

theorem next_le_analyse (parse : Parse) (passes : List Pass) :
    parse.next ≤ (parse.analyse passes).next := (parse.grows_analyse passes).le

end Parse

namespace Language

variable {language : Language}

/-- Whether a name was given by analysis, and not before. -/
def isAdded (language : Language) (text : List Char) : NodeId → Bool :=
  NodeId.isFrom (language.stage 0 text).next

theorem staged_analyse (language : Language) (text : List Char) (passes : List Pass)
    (made : KindSet)
    (h : ∀ pass ∈ passes, ∃ plan, pass.rule.Reads plan ∧ plan.Sound ∧ plan.Makes made) :
    ((language.stage 0 text).analyse passes).root.All
      (Node.Staged (language.isAdded text) made) := by
  have hkeeps : (language.stage 0 text).root.All
      fun node => KindSet.synthesized.contains node.kind = false :=
    Grammar.keeps_pair language.keeps_grammar (LineIndex.ofText (language.prepare text))
  have hlaid := language.wellLaid_stage 0 text
  unfold isAdded
  generalize language.stage 0 text = built at hkeeps hlaid ⊢
  have hgrows : Grows built.lines (fun kind => KindSet.synthesized.contains kind = true
      ∧ made.contains kind = true) built.next built.root (built.analyse passes).next
      (built.analyse passes).root := by
    refine Pass.grows_runAll (fun pass hpass look found hfound => ?_) _ _
    obtain ⟨plan, hreads, hsound, hmakes⟩ := h pass hpass
    refine ⟨hreads.synthesized hsound hfound, ?_⟩
    rw [hreads.found?_eq, Option.map_eq_some_iff] at hfound
    obtain ⟨⟨kind, n⟩, hplanned, rfl⟩ := hfound
    exact hmakes hplanned
  intro node hnode
  obtain ⟨hkind, index, hindex, hid⟩ | ⟨old, hold, hlabel⟩ := hgrows.label_mem hnode
  · refine ⟨fun _ => hkind, fun hold => ?_⟩
    rw [hid, NodeId.isFrom, decide_eq_false_iff_not] at hold
    exact absurd hindex hold
  · have hkind : old.kind = node.kind := congrArg Label.kind hlabel
    have hid : old.id = node.id := congrArg Label.id hlabel
    obtain ⟨index, hindex, hfresh⟩ :=
      hlaid.numbered.mem_iff.1 (List.mem_map_of_mem (f := Node.id) hold)
    refine ⟨fun hnew => ?_, fun _ => hkind ▸ hkeeps old hold⟩
    rw [← hid, hfresh, NodeId.isFrom, decide_eq_true_iff] at hnew
    exact absurd hindex (Nat.not_lt.2 hnew)

/-- Nodes that passes make are new and of kinds of analysis, whatever the passes are. -/
theorem staged_of_planned (language : Language) (text : List Char) {passes : List Pass}
    (h : ∀ pass ∈ passes, pass.Planned) :
    ((language.stage 0 text).analyse passes).root.All
      (Node.Staged (language.isAdded text) .synthesized) := by
  refine language.staged_analyse text passes .synthesized fun pass hpass => ?_
  obtain ⟨plan, hreads, hsound⟩ := h pass hpass
  exact ⟨plan, hreads, hsound, hsound.synthesized⟩

/-- What a pass makes true of all nodes, from what the passes in front of it have made true, holds
behind all passes if the later ones keep it. -/
theorem all_analyse (text : List Char) (early : List Pass) (pass : Pass) (late : List Pass)
    {plan : Plan} {Old Done : Node → Prop}
    (hearly : ((language.stage 0 text).analyse early).root.All Old)
    (hreads : pass.rule.Reads plan) (hsound : plan.Sound)
    (hpass : plan.Upholds (language.isAdded text) Old Done)
    (hlate : ∀ pass ∈ late, ∃ plan, pass.rule.Reads plan ∧ plan.Sound
      ∧ plan.Upholds (language.isAdded text) Done Done) :
    ((language.stage 0 text).analyse (early ++ pass :: late)).root.All Done := by
  have hnew : ∀ index, ((language.stage 0 text).analyse early).next ≤ index →
      language.isAdded text (.fresh index) = true :=
    fun index hindex => decide_eq_true (Nat.le_trans (Parse.next_le_analyse _ early) hindex)
  rw [Parse.analyse_append]
  exact Pass.all_runAll hlate
    (fun index hindex => hnew index (Nat.le_trans (Pass.le_next_visit _ pass.rule _ _ _) hindex))
    (Pass.all_run hpass hreads hsound hnew hearly)

/-- What holds of all nodes before analysis holds behind passes that keep it. -/
theorem all_analyse_of_all (text : List Char) {passes : List Pass} {property : Node → Prop}
    (hbuilt : (language.stage 0 text).root.All property)
    (h : ∀ pass ∈ passes, ∃ plan, pass.rule.Reads plan ∧ plan.Sound
      ∧ plan.Upholds (language.isAdded text) property property) :
    ((language.stage 0 text).analyse passes).root.All property := by
  cases passes with
  | nil => exact hbuilt
  | cons pass late =>
      rw [List.forall_mem_cons] at h
      obtain ⟨⟨plan, hreads, hsound, hpass⟩, hlate⟩ := h
      exact all_analyse text [] pass late hbuilt hreads hsound hpass hlate

/-- Before analysis no node is new. -/
theorem isAdded_stage (language : Language) (text : List Char) {node : Node}
    (h : node ∈ (language.stage 0 text).root.descendants) :
    language.isAdded text node.id = false :=
  (language.staged_analyse text [] ∅ (by simp) node h).isNew_eq_false_of_empty

/-- Passes put no new node into one that they do not look into. -/
theorem hidesNew_analyse (language : Language) (text : List Char) {passes : List Pass}
    (h : ∀ pass ∈ passes, pass.Planned) :
    ((language.stage 0 text).analyse passes).root.All
      (Node.HidesNew (language.isAdded text)) := by
  refine all_analyse_of_all text (fun node hnode _ below hbelow =>
    language.isAdded_stage text (Node.mem_descendants_trans hnode hbelow)) fun pass hpass => ?_
  obtain ⟨plan, hreads, hsound⟩ := h pass hpass
  exact ⟨plan, hreads, hsound, Plan.upholds_hidesNew⟩

/-- The tree at the end of analysis is what all passes make of the tree before it. -/
theorem root_parse (language : Language) (text : List Char) :
    (language.parse true text).root =
      ((language.stage 0 text).analyse language.grammar.passes).root := rfl

/-- What a pass makes true of all nodes holds at the end of analysis, if it follows from what there
is in front of the pass, and the later passes keep it. -/
theorem all_parse (text : List Char) (early : List Pass) (pass : Pass) (late : List Pass)
    {plan : Plan} {made : KindSet} {property : Node → Prop}
    (hpasses : language.grammar.passes = early ++ pass :: late)
    (hearly : ∀ pass ∈ early, ∃ plan, pass.rule.Reads plan ∧ plan.Sound ∧ plan.Makes made)
    (hreads : pass.rule.Reads plan) (hsound : plan.Sound)
    (hpass : plan.Upholds (language.isAdded text) (Node.Staged (language.isAdded text) made)
      property)
    (hlate : ∀ pass ∈ late, ∃ plan, pass.rule.Reads plan ∧ plan.Sound
      ∧ plan.Upholds (language.isAdded text) property property) :
    (language.parse true text).root.All property := by
  rw [root_parse, hpasses]
  exact all_analyse text early pass late (language.staged_analyse text early made hearly) hreads
    hsound hpass hlate

end Language

end ConcreteSyntax
