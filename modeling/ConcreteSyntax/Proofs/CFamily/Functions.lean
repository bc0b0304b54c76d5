import ConcreteSyntax.Proofs.CFamily.Calls
import ConcreteSyntax.Proofs.CFamily.Stages

/-!
# Functions

The words in front of the parameters of a function stay its first children through all passes, with
the parameters behind them (`Language.signed_parse`).  Behind the parameters, the pass that makes a
function definition looks for functions once more, and a colon there may be followed by what looks
like the beginning of one (`HoldsHeader`).
-/

namespace ConcreteSyntax

namespace CFamily

open Plan

variable {isNew : NodeId → Bool} {scene : Scene} {kind parent : Kind} {previous : Option Kind}
  {words front behind : List Kind} {n : Nat}

/-! ## Functions from their first word on -/

/-- What stands in front of the parameters of a function: words of a declaration, the last of them
an identifier. -/
structure AreWords (words : List Kind) : Prop where
  word : ∀ word ∈ words, declarationWords.contains word = true
  name : words.getLast? = some .text

theorem AreWords.ne_nil (h : AreWords words) : words ≠ [] := by
  rintro rfl
  cases h.name

theorem countWhile_words (h : AreWords words) (behind : List Kind) :
    countWhile declarationWords.contains (words ++ .parenthesis :: behind) = words.length := by
  rw [countWhile, List.takeWhile_append_of_pos h.word]
  simp [declarationWords, typeWords]

/-- From the first of its words on, a function is found as far as its end is found behind its
parameters. -/
theorem functionPlan_of_words (hwords : AreWords words)
    (hkinds : scene.kinds = words ++ .parenthesis :: behind)
    (hprevious : isBoundary scene.previous = true) (hparenthesis : scene.parent ≠ .parenthesis)
    (hbrackets : scene.parent ≠ .brackets) :
    functionPlan scene =
      (functionEndPlan words.length behind).map (shift (words.length + 1)) := by
  have hpos := List.length_pos_iff.2 hwords.ne_nil
  have hhead : scene.kinds.head?.any declarationWords.contains = true := by
    obtain ⟨first, rest, rfl⟩ := List.exists_cons_of_ne_nil hwords.ne_nil
    rw [hkinds]
    exact hwords.word first (List.mem_cons_self ..)
  have hname : scene.kinds[words.length - 1]? = some .text := by
    rw [hkinds, List.getElem?_append_left (by omega), ← List.getLast?_eq_getElem?, hwords.name]
  have hparameters : scene.kinds[words.length]? = some .parenthesis := by simp [hkinds]
  have hbehind : scene.kinds.drop (words.length + 1) = behind := by
    rw [hkinds, ← List.drop_drop, List.drop_left]
    rfl
  have hcount : countWhile declarationWords.contains scene.kinds = words.length := by
    rw [hkinds, countWhile_words hwords]
  unfold functionPlan guarded
  rw [if_pos (by simp [hhead, hprevious, hparenthesis, hbrackets])]
  dsimp only
  rw [hcount, if_pos ⟨hname, hparameters⟩, hbehind]

/-- All that a function is found with. -/
theorem exists_words (h : functionPlan scene = some (kind, n)) :
    ∃ words behind m, AreWords words ∧ scene.kinds = words ++ .parenthesis :: behind
      ∧ isBoundary scene.previous = true ∧ functionEndPlan words.length behind = some (kind, m)
      ∧ n = words.length + 1 + m := by
  unfold functionPlan guarded at h
  split at h
  case isFalse => cases h
  case isTrue htest =>
    simp only [Bool.and_eq_true] at htest
    dsimp only at h
    split at h
    case isFalse => cases h
    case isTrue hfound =>
      obtain ⟨hname, hparameters⟩ := hfound
      simp only [Option.map_eq_some_iff, shift, Prod.mk.injEq] at h
      obtain ⟨⟨found, m⟩, hend, rfl, rfl⟩ := h
      have hlength : (scene.kinds.takeWhile declarationWords.contains).length =
          countWhile declarationWords.contains scene.kinds := rfl
      generalize hcount : countWhile declarationWords.contains scene.kinds = count at *
      have htake : scene.kinds.takeWhile declarationWords.contains = scene.kinds.take count :=
        hlength ▸ List.prefix_iff_eq_take.1 (List.takeWhile_prefix _)
      obtain ⟨hlt, hget⟩ := List.getElem?_eq_some_iff.1 hparameters
      have hdrop : scene.kinds.drop count = .parenthesis :: scene.kinds.drop (count + 1) := by
        rw [List.drop_eq_getElem_cons hlt, hget]
      refine ⟨scene.kinds.takeWhile declarationWords.contains, scene.kinds.drop (count + 1), m,
        ⟨fun word hword => ?_, ?_⟩, ?_, htest.1.1.2, hlength.symm ▸ hend, by rw [hlength]⟩
      · exact List.mem_takeWhile_imp hword
      · rw [List.getLast?_eq_getElem?, hlength, htake, List.getElem?_take, hname]
        -- the first word is one of a declaration, so there is one at least
        rw [if_pos]
        obtain ⟨first, hfirst, hword⟩ := (Option.any_eq_true _ _).1 htest.1.1.1
        obtain ⟨rest, hrest⟩ := List.head?_eq_some_iff.1 hfirst
        rw [hrest, countWhile, List.takeWhile_cons, if_pos hword, List.length_cons] at hcount
        omega
      · rw [htake, ← hdrop, List.take_append_drop]

theorem functionEndPlan_take {m : Nat} (h : functionEndPlan n behind = some (kind, m)) :
    functionEndPlan n (behind.take m) = some (kind, m) := by
  fun_induction functionEndPlan n behind generalizing m with
  | case1 => cases h
  | case2 rest =>
      obtain ⟨rfl, rfl⟩ := Prod.mk.inj (Option.some.inj h)
      rw [List.take_succ_cons, functionEndPlan, if_pos rfl]
  | case3 head rest hbraces hend =>
      obtain ⟨rfl, rfl⟩ := Prod.mk.inj (Option.some.inj h)
      rw [List.take_succ_cons, functionEndPlan, if_neg hbraces, if_pos hend]
  | case4 head rest hbraces hend hvalue ih =>
      obtain ⟨⟨found, count⟩, hcount, hshift⟩ := Option.map_eq_some_iff.1 h
      obtain ⟨rfl, rfl⟩ := Prod.mk.inj hshift
      obtain ⟨next, hnext, -⟩ := (Option.any_eq_true _ _).1 hvalue.2
      obtain ⟨rest, rfl⟩ := List.head?_eq_some_iff.1 hnext
      have hrest := ih hcount
      rw [List.tail_cons] at hrest
      rw [Nat.add_comm, List.take_succ_cons, List.take_succ_cons, functionEndPlan, if_neg hbraces,
        if_neg hend, if_pos ⟨hvalue.1, by simpa using hvalue.2⟩, List.tail_cons]
      dsimp only
      rw [hrest, Nat.add_comm]
      rfl
  | case5 head rest hbraces hend hvalue htrailer ih =>
      obtain ⟨⟨found, count⟩, hcount, hshift⟩ := Option.map_eq_some_iff.1 h
      obtain ⟨rfl, rfl⟩ := Prod.mk.inj hshift
      have hequal : head ≠ .equal := by
        rintro rfl
        exact absurd htrailer (by decide)
      rw [Nat.add_comm, List.take_succ_cons, functionEndPlan, if_neg hbraces, if_neg hend,
        if_neg fun hboth => hequal hboth.1, if_pos htrailer, ih hcount, Nat.add_comm]
      rfl
  | case6 => cases h

theorem ne_of_functionKinds (h : functionKinds.contains kind = true) :
    kind ≠ .parenthesis ∧ kind ≠ .brackets ∧ kind ≠ .braces := by
  refine ⟨?_, ?_, ?_⟩ <;>
  · rintro rfl
    exact absurd h (by decide)

theorem exact_function : Exact functionPlan := by
  intro scene kind other n m h hwithin
  obtain ⟨words, behind, count, hwords, hkinds, -, hend, rfl⟩ := exists_words h
  have hparent := ne_of_functionKinds (makes_function h)
  have htake : (scene.within kind (words.length + 1 + count)).kinds =
      words ++ .parenthesis :: behind.take count := by
    rw [Scene.within, hkinds, Nat.add_assoc, List.take_length_add_append, Nat.add_comm 1 count]
    rfl
  rw [functionPlan_of_words hwords htake rfl hparent.1 hparent.2.1, functionEndPlan_take hend,
    Option.map_some, Option.some.injEq] at hwithin
  exact (Prod.mk.inj hwithin).2.symm

/-- Functions only begin behind a boundary. -/
theorem silent_function (hprevious : isBoundary previous = false)
    (h : ∀ kind ∈ front, boundary.contains kind = false) :
    functionPlan.Silent parent previous front behind := by
  induction front generalizing previous with
  | nil => trivial
  | cons kind rest ih =>
      rw [List.forall_mem_cons] at h
      refine ⟨fun scene _ hscene _ => ?_, ih h.1 h.2⟩
      unfold functionPlan guarded
      rw [if_neg]
      simp [hscene, hprevious]

/-- What a new function begins with. -/
theorem exists_words_of_made {run : List Node} (h : functionPlan.Made kind run) :
    ∃ words behind, AreWords words
      ∧ significantKinds run = words ++ .parenthesis :: behind
      ∧ functionEndPlan words.length behind = some (kind, behind.length) := by
  obtain ⟨scene, after, hfound, hkinds⟩ := h.exists_scene
  obtain ⟨words, behind, m, hwords, hscene, -, hend, hlength⟩ := exists_words hfound
  have hrun : significantKinds run = words ++ .parenthesis :: behind.take m := by
    have htake := congrArg (List.take (words.length + 1 + m)) (hkinds.symm.trans hscene)
    rw [← hlength, List.take_left' (List.length_map _), hlength, Nat.add_assoc,
      List.take_length_add_append, Nat.add_comm 1 m, map_kind_significantLabels] at htake
    exact htake
  have hm : m ≤ behind.length := (functionEnd_spec hend).2.1
  refine ⟨words, behind.take m, hwords, hrun, ?_⟩
  rw [List.length_take, Nat.min_eq_left hm]
  exact functionEndPlan_take hend

/-! ## Later passes -/

theorem silent_flow (h : ∀ kind ∈ front, flowWords.contains kind = false) :
    flowPlan.Silent parent previous front behind := by
  refine silent_of_heads (fun hhead hkind => ?_) h previous
  obtain ⟨rest, hrest⟩ := List.head?_eq_some_iff.1 hhead
  exact flowPlan_eq_none hrest hkind

theorem silent_labels (h : parent ≠ .braces) :
    labelsPlan.Silent parent previous front behind := by
  refine silent_of_forall (fun kind _ scene hparent _ _ => ?_) previous
  rw [← hparent] at h
  simp [labelsPlan, guarded, h]

theorem callPlan_eq_none (h : withoutCalls.contains scene.parent = true) :
    callPlan scene = none := by
  unfold callPlan guarded
  rw [if_neg]
  simp only [h, Bool.not_true, Bool.and_false, Bool.false_and, Bool.false_eq_true,
    not_false_eq_true]

theorem silent_call_of_without (h : withoutCalls.contains parent = true) :
    callPlan.Silent parent previous front behind :=
  silent_of_forall (fun _ _ _ hparent _ _ => callPlan_eq_none (hparent ▸ h)) previous

/-- Words of Objective-C that begin a call, and brackets, which may be a message. -/
def messageWords : KindSet := .ofList [.atSelectorKw, .atEncodeKw, .brackets]

theorem callAtPlan_eq (h : messageWords.contains kind = false) :
    callAtPlan (some kind) = callPlan := by
  unfold callAtPlan
  split
  case h_5 => rfl
  case h_1 heq => cases heq
  all_goals
    rename_i heq
    obtain rfl := Option.some.inj heq
    exact absurd h (by decide)

theorem messagesPlan_eq (hhead : scene.kinds.head? = some kind)
    (h : messageWords.contains kind = false) : messagesPlan scene = callPlan scene := by
  unfold messagesPlan dispatch
  rw [hhead, callAtPlan_eq h]

theorem silent_messages_of_without (hparent : withoutCalls.contains parent = true)
    (h : ∀ kind ∈ front, messageWords.contains kind = false) :
    messagesPlan.Silent parent previous front behind := by
  refine silent_of_forall (fun kind hkind scene hscene hhead _ => ?_) previous
  rw [messagesPlan_eq hhead (h kind hkind)]
  exact callPlan_eq_none (hscene ▸ hparent)

/-! ## Signatures -/

/-- Whether a node begins with the words and the parameters of a function. -/
def Signed (node : Node) : Prop :=
  ∃ words behind, AreWords words
    ∧ significantKinds node.children = words ++ .parenthesis :: behind

/-- The labels of the signature, and the others. -/
theorem Signed.exists_labels {node : Node} (h : Signed node) :
    ∃ front behind : List Label, Node.significantLabels node.children = front ++ behind
      ∧ ∃ words, AreWords words ∧ front.map (·.kind) = words ++ [.parenthesis] := by
  obtain ⟨words, behind, hwords, hkinds⟩ := h
  rw [← List.singleton_append, ← List.append_assoc, ← map_kind_significantLabels] at hkinds
  obtain ⟨front, rest, hlabels, hfront, -⟩ := List.map_eq_append_iff.1 hkinds
  exact ⟨front, rest, hlabels, words, hwords, hfront⟩

theorem signed_of_front {label : Label} {children : List Node} {front behind : List Label}
    (hwords : AreWords words) (hfront : front.map (·.kind) = words ++ [.parenthesis])
    (hchildren : Node.significantLabels children = front ++ behind) : Signed ⟨label, children⟩ := by
  refine ⟨words, behind.map (·.kind), hwords, ?_⟩
  change significantKinds children = _
  rw [← map_kind_significantLabels, hchildren, List.map_append, hfront, List.append_assoc]
  rfl

theorem forall_front {heads : KindSet} (hwords : AreWords words)
    (h : declarationWords.IsDisjoint heads)
    (hparenthesis : heads.contains .parenthesis = false) :
    ∀ kind ∈ words ++ [.parenthesis], heads.contains kind = false := by
  intro kind hkind
  rcases List.mem_append.1 hkind with hkind | hkind
  · exact KindSet.not_contains_of_disjoint h (hwords.word kind hkind)
  · obtain rfl := List.mem_singleton.1 hkind
    exact hparenthesis

/-- A pass that finds nothing in a signature leaves it in front. -/
theorem upholds_signed {plan : Plan} {kinds : KindSet} (hsound : plan.Sound)
    (hmakes : plan.Makes kinds)
    (hdisjoint : kinds.IsDisjoint functionKinds)
    (hsilent : ∀ {parent words behind}, functionKinds.contains parent = true → AreWords words →
      plan.Silent parent none (words ++ [.parenthesis]) behind) :
    plan.Upholds isNew (fun node => functionKinds.contains node.kind = true → Signed node)
      fun node => functionKinds.contains node.kind = true → Signed node := by
  refine upholds_of_kinds (fun scene kind n hfound =>
    KindSet.not_contains_of_disjoint hdisjoint (hmakes hfound)) ?_
  intro label children children' hkind hsigned hturns
  obtain ⟨front, behind, hlabels, words, hwords, hfront⟩ := hsigned.exists_labels
  obtain ⟨behind', hchildren', -⟩ :=
    hturns.exists_front hsound hlabels (hfront ▸ hsilent hkind hwords)
  exact signed_of_front hwords hfront hchildren'

theorem upholds_signed_flow :
    flowPlan.Upholds isNew (fun node => functionKinds.contains node.kind = true → Signed node)
      fun node => functionKinds.contains node.kind = true → Signed node :=
  upholds_signed sound_flow makes_flow (by decide) fun _ hwords =>
    silent_flow (forall_front hwords (by decide) (by decide))

theorem upholds_signed_labels :
    labelsPlan.Upholds isNew (fun node => functionKinds.contains node.kind = true → Signed node)
      fun node => functionKinds.contains node.kind = true → Signed node :=
  upholds_signed sound_labels makes_labels (by decide) fun hparent _ =>
    silent_labels (ne_of_functionKinds hparent).2.2

theorem withoutCalls_of_functionKinds (h : functionKinds.contains kind = true) :
    withoutCalls.contains kind = true :=
  KindSet.contains_of_subset (by decide) h

theorem upholds_signed_call :
    callPlan.Upholds isNew (fun node => functionKinds.contains node.kind = true → Signed node)
      fun node => functionKinds.contains node.kind = true → Signed node :=
  upholds_signed sound_call makes_call (by decide) fun hparent _ =>
    silent_call_of_without (withoutCalls_of_functionKinds hparent)

theorem upholds_signed_messages :
    messagesPlan.Upholds isNew (fun node => functionKinds.contains node.kind = true → Signed node)
      fun node => functionKinds.contains node.kind = true → Signed node :=
  upholds_signed sound_messages makes_messages (by decide) fun hparent hwords =>
    silent_messages_of_without (withoutCalls_of_functionKinds hparent)
      (forall_front hwords (by decide) (by decide))

/-- The pass for functions finds a signature in front of each node that it makes, and leaves it
there. -/
theorem upholds_signed_function {made : KindSet}
    (hdisjoint : functionKinds.IsDisjoint made) :
    functionPlan.Upholds isNew (Node.Staged isNew made)
      fun node => functionKinds.contains node.kind = true → Signed node := by
  refine upholds_of_made (fun node hstaged => hstaged.not_later (by decide) hdisjoint) ?_
  intro label children children' _ hkind hmade _ hturns
  obtain ⟨words, behind, hwords, hkinds, -⟩ := exists_words_of_made hmade
  have hsigned : Signed ⟨label, children⟩ := ⟨words, behind, hwords, hkinds⟩
  obtain ⟨front, rest, hlabels, words, hwords, hfront⟩ := hsigned.exists_labels
  obtain ⟨word, words, rfl⟩ := List.exists_cons_of_ne_nil hwords.ne_nil
  obtain ⟨first, others, rfl, hfirst, hothers⟩ := List.map_eq_cons_iff.1 hfront
  obtain ⟨rest', hchildren', -⟩ := hturns.exists_front_of_made sound_function exact_function hmade
    hlabels (by
      have hboundary : ∀ kind ∈ word :: words ++ [.parenthesis], boundary.contains kind = false :=
        forall_front hwords (by decide) (by decide)
      rw [List.cons_append, List.forall_mem_cons] at hboundary
      rw [hfirst, hothers]
      exact silent_function hboundary.1 hboundary.2)
  exact signed_of_front hwords hfront hchildren'

end CFamily

namespace Language

open CFamily

variable {language : Language} {made : KindSet}

/-- The passes of a C-family language, in their order. -/
theorem exists_passes (h : language ∈ cFamily) :
    ∃ early last, language.grammar.passes = early ++
        [⟨"types", types⟩, ⟨"functions", function⟩, ⟨"flow", flow⟩, ⟨"labels", labels⟩, last]
      ∧ (∀ pass ∈ early, pass.rule = conditional ∨ pass.rule = classes)
      ∧ (last.rule = call ∨ last.rule = messages) := by
  cases language with
  | c | cpp => exact ⟨passes.take 1, ⟨"calls", call⟩, rfl, by simp [passes], .inl rfl⟩
  | objc | objcpp =>
      exact ⟨objcPasses.take 2, ⟨"calls", messages⟩, rfl, by simp [objcPasses], .inr rfl⟩
  | html | xml | feed | propertyList => exact absurd h (by decide)

/-- What holds of the plans for conditionals and classes holds of those of the first passes. -/
theorem exists_plan_of_early (property : Plan → Prop) (hconditional : property conditionalPlan)
    (hclasses : property classesPlan) {pass : Pass}
    (hpass : pass.rule = conditional ∨ pass.rule = classes) :
    ∃ plan, pass.rule.Reads plan ∧ plan.Sound ∧ property plan := by
  rcases hpass with hpass | hpass
  · exact ⟨_, hpass ▸ reads_conditional, sound_conditional, hconditional⟩
  · exact ⟨_, hpass ▸ reads_classes, sound_classes, hclasses⟩

/-- What holds of the plans for calls and messages holds of that of the last pass. -/
theorem exists_plan_of_last (property : Plan → Prop) (hcall : property callPlan)
    (hmessages : property messagesPlan) {pass : Pass}
    (hpass : pass.rule = call ∨ pass.rule = messages) :
    ∃ plan, pass.rule.Reads plan ∧ plan.Sound ∧ property plan := by
  rcases hpass with hpass | hpass
  · exact ⟨_, hpass ▸ reads_call, sound_call, hcall⟩
  · exact ⟨_, hpass ▸ reads_messages, sound_messages, hmessages⟩

/-- Kinds of what the passes in front of that for types make. -/
def earlyKinds : KindSet := .ofList [.preprocessorConditional] ∪ classKinds

theorem exists_plan_makes (hkinds : earlyKinds.IsSubset made) {pass : Pass}
    (hpass : pass.rule = conditional ∨ pass.rule = classes) :
    ∃ plan, pass.rule.Reads plan ∧ plan.Sound ∧ plan.Makes made := by
  have hconditional : conditionalPlan.Makes earlyKinds := makes_conditional.mono (by decide)
  have hclasses : classesPlan.Makes earlyKinds := makes_classes.mono (by decide)
  exact exists_plan_of_early (·.Makes made) (hconditional.mono hkinds) (hclasses.mono hkinds) hpass

/-- What the pass for functions makes true of all nodes, and statements and calls keep, holds at
the end of analysis. -/
theorem all_parse_of_function (h : language ∈ cFamily) (text : List Char)
    {property : Node → Prop}
    (hfunction : functionPlan.Upholds (language.isAdded text)
      (Node.Staged (language.isAdded text) declarationKinds) property)
    (hflow : flowPlan.Upholds (language.isAdded text) property property)
    (hlabels : labelsPlan.Upholds (language.isAdded text) property property)
    (hcall : callPlan.Upholds (language.isAdded text) property property)
    (hmessages : messagesPlan.Upholds (language.isAdded text) property property) :
    (language.parse true text).root.All property := by
  obtain ⟨early, last, hpasses, hearly, hlast⟩ := exists_passes h
  refine all_parse text (early ++ [⟨"types", types⟩]) ⟨"functions", function⟩
    [⟨"flow", flow⟩, ⟨"labels", labels⟩, last] (by simp [hpasses]) ?_ reads_function sound_function
    hfunction ?_
  · rw [List.forall_mem_append, List.forall_mem_singleton]
    exact ⟨fun pass hpass => exists_plan_makes (by decide) (hearly pass hpass), _,
      reads_types, sound_types, makes_types.mono (by decide)⟩
  · simp only [List.forall_mem_cons]
    exact ⟨⟨_, reads_flow, sound_flow, hflow⟩, ⟨_, reads_labels, sound_labels, hlabels⟩,
      exists_plan_of_last _ hcall hmessages hlast, by simp⟩

/-- At the end of analysis functions begin with their words and their parameters. -/
theorem signed_parse (h : language ∈ cFamily) (text : List Char) {node : Node}
    (hnode : node ∈ (language.parse true text).root.descendants)
    (hkind : functionKinds.contains node.kind = true) : Signed node :=
  all_parse_of_function h text (upholds_signed_function (by decide)) upholds_signed_flow
    upholds_signed_labels upholds_signed_call upholds_signed_messages node hnode hkind

end Language

end ConcreteSyntax
