import ConcreteSyntax.Proofs.CFamily.DeclaredNames
import ConcreteSyntax.Proofs.CFamily.Labels

/-!
# Expressions in brackets

Between brackets no statement ends, and no class, directive or function begins.  What a pass puts
together there ends in brackets of some kind, and holds no colon (`Plan.Encloses`).  So the passes
regroup the siblings in brackets run by run (`Regroups`), each time around such a run.
-/

namespace ConcreteSyntax

namespace CFamily

open Plan

variable {kind : Kind} {kinds run : List Kind} {n : Nat}

/-! ## Runs that passes find -/

/-- Kinds that do not stand in expressions: what ends statements and classes, and what begins a
conditional directive. -/
def statementMarks : KindSet := .ofList [.semicolon, .atEndKw] ∪ conditionalOpeners

/-- Words of records. -/
def recordWords : KindSet := .ofList [.structKw, .unionKw, .enumKw, .classKw]

/-- Kinds of brackets with what they hold. -/
def bracketKinds : KindSet := .ofList [.parenthesis, .brackets, .braces]

/-- What joins the parts of a message, and the brackets themselves: no run begins with it. -/
def jointKinds : KindSet := .ofList [.dot, .arrow, .colon, .delimiter]

/-- Whether siblings can be expressions: no statement or class ends among them, no conditional
directive begins, and no record has a colon in its header. -/
structure AreExpressions (kinds : List Kind) : Prop where
  plain : ∀ kind ∈ kinds, statementMarks.contains kind = false
  header : ∀ {front word header behind}, kinds = front ++ word :: (header ++ .colon :: behind) →
    recordWords.contains word = true → ∃ kind ∈ header, recordHeader.contains kind = false

theorem AreExpressions.behind {front : List Kind} (h : AreExpressions (front ++ kinds)) :
    AreExpressions kinds where
  plain kind hkind := h.plain kind (List.mem_append_right _ hkind)
  header {other word header rest} hkinds hword := by
    have hsplit : front ++ kinds = front ++ other ++ word :: (header ++ .colon :: rest) := by
      rw [hkinds, List.append_assoc]
    exact h.header hsplit hword

/-- Where there are no records, only what ends statements counts. -/
theorem areExpressions_of_forall (h : ∀ kind ∈ kinds,
    statementMarks.contains kind = false ∧ recordWords.contains kind = false) :
    AreExpressions kinds where
  plain kind hkind := (h kind hkind).1
  header {front word header behind} hkinds hword := by
    have hmem : word ∈ kinds := by
      rw [hkinds]
      simp
    rw [(h word hmem).2] at hword
    cases hword

theorem AreExpressions.notMem (h : AreExpressions kinds)
    (hkind : statementMarks.contains kind = true) : kind ∉ kinds := by
  intro hmem
  rw [h.plain kind hmem] at hkind
  cases hkind

/-- Whether siblings end in brackets of some kind and hold no colon of their own. -/
structure EndsInBrackets (run : List Kind) : Prop where
  last : ∃ kind, run.getLast? = some kind ∧ bracketKinds.contains kind = true
  colon : .colon ∉ run

theorem endsInBrackets_single (h : bracketKinds.contains kind = true) : EndsInBrackets [kind] where
  last := ⟨kind, rfl, h⟩
  colon := by
    rw [List.mem_singleton]
    rintro rfl
    exact absurd h (by decide)

theorem EndsInBrackets.append {front : List Kind} (hfront : .colon ∉ front)
    (h : EndsInBrackets run) : EndsInBrackets (front ++ run) where
  last := by
    obtain ⟨kind, hlast, hkind⟩ := h.last
    exact ⟨kind, by rw [List.getLast?_append, hlast]; rfl, hkind⟩
  colon hcolon := (List.mem_append.1 hcolon).elim hfront h.colon

theorem EndsInBrackets.cons (hkind : kind ≠ .colon) (h : EndsInBrackets run) :
    EndsInBrackets (kind :: run) := by
  have hcolon : .colon ∉ [kind] := by simpa using hkind.symm
  exact h.append hcolon

/-- Whether siblings are a run that a pass may find between brackets. -/
structure IsEnclosed (run : List Kind) : Prop extends EndsInBrackets run where
  first : ∀ kind ∈ run.head?, jointKinds.contains kind = false

end CFamily

/-- Whether all that a plan finds among expressions in brackets ends in brackets itself. -/
def Plan.Encloses (plan : Plan) : Prop :=
  ∀ {scene : Scene} {kind n}, scene.parent = .brackets → CFamily.AreExpressions scene.kinds →
    .newKw ∉ scene.kinds → plan scene = some (kind, n) → CFamily.IsEnclosed (scene.kinds.take n)

namespace CFamily

open Plan

variable {scene : Scene} {kind : Kind} {kinds : List Kind} {n : Nat}

/-- A run in front of brackets, and the brackets. -/
theorem endsInBrackets_take {m : Nat} (hcolon : .colon ∉ kinds.take m)
    (hlast : kinds[m]? = some kind) (hkind : bracketKinds.contains kind = true) :
    EndsInBrackets (kinds.take (m + 1)) := by
  rw [List.take_add_one, hlast]
  exact (endsInBrackets_single hkind).append hcolon

theorem isEnclosed_take {word : Kind} (hhead : kinds.head? = some word)
    (hword : jointKinds.contains word = false) (h : EndsInBrackets (kinds.take n)) :
    IsEnclosed (kinds.take n) where
  toEndsInBrackets := h
  first other hother := by
    obtain ⟨rest, rfl⟩ := List.head?_eq_some_iff.1 hhead
    cases n with
    | zero =>
        obtain ⟨last, hlast, -⟩ := h.last
        cases hlast
    | succ n =>
        obtain rfl := Option.some.inj hother
        exact hword

theorem encloses_of_none {plan : Plan}
    (h : ∀ {scene : Scene}, scene.parent = .brackets → AreExpressions scene.kinds →
      plan scene = none) : plan.Encloses := by
  intro scene kind n hparent hkinds _ hfound
  rw [h hparent hkinds] at hfound
  cases hfound

theorem encloses_conditional : conditionalPlan.Encloses := by
  apply encloses_of_none
  intro scene _ hkinds
  unfold conditionalPlan guarded
  rw [if_neg]
  cases hhead : scene.kinds.head? with
  | none => simp [hhead]
  | some kind =>
      have hplain := hkinds.plain kind (List.mem_of_head? hhead)
      rw [statementMarks, KindSet.contains_union, Bool.or_eq_false_iff] at hplain
      simp [hhead, hplain.2]

theorem wordThroughPlan_eq_none {stop : Kind} {barred : KindSet} (h : stop ∉ scene.kinds) :
    wordThroughPlan stop barred kind scene = none := by
  rw [wordThroughPlan, through_eq_none _ fun hmem => h (List.mem_of_mem_tail hmem)]
  rfl

theorem encloses_classes : classesPlan.Encloses := by
  apply encloses_of_none
  intro scene hparent hkinds
  have hend : .atEndKw ∉ scene.kinds := hkinds.notMem (by decide)
  have hsemicolon : .semicolon ∉ scene.kinds := hkinds.notMem (by decide)
  unfold classesPlan dispatch
  generalize scene.kinds.head? = head
  unfold classAtPlan
  split
  · exact wordThroughPlan_eq_none hend
  · exact wordThroughPlan_eq_none hend
  · unfold protocolPlan guarded
    rw [wordThroughPlan_eq_none hend, ite_self]
  · exact wordThroughPlan_eq_none hsemicolon
  · exact wordThroughPlan_eq_none hsemicolon
  · have hclass : methodContainers.contains scene.parent = false := by
      rw [hparent]
      decide
    unfold methodPlan guarded
    rw [if_neg (by simp [hclass])]
  · rfl

theorem encloses_function : functionPlan.Encloses := by
  apply encloses_of_none
  intro scene hparent _
  unfold functionPlan guarded
  rw [if_neg (by simp [hparent])]

theorem encloses_labels : labelsPlan.Encloses := by
  apply encloses_of_none
  intro scene hparent _
  unfold labelsPlan guarded
  rw [if_neg (by simp [hparent])]

theorem isEnclosed_of_wordWithArgument {found word : Kind} (hhead : scene.kinds.head? = some word)
    (hword : jointKinds.contains word = false)
    (h : wordWithArgumentPlan kind scene = some (found, n)) : IsEnclosed (scene.kinds.take n) := by
  unfold wordWithArgumentPlan at h
  split at h
  · rename_i hargument
    obtain ⟨-, rfl⟩ := Prod.mk.inj (Option.some.inj h)
    apply isEnclosed_take hhead hword
    apply endsInBrackets_take (m := 1) _ hargument (by decide)
    obtain ⟨rest, hrest⟩ := List.head?_eq_some_iff.1 hhead
    rw [hrest, List.take_succ_cons, List.take_zero, List.mem_singleton]
    rintro rfl
    exact absurd hword (by decide)
  · cases h

/-- A word, what stands in front of a body, and the body. -/
theorem isEnclosed_of_countWhile {allowed : Kind → Bool} {word : Kind}
    (hhead : kinds.head? = some word) (hword : jointKinds.contains word = false)
    (hcolon : .colon ∉ kinds.tail.takeWhile allowed)
    (hbody : kinds[1 + countWhile allowed kinds.tail]? = some .braces) :
    IsEnclosed (kinds.take (1 + countWhile allowed kinds.tail + 1)) := by
  apply isEnclosed_take hhead hword
  apply endsInBrackets_take _ hbody (by decide)
  obtain ⟨rest, rfl⟩ := List.head?_eq_some_iff.1 hhead
  rw [Nat.add_comm, List.take_succ_cons, List.tail_cons, List.mem_cons, not_or]
  constructor
  · rintro rfl
    exact absurd hword (by decide)
  · rwa [countWhile, ← List.prefix_iff_eq_take.1 (List.takeWhile_prefix allowed)]

theorem isEnclosed_of_record {found word : Kind} (hkinds : AreExpressions scene.kinds)
    (hhead : scene.kinds.head? = some word) (hword : recordWords.contains word = true)
    (h : recordPlan kind scene = some (found, n)) : IsEnclosed (scene.kinds.take n) := by
  obtain ⟨-, hbody, hn⟩ := record_spec h
  -- no semicolon ends the declarators
  have hnone : through .semicolon declarators.contains (scene.kinds.drop
      (1 + countWhile recordHeader.contains scene.kinds.tail + 1)) = none :=
    through_eq_none _ fun hmem => hkinds.notMem (by decide) (List.mem_of_mem_drop hmem)
  rw [hnone, Option.getD_none, ite_self, Nat.add_zero] at hn
  obtain ⟨rest, hrest⟩ := List.head?_eq_some_iff.1 hhead
  subst hn
  apply isEnclosed_of_countWhile hhead (KindSet.not_contains_of_disjoint (by decide) hword) _ hbody
  intro hcolon
  rw [hrest, List.tail_cons] at hcolon
  obtain ⟨header, others, hheader⟩ := List.append_of_mem hcolon
  have hsplit : rest = header ++ .colon :: (others ++ rest.dropWhile recordHeader.contains) := by
    rw [← List.cons_append, ← List.append_assoc, ← hheader, List.takeWhile_append_dropWhile]
  have hwhole : scene.kinds =
      [] ++ word :: (header ++ .colon :: (others ++ rest.dropWhile recordHeader.contains)) := by
    rw [← hsplit]
    exact hrest
  obtain ⟨part, hpart, hnot⟩ := hkinds.header hwhole hword
  have hpart : part ∈ rest.takeWhile recordHeader.contains := by
    rw [hheader]
    exact List.mem_append_left _ hpart
  rw [List.mem_takeWhile_imp hpart] at hnot
  cases hnot

theorem encloses_types : typesPlan.Encloses := by
  intro scene kind n _ hkinds _ h
  unfold typesPlan dispatch at h
  generalize hhead : scene.kinds.head? = head at h
  unfold typeAtPlan at h
  split at h
  · rw [wordThroughPlan_eq_none (hkinds.notMem (by decide))] at h
    cases h
  · exact isEnclosed_of_record hkinds hhead (by decide) h
  · exact isEnclosed_of_record hkinds hhead (by decide) h
  · exact isEnclosed_of_record hkinds hhead (by decide) h
  · exact isEnclosed_of_record hkinds hhead (by decide) h
  · exact isEnclosed_of_wordWithArgument hhead (by decide) h
  · exact isEnclosed_of_wordWithArgument hhead (by decide) h
  · obtain ⟨-, hbody, rfl⟩ := nameSpace_spec h
    apply isEnclosed_of_countWhile hhead (by decide) _ hbody
    intro hcolon
    exact absurd (List.mem_takeWhile_imp hcolon) (by decide)
  · cases h

/-- The end of a `do` loop is a word and its condition, if no semicolon follows. -/
theorem endsInBrackets_of_doEnd (h : doEndLength kinds = some n) (hsemicolon : .semicolon ∉ kinds) :
    EndsInBrackets (kinds.take n) := by
  unfold doEndLength at h
  split at h
  · rename_i hcondition
    obtain ⟨hwhile, hparenthesis⟩ := hcondition
    obtain ⟨rest, rfl⟩ := List.head?_eq_some_iff.1 hwhile
    split at h
    · rename_i hend
      exact absurd (List.mem_of_getElem? hend) hsemicolon
    · obtain rfl := Option.some.inj h
      exact endsInBrackets_take (by simp) hparenthesis (by decide)
  · cases h

/-- A statement that no semicolon ends consists of words, conditions and bodies, and ends in one of
these. -/
theorem endsInBrackets_of_statement (h : statementLength kinds = some n)
    (hsemicolon : .semicolon ∉ kinds) : EndsInBrackets (kinds.take n) := by
  fun_induction statementLength kinds generalizing n with
  | case1 | case2 | case5 | case7 | case9 | case11 | case14 | case16 | case18 | case20 | case22
  | case24 | case26 => cases h
  | case3 rest =>
      obtain rfl := Option.some.inj h
      exact endsInBrackets_single (by decide)
  | case4 rest hcondition ih | case6 rest hcondition ih | case8 rest hcondition ih
  | case10 rest hcondition ih =>
      obtain ⟨m, hm, rfl⟩ := Option.map_eq_some_iff.1 h
      obtain ⟨body, rfl⟩ := List.head?_eq_some_iff.1 hcondition
      rw [List.mem_cons, List.mem_cons, not_or, not_or] at hsemicolon
      exact ((ih hm hsemicolon.2.2).cons (by decide)).cons (by decide)
  | case12 rest ih =>
      obtain ⟨m, hm, rfl⟩ := Option.map_eq_some_iff.1 h
      rw [List.mem_cons, not_or] at hsemicolon
      exact (ih hm hsemicolon.2).cons (by decide)
  | case13 rest body hbody ih =>
      obtain ⟨m, hm, rfl⟩ := Option.map_eq_some_iff.1 h
      rw [List.mem_cons, not_or] at hsemicolon
      have hend := endsInBrackets_of_doEnd hm fun hmem =>
        hsemicolon.2 (List.mem_of_mem_drop hmem)
      rw [List.take_succ_cons, List.take_add]
      exact (hend.append (ih hbody hsemicolon.2).colon).cons (by decide)
  | case15 rest hbody | case17 rest hbody | case19 rest hbody =>
      obtain rfl := Option.some.inj h
      obtain ⟨behind, rfl⟩ := List.head?_eq_some_iff.1 hbody
      exact (endsInBrackets_single (by decide)).cons (by decide)
  | case21 rest hbody | case23 rest hbody | case25 rest hbody =>
      obtain rfl := Option.some.inj h
      obtain ⟨behind, rfl⟩ := List.head?_eq_some_iff.1 hbody.1
      rw [List.take_succ_cons]
      exact (endsInBrackets_take (by simp) hbody.2 (by decide)).cons (by decide)
  | case27 kinds =>
      rw [through_eq_none _ hsemicolon] at h
      cases h

theorem encloses_flow : flowPlan.Encloses := by
  intro scene kind n _ hkinds hnew h
  cases hscene : scene.kinds with
  | nil =>
      rw [flowPlan_eq, hscene, if_neg (by simp)] at h
      have hlength := (flowStatement_spec h).2
      simp [hscene, statementLength] at hlength
  | cons word rest =>
      have hword : flowWords.contains word = true := by
        by_contra hnot
        rw [flowPlan_eq_none hscene (Bool.not_eq_true _ ▸ hnot)] at h
        cases h
      rw [flowPlan_eq, if_neg fun hhead => hnew (List.mem_of_head? hhead)] at h
      obtain ⟨-, hlength⟩ := flowStatement_spec h
      rw [← hscene]
      apply isEnclosed_take (congrArg List.head? hscene)
        (KindSet.not_contains_of_disjoint (by decide) hword)
      exact endsInBrackets_of_statement hlength (hkinds.notMem (by decide))

/-- The further parts of a chain are no colons. -/
theorem colon_notMem_members (kinds : List Kind) : .colon ∉ kinds.take (membersLength kinds) := by
  fun_induction membersLength kinds with
  | case1 mark name rest hmember ih =>
      rw [Bool.and_eq_true] at hmember
      rw [List.take_succ_cons, List.take_succ_cons, List.mem_cons, List.mem_cons, not_or, not_or]
      refine ⟨?_, ?_, ih⟩
      · rintro rfl
        exact absurd hmember.1 (by decide)
      · rintro rfl
        exact absurd hmember.2 (by decide)
  | case2 | case3 => simp

theorem encloses_call : callPlan.Encloses := by
  intro scene kind n _ _ _ h
  obtain ⟨htest, h⟩ := guarded_eq_some_iff.1 h
  rw [Bool.and_eq_true, Bool.and_eq_true, Option.any_eq_true] at htest
  obtain ⟨⟨⟨callee, hhead, hcallee⟩, -⟩, -⟩ := htest
  dsimp only at h
  split at h
  · rename_i hparenthesis
    obtain ⟨-, rfl⟩ := Prod.mk.inj (Option.some.inj h)
    apply isEnclosed_take hhead (KindSet.not_contains_of_disjoint (by decide) hcallee)
    apply endsInBrackets_take _ hparenthesis (by decide)
    obtain ⟨rest, hrest⟩ := List.head?_eq_some_iff.1 hhead
    rw [hrest, Nat.add_comm, List.take_succ_cons, List.tail_cons, List.mem_cons, not_or]
    refine ⟨?_, colon_notMem_members rest⟩
    rintro rfl
    exact absurd hcallee (by decide)
  · cases h

theorem encloses_messages : messagesPlan.Encloses := by
  intro scene kind n hparent hkinds hnew h
  unfold messagesPlan dispatch at h
  generalize hhead : scene.kinds.head? = head at h
  unfold callAtPlan at h
  split at h
  · cases h
  · exact isEnclosed_of_wordWithArgument hhead (by decide) h
  · exact isEnclosed_of_wordWithArgument hhead (by decide) h
  · unfold bracketedPlan at h
    split at h
    · obtain ⟨-, rfl⟩ := Prod.mk.inj (Option.some.inj h)
      obtain ⟨rest, hrest⟩ := List.head?_eq_some_iff.1 hhead
      apply isEnclosed_take hhead (by decide)
      rw [hrest]
      exact endsInBrackets_single (by decide)
    · cases h
  · exact encloses_call hparent hkinds hnew h

/-! ## What passes make of the siblings in brackets -/

/-- What becomes of labels where one run after another is replaced by a label of analysis. -/
inductive Regroups (labels : List Label) : List Label → Prop
  | refl : Regroups labels labels
  | wrap {front run behind : List Label} {made : Label}
      (h : Regroups labels (front ++ (run ++ behind)))
      (hrun : IsEnclosed (run.map (·.kind)))
      (hmade : KindSet.synthesized.contains made.kind = true) :
      Regroups labels (front ++ made :: behind)

variable {labels labels' : List Label}

/-- Of two elements that differ, one stands in front of the other. -/
theorem split_of_ne {α : Type} {front behind before after : List α} {made other : α}
    (h : front ++ made :: behind = before ++ other :: after) (hne : other ≠ made) :
    (∃ middle, front = before ++ other :: middle ∧ after = middle ++ made :: behind)
      ∨ ∃ middle, before = front ++ made :: middle ∧ behind = middle ++ other :: after := by
  rcases List.append_eq_append_iff.1 h with ⟨middle, rfl, hmiddle⟩ | ⟨middle, rfl, hmiddle⟩
  · cases middle with
    | nil => exact absurd (List.cons.inj hmiddle).1.symm hne
    | cons first middle =>
        obtain ⟨rfl, rfl⟩ := List.cons.inj hmiddle
        exact .inr ⟨middle, rfl, rfl⟩
  · cases middle with
    | nil => exact absurd (List.cons.inj hmiddle).1 hne
    | cons first middle =>
        obtain ⟨rfl, rfl⟩ := List.cons.inj hmiddle
        exact .inl ⟨middle, rfl, rfl⟩

theorem AreExpressions.wrap {front run behind : List Kind} {made : Kind}
    (h : AreExpressions (front ++ (run ++ behind)))
    (hmade : KindSet.synthesized.contains made = true) :
    AreExpressions (front ++ made :: behind) := by
  have hbehind : AreExpressions behind := (List.append_assoc .. ▸ h).behind
  constructor
  · intro kind hkind
    rcases List.mem_append.1 hkind with hkind | hkind
    · exact h.plain kind (List.mem_append_left _ hkind)
    rcases List.mem_cons.1 hkind with rfl | hkind
    · exact KindSet.not_contains_of_disjoint (by decide) hmade
    · exact hbehind.plain kind hkind
  · intro before word header after hkinds hword
    have hne : word ≠ made := by
      rintro rfl
      rw [KindSet.not_contains_of_disjoint (by decide) hmade] at hword
      cases hword
    obtain ⟨middle, rfl, hafter⟩ | ⟨middle, -, rfl⟩ := split_of_ne hkinds hne
    · have hcolon : Kind.colon ≠ made := by
        rintro rfl
        exact absurd hmade (by decide)
      obtain ⟨rest, rfl, -⟩ | ⟨rest, rfl, -⟩ := split_of_ne hafter.symm hcolon
      · have hsplit : before ++ word :: (header ++ .colon :: rest) ++ (run ++ behind) =
            before ++ word :: (header ++ .colon :: (rest ++ (run ++ behind))) := by
          simp
        exact h.header hsplit hword
      · -- the new sibling is no part of a header
        refine ⟨made, by simp, KindSet.not_contains_of_disjoint (by decide) hmade⟩
    · exact hbehind.header rfl hword

theorem Regroups.areExpressions (h : Regroups labels labels')
    (hlabels : AreExpressions (labels.map (·.kind))) : AreExpressions (labels'.map (·.kind)) := by
  induction h with
  | refl => exact hlabels
  | wrap _ _ hmade ih =>
      rw [List.map_append, List.map_append] at ih
      rw [List.map_append, List.map_cons]
      exact ih.wrap hmade

/-- Between brackets a level of a plan regroups siblings. -/
theorem Regroups.of_levels {plan : Plan} {lines : LineIndex} {parent : Kind} {next next' : Nat}
    {before ahead out : List Node} (hplan : plan.Encloses) (hsound : plan.Sound)
    (hlevels : Levels lines plan parent next before ahead next' out) (hparent : parent = .brackets)
    (h : Regroups labels (Node.significantLabels (before.reverse ++ ahead)))
    (hlabels : AreExpressions (labels.map (·.kind))) (hnew : .newKw ∉ significantKinds ahead) :
    Regroups labels (Node.significantLabels (before.reverse ++ out)) := by
  induction hlevels with
  | done => exact h
  | pass hnode _ ih =>
      rw [significantKinds_skip hnode] at hnew
      simpa using ih (by simpa using h) hnew
  | keep hnode _ _ ih =>
      rw [significantKinds_cons hnode, List.mem_cons, not_or] at hnew
      simpa using ih (by simpa using h) hnew.2
  | @wrap next next' n before run rest out node kind hnode hcloses hfound hproper _ ih =>
      have hscene := h.areExpressions hlabels
      rw [Node.significantLabels_append, List.map_append, map_kind_significantLabels,
        map_kind_significantLabels] at hscene
      have hkinds : (Lookahead.atAnchor parent before (node :: run ++ rest)).scene.kinds =
          significantKinds (node :: run ++ rest) := by
        rw [List.cons_append, scene_atAnchor hnode, significantKinds_cons hnode]
        rfl
      have hrun := hplan hparent (hkinds ▸ hscene.behind) (hkinds ▸ hnew) hfound
      have hlength : (significantKinds (node :: run)).length = n := by
        rw [significantKinds, List.length_map, hcloses.length_filter]
      rw [hkinds, significantKinds_append, ← hlength, List.take_left,
        ← map_kind_significantLabels] at hrun
      have hmade := hsound.synthesized hfound
      have hsignificant : (Node.wrap lines (.fresh next) kind (node :: run)).kind.isSignificant =
          true := Kind.isSignificant_of_synthesized hmade
      rw [significantKinds_append, List.mem_append, not_or] at hnew
      rw [Node.significantLabels_append, Node.significantLabels_append] at h
      have hwrapped : Regroups labels (Node.significantLabels before.reverse ++
          (Node.wrap lines (.fresh next) kind (node :: run)).label ::
            Node.significantLabels rest) := h.wrap hrun hmade
      rw [← Node.significantLabels_cons hsignificant, ← Node.significantLabels_append] at hwrapped
      simpa using ih (by simpa using hwrapped) hnew.2

/-- The labels of what was written among the children of a node. -/
def writtenLabels (isNew : NodeId → Bool) (node : Node) : List Label :=
  Node.significantLabels (node.children.flatMap (Node.erase isNew))

/-- Whether a node is no `new`, and if it is a pair of brackets around expressions, whether analysis
has regrouped what was written between them. -/
def HoldsExpressions (isNew : NodeId → Bool) (node : Node) : Prop :=
  node.kind ≠ .newKw ∧ (node.kind = .brackets →
    AreExpressions ((writtenLabels isNew node).map (·.kind)) →
      Regroups (writtenLabels isNew node) (Node.significantLabels node.children))

variable {isNew : NodeId → Bool}

theorem upholds_holdsExpressions {plan : Plan} (hplan : plan.Encloses) (hsound : plan.Sound) :
    plan.Upholds isNew (HoldsExpressions isNew) (HoldsExpressions isNew) where
  unvisited _ h := h
  old {label children children'} _ hold hchildren hturns := by
    refine ⟨hold.1, fun hkind hwritten => ?_⟩
    have herase : writtenLabels isNew ⟨label, children'⟩ = writtenLabels isNew ⟨label, children⟩ :=
      congrArg Node.significantLabels hturns.erase_eq
    rw [herase] at hwritten ⊢
    obtain ⟨lines, next, next', out, hlevels, -, hout⟩ := hturns
    have hnew : .newKw ∉ significantKinds children := by
      intro hmem
      obtain ⟨child, hchild, hchildKind⟩ := List.mem_map.1 hmem
      exact (hchildren child (List.mem_of_mem_filter hchild)).1 hchildKind
    change Regroups _ (Node.significantLabels children')
    rw [Node.significantLabels_of_resembles hout]
    exact Regroups.of_levels hplan hsound hlevels hkind (hold.2 hkind hwritten) hwritten hnew
  new {label children children'} _ _ hmade _ _ := by
    obtain ⟨parent, before, rest, n, hfound, -⟩ := hmade.found
    have hkind : KindSet.synthesized.contains label.kind = true := hsound.synthesized hfound
    constructor
    · rintro (hnew : label.kind = _)
      rw [hnew] at hkind
      exact absurd hkind (by decide)
    · rintro (hbrackets : label.kind = _)
      rw [hbrackets] at hkind
      exact absurd hkind (by decide)

end CFamily

namespace Language

open CFamily

theorem keeps_objc : Language.objc.grammar.Keeps (· ≠ .newKw) where
  root := by decide
  text := by decide
  delimiter := by decide
  specs spec hspec := by
    have hall : objcSpecs.all (fun spec => spec.kind != .newKw) = true := by decide +kernel
    simpa using List.all_eq_true.1 hall spec (Table.mem_of_mem_candidates hspec)
  elements := nofun

/-- However many passes have run over a text in Objective-C, expressions in brackets are at most
regrouped. -/
theorem holdsExpressions_analyse (text : List Char) (count : Nat) :
    ((Language.objc.stage 0 text).analyse (objcPasses.take count)).root.All
      (HoldsExpressions (Language.objc.isAdded text)) := by
  have hpasses : ∀ pass ∈ objcPasses, ∃ plan, pass.rule.Reads plan ∧ plan.Sound
      ∧ plan.Encloses := by
    simp only [objcPasses, List.forall_mem_cons]
    exact ⟨⟨_, reads_conditional, sound_conditional, encloses_conditional⟩,
      ⟨_, reads_classes, sound_classes, encloses_classes⟩,
      ⟨_, reads_types, sound_types, encloses_types⟩,
      ⟨_, reads_function, sound_function, encloses_function⟩,
      ⟨_, reads_flow, sound_flow, encloses_flow⟩,
      ⟨_, reads_labels, sound_labels, encloses_labels⟩,
      ⟨_, reads_messages, sound_messages, encloses_messages⟩, by simp⟩
  refine all_analyse_of_all text (fun node hnode => ?_) fun pass hpass => ?_
  · have hkind : node.kind ≠ .newKw := Grammar.keeps_pair keeps_objc _ node hnode
    refine ⟨hkind, fun _ _ => ?_⟩
    have hwritten : writtenLabels (Language.objc.isAdded text) node =
        Node.significantLabels node.children :=
      Node.significantLabels_erase fun child hchild =>
        Language.objc.isAdded_stage text (Node.child_mem_descendants hnode hchild)
    rw [hwritten]
    exact .refl
  · obtain ⟨plan, hreads, hsound, hplan⟩ := hpasses pass (List.mem_of_mem_take hpass)
    exact ⟨plan, hreads, hsound, upholds_holdsExpressions hplan hsound⟩

end Language

end ConcreteSyntax
