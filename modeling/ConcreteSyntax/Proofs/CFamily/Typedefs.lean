import ConcreteSyntax.Proofs.Analysis.Carry
import ConcreteSyntax.Proofs.CFamily.Classes
import ConcreteSyntax.Proofs.CFamily.Loops

/-!
# Type definitions of function pointers

What is written as `typedef type (*name)(parameters);` becomes a node of its own, whatever stands
around it (`Language.exists_typedef`).  At the end of analysis its children are still those that
were written, unless the type ends in an identifier: the last pass takes that for what is called
with the name in parentheses (`Pointed`).
-/

namespace ConcreteSyntax

namespace CFamily

open Plan

variable {isNew : NodeId → Bool} {kind parent : Kind} {previous : Option Kind}
  {type kinds behind : List Kind} {n : Nat}

/-! ## Kinds -/

/-- Kinds of what the type in front of a pointer to functions is made of. -/
def typeParts : KindSet := .ofList [.text, .asterisk, .classKw] ∪ typeWords

/-- The kinds of `typedef type (*name)(parameters);`. -/
def pointerKinds (type : List Kind) : List Kind :=
  .typedefKw :: (type ++ [.parenthesis, .parenthesis]) ++ [.semicolon]

/-- Kinds of type definitions of function pointers. -/
def pointerParts : KindSet := typeParts ∪ .ofList [.typedefKw, .parenthesis, .semicolon]

theorem pointerParts_of_mem (htype : ∀ part ∈ type, typeParts.contains part = true)
    (hkind : kind ∈ pointerKinds type) : pointerParts.contains kind = true := by
  simp only [pointerKinds, List.cons_append, List.mem_cons, List.mem_append, List.not_mem_nil,
    or_false] at hkind
  rcases hkind with rfl | (hkind | rfl | rfl) | rfl
  · decide
  · exact KindSet.contains_of_subset (by decide) (htype kind hkind)
  all_goals decide

/-! ## Runs that go over a type definition -/

/-- Kinds with which a run can end that goes over the first word of a type definition. -/
def stopWords : KindSet := .ofList [.preprocessorEndif, .semicolon, .braces, .atEndKw]

theorem through_stop {stop : Kind} {allowed : Kind → Bool}
    (h : through stop allowed kinds = some n) : kinds[n - 1]? = some stop := by
  obtain ⟨front, behind, rfl, rfl, -⟩ := through_eq_some_iff.1 h
  simp

theorem wordThrough_stop {stop : Kind} {barred : KindSet} {scene : Scene} {found : Kind}
    (h : wordThroughPlan stop barred kind scene = some (found, n)) :
    scene.kinds[n - 1]? = some stop := by
  simp only [wordThroughPlan, Option.map_eq_some_iff, Prod.mk.injEq] at h
  obtain ⟨m, hm, -, rfl⟩ := h
  have hstop := through_stop hm
  have hpos := through_pos hm
  rwa [List.getElem?_tail, Nat.sub_add_cancel hpos] at hstop

theorem throughEndif_stop {depth : Nat} (h : throughEndifLength depth kinds = some n) :
    0 < n ∧ kinds[n - 1]? = some .preprocessorEndif := by
  induction kinds generalizing depth n with
  | nil => cases h
  | cons kind rest ih =>
      have hstep {depth : Nat} (h : (throughEndifLength depth rest).map (· + 1) = some n) :
          0 < n ∧ (kind :: rest)[n - 1]? = some .preprocessorEndif := by
        obtain ⟨m, hm, rfl⟩ := Option.map_eq_some_iff.1 h
        obtain ⟨hpos, hlast⟩ := ih hm
        obtain ⟨m, rfl⟩ := Nat.exists_eq_add_one.2 hpos
        exact ⟨Nat.succ_pos _, hlast⟩
      unfold throughEndifLength at h
      split at h
      · exact hstep h
      · split at h
        · split at h
          · obtain rfl := Option.some.inj h
            exact ⟨Nat.one_pos, by simpa using ‹kind = .preprocessorEndif›⟩
          · exact hstep h
        · exact hstep h

/-- A plan spares a type definition if its runs that go over the first word end at others. -/
theorem spares_pointer {plan : Plan} (htype : ∀ part ∈ type, typeParts.contains part = true)
    (hstop : ∀ {scene found n index}, plan scene = some (found, n) → 0 < index → index < n →
      scene.kinds[index]? = some .typedefKw →
        ∃ stop ∈ scene.kinds[n - 1]?, stopWords.contains stop = true) :
    plan.Spares (pointerKinds type) := by
  refine spares_of_stop fun hfound hpos hlt hfirst => ?_
  obtain ⟨stop, hmem, hkind⟩ := hstop hfound hpos hlt hfirst
  refine ⟨stop, hmem, fun hpart => ?_⟩
  rw [List.mem_cons, List.mem_append] at hpart
  rcases hpart with rfl | hpart | hpart
  · exact absurd hkind (by decide)
  · exact absurd (htype stop hpart)
      (by rw [KindSet.not_contains_of_disjoint (by decide) hkind]; exact Bool.false_ne_true)
  · simp only [List.mem_cons, List.not_mem_nil, or_false, or_self] at hpart
    rw [hpart] at hkind
    exact absurd hkind (by decide)

theorem spares_conditional (htype : ∀ part ∈ type, typeParts.contains part = true) :
    conditionalPlan.Spares (pointerKinds type) := by
  refine spares_pointer htype fun {scene found n _} hfound _ _ _ =>
    ⟨.preprocessorEndif, ?_, by decide⟩
  unfold conditionalPlan guarded at hfound
  split at hfound
  · simp only [Option.map_eq_some_iff, Prod.mk.injEq] at hfound
    obtain ⟨m, hm, -, rfl⟩ := hfound
    obtain ⟨hpos, hlast⟩ := throughEndif_stop hm
    rwa [List.getElem?_tail, Nat.sub_add_cancel hpos] at hlast
  · cases hfound

theorem method_stop {scene : Scene} (h : methodPlan scene = some (kind, n)) :
    ∃ stop ∈ scene.kinds[n - 1]?, stopWords.contains stop = true := by
  unfold methodPlan guarded at h
  split at h
  · simp only [methodRunPlan, Option.map_eq_some_iff, shift, Prod.mk.injEq] at h
    obtain ⟨⟨found, m⟩, hm, -, rfl⟩ := h
    generalize 1 + countWhile isMethodPart scene.kinds.tail = signature at hm
    generalize hend : scene.kinds.drop signature = ending at hm
    have hget (index : Nat) : scene.kinds[signature + index]? = ending[index]? := by
      rw [← hend, List.getElem?_drop]
    unfold methodEndPlan at hm
    split at hm
    · split at hm
      · rename_i rest hbody
        obtain ⟨-, rfl⟩ := Prod.mk.inj (Option.some.inj hm)
        exact ⟨.braces, (hget 1).trans (by rw [← hbody]; exact List.head?_eq_getElem?.symm),
          by decide⟩
      · obtain ⟨-, rfl⟩ := Prod.mk.inj (Option.some.inj hm)
        exact ⟨.semicolon, hget 0, by decide⟩
    · obtain ⟨-, rfl⟩ := Prod.mk.inj (Option.some.inj hm)
      exact ⟨.braces, hget 0, by decide⟩
    · cases hm
  · cases h

theorem spares_classes (htype : ∀ part ∈ type, typeParts.contains part = true) :
    classesPlan.Spares (pointerKinds type) := by
  refine spares_pointer htype fun {scene found n _} hfound _ _ _ => ?_
  have hthrough {stop other : Kind} {barred : KindSet} (hstop : stopWords.contains stop = true)
      (hfound : wordThroughPlan stop barred other scene = some (found, n)) :
      ∃ stop ∈ scene.kinds[n - 1]?, stopWords.contains stop = true :=
    ⟨stop, wordThrough_stop hfound, hstop⟩
  unfold classesPlan dispatch at hfound
  generalize scene.kinds.head? = head at hfound
  unfold classAtPlan at hfound
  split at hfound
  · exact hthrough (by decide) hfound
  · exact hthrough (by decide) hfound
  · unfold protocolPlan guarded at hfound
    split at hfound
    · exact hthrough (by decide) hfound
    · cases hfound
  · exact hthrough (by decide) hfound
  · exact hthrough (by decide) hfound
  · exact method_stop hfound
  · cases hfound

theorem record_stop {scene : Scene} {found : Kind} (h : recordPlan kind scene = some (found, n)) :
    ∃ stop ∈ scene.kinds[n - 1]?, stopWords.contains stop = true := by
  obtain ⟨-, hbody, hn⟩ := record_spec h
  generalize 1 + countWhile recordHeader.contains scene.kinds.tail = header at hbody hn
  have hbraces : ∃ stop ∈ scene.kinds[header + 1 - 1]?, stopWords.contains stop = true :=
    ⟨.braces, hbody, by decide⟩
  split at hn
  · obtain rfl := hn
    exact hbraces
  · cases hmore : through .semicolon declarators.contains (scene.kinds.drop (header + 1)) with
    | none =>
        rw [hmore] at hn
        obtain rfl := hn
        exact hbraces
    | some more =>
        rw [hmore] at hn
        have hstop := through_stop hmore
        have hpos := through_pos hmore
        rw [List.getElem?_drop] at hstop
        refine ⟨.semicolon, ?_, by decide⟩
        rw [hn, Option.getD_some, Nat.add_sub_assoc hpos]
        exact hstop

theorem spares_types (htype : ∀ part ∈ type, typeParts.contains part = true) :
    typesPlan.Spares (pointerKinds type) := by
  refine spares_pointer htype fun {scene found n index} hfound hpos hlt hindex => ?_
  have hargument {other : Kind} (hfound : wordWithArgumentPlan other scene = some (found, n)) :
      ∃ stop ∈ scene.kinds[n - 1]?, stopWords.contains stop = true := by
    -- an argument would be the first word of the definition
    unfold wordWithArgumentPlan at hfound
    split at hfound
    · rename_i hnext
      obtain ⟨-, rfl⟩ := Prod.mk.inj (Option.some.inj hfound)
      obtain rfl : index = 1 := by omega
      cases hindex.symm.trans hnext
    · cases hfound
  unfold typesPlan dispatch at hfound
  generalize scene.kinds.head? = head at hfound
  unfold typeAtPlan at hfound
  split at hfound
  · exact ⟨.semicolon, wordThrough_stop hfound, by decide⟩
  · exact record_stop hfound
  · exact record_stop hfound
  · exact record_stop hfound
  · exact record_stop hfound
  · exact hargument hfound
  · exact hargument hfound
  · obtain ⟨-, hbody, rfl⟩ := nameSpace_spec hfound
    exact ⟨.braces, hbody, by decide⟩
  · cases hfound

/-! ## What passes find at a type definition -/

theorem leaves_conditional (htype : ∀ part ∈ type, typeParts.contains part = true) :
    Pass.Leaves conditionalPlan (pointerKinds type) :=
  ⟨spares_conditional htype, fun _ previous _ => silent_of_heads conditionalPlan_eq_none
    (fun _ hkind => KindSet.not_contains_of_disjoint (by decide)
      (pointerParts_of_mem htype hkind)) previous⟩

theorem leaves_classes (htype : ∀ part ∈ type, typeParts.contains part = true) :
    Pass.Leaves classesPlan (pointerKinds type) :=
  ⟨spares_classes htype, fun _ previous _ => silent_of_heads classesPlan_eq_none
    (fun _ hkind => KindSet.not_contains_of_disjoint (by decide)
      (pointerParts_of_mem htype hkind)) previous⟩

/-- The pass for types finds just a type definition. -/
theorem typesPlan_pointer {scene : Scene} (htype : ∀ part ∈ type, typeParts.contains part = true)
    (hkinds : scene.kinds = pointerKinds type ++ behind) :
    typesPlan scene = some (.typedefDeclaration, (pointerKinds type).length) := by
  have hfront : ∀ kind ∈ type ++ [.parenthesis, .parenthesis],
      kind ≠ .semicolon ∧ (!statementStop.contains kind) = true := by
    intro kind hkind
    have hpart : (typeParts ∪ .ofList [.parenthesis]).contains kind = true := by
      rw [List.mem_append] at hkind
      rcases hkind with hkind | hkind
      · exact KindSet.contains_of_subset (by decide) (htype kind hkind)
      · simp only [List.mem_cons, List.not_mem_nil, or_false, or_self] at hkind
        rw [hkind]
        decide
    refine ⟨?_, by rw [KindSet.not_contains_of_disjoint (by decide) hpart]; rfl⟩
    rintro rfl
    exact absurd hpart (by decide)
  have hthrough : through .semicolon (fun kind => !statementStop.contains kind)
      (type ++ [.parenthesis, .parenthesis] ++ .semicolon :: behind) =
        some ((type ++ [Kind.parenthesis, .parenthesis]).length + 1) :=
    through_append _ hfront behind
  unfold typesPlan dispatch
  rw [hkinds]
  change wordThroughPlan .semicolon statementStop .typedefDeclaration scene = _
  have htail : scene.kinds.tail =
      type ++ [.parenthesis, .parenthesis] ++ .semicolon :: behind := by
    rw [hkinds, pointerKinds, List.append_assoc]
    rfl
  rw [wordThroughPlan, htail, hthrough]
  simp [pointerKinds]

/-- Inside a type definition without a body nothing more is found. -/
theorem typesPlan_of_part {scene : Scene} (hhead : scene.kinds.head? = some kind)
    (hkind : (typeParts ∪ .ofList [.parenthesis, .semicolon]).contains kind = true)
    (hbraces : .braces ∉ scene.kinds) : typesPlan scene = none := by
  have hrecord (other : Kind) : recordPlan other scene = none := by
    rw [Option.eq_none_iff_forall_ne_some]
    rintro ⟨found, n⟩ hfound
    obtain ⟨-, hbody, -⟩ := record_spec hfound
    exact hbraces (List.mem_of_getElem? hbody)
  cases hword : typeHeads.contains kind with
  | false => exact typesPlan_eq_none hhead hword
  | true =>
      -- of the words that begin a run, a type has only those of records
      have hwords : (typeParts ∪ .ofList [.parenthesis, .semicolon]).toList.all (fun kind =>
          !typeHeads.contains kind
            || [Kind.structKw, .unionKw, .enumKw, .classKw].contains kind) = true := by
        decide +kernel
      have hmem := List.all_eq_true.1 hwords kind (KindSet.mem_toList.2 hkind)
      rw [hword] at hmem
      simp only [Bool.not_true, Bool.false_or, List.contains_iff_mem, List.mem_cons,
        List.not_mem_nil, or_false] at hmem
      unfold typesPlan dispatch
      rw [hhead]
      rcases hmem with rfl | rfl | rfl | rfl <;> exact hrecord _

/-! ## Children that stay those that were written -/

/-- Whether the children of a node are those that were written, if the kinds of these have a
shape. -/
def Unchanged (isNew : NodeId → Bool) (shape : List Kind → Prop) (node : Node) : Prop :=
  shape ((Node.significantLabels (node.children.flatMap (Node.erase isNew))).map (·.kind)) →
    Node.significantLabels node.children =
      Node.significantLabels (node.children.flatMap (Node.erase isNew))

/-- A plan that finds nothing at children of a shape leaves them unchanged. -/
theorem upholds_unchanged {plan : Plan} {parents : KindSet} {shape : List Kind → Prop}
    (hmakes : ∀ scene kind n, plan scene = some (kind, n) → parents.contains kind = false)
    (hsilent : ∀ {parent kinds}, parents.contains parent = true → shape kinds →
      plan.Silent parent none kinds []) :
    plan.Upholds isNew
      (fun node => parents.contains node.kind = true → Unchanged isNew shape node)
      fun node => parents.contains node.kind = true → Unchanged isNew shape node := by
  refine upholds_of_kinds hmakes ?_
  intro label children children' hkind hunchanged hturns hshape
  change shape ((Node.significantLabels (children'.flatMap _)).map _) at hshape
  rw [hturns.erase_eq] at hshape
  have hold : Node.significantLabels children =
      Node.significantLabels (children.flatMap (Node.erase isNew)) := hunchanged hshape
  have hresembles := hturns.resembles (hold ▸ hsilent hkind hshape)
  change Node.significantLabels children' = Node.significantLabels (children'.flatMap _)
  rw [Node.significantLabels_of_resembles hresembles, hturns.erase_eq, hold]

/-- Whether kinds are those of a type definition of a function pointer. -/
def IsPointer (kinds : List Kind) : Prop :=
  ∃ type, kinds = pointerKinds type ∧ ∀ part ∈ type, typeParts.contains part = true

/-- Nodes of type definitions. -/
def typedefKinds : KindSet := .ofList [.typedefDeclaration]

theorem ne_of_typedefKinds (h : typedefKinds.contains kind = true) :
    kind = .typedefDeclaration := by
  simpa [typedefKinds] using h

/-- The pass for types makes a node of just what was written, if that is a type definition of a
function pointer. -/
theorem upholds_unchanged_types {made : KindSet}
    (hdisjoint : typedefKinds.IsDisjoint made) :
    typesPlan.Upholds isNew
      (fun node => node.Staged isNew made ∧ Opens (conditionalOpeners ∪ classHeads) isNew node)
      fun node => typedefKinds.contains node.kind = true → Unchanged isNew IsPointer node := by
  refine upholds_of_made (fun node hnode => hnode.1.not_later (by decide) hdisjoint) ?_
  intro label children children' _ hkind hmade hchildren hturns hshape
  obtain ⟨type, hkinds, htype⟩ := hshape
  change (Node.significantLabels (children'.flatMap _)).map _ = _ at hkinds
  rw [hturns.erase_eq] at hkinds
  -- a new child would begin with a kind that is not among these
  have hold : ∀ child ∈ children, isNew child.id = false := by
    intro child hchild
    by_contra hnew
    obtain ⟨first, rest, hlabels, hfirst⟩ := (hchildren child hchild).2 (Bool.not_eq_false _ ▸ hnew)
    obtain ⟨left, right, rfl⟩ := List.append_of_mem hchild
    rw [List.flatMap_append, List.flatMap_cons, Node.significantLabels_append,
      Node.significantLabels_append, hlabels] at hkinds
    have hmem : first.kind ∈ pointerKinds type := by
      rw [← hkinds]
      simp
    have hpart := pointerParts_of_mem htype hmem
    rw [KindSet.not_contains_of_disjoint (by decide) hfirst] at hpart
    cases hpart
  have hsame := Node.significantLabels_erase hold
  rw [hsame] at hkinds
  obtain ⟨first, others, hlabels, -, hothers⟩ := List.map_eq_cons_iff.1 hkinds
  have hsplits : Splits isNew children (first :: others) [] [] :=
    ⟨by rw [hlabels, List.append_nil], by rw [hsame, hlabels, List.append_nil]⟩
  obtain ⟨behind, ⟨hlabels', herased'⟩, hbehind⟩ :=
    hsplits.turn_of_made sound_types exact_types hmade hturns (by
      rw [hothers]
      refine silent_of_forall (fun kind hkind scene _ hhead hsub => ?_) _
      have hparts : ∀ kind ∈ type ++ [.parenthesis, .parenthesis] ++ [.semicolon],
          (typeParts ∪ .ofList [.parenthesis, .semicolon]).contains kind = true := by
        intro kind hkind
        simp only [List.mem_append, List.mem_cons, List.not_mem_nil, or_false] at hkind
        rcases hkind with (hkind | rfl | rfl) | rfl
        · exact KindSet.contains_of_subset (by decide) (htype kind hkind)
        all_goals decide
      refine typesPlan_of_part hhead (hparts kind hkind) fun hbraces => ?_
      exact absurd (hparts .braces (by simpa using hsub hbraces)) (by decide))
  rw [hbehind.eq_nil] at hlabels'
  exact hlabels'.trans herased'.symm

/-- The passes for functions and statements find nothing among the children of a type definition. -/
theorem upholds_unchanged_function :
    functionPlan.Upholds isNew
      (fun node => typedefKinds.contains node.kind = true → Unchanged isNew IsPointer node)
      fun node => typedefKinds.contains node.kind = true → Unchanged isNew IsPointer node := by
  refine upholds_unchanged (fun _ _ _ hfound =>
    KindSet.not_contains_of_disjoint (by decide) (makes_function hfound)) ?_
  rintro parent kinds - ⟨type, rfl, htype⟩
  have hboundary : ∀ kind ∈ type ++ [.parenthesis, .parenthesis],
      boundary.contains kind = false := by
    intro kind hkind
    simp only [List.mem_append, List.mem_cons, List.not_mem_nil, or_false, or_self] at hkind
    rcases hkind with hkind | rfl
    · exact KindSet.not_contains_of_disjoint (by decide) (htype kind hkind)
    · decide
  refine silent_append.2 ⟨⟨fun scene _ _ hscene => ?_, silent_function (by decide) hboundary⟩,
    silent_of_heads functionPlan_eq_none (by decide) _⟩
  exact functionPlan_eq_none (congrArg List.head? hscene) (by decide)

theorem upholds_unchanged_flow :
    flowPlan.Upholds isNew
      (fun node => typedefKinds.contains node.kind = true → Unchanged isNew IsPointer node)
      fun node => typedefKinds.contains node.kind = true → Unchanged isNew IsPointer node := by
  refine upholds_unchanged (fun _ _ _ hfound =>
    KindSet.not_contains_of_disjoint (by decide) (makes_flow hfound)) ?_
  rintro parent kinds - ⟨type, rfl, htype⟩
  exact silent_flow fun kind hkind => KindSet.not_contains_of_disjoint (by decide)
    (pointerParts_of_mem htype hkind)

theorem upholds_unchanged_labels :
    labelsPlan.Upholds isNew
      (fun node => typedefKinds.contains node.kind = true → Unchanged isNew IsPointer node)
      fun node => typedefKinds.contains node.kind = true → Unchanged isNew IsPointer node := by
  refine upholds_unchanged (fun _ _ _ hfound =>
    KindSet.not_contains_of_disjoint (by decide) (makes_labels hfound)) ?_
  rintro parent kinds hparent -
  refine silent_labels ?_
  rw [ne_of_typedefKinds hparent]
  decide

/-! ## Calls -/

/-- Whether a plan looks for calls wherever no word of Objective-C stands, and no bracket. -/
def SeesCalls (plan : Plan) : Prop :=
  ∀ {scene : Scene} {kind}, scene.kinds.head? = some kind → messageWords.contains kind = false →
    plan scene = callPlan scene

/-- Kinds at which a call or a message can begin. -/
def callHeads : KindSet := callees ∪ messageWords

theorem SeesCalls.eq_none {plan : Plan} (h : SeesCalls plan) {scene : Scene}
    (hhead : scene.kinds.head? = some kind) (hkind : callHeads.contains kind = false) :
    plan scene = none := by
  rw [callHeads, KindSet.contains_union, Bool.or_eq_false_iff] at hkind
  rw [h hhead hkind.2, callPlan_eq_none_of_head hhead hkind.1]

theorem callHeads_of_typeParts (h : typeParts.contains kind = true) (htext : kind ≠ .text) :
    callHeads.contains kind = false := by
  have hall : typeParts.toList.all
      (fun kind => kind == .text || !callHeads.contains kind) = true := by decide +kernel
  have hkind := List.all_eq_true.1 hall kind (KindSet.mem_toList.2 h)
  simpa [htext] using hkind

theorem membersLength_cons (h : memberAccess.contains kind = false) (rest : List Kind) :
    membersLength (kind :: rest) = 0 := by
  unfold membersLength
  split
  · rename_i heq
    obtain ⟨rfl, -⟩ := List.cons.inj heq
    rw [h]
    rfl
  · rfl

/-- In a type nothing is called, unless its last word is. -/
theorem silent_type {plan : Plan} (h : SeesCalls plan)
    (htype : ∀ part ∈ type, typeParts.contains part = true)
    (hlast : type.getLast? = some .text → ∀ kind ∈ behind.head?, typeParts.contains kind = true) :
    plan.Silent parent previous type behind := by
  induction type generalizing previous with
  | nil => trivial
  | cons part rest ih =>
      rw [List.forall_mem_cons] at htype
      refine ⟨fun scene _ _ hscene => ?_, ih htype.2 fun hrest => hlast ?_⟩
      · have hhead : scene.kinds.head? = some part := by rw [hscene]; rfl
        by_cases htext : part = .text
        · rw [h hhead (KindSet.not_contains_of_disjoint (by decide) htype.1)]
          refine callPlan_of_not_isCalled ?_
          -- what follows the word is part of a type, too
          have hnext : ∀ kind ∈ (rest ++ behind).head?, typeParts.contains kind = true := by
            cases rest with
            | nil => exact hlast (by rw [htext]; rfl)
            | cons next rest =>
                intro kind hkind
                obtain rfl := Option.some.inj hkind
                exact htype.2 _ (List.mem_cons_self ..)
          rw [hscene, IsCalled, List.tail_cons]
          cases hrest : rest ++ behind with
          | nil => simp
          | cons next more =>
              rw [hrest] at hnext
              have hpart := hnext next rfl
              rw [membersLength_cons (KindSet.not_contains_of_disjoint (by decide) hpart)]
              rintro hparenthesis
              obtain rfl := Option.some.inj hparenthesis
              exact absurd hpart (by decide)
        · exact h.eq_none hhead (callHeads_of_typeParts htype.1 htext)
      · rw [List.getLast?_cons, hrest]
        rfl

/-- The labels of a type definition of a function pointer: its first word, its type, the name in
parentheses, and what follows that. -/
structure ArePointer (keyword : Label) (type : List Label) (declarator : Label)
    (ending : List Label) : Prop where
  keyword : keyword.kind = .typedefKw
  type : ∀ part ∈ type, typeParts.contains part.kind = true
  declarator : declarator.kind = .parenthesis
  ending : ending.map (·.kind) = [.parenthesis, .semicolon]

theorem ArePointer.isPointer {keyword declarator : Label} {type ending : List Label}
    (h : ArePointer keyword type declarator ending) :
    IsPointer ((keyword :: type ++ declarator :: ending).map (·.kind)) := by
  refine ⟨type.map (·.kind), ?_, List.forall_mem_map.2 h.type⟩
  simp [pointerKinds, h.keyword, h.declarator, h.ending]

/-- What there is of a type definition of a function pointer at the end of analysis: all that was
written, or a call in place of the last word of the type and the name in parentheses. -/
def Pointed (isNew : NodeId → Bool) (node : Node) : Prop :=
  ∀ {keyword type declarator ending}, ArePointer keyword type declarator ending →
    Node.significantLabels (node.children.flatMap (Node.erase isNew)) =
      keyword :: type ++ declarator :: ending →
    ((∀ word ∈ type.getLast?, word.kind ≠ .text) →
      Node.significantLabels node.children = keyword :: type ++ declarator :: ending)
    ∧ ∀ front word, type = front ++ [word] → word.kind = .text →
      ∃ call : Label, call.kind = .functionCall
        ∧ Node.significantLabels node.children = keyword :: front ++ call :: ending

/-- The last word of a type is called with the name in parentheses. -/
theorem exists_call_of_pointer {plan : Plan} (hplan : SeesCalls plan) (hsound : plan.Sound)
    {children children' : List Node} {keyword word declarator : Label} {front ending : List Label}
    (hturns : plan.Turns isNew .typedefDeclaration children children')
    (hpointer : ArePointer keyword (front ++ [word]) declarator ending)
    (hword : word.kind = .text)
    (hlabels : Node.significantLabels children =
      keyword :: (front ++ [word]) ++ declarator :: ending) :
    ∃ call : Label, call.kind = .functionCall
      ∧ Node.significantLabels children' = keyword :: front ++ call :: ending := by
  have hsplit : Node.significantLabels children =
      (keyword :: front) ++ word :: declarator :: ending := by
    rw [hlabels]
    simp
  have htype : ∀ part ∈ front, typeParts.contains part.kind = true :=
    fun part hpart => hpointer.type part (List.mem_append_left _ hpart)
  -- what stands in front of the word joins no members
  obtain ⟨previous, hlast, haccess⟩ : ∃ previous,
      ((keyword :: front).map (·.kind)).getLast? = some previous
        ∧ memberAccess.contains previous = false := by
    obtain ⟨last, hlast⟩ : ∃ last, (keyword :: front).getLast? = some last :=
      ⟨_, List.getLast?_eq_some_getLast (List.cons_ne_nil keyword front)⟩
    refine ⟨last.kind, by rw [List.getLast?_map, hlast]; rfl, ?_⟩
    rcases List.mem_cons.1 (List.mem_of_getLast? hlast) with rfl | hmem
    · rw [hpointer.keyword]
      decide
    · exact KindSet.not_contains_of_disjoint (by decide) (htype last hmem)
  have hkinds : (word :: declarator :: ending).map (·.kind) =
      .text :: .parenthesis :: ending.map (·.kind) := by
    simp [hword, hpointer.declarator]
  have hfound {scene : Scene} (hparent : scene.parent = .typedefDeclaration)
      (hprevious : scene.previous = ((keyword :: front).map (·.kind)).getLast?)
      (hscene : scene.kinds = (word :: declarator :: ending).map (·.kind)) :
      plan scene = some (.functionCall, 2) := by
    rw [hkinds] at hscene
    have hmembers : membersLength scene.kinds.tail = 0 := by
      rw [hscene]
      exact membersLength_cons (by decide) _
    have hcalled : IsCalled scene.kinds := by
      rw [IsCalled, hmembers, hscene]
      rfl
    rw [hplan (congrArg List.head? hscene) (by decide), callPlan_of_isCalled
      (congrArg List.head? hscene) (hprevious.trans hlast) haccess (by rw [hparent]; decide)
      hcalled, hmembers]
  obtain ⟨-, front', call, ending', -, -, hfilter, hfront, hcall, -, hending⟩ :=
    hturns.exists_wrap_of_labels hsound hsplit (List.cons_ne_nil _ _) (by
      refine ⟨fun scene _ _ hscene => hplan.eq_none (congrArg List.head? hscene)
        (by change callHeads.contains keyword.kind = _; rw [hpointer.keyword]; decide), ?_⟩
      refine silent_type hplan (List.forall_mem_map.2 htype) fun _ kind hkind => ?_
      rw [hkinds] at hkind
      obtain rfl := Option.some.inj hkind
      decide) hfound
  have hrest : ending'.map Node.label = ending :=
    hending (silent_of_heads (fun hhead hkind => hplan.eq_none hhead hkind)
      (by
        change ∀ kind ∈ ending.map (·.kind), _
        rw [hpointer.ending]
        decide) _)
  refine ⟨call.label, hcall, ?_⟩
  rw [Node.significantLabels, hfilter, List.map_append, List.map_cons, hfront, hrest]

/-- The last pass puts no more than the last word of a type and the name in parentheses into a new
node. -/
theorem upholds_pointed {plan : Plan} {made : KindSet} (hplan : SeesCalls plan)
    (hsound : plan.Sound) (hmakes : plan.Makes callKinds) :
    plan.Upholds isNew
      (fun node => (typedefKinds.contains node.kind = true → Unchanged isNew IsPointer node)
        ∧ node.Staged isNew made ∧ node.HidesNew isNew)
      fun node => typedefKinds.contains node.kind = true → Pointed isNew node := by
  refine upholds_of_turns (by decide) (fun _ _ _ hfound =>
    KindSet.not_contains_of_disjoint (by decide) (hmakes hfound)) ?_
  intro label children children' hkind hunchanged _ hturns keyword type declarator ending hpointer
    hwritten
  change Node.significantLabels (children'.flatMap _) = _ at hwritten
  rw [hturns.erase_eq] at hwritten
  have hlabels : Node.significantLabels children = keyword :: type ++ declarator :: ending := by
    rw [← hwritten]
    exact hunchanged (by
      change IsPointer ((Node.significantLabels (children.flatMap _)).map _)
      rw [hwritten]
      exact hpointer.isPointer)
  rw [ne_of_typedefKinds hkind] at hturns
  refine ⟨fun hlast => ?_, ?_⟩
  · have hresembles := hturns.resembles (by
      rw [hlabels, List.cons_append, List.map_cons, List.map_append, hpointer.keyword,
        List.map_cons, hpointer.declarator, hpointer.ending]
      refine ⟨fun scene _ _ hscene => hplan.eq_none (congrArg List.head? hscene) (by decide),
        silent_append.2 ⟨silent_type hplan (List.forall_mem_map.2 hpointer.type) ?_,
          silent_of_heads (fun hhead hkind => hplan.eq_none hhead hkind) (by decide) _⟩⟩
      intro htext
      obtain ⟨word, hword, hwordKind⟩ := Option.map_eq_some_iff.1 (List.getLast?_map ▸ htext)
      exact absurd hwordKind (hlast word hword))
    exact (Node.significantLabels_of_resembles hresembles).trans hlabels
  · rintro front word rfl hword
    exact exists_call_of_pointer hplan hsound hturns hpointer hword hlabels

/-! ## Names in parentheses -/

/-- The kinds of `(*name)` inside the parentheses. -/
def declaratorKinds : List Kind := [.delimiter, .asterisk, .text, .delimiter]

/-- Nodes of parentheses. -/
def parenthesisKinds : KindSet := .ofList [.parenthesis]

/-- A plan that finds nothing in a name in parentheses leaves it unchanged. -/
theorem upholds_declarator {plan : Plan} (hsound : plan.Sound)
    (hsilent : plan.Silent .parenthesis none declaratorKinds []) :
    plan.Upholds isNew
      (fun node => parenthesisKinds.contains node.kind = true →
        Unchanged isNew (· = declaratorKinds) node)
      fun node => parenthesisKinds.contains node.kind = true →
        Unchanged isNew (· = declaratorKinds) node := by
  refine upholds_unchanged (fun _ _ _ hfound => KindSet.not_contains_of_disjoint
    (by decide) (hsound.synthesized hfound)) ?_
  rintro parent kinds hparent rfl
  obtain rfl : parent = .parenthesis := by simpa [parenthesisKinds] using hparent
  exact hsilent

theorem silent_declarator_function :
    functionPlan.Silent .parenthesis none declaratorKinds [] := by
  refine silent_of_forall (fun _ _ scene hparent _ _ => ?_) none
  unfold functionPlan guarded
  rw [if_neg]
  simp [hparent]

/-- The name is not called: a delimiter stands behind it. -/
theorem silent_declarator_calls {plan : Plan} (h : SeesCalls plan) :
    plan.Silent .parenthesis none declaratorKinds [] := by
  have hother {kind : Kind} {previous : Option Kind} (hkind : callHeads.contains kind = false)
      {rest : List Kind} (scene : Scene) (_ : scene.parent = .parenthesis)
      (_ : scene.previous = previous) (hscene : scene.kinds = kind :: rest) : plan scene = none :=
    h.eq_none (by rw [hscene]; rfl) hkind
  refine ⟨hother (by decide), hother (by decide), fun scene _ _ hscene => ?_, hother (by decide),
    trivial⟩
  rw [h (by rw [hscene]; rfl) (by decide), callPlan_of_not_isCalled]
  rw [hscene, IsCalled]
  decide

end CFamily

namespace Language

open CFamily Plan

variable {language : Language}

/-- The plan of the last pass. -/
theorem exists_plan_calls {pass : Pass} (hpass : pass.rule = call ∨ pass.rule = messages) :
    ∃ plan, pass.rule.Reads plan ∧ plan.Sound ∧ plan.Makes callKinds ∧ SeesCalls plan :=
  exists_plan_of_last (fun plan => plan.Makes callKinds ∧ SeesCalls plan)
    ⟨makes_call, fun _ _ => rfl⟩ ⟨makes_messages, messagesPlan_eq⟩ hpass

theorem unchanged_declarator (h : language ∈ cFamily) (text : List Char) :
    (language.parse true text).root.All fun node => parenthesisKinds.contains node.kind = true →
      Unchanged (language.isAdded text) (· = declaratorKinds) node := by
  obtain ⟨early, last, hpasses, hearly, hlast⟩ := exists_passes h
  obtain ⟨plan, hreads, hsound, -, hcalls⟩ := exists_plan_calls hlast
  rw [root_parse, hpasses]
  refine all_analyse_of_all text (fun node hnode _ _ => ?_) ?_
  · exact (Node.significantLabels_erase fun child hchild =>
      language.isAdded_stage text (Node.child_mem_descendants hnode hchild)).symm
  · simp only [List.forall_mem_append, List.forall_mem_cons]
    exact ⟨fun pass hpass => exists_plan_of_early _
        (upholds_declarator sound_conditional
          (silent_of_heads conditionalPlan_eq_none (by decide) none))
        (upholds_declarator sound_classes (silent_of_heads classesPlan_eq_none (by decide) none))
        (hearly pass hpass),
      ⟨_, reads_types, sound_types,
        upholds_declarator sound_types (silent_of_heads typesPlan_eq_none (by decide) none)⟩,
      ⟨_, reads_function, sound_function,
        upholds_declarator sound_function silent_declarator_function⟩,
      ⟨_, reads_flow, sound_flow, upholds_declarator sound_flow (silent_flow (by decide))⟩,
      ⟨_, reads_labels, sound_labels, upholds_declarator sound_labels (silent_labels (by decide))⟩,
      ⟨plan, hreads, hsound, upholds_declarator hsound (silent_declarator_calls hcalls)⟩, by simp⟩

/-- In front of the last pass, a type definition of a function pointer is as it was written. -/
theorem unchanged_typedef (language : Language) (text : List Char) {early : List Pass}
    (hearly : ∀ pass ∈ early, pass.rule = conditional ∨ pass.rule = classes) :
    ((language.stage 0 text).analyse (early ++
      [⟨"types", types⟩, ⟨"functions", function⟩, ⟨"flow", flow⟩, ⟨"labels", labels⟩])).root.All
        fun node => typedefKinds.contains node.kind = true →
          Unchanged (language.isAdded text) IsPointer node := by
  have hstaged := language.staged_analyse text early earlyKinds fun pass hpass =>
    exists_plan_makes (by decide) (hearly pass hpass)
  have hopens := language.opens_analyse text early (conditionalOpeners ∪ classHeads)
    (by decide) fun pass hpass => exists_plan_of_early (fun plan => ∀ {scene : Scene} {kind},
      scene.kinds.head? = some kind → (conditionalOpeners ∪ classHeads).contains kind = false →
        plan scene = none)
    (fun hhead hkind => conditionalPlan_eq_none hhead (by
      rw [KindSet.contains_union, Bool.or_eq_false_iff] at hkind
      exact hkind.1))
    (fun hhead hkind => classesPlan_eq_none hhead (by
      rw [KindSet.contains_union, Bool.or_eq_false_iff] at hkind
      exact hkind.2))
    (hearly pass hpass)
  refine all_analyse text early ⟨"types", types⟩ _
    (fun node hnode => ⟨hstaged node hnode, hopens node hnode⟩) reads_types sound_types
    (upholds_unchanged_types (by decide)) ?_
  simp only [List.forall_mem_cons]
  exact ⟨⟨_, reads_function, sound_function, upholds_unchanged_function⟩,
    ⟨_, reads_flow, sound_flow, upholds_unchanged_flow⟩,
    ⟨_, reads_labels, sound_labels, upholds_unchanged_labels⟩, by simp⟩

/-- At the end of analysis a type definition of a function pointer is as it was written, but for a
call in it. -/
theorem pointed_parse (h : language ∈ cFamily) (text : List Char) :
    (language.parse true text).root.All fun node =>
      typedefKinds.contains node.kind = true → Pointed (language.isAdded text) node := by
  obtain ⟨early, last, hpasses, hearly, hlast⟩ := exists_passes h
  obtain ⟨plan, hreads, hsound, hmakes, hcalls⟩ := exists_plan_calls hlast
  have hlater : language.grammar.passes = early ++
      [⟨"types", types⟩, ⟨"functions", function⟩, ⟨"flow", flow⟩, ⟨"labels", labels⟩] ++ [last] := by
    rw [hpasses, List.append_assoc]
    rfl
  have hplanned := language.planned_passes
  rw [hlater, List.forall_mem_append] at hplanned
  have hunchanged := language.unchanged_typedef text hearly
  have hstaged := language.staged_of_planned text hplanned.1
  have hhides := language.hidesNew_analyse text hplanned.1
  rw [root_parse, hlater]
  exact all_analyse text _ last [] (fun node hnode =>
    ⟨hunchanged node hnode, hstaged node hnode, hhides node hnode⟩) hreads hsound
    (upholds_pointed hcalls hsound hmakes) (by simp)

/-- A node that a pass makes of siblings that stand together behind the passes in front is there at
the end of analysis. -/
theorem exists_made_analyse (text : List Char) {early : List Pass} {pass : Pass} (late : List Pass)
    {plan : Plan} {run : List Node} {kind : Kind} (hstands : Pass.Stands (language.isAdded text) run
      ((language.stage 0 text).analyse early).root)
    (hreads : pass.rule.Reads plan) (hsound : plan.Sound)
    (hfirst : run.head?.any (·.kind.isSignificant) = true)
    (hlast : run.getLast?.any (·.kind.isSignificant) = true)
    (hspares : plan.Spares ((Node.significantLabels run).map (·.kind)))
    (hfound : ∀ {scene : Scene} {behind}, scene.kinds =
      (Node.significantLabels run).map (·.kind) ++ behind →
        plan scene = some (kind, (Node.significantLabels run).length))
    (hkind : ∀ below ∈ ((language.stage 0 text).analyse early).root.descendants,
      below.kind ≠ kind) :
    ∃ made ∈ ((language.stage 0 text).analyse (early ++ pass :: late)).root.descendants,
      made.kind = kind ∧ language.isAdded text made.id = true
        ∧ made.erase (language.isAdded text) =
          run.flatMap (Node.erase (language.isAdded text)) := by
  have hnew : ∀ index, ((language.stage 0 text).analyse early).next ≤ index →
      language.isAdded text (.fresh index) = true :=
    fun index hindex => decide_eq_true (Nat.le_trans (Parse.next_le_analyse _ early) hindex)
  rw [Parse.analyse_append]
  generalize (language.stage 0 text).analyse early = before at hstands hkind hnew ⊢
  have henough : Pass.Enough before.lines pass.rule (Pass.depthBound before.root) before.next
      before.root := Pass.enough_depthBound hreads hsound _ _
  obtain ⟨made, hmade, hmadeKind, hmadeNew, herase⟩ := Pass.exists_made_of_stands hstands hreads
    hsound hfirst hlast hspares hfound hkind henough hnew
  have hgrows := (before.analyse [pass]).grows_analyse late
  obtain ⟨after, hafter, hresembles⟩ := hgrows.exists_resembles (fun index hindex =>
    hnew index (Nat.le_trans (before.next_le_analyse [pass]) hindex)) hmade
  refine ⟨after, hafter, hresembles.kind.trans hmadeKind, ?_, hresembles.erase.trans herase⟩
  rw [Node.id, hresembles.label]
  exact hmadeNew

/-- What is written as a type definition of a function pointer among the children of a node that
passes come to has a node of its own at the end of analysis. -/
theorem exists_typedef (h : language ∈ cFamily) (text : List Char) {place : Node}
    (hplace : Pass.Reaches (language.stage 0 text).root place)
    (hopen : Pass.isOpen place.kind = true) {front run back : List Node}
    (hchildren : place.children = front ++ (run ++ back)) {type : List Kind}
    (hkinds : (Node.significantLabels run).map (·.kind) = pointerKinds type)
    (htype : ∀ part ∈ type, typeParts.contains part = true)
    (hfirst : run.head?.any (·.kind.isSignificant) = true)
    (hlast : run.getLast?.any (·.kind.isSignificant) = true) :
    ∃ node ∈ (language.parse true text).root.descendants,
      IsNodeOf (language.isAdded text) .typedefDeclaration run node := by
  obtain ⟨early, last, hpasses, hearly, -⟩ := exists_passes h
  rw [root_parse, hpasses]
  have hstands : Pass.Stands (language.isAdded text) run
      ((language.stage 0 text).analyse early).root := by
    refine Pass.stands_runAll ⟨place, front, run, back, hplace, hopen, hchildren,
      List.forall₂_same.2 fun _ _ => ⟨rfl, rfl⟩⟩ (fun pass hpass => ?_) hlast
      fun index hindex => decide_eq_true hindex
    rw [hkinds]
    exact exists_plan_of_early (Pass.Leaves · (pointerKinds type)) (leaves_conditional htype)
      (leaves_classes htype) (hearly pass hpass)
  have hstaged := language.staged_analyse text early earlyKinds fun pass hpass =>
    exists_plan_makes (by decide) (hearly pass hpass)
  have hkind : ∀ below ∈ ((language.stage 0 text).analyse early).root.descendants,
      below.kind ≠ .typedefDeclaration := by
    intro below hbelow hbelowKind
    have hnot : typedefKinds.contains below.kind = false :=
      (hstaged below hbelow).not_later (by decide) (by decide)
    rw [hbelowKind] at hnot
    exact absurd hnot (by decide)
  have hlength : (Node.significantLabels run).length = (pointerKinds type).length := by
    rw [← hkinds, List.length_map]
  obtain ⟨node, hnode, hmade, hnew, herase⟩ := exists_made_analyse text
    [⟨"functions", function⟩, ⟨"flow", flow⟩, ⟨"labels", labels⟩, last] hstands
    (show Rule.Reads (Pass.rule ⟨"types", types⟩) _ from reads_types) sound_types hfirst hlast
    (hkinds ▸ spares_types htype)
    (fun hscene => by rw [hlength, typesPlan_pointer htype (hkinds ▸ hscene)]) hkind
  refine ⟨node, hnode, hmade, hnew, ?_⟩
  rw [herase]
  refine flatMap_erase_eq_self fun child hchild id hid => ?_
  -- all that stands there is old
  obtain ⟨below, hbelow, rfl⟩ := List.mem_map.1 hid
  have hchild' : child ∈ place.children := by
    rw [hchildren]
    exact List.mem_append_right _ (List.mem_append_left _ hchild)
  exact language.isAdded_stage text (Node.mem_descendants_trans hplace.mem_descendants
    (Node.mem_descendants_of_child hchild' hbelow))

end Language

end ConcreteSyntax
