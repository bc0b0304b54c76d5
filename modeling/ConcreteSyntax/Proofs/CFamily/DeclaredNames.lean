import ConcreteSyntax.Proofs.CFamily.Classes
import ConcreteSyntax.Proofs.CFamily.Names

/-!
# Names of declarations

The name behind the keyword of a record, a namespace or a class is read off what stands there at the
end of analysis.  In Objective-C the last pass may have taken it for what is called, together with
parentheses behind it, which are those of a category.  Then what stands behind the parentheses is
read instead (`Language.name_of_declaration`).
-/

namespace ConcreteSyntax

namespace CFamily

open Plan

variable {isNew : NodeId → Bool} {parent kind : Kind} {kinds name rest : List Kind}

/-! ## Names -/

/-- Whether kinds are those of identifiers with `::` between them. -/
def isName : List Kind → Bool
  | [.text] => true
  | .text :: .doubleColon :: rest => isName rest
  | _ => false

/-- Kinds of what a name is made of. -/
def nameKinds : KindSet := .ofList [.text, .doubleColon]

theorem nameKinds_of_isName (h : isName kinds = true) :
    ∀ kind ∈ kinds, nameKinds.contains kind = true := by
  fun_induction isName kinds with
  | case1 => simp [nameKinds]
  | case2 rest ih =>
      rw [List.forall_mem_cons, List.forall_mem_cons]
      exact ⟨by decide, by decide, ih h⟩
  | case3 => cases h

/-- Whether no further part of a name stands in front of some labels. -/
def EndsName (labels : List Label) : Prop :=
  ∀ label ∈ labels.head?, nameKinds.contains label.kind = false

theorem EndsName.follows {behind behind' : List Label} (h : EndsName behind)
    (hfollows : Follows behind behind') : EndsName behind' := by
  obtain hsame | ⟨-, label, rest, rfl, hkind⟩ := hfollows
  · unfold EndsName
    rwa [hsame]
  · intro other hother
    obtain rfl := Option.some.inj hother
    exact KindSet.not_contains_of_disjoint (by decide) hkind

/-- A name that ends among the labels in front, or right behind them both here and there, is the
same here and there. -/
theorem exists_rest_of_name {front written name rest : List Label} (behind : List Label)
    (h : front ++ written = name ++ rest)
    (hname : ∀ label ∈ name, nameKinds.contains label.kind = true) (hrest : EndsName rest)
    (hfront : (∃ label ∈ front, nameKinds.contains label.kind = false)
      ∨ EndsName behind ∧ EndsName written) :
    ∃ rest', front ++ behind = name ++ rest' ∧ EndsName rest' := by
  rcases List.append_eq_append_iff.1 h with ⟨mid, rfl, rfl⟩ | ⟨mid, rfl, rfl⟩
  · cases mid with
    | nil =>
        rw [List.append_nil] at hname ⊢
        obtain ⟨label, hlabel, hkind⟩ | ⟨hbehind, -⟩ := hfront
        · rw [hname label hlabel] at hkind
          cases hkind
        · exact ⟨behind, rfl, hbehind⟩
    | cons first mid =>
        have hfirst := hname first (by simp)
        obtain ⟨label, hlabel, hkind⟩ | ⟨-, hwritten⟩ := hfront
        · rw [hname label (List.mem_append_left _ hlabel)] at hkind
          cases hkind
        · rw [hwritten first rfl] at hfirst
          cases hfirst
  · refine ⟨mid ++ behind, by rw [List.append_assoc], ?_⟩
    cases mid with
    | nil =>
        rw [List.append_nil] at hfront
        obtain ⟨label, hlabel, hkind⟩ | ⟨hbehind, -⟩ := hfront
        · rw [hname label hlabel] at hkind
          cases hkind
        · exact hbehind
    | cons first mid => exact hrest

/-! ## Calls -/

/-- The further parts of a chain are counted in the chain alone. -/
theorem membersLength_append {front behind : List Kind}
    (h : ∀ kind ∈ behind.head?, chainKinds.contains kind = false) :
    membersLength (front ++ behind) = membersLength front := by
  have hparts : ∀ kind ∈ behind.head?,
      memberAccess.contains kind = false ∧ callees.contains kind = false := by
    intro kind hkind
    have hchain := h kind hkind
    simp only [chainKinds, KindSet.contains_union, Bool.or_eq_false_iff] at hchain
    exact ⟨hchain.1.2, hchain.1.1⟩
  fun_induction membersLength front with
  | case1 mark name rest hmember ih =>
      rw [List.cons_append, List.cons_append, membersLength, if_pos hmember, ih]
  | case2 mark name rest hmember =>
      rw [List.cons_append, List.cons_append, membersLength, if_neg hmember]
  | case3 front hfront =>
      rcases front with - | ⟨first, - | ⟨second, front⟩⟩
      · rcases behind with - | ⟨first, - | ⟨second, behind⟩⟩
        · rfl
        · rfl
        · rw [List.nil_append, membersLength, if_neg]
          simp [(hparts first rfl).1]
      · rcases behind with - | ⟨second, behind⟩
        · rfl
        · rw [List.cons_append, List.nil_append, membersLength, if_neg]
          simp [(hparts second rfl).2]
      · exact absurd rfl (hfront first second front)

theorem membersLength_le_length (kinds : List Kind) : membersLength kinds ≤ kinds.length := by
  fun_induction membersLength kinds with
  | case1 mark name rest _ ih =>
      simp only [List.length_cons]
      omega
  | case2 | case3 => exact Nat.zero_le _

/-- Whether a name is that of a call depends on no more than its chain. -/
theorem isCalled_append {front behind : List Kind} (hfront : front ≠ [])
    (h : ∀ kind ∈ behind.head?, chainKinds.contains kind = false) :
    IsCalled (front ++ behind) ↔ IsCalled front := by
  obtain ⟨first, front, rfl⟩ := List.exists_cons_of_ne_nil hfront
  have hle := membersLength_le_length front
  unfold IsCalled
  rw [List.cons_append, List.tail_cons, List.tail_cons, membersLength_append h, Nat.add_comm,
    List.getElem?_cons_succ, List.getElem?_cons_succ]
  rcases Nat.lt_or_eq_of_le hle with hlt | heq
  · rw [List.getElem?_append_left hlt]
  · rw [heq, List.getElem?_append_right (Nat.le_refl _), Nat.sub_self, ← List.head?_eq_getElem?]
    simp only [List.getElem?_length, reduceCtorEq, iff_false]
    intro hparenthesis
    exact absurd (h .parenthesis hparenthesis) (by decide)

/-- Behind `::` no call begins. -/
theorem silent_messages_of_name {behind : List Kind} (h : isName name = true) :
    messagesPlan.Silent parent (some .doubleColon) name behind := by
  have hcallPlan {scene : Scene} (hprevious : scene.previous = some .doubleColon) :
      callPlan scene = none := by
    unfold callPlan guarded
    rw [if_neg]
    simp [hprevious, memberAccess]
  fun_induction isName name with
  | case1 =>
      refine ⟨fun scene _ hprevious hscene => ?_, trivial⟩
      rw [messagesPlan_eq (congrArg List.head? hscene) (by decide), hcallPlan hprevious]
  | case2 rest ih =>
      refine ⟨fun scene _ hprevious hscene => ?_, fun scene _ _ hscene => ?_, ih h⟩
      · rw [messagesPlan_eq (congrArg List.head? hscene) (by decide), hcallPlan hprevious]
      · rw [messagesPlan_eq (congrArg List.head? hscene) (by decide),
          callPlan_eq_none_of_head (congrArg List.head? hscene) (by decide)]
  | case3 => cases h

/-- In a name nothing is found if it is not that of a call. -/
theorem silent_messages_of_not_isCalled {behind : List Kind} {previous : Option Kind}
    (h : isName name = true) (hcalled : ¬IsCalled (name ++ behind)) :
    messagesPlan.Silent parent previous name behind := by
  unfold isName at h
  split at h
  · refine ⟨fun scene _ _ hscene => ?_, trivial⟩
    rw [messagesPlan_eq (congrArg List.head? hscene) (by decide), callPlan_of_not_isCalled]
    rwa [hscene]
  · refine ⟨fun scene _ _ hscene => ?_, fun scene _ _ hscene => ?_, silent_messages_of_name h⟩
    · rw [messagesPlan_eq (congrArg List.head? hscene) (by decide), callPlan_of_not_isCalled]
      rwa [hscene]
    · rw [messagesPlan_eq (congrArg List.head? hscene) (by decide),
        callPlan_eq_none_of_head (congrArg List.head? hscene) (by decide)]
  · cases h

/-! ## What a declaration shows -/

theorem kinds_of_introducer (h : (introducer? kind).isSome = true) :
    recordKinds.contains kind = true ∨ methodContainers.contains kind = true := by
  have hall : Kind.all.all (fun kind => !(introducer? kind).isSome
      || (recordKinds ∪ methodContainers).contains kind) = true := by decide +kernel
  have hkind := List.all_eq_true.1 hall kind kind.mem_all
  rw [h, KindSet.contains_union] at hkind
  simpa using hkind

/-- What stands behind the keyword of a declaration at the end of analysis, by the labels of what
was written there. -/
structure Declares (isNew : NodeId → Bool) (node : Node) (first : Label) (written : List Label) :
    Prop where
  erased : Node.significantLabels (node.children.flatMap (Node.erase isNew)) = first :: written
  introduced : introducer? node.kind = some first.kind
  named : ∀ {name rest}, written = name ++ rest → isName (name.map (·.kind)) = true →
    EndsName rest → ¬IsCalled (written.map (·.kind)) →
      ∃ behind, Node.significantLabels node.children = first :: (name ++ behind) ∧ EndsName behind
  called : ∀ {name rest}, written = name ++ rest → isName (name.map (·.kind)) = true →
    EndsName rest → IsCalled (written.map (·.kind)) →
      methodContainers.contains node.kind = true ∧ ∃ opening call others,
        node.significantChildren = opening :: call :: others ∧ opening.kind = first.kind
          ∧ call.kind = .functionCall
          ∧ name <+: Node.significantLabels (call.children.flatMap (Node.erase isNew))
  stopped : ∀ {label rest}, written = label :: rest → stopKinds.contains label.kind = true →
    ∃ behind, Node.significantLabels node.children = first :: label :: behind

/-- A name has a part at least. -/
theorem exists_text_of_isName {name : List Label} (h : isName (name.map (·.kind)) = true) :
    ∃ label rest, name = label :: rest ∧ label.kind = .text := by
  cases name with
  | nil => cases h
  | cons label rest =>
      refine ⟨label, rest, rfl, ?_⟩
      rw [List.map_cons] at h
      unfold isName at h
      split at h
      · exact (List.cons.inj ‹_›).1
      · exact (List.cons.inj ‹_›).1
      · cases h

/-- Nothing changes the name of a record or a namespace. -/
theorem Headed.declares {node : Node} (h : Headed isNew node) :
    ∃ first written, Declares isNew node first written := by
  obtain ⟨front, behind, written, keyword, header, ⟨hlabels, herased⟩, hkeyword, hfront,
    hheader⟩ := h
  obtain ⟨first, others, rfl, rfl, hothers⟩ := List.map_eq_cons_iff.1 hfront
  obtain ⟨headed, body, rfl, hheaded, hbody⟩ := List.map_eq_append_iff.1 hothers
  obtain ⟨body, hbraces, rfl, hbodyKind, hnil⟩ := List.map_eq_cons_iff.1 hbody
  obtain rfl := List.map_eq_nil_iff.1 hnil
  refine ⟨first, headed ++ [body] ++ written, herased, hkeyword, ?_, ?_, ?_⟩
  · intro name rest hwritten hname hrest _
    obtain ⟨behind', hbehind, hends⟩ := exists_rest_of_name behind hwritten
      (List.forall_mem_map.1 (nameKinds_of_isName hname)) hrest
      (.inl ⟨body, by simp, by rw [hbodyKind]; decide⟩)
    exact ⟨behind', by rw [hlabels, List.cons_append, hbehind], hends⟩
  · intro name rest hwritten hname _ hcalled
    exfalso
    obtain ⟨text, parts, rfl, htext⟩ := exists_text_of_isName hname
    cases headed with
    | nil =>
        obtain ⟨rfl, -⟩ := List.cons.inj hwritten
        rw [hbodyKind] at htext
        cases htext
    | cons part headed =>
        rw [List.append_assoc, List.map_append, hheaded] at hcalled
        obtain ⟨kind, kinds, rfl⟩ : ∃ kind kinds, header = kind :: kinds :=
          ⟨_, _, hheaded.symm⟩
        rw [List.singleton_append, List.map_cons, hbodyKind] at hcalled
        exact not_isCalled_of_body (fun kind hkind =>
          KindSet.contains_of_subset (by decide) (hheader kind hkind)) hcalled
  · intro label rest hwritten _
    have hne : headed ++ [body] ≠ [] := by simp
    obtain ⟨front, others, hfront⟩ := List.exists_cons_of_ne_nil hne
    rw [hfront] at hwritten hlabels
    obtain ⟨rfl, -⟩ := List.cons.inj hwritten
    exact ⟨others ++ behind, hlabels⟩

/-- The kinds of a chain, whatever ends it, decide whether a name in it is that of a call. -/
theorem isCalled_chain {chain stop behind : List Label}
    (hchain : chain ≠ [])
    (hstop : (∃ label, stop = [label] ∧ stopKinds.contains label.kind = true)
      ∨ stop = [] ∧ EndsChain behind) :
    IsCalled ((chain ++ stop ++ behind).map (·.kind)) ↔ IsCalled (chain.map (·.kind)) := by
  rw [List.append_assoc, List.map_append]
  refine isCalled_append (by simpa using hchain) fun kind hkind => ?_
  obtain ⟨label, rfl, hlabel⟩ | ⟨rfl, hends⟩ := hstop
  · obtain rfl := Option.some.inj hkind
    exact KindSet.not_contains_of_disjoint (by decide) hlabel
  · rw [List.nil_append, List.head?_map] at hkind
    obtain ⟨label, hlabel, rfl⟩ := Option.map_eq_some_iff.1 hkind
    have hnot := hends label hlabel
    rw [KindSet.contains_union, Bool.or_eq_false_iff] at hnot
    exact hnot.1

theorem EndsChain.endsName {labels : List Label} (h : EndsChain labels) : EndsName labels := by
  intro label hlabel
  have hnot := h label hlabel
  by_contra hname
  rw [KindSet.contains_of_subset (by decide) (Bool.not_eq_false _ ▸ hname)] at hnot
  cases hnot

/-- Behind the keyword of a class, what was written as a name is still there in front of the last
pass, and so is what makes it the name of a call. -/
theorem exists_rest_of_chain {chain stop behind written name rest : List Label}
    (hstop : (∃ label, stop = [label] ∧ stopKinds.contains label.kind = true)
      ∨ stop = [] ∧ EndsChain behind ∧ EndsChain written)
    (hsplit : chain ++ stop ++ written = name ++ rest)
    (hname : isName (name.map (·.kind)) = true) (hends : EndsName rest) :
    ∃ rest', chain ++ stop ++ behind = name ++ rest' ∧ EndsName rest'
      ∧ (IsCalled ((chain ++ stop ++ written).map (·.kind)) ↔
        IsCalled ((name ++ rest').map (·.kind))) := by
  obtain ⟨rest', hsplit', hrest'⟩ := exists_rest_of_name behind hsplit
    (List.forall_mem_map.1 (nameKinds_of_isName hname)) hends
    (hstop.imp (fun ⟨last, hlast, hkind⟩ => ⟨last, by simp [hlast],
      KindSet.not_contains_of_disjoint (by decide) hkind⟩)
        fun ⟨_, hbehind, hwritten⟩ => ⟨hbehind.endsName, hwritten.endsName⟩)
  have hne : chain ≠ [] := by
    rintro rfl
    obtain ⟨text, parts, rfl, htext⟩ := exists_text_of_isName hname
    rw [List.nil_append] at hsplit
    obtain ⟨last, rfl, hlast⟩ | ⟨rfl, -, hwritten⟩ := hstop
    · obtain ⟨rfl, -⟩ := List.cons.inj hsplit
      rw [htext] at hlast
      exact absurd hlast (by decide)
    · have hnot := hwritten text (by rw [← List.nil_append written, hsplit]; rfl)
      rw [htext] at hnot
      exact absurd hnot (by decide)
  refine ⟨rest', hsplit', hrest', ?_⟩
  rw [← hsplit', isCalled_chain hne (hstop.imp_right fun h => ⟨h.1, h.2.1⟩),
    isCalled_chain hne (hstop.imp_right fun h => ⟨h.1, h.2.2⟩)]

theorem messagesPlan_of_classWords {scene : Scene} (hhead : scene.kinds.head? = some kind)
    (h : classWords.contains kind = true) : messagesPlan scene = none := by
  rw [messagesPlan_eq hhead (KindSet.not_contains_of_disjoint (by decide) h)]
  exact callPlan_eq_none_of_head hhead (KindSet.not_contains_of_disjoint (by decide) h)

/-- A name that is that of a call becomes part of a new child behind the keyword. -/
theorem exists_call {made : KindSet} {children children' : List Node} {first : Label}
    {name rest : List Label} (hturns : messagesPlan.Turns isNew parent children children')
    (hstaged : ∀ child ∈ children, child.Staged isNew made)
    (hparent : methodContainers.contains parent = true)
    (hfirst : classWords.contains first.kind = true)
    (hlabels : Node.significantLabels children = first :: (name ++ rest))
    (hname : isName (name.map (·.kind)) = true)
    (hcalled : IsCalled ((name ++ rest).map (·.kind))) :
    ∃ opening call others,
      children'.filter (·.kind.isSignificant) = opening :: call :: others
        ∧ opening.kind = first.kind ∧ call.kind = .functionCall
        ∧ name <+: Node.significantLabels (call.children.flatMap (Node.erase isNew)) := by
  obtain ⟨text, parts, rfl, htext⟩ := exists_text_of_isName hname
  have hsplit : Node.significantLabels children = [first] ++ text :: (parts ++ rest) := hlabels
  generalize hmembers : membersLength ((parts ++ rest).map (·.kind)) = members
  have hparenthesis : ((text :: parts ++ rest).map (·.kind))[1 + members]? = some .parenthesis :=
    hmembers ▸ hcalled
  have hfound {scene : Scene} (hscene : scene.parent = parent)
      (hprevious : scene.previous = some first.kind)
      (hkinds : scene.kinds = (text :: (parts ++ rest)).map (·.kind)) :
      messagesPlan scene = some (.functionCall, 1 + members + 1) := by
    have hhead : scene.kinds.head? = some .text := by rw [hkinds, ← htext]; rfl
    rw [messagesPlan_eq hhead (by decide), callPlan_of_isCalled hhead hprevious
      (KindSet.not_contains_of_disjoint (by decide) hfirst)
      (KindSet.not_contains_of_disjoint (by decide) (hscene ▸ hparent)) (hkinds ▸ hcalled),
      hkinds, ← hmembers]
    rfl
  obtain ⟨run, front, wrapped, others, hrun, hlabelsRun, hfilter, hfront, hkind, herase, -⟩ :=
    hturns.exists_wrap_of_labels sound_messages hsplit (List.cons_ne_nil _ _)
      ⟨fun scene _ _ hscene =>
        messagesPlan_of_classWords (congrArg List.head? hscene) hfirst, trivial⟩ hfound
  obtain ⟨opening, rfl, hopening⟩ := List.map_eq_singleton_iff.1 hfront
  -- all of the name stands in front of the parentheses
  have hlength : (text :: parts).length ≤ 1 + members + 1 := by
    by_contra hlt
    have hlt : 1 + members < (text :: parts).length := by omega
    rw [List.map_append, List.getElem?_append_left (by simpa using hlt)] at hparenthesis
    exact absurd (nameKinds_of_isName hname _ (List.mem_of_getElem? hparenthesis)) (by decide)
  rw [← List.cons_append, List.take_append, List.take_of_length_le hlength] at hlabelsRun
  have hnew : ∀ label ∈ text :: parts, KindSet.synthesized.contains label.kind = false :=
    fun label hlabel => KindSet.not_contains_of_disjoint (by decide)
      (nameKinds_of_isName hname label.kind (List.mem_map_of_mem hlabel))
  obtain ⟨_, -, -, hsplits⟩ :=
    exists_splits (fun child hchild => hstaged child (hrun hchild)) hlabelsRun hnew
  refine ⟨opening, wrapped, others, hfilter, congrArg Label.kind hopening, hkind, ?_⟩
  rw [herase, hsplits.erased]
  exact List.prefix_append ..

/-- The pass for messages and calls leaves the introduction of a class as it is, but for a name that
is that of a call. -/
theorem declares_of_introduced {made : KindSet} {label : Label} {children children' : List Node}
    (h : Introduced isNew ⟨label, children⟩)
    (hkind : methodContainers.contains label.kind = true)
    (hstaged : ∀ child ∈ children, child.Staged isNew made)
    (hturns : messagesPlan.Turns isNew label.kind children children') :
    ∃ first written, Declares isNew ⟨label, children'⟩ first written := by
  obtain ⟨first, chain, stop, behind, written, ⟨hlabels, herased⟩, hkeyword, hchain, hstop⟩ := h
  change Node.significantLabels children = _ at hlabels
  change Node.significantLabels (children.flatMap _) = _ at herased
  have hword : classWords.contains first.kind = true := classWords_of_introducer hkind hkeyword
  refine ⟨first, chain ++ stop ++ written, ?_, hkeyword, ?_, ?_, ?_⟩
  · change Node.significantLabels (children'.flatMap (Node.erase isNew)) = _
    rw [hturns.erase_eq, herased]
    rfl
  · intro name rest hsplit hname hends hcalled
    obtain ⟨rest', hsplit', hends', hiff⟩ := exists_rest_of_chain hstop hsplit hname hends
    have hchildren : Node.significantLabels children = first :: name ++ rest' := by
      rw [hlabels, List.cons_append, hsplit', List.cons_append]
    obtain ⟨behind', hchildren', hfollows⟩ := hturns.exists_front sound_messages hchildren
      ⟨fun scene _ _ hscene => messagesPlan_of_classWords (congrArg List.head? hscene) hword,
        silent_messages_of_not_isCalled hname (by rwa [hiff, List.map_append] at hcalled)⟩
    exact ⟨behind', hchildren', hends'.follows hfollows⟩
  · intro name rest hsplit hname hends hcalled
    obtain ⟨rest', hsplit', hends', hiff⟩ := exists_rest_of_chain hstop hsplit hname hends
    exact ⟨hkind, exists_call hturns hstaged hkind hword
      (by rw [hlabels, List.cons_append, hsplit']) hname (hiff.1 hcalled)⟩
  · intro last rest hsplit hlast
    -- a chain would begin with another label
    obtain rfl : chain = [] := by
      cases chain with
      | nil => rfl
      | cons other chain =>
          obtain ⟨rfl, -⟩ := List.cons.inj hsplit
          have hother := hchain _ (List.mem_cons_self ..)
          rw [KindSet.not_contains_of_disjoint (by decide) hlast] at hother
          cases hother
    obtain ⟨other, rfl, -⟩ | ⟨rfl, -, hwritten⟩ := hstop
    · obtain ⟨rfl, -⟩ := List.cons.inj hsplit
      have hchildren : Node.significantLabels children = [first, other] ++ behind := hlabels
      obtain ⟨behind', hchildren', -⟩ := hturns.exists_front sound_messages hchildren
        ⟨fun scene _ _ hscene => messagesPlan_of_classWords (congrArg List.head? hscene) hword,
          fun scene _ _ hscene => by
            rw [messagesPlan_eq (congrArg List.head? hscene)
              (KindSet.not_contains_of_disjoint (by decide) hlast)]
            exact callPlan_eq_none_of_head (congrArg List.head? hscene)
              (KindSet.not_contains_of_disjoint (by decide) hlast), trivial⟩
      exact ⟨behind', hchildren'⟩
    · rw [List.nil_append, List.nil_append] at hsplit
      have hnot := hwritten last (by rw [hsplit]; rfl)
      rw [KindSet.contains_of_subset (by decide) hlast] at hnot
      cases hnot

theorem upholds_declares {made : KindSet} :
    messagesPlan.Upholds isNew
      (fun node => (methodContainers.contains node.kind = true → Introduced isNew node)
        ∧ node.Staged isNew made ∧ node.HidesNew isNew)
      fun node => methodContainers.contains node.kind = true →
        ∃ first written, Declares isNew node first written :=
  upholds_of_turns (by decide)
    (fun _ _ _ hfound => KindSet.not_contains_of_disjoint (by decide) (makes_messages hfound))
    fun hkind hold hstaged hturns => declares_of_introduced hold hkind hstaged hturns

end CFamily

namespace Node

open CFamily

variable {name : List Char} {part : Node} {parts rest : List Node}

/-- What was written among the children of a node, without trivia, comments and new nodes. -/
def written (isNew : NodeId → Bool) (node : Node) : List Node :=
  (node.children.flatMap (erase isNew)).filter (·.kind.isSignificant)

/-- The attribute of the name that is read off some siblings, if there is one. -/
def nameOf (nodes : List Node) : List Attribute :=
  let name := declaredName?.collect [] nodes
  if name.isEmpty then [] else [.named "name" name]

theorem collect_append (h : ∀ part ∈ parts, nameKinds.contains part.kind = true)
    (name : List Char) (rest : List Node) :
    declaredName?.collect name (parts ++ rest) =
      declaredName?.collect (name ++ joined parts) rest := by
  induction parts generalizing name with
  | nil => simp [joined]
  | cons part parts ih =>
      rw [List.forall_mem_cons] at h
      have hpart : (decide (part.kind = .text) || decide (part.kind = .doubleColon)) = true := by
        simpa [nameKinds] using h.1
      rw [List.cons_append, declaredName?.collect, if_pos hpart, ih h.2, joined, joined,
        List.flatMap_cons, List.append_assoc]

theorem collect_cons_of_not (hname : nameKinds.contains part.kind = false) :
    declaredName?.collect name (part :: rest) =
      if !name.isEmpty then name
      else if [Kind.braces, .colon, .parenthesis, .semicolon].contains part.kind then name
      else declaredName?.collect name rest := by
  have hpart : ¬(decide (part.kind = .text) || decide (part.kind = .doubleColon)) = true := by
    simpa [nameKinds] using hname
  rw [declaredName?.collect, if_neg hpart]

/-- What is neither part of a name nor ends the search for one is passed over. -/
theorem nameOf_cons (hname : nameKinds.contains part.kind = false)
    (hstop : [Kind.braces, .colon, .parenthesis, .semicolon].contains part.kind = false) :
    nameOf (part :: rest) = nameOf rest := by
  have hcollect : declaredName?.collect [] (part :: rest) = declaredName?.collect [] rest := by
    rw [collect_cons_of_not hname, hstop]
    rfl
  rw [nameOf, hcollect, nameOf]

/-- The keyword of a declaration is passed over. -/
theorem nameOf_cons_of_introducer {kind : Kind} (h : introducer? kind = some part.kind) :
    nameOf (part :: rest) = nameOf rest := by
  have hwords : Kind.all.all (fun kind => (introducer? kind).all fun keyword =>
      !nameKinds.contains keyword
        && !([Kind.braces, .colon, .parenthesis, .semicolon].contains keyword)) = true := by
    decide +kernel
  have hword := List.all_eq_true.1 hwords kind kind.mem_all
  rw [h, Option.all_some, Bool.and_eq_true, Bool.not_eq_true', Bool.not_eq_true'] at hword
  exact nameOf_cons hword.1 hword.2

/-- The search for a name ends at a body or a colon. -/
theorem nameOf_cons_of_stop (h : part.kind = .braces ∨ part.kind = .colon) :
    nameOf (part :: rest) = [] := by
  have hcollect : declaredName?.collect [] (part :: rest) = [] := by
    rcases h with h | h <;>
    · rw [collect_cons_of_not (by rw [h]; decide), h]
      rfl
  rw [nameOf, hcollect]
  rfl

/-- A name that has begun ends in front of what is no part of it. -/
theorem collect_of_endsName (hname : name ≠ []) (h : EndsName (rest.map label)) :
    declaredName?.collect name rest = name := by
  cases rest with
  | nil => rfl
  | cons part rest =>
      rw [collect_cons_of_not (h part.label rfl), if_pos (by simpa using hname)]

theorem nameOf_append (h : ∀ part ∈ parts, nameKinds.contains part.kind = true)
    (hjoined : joined parts ≠ []) (hrest : EndsName (rest.map label)) :
    nameOf (parts ++ rest) = [.named "name" (joined parts)] := by
  rw [nameOf, collect_append h, List.nil_append, collect_of_endsName hjoined hrest,
    if_neg (by simpa using hjoined)]

theorem content_eq_of_label {node node' : Node} (h : node.label = node'.label)
    (htext : node.text?.isSome = true) : node.content = node'.content := by
  obtain ⟨text, hnode⟩ := Option.isSome_iff_exists.1 htext
  have hnode' : node'.text? = some text := by rw [← hnode, text?, text?, h]
  rw [content, content, hnode, hnode']
  rfl

theorem joined_eq_of_label {nodes nodes' : List Node} (h : nodes.map label = nodes'.map label)
    (htext : ∀ node ∈ nodes, node.text?.isSome = true) : joined nodes = joined nodes' := by
  induction nodes generalizing nodes' with
  | nil =>
      obtain rfl := List.map_eq_nil_iff.1 h.symm
      rfl
  | cons node rest ih =>
      obtain ⟨node', rest', rfl, hlabel, hrest⟩ := List.map_eq_cons_iff.1 h.symm
      rw [List.forall_mem_cons] at htext
      rw [joined, joined, List.flatMap_cons, List.flatMap_cons,
        content_eq_of_label hlabel.symm htext.1]
      exact congrArg _ (ih hrest.symm htext.2)

/-- The attributes of a declaration are read off its significant children. -/
theorem attributes_eq_nameOf {node : Node} (h : (introducer? node.kind).isSome = true) :
    node.attributes = nameOf node.significantChildren := by
  have hall : Kind.all.all (fun kind => !(introducer? kind).isSome
      || (kind != .tag && !kind.isElement)) = true := by decide +kernel
  have hkind := List.all_eq_true.1 hall node.kind node.kind.mem_all
  rw [h] at hkind
  simp only [Bool.not_true, Bool.false_or, Bool.and_eq_true, bne_iff_ne, Bool.not_eq_true'] at hkind
  rw [attributes_eq hkind.1 hkind.2]
  have hderived : node.derived? = node.declaredName?.map (.named "name") := by
    unfold introducer? at h
    unfold derived?
    split at h
    all_goals first
      | (rename_i heq; rw [heq])
      | cases h
  rw [hderived, declaredName?, nameOf]
  split <;> rfl

end Node

namespace Language

open CFamily

variable {language : Language}

/-- Behind all passes but the last, classes still begin with what introduces them. -/
theorem introduced_analyse (language : Language) (text : List Char) :
    ((language.stage 0 text).analyse (objcPasses.take 6)).root.All fun node =>
      methodContainers.contains node.kind = true → Introduced (language.isAdded text) node := by
  have hopens := language.opens_analyse text (objcPasses.take 1) conditionalOpeners
    (by decide) (by
      simp only [objcPasses, List.take_succ_cons, List.take_zero, List.forall_mem_cons]
      exact ⟨⟨_, reads_conditional, sound_conditional, conditionalPlan_eq_none⟩, by simp⟩)
  have hstaged := language.staged_analyse text (objcPasses.take 1)
    (.ofList [.preprocessorConditional]) (by
      simp only [objcPasses, List.take_succ_cons, List.take_zero, List.forall_mem_cons]
      exact ⟨⟨_, reads_conditional, sound_conditional, makes_conditional⟩, by simp⟩)
  refine all_analyse text (objcPasses.take 1) ⟨"declarations", _⟩ ((objcPasses.drop 2).take 4)
    (fun node hnode => ⟨hstaged node hnode, hopens node hnode⟩) reads_classes sound_classes
    (upholds_introduced_classes (by decide)) ?_
  simp only [objcPasses, List.drop_succ_cons, List.drop_zero, List.take_succ_cons, List.take_zero,
    List.forall_mem_cons]
  exact ⟨⟨_, reads_types, sound_types, upholds_introduced_types⟩,
    ⟨_, reads_function, sound_function, upholds_introduced_function⟩,
    ⟨_, reads_flow, sound_flow, upholds_introduced_flow⟩,
    ⟨_, reads_labels, sound_labels, upholds_introduced_labels⟩, by simp⟩

/-- Kinds of what the passes of C and C++ make. -/
def madeKinds : KindSet :=
  .ofList [.preprocessorConditional] ∪ typeKinds ∪ functionKinds ∪ flowKinds ∪ labelKinds
    ∪ callKinds

/-- Passes of C and C++ make no classes of Objective-C. -/
theorem not_methodContainers (language : Language) (text : List Char) {node : Node}
    (hnode : node ∈ ((language.stage 0 text).analyse passes).root.descendants) :
    methodContainers.contains node.kind = false := by
  refine (language.staged_analyse text passes madeKinds ?_ node hnode).not_later (by decide)
    (by decide)
  simp only [passes, List.forall_mem_cons]
  exact ⟨⟨_, reads_conditional, sound_conditional, makes_conditional.mono (by decide)⟩,
    ⟨_, reads_types, sound_types, makes_types.mono (by decide)⟩,
    ⟨_, reads_function, sound_function, makes_function.mono (by decide)⟩,
    ⟨_, reads_flow, sound_flow, makes_flow.mono (by decide)⟩,
    ⟨_, reads_labels, sound_labels, makes_labels.mono (by decide)⟩,
    ⟨_, reads_call, sound_call, makes_call.mono (by decide)⟩, by simp⟩

/-- Behind all passes, classes show the names that were written, but for those of calls. -/
theorem declares_analyse (language : Language) (text : List Char) :
    ((language.stage 0 text).analyse objcPasses).root.All fun node =>
      methodContainers.contains node.kind = true →
        ∃ first written, Declares (language.isAdded text) node first written := by
  have hintroduced := language.introduced_analyse text
  have hplanned : ∀ pass ∈ objcPasses.take 6, pass.Planned :=
    fun pass hpass => planned_objcPasses pass (List.mem_of_mem_take hpass)
  have hstaged := language.staged_of_planned text hplanned
  have hhides := language.hidesNew_analyse text hplanned
  exact all_analyse text (objcPasses.take 6) ⟨"calls", _⟩ []
    (fun node hnode => ⟨hintroduced node hnode, hstaged node hnode, hhides node hnode⟩)
    reads_messages sound_messages upholds_declares (by simp)

theorem declares_parse (h : language ∈ cFamily) (text : List Char) {node : Node}
    (hnode : node ∈ (language.parse true text).root.descendants)
    (hkind : (introducer? node.kind).isSome = true) :
    ∃ first written, Declares (language.isAdded text) node first written := by
  obtain hrecord | hclass := kinds_of_introducer hkind
  · exact (headed_parse h text hnode hrecord).declares
  cases language with
  | c | cpp =>
      have hnone := not_methodContainers _ text hnode
      rw [hclass] at hnone
      cases hnone
  | objc | objcpp => exact declares_analyse _ text node hnode hclass
  | html | xml | feed | propertyList => exact absurd h (by decide)

/-- Identifiers and what joins them keep their text through analysis. -/
theorem isSome_text? (language : Language) (text : List Char) {leaf : Node}
    (h : leaf ∈ (language.parse true text).root.descendants)
    (hkind : nameKinds.contains leaf.kind = true) : leaf.text?.isSome = true := by
  obtain ⟨-, -, htext, -⟩ := language.of_mem_leaves true text (List.mem_filter.2
    ⟨h, isAtomic_of_nameParts (KindSet.contains_of_subset (by decide) hkind)⟩)
  rw [htext]
  rfl

/-- A declaration that shows a name behind its keyword has that name. -/
theorem attributes_of_significantLabels (language : Language) (text : List Char) {node : Node}
    {opening : Label} {name : List Node} {behind : List Label}
    (hnode : node ∈ (language.parse true text).root.descendants)
    (hkeyword : introducer? node.kind = some opening.kind)
    (hname : isName (name.map (·.kind)) = true) (hbehind : EndsName behind)
    (hlabels : Node.significantLabels node.children =
      opening :: (name.map (·.label) ++ behind)) :
    node.attributes = [.named "name" (Node.joined name)] := by
  obtain ⟨keyword, others, hchildren, hopening, hothers⟩ := List.map_eq_cons_iff.1 hlabels
  obtain ⟨parts, others, rfl, hparts, rfl⟩ := List.map_eq_append_iff.1 hothers
  change node.significantChildren = _ at hchildren
  have hsame : parts.map (·.kind) = name.map (·.kind) := by
    have hlabelKinds := congrArg (List.map Label.kind) hparts
    rwa [List.map_map, List.map_map] at hlabelKinds
  have hkinds : ∀ part ∈ parts, nameKinds.contains part.kind = true := fun part hpart =>
    nameKinds_of_isName hname part.kind (hsame ▸ List.mem_map_of_mem hpart)
  have hmem : ∀ part ∈ parts, part ∈ node.significantChildren := fun part hpart => by
    rw [hchildren]
    exact List.mem_cons_of_mem _ (List.mem_append_left _ hpart)
  have hjoined : Node.joined parts ≠ [] := by
    rw [ne_eq, Node.joined_eq_nil fun part hpart => language.content_ne_nil_of_nameParts text hnode
      (hmem part hpart) (KindSet.contains_of_subset (by decide) (hkinds part hpart))]
    rintro rfl
    rw [← hsame] at hname
    cases hname
  rw [Node.attributes_eq_nameOf (by rw [hkeyword]; rfl), hchildren,
    Node.nameOf_cons_of_introducer (hkeyword.trans (congrArg _ (congrArg Label.kind hopening).symm)),
    Node.nameOf_append hkinds hjoined hbehind, Node.joined_eq_of_label hparts fun part hpart =>
      language.isSome_text? text (Node.child_mem_descendants hnode
        (List.mem_of_mem_filter (hmem part hpart))) (hkinds part hpart)]

/-- Names of declarations.  In the tree of a text of a C-family language, let a node be a record, a
namespace, or a class, a category or a protocol of Objective-C, and let a name be written behind its
keyword.  The node has that name, whatever follows, unless it is one of Objective-C and the name,
perhaps with further members, is followed by parentheses.  Then a function call that begins with the
name stands behind the keyword, and the name of the node is read off what stands behind the call.
Where a body or a colon follows the keyword, the node has no name. -/
theorem name_of_declaration (hlanguage : language ∈ cFamily) (text : List Char) {node : Node}
    (hnode : node ∈ (language.parse true text).root.descendants) {keyword : Kind}
    (hkind : introducer? node.kind = some keyword) :
    ∃ first behind, node.written (language.isAdded text) = first :: behind ∧ first.kind = keyword
      ∧ (∀ name rest, behind = name ++ rest → isName (name.map (·.kind)) = true →
        (∀ next ∈ rest.head?, next.kind ≠ .text ∧ next.kind ≠ .doubleColon) →
          (¬IsCalled (behind.map (·.kind)) → node.attributes = [.named "name" (Node.joined name)])
          ∧ (IsCalled (behind.map (·.kind)) → methodContainers.contains node.kind = true
            ∧ ∃ opening call others, node.significantChildren = opening :: call :: others
              ∧ call.kind = .functionCall
              ∧ name.map (·.label) <+: (call.written (language.isAdded text)).map (·.label)
              ∧ node.attributes = Node.nameOf others))
      ∧ ∀ next rest, behind = next :: rest → next.kind = .braces ∨ next.kind = .colon →
        node.attributes = [] := by
  have hsome : (introducer? node.kind).isSome = true := by
    rw [hkind]
    rfl
  obtain ⟨first, written, hdeclares⟩ := declares_parse hlanguage text hnode hsome
  obtain ⟨opening, behind, hwritten, rfl, rfl⟩ := List.map_eq_cons_iff.1 hdeclares.erased
  have hkeyword : opening.kind = keyword :=
    Option.some.inj (hdeclares.introduced.symm.trans hkind)
  refine ⟨opening, behind, hwritten, hkeyword, fun name rest hbehind hname hends => ?_,
    fun next rest hbehind hnext => ?_⟩
  · have hlabels : behind.map (·.label) = name.map (·.label) ++ rest.map (·.label) := by
      rw [hbehind, List.map_append]
    have hkinds : isName ((name.map (·.label)).map (·.kind)) = true := by
      rw [List.map_map]
      exact hname
    have hrest : EndsName (rest.map (·.label)) := by
      intro label hlabel
      rw [List.head?_map] at hlabel
      obtain ⟨next, hnext, rfl⟩ := Option.map_eq_some_iff.1 hlabel
      obtain ⟨htext, hcolons⟩ := hends next hnext
      simpa [nameKinds] using ⟨htext, hcolons⟩
    have hsame : (behind.map (·.label)).map (·.kind) = behind.map (·.kind) := List.map_map
    refine ⟨fun hcalled => ?_, fun hcalled => ?_⟩
    · obtain ⟨after, hchildren, hafter⟩ :=
        hdeclares.named hlabels hkinds hrest (hsame ▸ hcalled)
      exact language.attributes_of_significantLabels text hnode hdeclares.introduced hname hafter
        hchildren
    · obtain ⟨hclass, opening', call, others, hchildren, hopening, hcall, hprefix⟩ :=
        hdeclares.called hlabels hkinds hrest (hsame ▸ hcalled)
      refine ⟨hclass, opening', call, others, hchildren, hcall, hprefix, ?_⟩
      rw [Node.attributes_eq_nameOf hsome, hchildren,
        Node.nameOf_cons_of_introducer (hopening ▸ hdeclares.introduced),
        Node.nameOf_cons (by rw [hcall]; decide) (by rw [hcall]; decide)]
  · have hlabels : behind.map (·.label) = next.label :: rest.map (·.label) := by
      rw [hbehind]
      rfl
    have hstop : stopKinds.contains next.label.kind = true := by
      have hkind : next.label.kind = .braces ∨ next.label.kind = .colon := hnext
      rcases hkind with hkind | hkind <;> · rw [hkind]; decide
    obtain ⟨after, hchildren⟩ := hdeclares.stopped hlabels hstop
    obtain ⟨opening', others, hsignificant, hopening, hothers⟩ := List.map_eq_cons_iff.1 hchildren
    obtain ⟨next', others, rfl, hnext', -⟩ := List.map_eq_cons_iff.1 hothers
    have hchildren : node.significantChildren = opening' :: next' :: others := hsignificant
    have hopening' : opening'.kind = opening.label.kind := congrArg Label.kind hopening
    have hkind' : next'.kind = next.kind := congrArg Label.kind hnext'
    rw [Node.attributes_eq_nameOf hsome, hchildren,
      Node.nameOf_cons_of_introducer (hopening' ▸ hdeclares.introduced),
      Node.nameOf_cons_of_stop (hkind' ▸ hnext)]

/-- The name of a class, in front of the protocols that it adopts. -/
theorem name_of_declaration_protocols :
    Language.objc ∈ cFamily
      ∧ ∃ node ∈ (Language.objc.parse true "@interface A<B>\n@end".toList).root.descendants,
        introducer? node.kind = some .atInterfaceKw ∧ node.attributes = [.named "name" ['A']]
          ∧ ∃ first behind,
            node.written (Language.objc.isAdded "@interface A<B>\n@end".toList) = first :: behind
              ∧ first.kind = .atInterfaceKw
              ∧ (∀ name rest, behind = name ++ rest → isName (name.map (·.kind)) = true →
                (∀ next ∈ rest.head?, next.kind ≠ .text ∧ next.kind ≠ .doubleColon) →
                  (¬IsCalled (behind.map (·.kind)) →
                    node.attributes = [.named "name" (Node.joined name)])
                  ∧ (IsCalled (behind.map (·.kind)) →
                    methodContainers.contains node.kind = true ∧ ∃ opening call others,
                      node.significantChildren = opening :: call :: others
                        ∧ call.kind = .functionCall
                        ∧ name.map (·.label) <+: (call.written
                          (Language.objc.isAdded "@interface A<B>\n@end".toList)).map (·.label)
                        ∧ node.attributes = Node.nameOf others))
              ∧ ∀ next rest, behind = next :: rest → next.kind = .braces ∨ next.kind = .colon →
                node.attributes = [] := by
  have hlanguage : Language.objc ∈ cFamily := by decide
  obtain ⟨node, hnode, hkind, hname⟩ :
      ∃ node ∈ (Language.objc.parse true "@interface A<B>\n@end".toList).root.descendants,
        introducer? node.kind = some .atInterfaceKw
          ∧ node.attributes = [.named "name" ['A']] := by
    decide +kernel
  exact ⟨hlanguage, node, hnode, hkind, hname, name_of_declaration hlanguage _ hnode hkind⟩

/-- A name in front of a category: it is taken for that of a call, and the class has none. -/
theorem name_of_declaration_category :
    ∃ node ∈ (Language.objc.parse true "@interface A (B)\n@end".toList).root.descendants,
      node.kind = .objcInterface ∧ ∃ first name next rest,
        node.written (Language.objc.isAdded "@interface A (B)\n@end".toList) =
          first :: ([name] ++ next :: rest)
          ∧ first.kind = .atInterfaceKw ∧ isName ([name].map (·.kind)) = true
          ∧ next.kind = .parenthesis ∧ Node.joined [name] = ['A'] ∧ node.attributes = [] := by
  obtain ⟨node, hnode, hkind, hkinds, hjoined, hattributes⟩ :
      ∃ node ∈ (Language.objc.parse true "@interface A (B)\n@end".toList).root.descendants,
        node.kind = .objcInterface
          ∧ ((node.written (Language.objc.isAdded "@interface A (B)\n@end".toList)).map
            (·.kind)).take 3 = [.atInterfaceKw, .text, .parenthesis]
          ∧ (((node.written (Language.objc.isAdded "@interface A (B)\n@end".toList)).drop 1).take
            1).flatMap Node.content = ['A']
          ∧ node.attributes = [] := by
    decide +kernel
  generalize hwritten : node.written (Language.objc.isAdded "@interface A (B)\n@end".toList) =
    written at hkinds hjoined
  rcases written with - | ⟨first, - | ⟨name, - | ⟨next, rest⟩⟩⟩ <;>
    simp only [List.map_nil, List.map_cons, List.take_nil, List.take_succ_cons, List.take_zero,
      List.cons.injEq, reduceCtorEq, and_false, and_true] at hkinds
  obtain ⟨hfirst, hname, hnext⟩ := hkinds
  exact ⟨node, hnode, hkind, first, name, next, rest, hwritten, hfirst, by simp [hname, isName],
    hnext, hjoined, hattributes⟩

end Language

end ConcreteSyntax
