import ConcreteSyntax.Proofs.CFamily.Functions

/-!
# Headers of declarations

A record, a namespace or a class begins with its keyword, its name and what else stands in front of
its body.  The pass that makes such a node finds all of it once more inside, and nothing else at
these siblings, and so do the later passes (`Headed`, `Introduced`), up to the calls that a pass for
Objective-C looks for.
-/

namespace ConcreteSyntax

namespace Plan

variable {plan : Plan} {kind stop : Kind} {kinds : List Kind} {n : Nat}

/-! ## Exact plans -/

theorem exact_nothing : Exact nothing := nofun

theorem exact_guarded (test : Scene → Bool) (h : plan.Exact) : (guarded test plan).Exact := by
  have hplan : ∀ {scene kind n}, guarded test plan scene = some (kind, n) →
      plan scene = some (kind, n) := by
    intro scene kind n hguarded
    unfold guarded at hguarded
    split at hguarded
    · exact hguarded
    · cases hguarded
  intro scene kind other n m hfound hwithin
  exact h (hplan hfound) (hplan hwithin)

theorem exact_dispatch {choose : Option Kind → Plan} (hsound : (dispatch choose).Sound)
    (h : ∀ head, (choose head).Exact) : (dispatch choose).Exact := by
  intro scene kind other n m hfound hwithin
  have hhead : (scene.within kind n).kinds.head? = scene.kinds.head? := by
    have hpos := hsound.pos hfound
    simp [Scene.within, List.head?_take, Nat.ne_of_gt hpos]
  unfold dispatch at hfound hwithin
  rw [hhead] at hwithin
  exact h _ hfound hwithin

theorem through_take {allowed : Kind → Bool} (h : through stop allowed kinds = some n) :
    through stop allowed (kinds.take n) = some n := by
  obtain ⟨front, behind, rfl, rfl, hfront⟩ := through_eq_some_iff.1 h
  rw [List.append_cons, List.take_left' (by simp)]
  exact through_append allowed hfront []

/-- Counting stays within what is in front of a kind that is not allowed. -/
theorem countWhile_take {allowed : Kind → Bool} {m : Nat}
    (h : countWhile allowed kinds < m) : countWhile allowed (kinds.take m) =
      countWhile allowed kinds := by
  unfold countWhile at h ⊢
  induction kinds generalizing m with
  | nil => simp
  | cons kind rest ih =>
      cases m with
      | zero => cases h
      | succ m =>
          rw [List.takeWhile_cons] at h
          rw [List.take_succ_cons, List.takeWhile_cons, List.takeWhile_cons]
          split
          · rename_i hkind
            rw [if_pos hkind, List.length_cons] at h
            rw [List.length_cons, List.length_cons, ih (by omega)]
          · rfl

theorem tail_within {scene : Scene} (n : Nat) :
    (scene.within kind (n + 1)).kinds.tail = scene.kinds.tail.take n := by
  cases hkinds : scene.kinds <;> simp [Scene.within, hkinds]

end Plan

namespace CFamily

open Plan

variable {kind parent : Kind} {kinds : List Kind} {n : Nat}

theorem exact_wordThrough (stop : Kind) (barred : KindSet) (kind : Kind) :
    (wordThroughPlan stop barred kind).Exact := by
  intro scene found other n m hfound hwithin
  simp only [wordThroughPlan, Option.map_eq_some_iff, Prod.mk.injEq] at hfound hwithin
  obtain ⟨count, hcount, rfl, rfl⟩ := hfound
  obtain ⟨count', hcount', rfl, rfl⟩ := hwithin
  rw [tail_within, through_take hcount] at hcount'
  rw [Option.some.inj hcount']

theorem exact_wordWithArgument (kind : Kind) : (wordWithArgumentPlan kind).Exact := by
  intro scene found other n m hfound hwithin
  unfold wordWithArgumentPlan at hfound hwithin
  split at hfound
  · split at hwithin
    · rw [← (Prod.mk.inj (Option.some.inj hfound)).2, ← (Prod.mk.inj (Option.some.inj hwithin)).2]
    · cases hwithin
  · cases hfound

theorem wordWithArgument_kind {scene : Scene} {found : Kind}
    (h : wordWithArgumentPlan kind scene = some (found, n)) : found = kind := by
  unfold wordWithArgumentPlan at h
  split at h
  · exact (Prod.mk.inj (Option.some.inj h)).1.symm
  · cases h

/-- What a record is found with: its header and its body, and perhaps declarators. -/
theorem record_spec {scene : Scene} {found : Kind} (h : recordPlan kind scene = some (found, n)) :
    found = kind
      ∧ scene.kinds[1 + countWhile recordHeader.contains scene.kinds.tail]? = some .braces
      ∧ n = 1 + countWhile recordHeader.contains scene.kinds.tail + 1
        + (if scene.parent = .typedefDeclaration then 0
          else (through .semicolon declarators.contains (scene.kinds.drop
            (1 + countWhile recordHeader.contains scene.kinds.tail + 1))).getD 0) := by
  unfold recordPlan at h
  dsimp only at h
  split at h
  · rename_i hbody
    split at h
    all_goals
      rename_i hparent
      obtain ⟨rfl, rfl⟩ := Prod.mk.inj (Option.some.inj h)
      refine ⟨rfl, hbody.1, ?_⟩
    · rw [if_pos hparent]
    · rw [if_neg hparent]
  · cases h

theorem exact_record (hkind : kind ≠ .typedefDeclaration) : (recordPlan kind).Exact := by
  intro scene found other n m hfound hwithin
  obtain ⟨rfl, hbody, hn⟩ := record_spec hfound
  obtain ⟨-, -, hm⟩ := record_spec hwithin
  generalize hheader : countWhile recordHeader.contains scene.kinds.tail = header at hbody hn
  have hcount : countWhile recordHeader.contains (scene.within found n).kinds.tail = header := by
    obtain ⟨k, rfl⟩ := Nat.exists_eq_succ_of_ne_zero (show n ≠ 0 by omega)
    rw [tail_within, countWhile_take (by omega), hheader]
  have hparent : (scene.within found n).parent ≠ .typedefDeclaration := hkind
  have hdrop : (scene.within found n).kinds.drop (1 + header + 1) =
      (scene.kinds.drop (1 + header + 1)).take (n - (1 + header + 1)) := List.drop_take
  rw [hcount, if_neg hparent, hdrop] at hm
  rw [hm, hn]
  congr 1
  split
  · simp [through]
  · cases hmore : through .semicolon declarators.contains (scene.kinds.drop (1 + header + 1)) with
    | none => simp [through]
    | some more => simp [through_take hmore]

theorem nameSpace_spec {scene : Scene} (h : nameSpacePlan scene = some (kind, n)) :
    kind = .cppNamespace
      ∧ scene.kinds[1 + countWhile (fun kind => kind = .text || kind = .doubleColon)
        scene.kinds.tail]? = some .braces
      ∧ n = 1 + countWhile (fun kind => kind = .text || kind = .doubleColon) scene.kinds.tail
        + 1 := by
  unfold nameSpacePlan at h
  dsimp only at h
  split at h
  · rename_i hbody
    obtain ⟨rfl, rfl⟩ := Prod.mk.inj (Option.some.inj h)
    exact ⟨rfl, hbody, rfl⟩
  · cases h

theorem exact_nameSpace : nameSpacePlan.Exact := by
  intro scene found other n m hfound hwithin
  obtain ⟨rfl, -, hn⟩ := nameSpace_spec hfound
  obtain ⟨-, -, hm⟩ := nameSpace_spec hwithin
  generalize hheader : countWhile (fun kind => kind = .text || kind = .doubleColon)
    scene.kinds.tail = header at hn
  obtain ⟨k, rfl⟩ := Nat.exists_eq_succ_of_ne_zero (show n ≠ 0 by omega)
  rw [tail_within, countWhile_take (by omega), hheader] at hm
  rw [hm, hn]

theorem exact_types : typesPlan.Exact := by
  refine exact_dispatch sound_types fun head => ?_
  unfold typeAtPlan
  split
  · exact exact_wordThrough _ _ _
  · exact exact_record (by decide)
  · exact exact_record (by decide)
  · exact exact_record (by decide)
  · exact exact_record (by decide)
  · exact exact_wordWithArgument _
  · exact exact_wordWithArgument _
  · exact exact_nameSpace
  · exact exact_nothing

/-- Methods stand in classes only, so none is found inside a method. -/
theorem exact_method : methodPlan.Exact := by
  intro scene found other n m hfound hwithin
  obtain ⟨-, -, -, hkind⟩ := method_spec hfound
  have hparent := (method_spec hwithin).1
  obtain rfl | rfl := hkind <;> simp [Scene.within, methodContainers] at hparent

theorem exact_classes : classesPlan.Exact := by
  refine exact_dispatch sound_classes fun head => ?_
  unfold classAtPlan
  split
  · exact exact_wordThrough _ _ _
  · exact exact_wordThrough _ _ _
  · exact exact_guarded _ (exact_wordThrough _ _ _)
  · exact exact_wordThrough _ _ _
  · exact exact_wordThrough _ _ _
  · exact exact_method
  · exact exact_nothing

/-! ## Records and namespaces -/

/-- The keyword that introduces a declaration of a kind. -/
def introducer? : Kind → Option Kind
  | .typeStruct => some .structKw
  | .typeUnion => some .unionKw
  | .typeEnum => some .enumKw
  | .cppClass => some .classKw
  | .cppNamespace => some .namespaceKw
  | .objcInterface => some .atInterfaceKw
  | .objcImplementation => some .atImplementationKw
  | .objcProtocol => some .atProtocolKw
  | _ => none

/-- Kinds of records and namespaces. -/
def recordKinds : KindSet :=
  .ofList [.typeStruct, .typeUnion, .typeEnum, .cppClass, .cppNamespace]

/-- Kinds of what stands in front of the body of a record or a namespace. -/
def headerKinds : KindSet :=
  recordHeader ∪ .ofList [.structKw, .unionKw, .enumKw, .classKw, .namespaceKw]

/-- Words that begin a run of the pass for types. -/
def typeHeads : KindSet := .ofList [
  .typedefKw, .structKw, .unionKw, .enumKw, .classKw, .sizeofKw, .typeofKw, .namespaceKw]

theorem typesPlan_eq_none {scene : Scene} (hhead : scene.kinds.head? = some kind)
    (h : typeHeads.contains kind = false) : typesPlan scene = none := by
  have hnothing : typeAtPlan (some kind) = .nothing := by
    unfold typeAtPlan
    split
    case h_9 => rfl
    all_goals
      rename_i heq
      obtain rfl := Option.some.inj heq
      exact absurd h (by decide)
  unfold typesPlan dispatch
  rw [hhead, hnothing]
  rfl

theorem kinds_of_countWhile {allowed : Kind → Bool} {keyword stop : Kind}
    (hhead : kinds.head? = some keyword)
    (hstop : kinds[1 + countWhile allowed kinds.tail]? = some stop) :
    ∃ more, kinds = keyword :: kinds.tail.takeWhile allowed ++ stop :: more := by
  obtain ⟨rest, rfl⟩ := List.head?_eq_some_iff.1 hhead
  rw [Nat.add_comm, List.getElem?_cons_succ, List.tail_cons, countWhile] at hstop
  have hbehind : (rest.dropWhile allowed).head? = some stop :=
    calc (rest.dropWhile allowed).head?
        = (rest.takeWhile allowed ++ rest.dropWhile allowed)[(rest.takeWhile allowed).length]? := by
          rw [List.getElem?_append_right (Nat.le_refl _), Nat.sub_self, List.head?_eq_getElem?]
      _ = some stop := by rw [List.takeWhile_append_dropWhile, hstop]
  obtain ⟨more, hmore⟩ := List.head?_eq_some_iff.1 hbehind
  exact ⟨more, by rw [List.tail_cons, ← hmore, List.cons_append, List.takeWhile_append_dropWhile]⟩

/-- What a record or a namespace is found with: its keyword, its header and its body. -/
theorem types_header {scene : Scene} (h : typesPlan scene = some (kind, n))
    (hkind : recordKinds.contains kind = true) :
    ∃ keyword header more, introducer? kind = some keyword
      ∧ scene.kinds = keyword :: header ++ .braces :: more
      ∧ (∀ part ∈ header, recordHeader.contains part = true) ∧ header.length + 2 ≤ n := by
  have hrecord {keyword : Kind} (hhead : scene.kinds.head? = some keyword)
      (hfound : recordPlan kind scene = some (kind, n))
      (hintroducer : introducer? kind = some keyword) :
      ∃ keyword header more, introducer? kind = some keyword
        ∧ scene.kinds = keyword :: header ++ .braces :: more
        ∧ (∀ part ∈ header, recordHeader.contains part = true) ∧ header.length + 2 ≤ n := by
    obtain ⟨-, hbody, hn⟩ := record_spec hfound
    obtain ⟨more, hkinds⟩ := kinds_of_countWhile hhead hbody
    refine ⟨keyword, _, more, hintroducer, hkinds, fun part hpart => List.mem_takeWhile_imp hpart,
      ?_⟩
    rw [countWhile] at hn
    omega
  have hother {other : Kind} (hmakes : other = kind) (hnot : recordKinds.contains other = false) :
      False := by
    rw [hmakes, hkind] at hnot
    cases hnot
  unfold typesPlan dispatch at h
  generalize hhead : scene.kinds.head? = head at h
  unfold typeAtPlan at h
  split at h
  · simp only [wordThroughPlan, Option.map_eq_some_iff, Prod.mk.injEq] at h
    obtain ⟨-, -, hfound, -⟩ := h
    exact (hother hfound (by decide)).elim
  · obtain rfl := (record_spec h).1
    exact hrecord hhead h rfl
  · obtain rfl := (record_spec h).1
    exact hrecord hhead h rfl
  · obtain rfl := (record_spec h).1
    exact hrecord hhead h rfl
  · obtain rfl := (record_spec h).1
    exact hrecord hhead h rfl
  · exact (hother ((wordWithArgument_kind h).symm) (by decide)).elim
  · exact (hother ((wordWithArgument_kind h).symm) (by decide)).elim
  · obtain ⟨rfl, hbody, hn⟩ := nameSpace_spec h
    obtain ⟨more, hkinds⟩ := kinds_of_countWhile hhead hbody
    refine ⟨_, _, more, rfl, hkinds, fun part hpart => ?_, ?_⟩
    · have hname := List.mem_takeWhile_imp hpart
      simp only [Bool.or_eq_true, decide_eq_true_eq] at hname
      rcases hname with rfl | rfl <;> decide
    · rw [countWhile] at hn
      omega
  · cases h

/-- Whether a node begins with the header and the body of a declaration. -/
def Headed (isNew : NodeId → Bool) (node : Node) : Prop :=
  ∃ front behind written keyword header, Splits isNew node.children front behind written
    ∧ introducer? node.kind = some keyword ∧ front.map (·.kind) = keyword :: header ++ [.braces]
    ∧ ∀ part ∈ header, recordHeader.contains part = true

/-- A plan that finds nothing in a header in front of a body is silent there. -/
theorem silent_of_header {plan : Plan} {front behind : List Kind}
    (hplan : ∀ {scene : Scene} {front}, (∀ kind ∈ front, headerKinds.contains kind = true) →
      scene.kinds = front ++ .braces :: behind → plan scene = none)
    (h : ∀ kind ∈ front, headerKinds.contains kind = true) (previous : Option Kind) :
    plan.Silent parent previous (front ++ [.braces]) behind := by
  induction front generalizing previous with
  | nil => exact ⟨fun scene _ _ hscene => hplan (List.forall_mem_nil _) hscene, trivial⟩
  | cons kind front ih =>
      refine ⟨fun scene _ _ hscene => hplan h ?_, ih (List.forall_mem_cons.1 h).2 _⟩
      rw [hscene]
      simp

theorem not_parenthesis_of_header {front : List Kind}
    (h : ∀ kind ∈ front, headerKinds.contains kind = true) : .parenthesis ∉ front :=
  fun hmem => absurd (h _ hmem) (by decide)

theorem functionPlan_of_body {scene : Scene} {front behind : List Kind}
    (h : ∀ kind ∈ front, headerKinds.contains kind = true)
    (hscene : scene.kinds = front ++ .braces :: behind) : functionPlan scene = none := by
  rw [Option.eq_none_iff_forall_ne_some]
  rintro ⟨found, n⟩ hfound
  obtain ⟨words, after, m, hwords, hkinds, -⟩ := exists_words hfound
  rw [hscene] at hkinds
  rcases List.append_eq_append_iff.1 hkinds with ⟨mid, rfl, hmid⟩ | ⟨mid, rfl, hmid⟩
  · cases mid with
    | nil => cases (List.cons.inj hmid).1
    | cons other mid =>
        obtain ⟨rfl, -⟩ := List.cons.inj hmid
        exact absurd (hwords.word .braces (by simp)) (by decide)
  · cases mid with
    | nil => cases (List.cons.inj hmid).1
    | cons other mid =>
        obtain ⟨rfl, -⟩ := List.cons.inj hmid
        exact absurd (h .parenthesis (by simp)) (by decide)

/-- The further parts of a member chain stay in front of what is none. -/
theorem membersLength_le {stop : Kind} {front behind : List Kind}
    (hmark : memberAccess.contains stop = false) (hname : callees.contains stop = false) :
    membersLength (front ++ stop :: behind) ≤ front.length := by
  generalize hkinds : front ++ stop :: behind = kinds
  fun_induction membersLength kinds generalizing front with
  | case1 mark name rest hparts ih =>
      rcases front with - | ⟨first, - | ⟨second, front⟩⟩
      · obtain ⟨rfl, -⟩ := List.cons.inj hkinds
        simp [hmark] at hparts
      · obtain ⟨-, hrest⟩ := List.cons.inj hkinds
        obtain ⟨rfl, -⟩ := List.cons.inj hrest
        simp [hname] at hparts
      · obtain ⟨-, hrest⟩ := List.cons.inj hkinds
        have hlength := ih (List.cons.inj hrest).2
        simp only [List.length_cons]
        omega
  | case2 | case3 => exact Nat.zero_le _

/-- Kinds from a callee on are those of a call if parentheses follow its member chain. -/
def IsCalled (kinds : List Kind) : Prop :=
  kinds[1 + membersLength kinds.tail]? = some .parenthesis

theorem callPlan_of_not_isCalled {scene : Scene} (h : ¬IsCalled scene.kinds) :
    callPlan scene = none := by
  unfold callPlan guarded
  dsimp only
  split
  · exact if_neg h
  · rfl

/-- A call is counted out from its first word through its arguments. -/
theorem callPlan_of_isCalled {scene : Scene} {previous : Kind}
    (hhead : scene.kinds.head? = some .text) (hprevious : scene.previous = some previous)
    (haccess : memberAccess.contains previous = false)
    (hparent : withoutCalls.contains scene.parent = false) (hcalled : IsCalled scene.kinds) :
    callPlan scene = some (.functionCall, 1 + membersLength scene.kinds.tail + 1) := by
  unfold callPlan guarded
  rw [if_pos (by simp [hhead, hprevious, haccess, hparent, callees])]
  exact if_pos hcalled

theorem callPlan_eq_none_of_head {scene : Scene} (hhead : scene.kinds.head? = some kind)
    (h : callees.contains kind = false) : callPlan scene = none := by
  unfold callPlan guarded
  rw [if_neg]
  simp [hhead, h]

/-- In front of the body of a record there are no parentheses. -/
theorem not_isCalled_of_body {first : Kind} {front behind : List Kind}
    (h : ∀ kind ∈ first :: front, headerKinds.contains kind = true) :
    ¬IsCalled (first :: front ++ .braces :: behind) := by
  intro hcalled
  have hlength : membersLength (front ++ .braces :: behind) ≤ front.length :=
    membersLength_le (by decide) (by decide)
  rw [IsCalled, List.cons_append, List.tail_cons, Nat.add_comm, List.getElem?_cons_succ] at hcalled
  generalize membersLength (front ++ .braces :: behind) = n at hlength hcalled
  rcases Nat.lt_or_eq_of_le hlength with hlt | rfl
  · rw [List.getElem?_append_left hlt] at hcalled
    exact not_parenthesis_of_header h (List.mem_cons_of_mem _ (List.mem_of_getElem? hcalled))
  · simp at hcalled

theorem callPlan_of_body {scene : Scene} {front behind : List Kind}
    (h : ∀ kind ∈ front, headerKinds.contains kind = true)
    (hscene : scene.kinds = front ++ .braces :: behind) : callPlan scene = none := by
  cases front with
  | nil => exact callPlan_eq_none_of_head (by rw [hscene]; rfl) (by decide)
  | cons first front =>
      refine callPlan_of_not_isCalled ?_
      rw [hscene]
      exact not_isCalled_of_body h

theorem messagesPlan_of_body {scene : Scene} {front behind : List Kind}
    (h : ∀ kind ∈ front, headerKinds.contains kind = true)
    (hscene : scene.kinds = front ++ .braces :: behind) : messagesPlan scene = none := by
  have hcall := callPlan_of_body h hscene
  cases front with
  | nil =>
      have hhead : scene.kinds.head? = some .braces := by rw [hscene]; rfl
      rwa [messagesPlan_eq hhead (by decide)]
  | cons first front =>
      have hhead : scene.kinds.head? = some first := by rw [hscene]; rfl
      rwa [messagesPlan_eq hhead
        (KindSet.not_contains_of_disjoint (by decide) (h first (List.mem_cons_self ..)))]

theorem headerKinds_of_introducer {keyword : Kind} (hkind : recordKinds.contains kind = true)
    (h : introducer? kind = some keyword) : headerKinds.contains keyword = true := by
  have hintroduced : recordKinds.toList.all (fun kind =>
      (introducer? kind).all headerKinds.contains) = true := by decide +kernel
  have hall := List.all_eq_true.1 hintroduced kind (KindSet.mem_toList.2 hkind)
  rwa [h] at hall

/-- A pass that finds nothing in a header leaves it in front. -/
theorem upholds_headed {plan : Plan} {made : KindSet} {isNew : NodeId → Bool}
    (hsound : plan.Sound) (hmakes : plan.Makes made)
    (hdisjoint : made.IsDisjoint recordKinds)
    (hsilent : ∀ {parent front behind}, recordKinds.contains parent = true →
      (∀ kind ∈ front, headerKinds.contains kind = true) →
        plan.Silent parent none (front ++ [.braces]) behind) :
    plan.Upholds isNew (fun node => recordKinds.contains node.kind = true → Headed isNew node)
      fun node => recordKinds.contains node.kind = true → Headed isNew node := by
  refine upholds_of_kinds (fun scene kind n hfound =>
    KindSet.not_contains_of_disjoint hdisjoint (hmakes hfound)) ?_
  rintro label children children' hkind ⟨front, behind, written, keyword, header, hsplits,
    hkeyword, hfront, hheader⟩ hturns
  have hkinds : ∀ kind ∈ keyword :: header, headerKinds.contains kind = true := by
    rw [List.forall_mem_cons]
    exact ⟨headerKinds_of_introducer hkind hkeyword, fun kind hkind =>
      KindSet.contains_of_subset (by decide) (hheader kind hkind)⟩
  obtain ⟨behind', hsplits', -⟩ := hsplits.turn hsound hturns (hfront ▸ hsilent hkind hkinds)
  exact ⟨front, behind', written, keyword, header, hsplits', hkeyword, hfront, hheader⟩

theorem upholds_headed_function {isNew : NodeId → Bool} :
    functionPlan.Upholds isNew
      (fun node => recordKinds.contains node.kind = true → Headed isNew node)
      fun node => recordKinds.contains node.kind = true → Headed isNew node :=
  upholds_headed sound_function makes_function (by decide) fun _ hkinds =>
    silent_of_header functionPlan_of_body hkinds none

theorem upholds_headed_flow {isNew : NodeId → Bool} :
    flowPlan.Upholds isNew
      (fun node => recordKinds.contains node.kind = true → Headed isNew node)
      fun node => recordKinds.contains node.kind = true → Headed isNew node := by
  refine upholds_headed sound_flow makes_flow (by decide) fun _ hkinds =>
    silent_flow fun kind hkind => ?_
  rcases List.mem_append.1 hkind with hkind | hkind
  · exact KindSet.not_contains_of_disjoint (by decide) (hkinds kind hkind)
  · obtain rfl := List.mem_singleton.1 hkind
    decide

theorem upholds_headed_labels {isNew : NodeId → Bool} :
    labelsPlan.Upholds isNew
      (fun node => recordKinds.contains node.kind = true → Headed isNew node)
      fun node => recordKinds.contains node.kind = true → Headed isNew node := by
  refine upholds_headed sound_labels makes_labels (by decide) fun hparent _ =>
    silent_labels ?_
  rintro rfl
  exact absurd hparent (by decide)

theorem upholds_headed_call {isNew : NodeId → Bool} :
    callPlan.Upholds isNew
      (fun node => recordKinds.contains node.kind = true → Headed isNew node)
      fun node => recordKinds.contains node.kind = true → Headed isNew node :=
  upholds_headed sound_call makes_call (by decide) fun _ hkinds =>
    silent_of_header callPlan_of_body hkinds none

theorem upholds_headed_messages {isNew : NodeId → Bool} :
    messagesPlan.Upholds isNew
      (fun node => recordKinds.contains node.kind = true → Headed isNew node)
      fun node => recordKinds.contains node.kind = true → Headed isNew node :=
  upholds_headed sound_messages makes_messages (by decide) fun _ hkinds =>
    silent_of_header messagesPlan_of_body hkinds none

/-- Old siblings in front split them. -/
theorem exists_splits {isNew : NodeId → Bool} {made : KindSet} {children : List Node}
    {front behind : List Label} (hstaged : ∀ child ∈ children, child.Staged isNew made)
    (h : Node.significantLabels children = front ++ behind)
    (hfront : ∀ label ∈ front, KindSet.synthesized.contains label.kind = false) :
    ∃ right, right <:+ children ∧ Node.significantLabels right = behind
      ∧ Splits isNew children front behind
        (Node.significantLabels (right.flatMap (Node.erase isNew))) := by
  obtain ⟨left, right, rfl, rfl, rfl⟩ := Node.exists_of_significantLabels_eq_append h
  have hold : ∀ node ∈ left, isNew node.id = false := by
    intro node hnode
    refine (hstaged node (List.mem_append_left _ hnode)).isNew_eq_false ?_
    cases hsignificant : node.kind.isSignificant with
    | true =>
        exact hfront node.label (List.mem_map_of_mem (List.mem_filter.2 ⟨hnode, hsignificant⟩))
    | false =>
        by_contra hsynthesized
        rw [Kind.isSignificant_of_synthesized (Bool.not_eq_false _ ▸ hsynthesized)] at hsignificant
        cases hsignificant
  refine ⟨right, List.suffix_append .., rfl, h, ?_⟩
  rw [List.flatMap_append, Node.significantLabels_append, Node.significantLabels_erase hold]

/-- The pass for types finds the header and the body in front of each record and each namespace that
it makes, and leaves them there. -/
theorem upholds_headed_types {isNew : NodeId → Bool} {made : KindSet}
    (hdisjoint : recordKinds.IsDisjoint made) :
    typesPlan.Upholds isNew (Node.Staged isNew made)
      fun node => recordKinds.contains node.kind = true → Headed isNew node := by
  refine upholds_of_made (fun node hstaged => hstaged.not_later (by decide) hdisjoint) ?_
  intro label children children' _ hkind hmade hstaged hturns
  obtain ⟨scene, after, hfound, hscene⟩ := hmade.exists_scene
  obtain ⟨keyword, header, more, hkeyword, hkinds, hheader, hlength⟩ := types_header hfound hkind
  -- the run goes at least to the body
  obtain ⟨rest, hlabels⟩ : keyword :: (header ++ [.braces]) <+:
      (Node.significantLabels children).map (·.kind) := by
    have hheaded : keyword :: (header ++ [.braces]) <+: scene.kinds := ⟨more, by rw [hkinds]; simp⟩
    have hrun : (Node.significantLabels children).map (·.kind) <+: scene.kinds :=
      ⟨after, hscene.symm⟩
    refine List.prefix_of_prefix_length_le hheaded hrun ?_
    simp only [List.length_cons, List.length_append, List.length_map, List.length_nil]
    omega
  obtain ⟨front, behind, hsplit, hfront, -⟩ := List.map_eq_append_iff.1 hlabels.symm
  obtain ⟨first, others, rfl, rfl, hothers⟩ := List.map_eq_cons_iff.1 hfront
  have hkindsOthers : ∀ kind ∈ header ++ [.braces], typeHeads.contains kind = false
      ∧ KindSet.synthesized.contains kind = false := by
    intro kind hkind
    rcases List.mem_append.1 hkind with hkind | hkind
    · exact ⟨KindSet.not_contains_of_disjoint (by decide) (hheader kind hkind),
        KindSet.not_contains_of_disjoint (by decide) (hheader kind hkind)⟩
    · obtain rfl := List.mem_singleton.1 hkind
      decide
  rw [← hothers] at hkindsOthers
  obtain ⟨right, -, -, hsplits⟩ := exists_splits hstaged hsplit (by
    rw [List.forall_mem_cons]
    exact ⟨KindSet.not_contains_of_disjoint (by decide)
      (headerKinds_of_introducer hkind hkeyword), fun other hother =>
        (hkindsOthers other.kind (List.mem_map_of_mem hother)).2⟩)
  obtain ⟨behind', hsplits', -⟩ := hsplits.turn_of_made sound_types exact_types hmade hturns
    (silent_of_heads typesPlan_eq_none (fun kind hkind => (hkindsOthers kind hkind).1) _)
  exact ⟨first :: others, behind', _, first.kind, header, hsplits', hkeyword, hfront, hheader⟩

end CFamily

namespace Language

open CFamily

variable {language : Language}

/-- At the end of analysis records and namespaces begin with their headers and their bodies. -/
theorem headed_parse (h : language ∈ cFamily) (text : List Char) {node : Node}
    (hnode : node ∈ (language.parse true text).root.descendants)
    (hkind : recordKinds.contains node.kind = true) : Headed (language.isAdded text) node := by
  obtain ⟨early, last, hpasses, hearly, hlast⟩ := exists_passes h
  have htypes : typesPlan.Upholds (language.isAdded text)
      (Node.Staged (language.isAdded text) earlyKinds)
      fun node => recordKinds.contains node.kind = true → Headed (language.isAdded text) node :=
    upholds_headed_types (by decide)
  refine all_parse text early ⟨"types", types⟩ _ hpasses
    (fun pass hpass => exists_plan_makes (by decide) (hearly pass hpass)) reads_types
    sound_types htypes ?_ node hnode hkind
  simp only [List.forall_mem_cons]
  exact ⟨⟨_, reads_function, sound_function, upholds_headed_function⟩,
    ⟨_, reads_flow, sound_flow, upholds_headed_flow⟩,
    ⟨_, reads_labels, sound_labels, upholds_headed_labels⟩,
    exists_plan_of_last _ upholds_headed_call upholds_headed_messages hlast, by simp⟩

end Language

end ConcreteSyntax
