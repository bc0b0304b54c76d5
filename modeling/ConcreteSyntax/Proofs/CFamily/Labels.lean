import ConcreteSyntax.Proofs.CFamily.Loops
import ConcreteSyntax.Proofs.CFamily.Functions

/-!
# Sections of blocks

The labels of a `switch` and the words for access cut the children of a block into sections.  Each
label whose colon comes soon enough gets one group, which ends in front of the next label or of a
delimiter, and what stands in a group stays as it was but for the blocks in it
(`Language.groups_labels`).
-/

namespace ConcreteSyntax

/-! ## Runs of labels -/

namespace Plan

theorem guarded_eq_some_iff {test : Scene → Bool} {plan : Plan} {scene : Scene}
    {found : Kind × Nat} :
    guarded test plan scene = some found ↔ test scene = true ∧ plan scene = some found := by
  unfold guarded
  split <;> simp_all

theorem countWhile_append {allowed : Kind → Bool} {body behind : List Kind}
    (hbody : ∀ kind ∈ body, allowed kind = true)
    (hbehind : ∀ kind ∈ behind.head?, allowed kind = false) :
    countWhile allowed (body ++ behind) = body.length := by
  have hnone : behind.takeWhile allowed = [] := by
    cases behind with
    | nil => rfl
    | cons first rest => rw [List.takeWhile_cons_of_neg (by simp [hbehind first rfl])]
  rw [countWhile, List.takeWhile_append_of_pos hbody, hnone, List.append_nil]

end Plan

namespace CFamily

open Plan

/-- The kind of the group that the word of a label begins. -/
def groupKind? : Kind → Option Kind
  | .caseKw => some .flowCase
  | .defaultKw => some .flowDefault
  | .publicKw => some .cppPublic
  | .protectedKw => some .cppProtected
  | .privateKw => some .cppPrivate
  | _ => none

/-- The words for access, whose colon comes next. -/
def accessWords : KindSet := .ofList [.publicKw, .protectedKw, .privateKw]

/-- Whether siblings of some kinds may stand between the word of a label and its colon. -/
structure LeadsToColon (word : Kind) (front : List Kind) : Prop where
  passed : ∀ other ∈ front, other ≠ .colon ∧ labelStop.contains other = false
  access : accessWords.contains word = true → front = []

/-- Whether the word of a label has its colon in front of any semicolon, braces and delimiter. -/
def HasColon (word : Kind) (behind : List Kind) : Prop :=
  ∃ front rest, behind = front ++ .colon :: rest ∧ LeadsToColon word front

/-- The kinds of the siblings that a label takes, in front of others: its group, through the last
sibling in front of the next label or delimiter, or the two siblings of a target of `goto`. -/
inductive IsLabelRun (previous : Option Kind) : Kind → List Kind → List Kind → Prop
  | group {word kind : Kind} {front body behind : List Kind} (hkind : groupKind? word = some kind)
      (hfront : LeadsToColon word front) (hbody : ∀ other ∈ body, groupEnd.contains other = false)
      (hbehind : behind.head?.all groupEnd.contains = true) :
      IsLabelRun previous kind (word :: (front ++ .colon :: body)) behind
  | target {behind : List Kind} (hprevious : isBoundary previous = true) :
      IsLabelRun previous .flowLabel [.text, .colon] behind

variable {word kind found : Kind} {kinds run behind : List Kind} {scene : Scene} {n : Nat}

/-- The words of labels are no punctuation, and analysis makes none. -/
theorem groupKind?_spec (h : groupKind? word = some kind) :
    word ≠ .colon ∧ labelStop.contains word = false ∧ word.isSignificant = true
      ∧ labelKinds.contains word = false := by
  unfold groupKind? at h
  split at h
  · decide
  · decide
  · decide
  · decide
  · decide
  · cases h

theorem groupKind?_passed (h : groupKind? word = some kind) :
    word ≠ .colon ∧ labelStop.contains word = false :=
  ⟨(groupKind?_spec h).1, (groupKind?_spec h).2.1⟩

theorem labelKinds_of_groupKind? (h : groupKind? word = some kind) :
    labelKinds.contains kind = true := by
  unfold groupKind? at h
  split at h <;> cases h <;> decide

theorem IsLabelRun.labelKinds {previous : Option Kind}
    (h : IsLabelRun previous kind run behind) : labelKinds.contains kind = true := by
  cases h with
  | group hkind _ _ _ => exact labelKinds_of_groupKind? hkind
  | target _ => decide

theorem exists_groupEnd (kinds : List Kind) :
    ∃ body behind, kinds = body ++ behind ∧ (∀ other ∈ body, groupEnd.contains other = false)
      ∧ behind.head?.all groupEnd.contains = true := by
  refine ⟨kinds.takeWhile fun other => !groupEnd.contains other,
    kinds.dropWhile fun other => !groupEnd.contains other, ?_, fun other hother => ?_, ?_⟩
  · exact List.takeWhile_append_dropWhile.symm
  · simpa using List.mem_takeWhile_imp hother
  · have hhead := List.head?_dropWhile_not (fun other => !groupEnd.contains other) kinds
    cases hrest : (kinds.dropWhile fun other => !groupEnd.contains other).head? with
    | none => rfl
    | some first => simpa [hrest] using hhead

/-- A label whose colon comes in time begins a run. -/
theorem exists_isLabelRun {previous : Option Kind} (hword : groupKind? word = some kind)
    (h : HasColon word kinds) :
    ∃ run behind, word :: kinds = run ++ behind ∧ IsLabelRun previous kind run behind := by
  obtain ⟨front, rest, rfl, hfront⟩ := h
  obtain ⟨body, behind, rfl, hbody, hbehind⟩ := exists_groupEnd rest
  exact ⟨word :: (front ++ .colon :: body), behind, by simp,
    .group hword hfront hbody hbehind⟩

/-- In each run the first colon comes in time, and not at once. -/
theorem IsLabelRun.exists_colon {previous : Option Kind}
    (h : IsLabelRun previous kind run behind) :
    ∃ front body, run = front ++ .colon :: body ∧ front ≠ []
      ∧ ∀ other ∈ front, other ≠ .colon ∧ labelStop.contains other = false := by
  cases h with
  | @group word _ front body _ hkind hfront _ _ =>
      exact ⟨word :: front, body, rfl, List.cons_ne_nil _ _, List.forall_mem_cons.2
        ⟨groupKind?_passed hkind, hfront.passed⟩⟩
  | target _ => exact ⟨[.text], [], rfl, List.cons_ne_nil _ _, by decide⟩

theorem countWhile_body {body : List Kind} (hbody : ∀ other ∈ body, groupEnd.contains other = false)
    (hbehind : behind.head?.all groupEnd.contains = true) :
    countWhile (fun other => !groupEnd.contains other) (body ++ behind) = body.length := by
  refine countWhile_append (fun other hother => by rw [hbody other hother]; rfl) ?_
  intro first hfirst
  rw [Option.mem_def] at hfirst
  rw [hfirst] at hbehind
  simpa using hbehind

/-- Behind its colon a group takes all siblings up to the next label or delimiter. -/
theorem labelGroupPlan_eq_some_iff :
    labelGroupPlan kind scene = some (found, n) ↔
      ∃ front body behind, scene.kinds = front ++ .colon :: (body ++ behind)
        ∧ (∀ other ∈ front, other ≠ .colon ∧ labelStop.contains other = false)
        ∧ (∀ other ∈ body, groupEnd.contains other = false)
        ∧ behind.head?.all groupEnd.contains = true
        ∧ found = kind ∧ n = front.length + 1 + body.length := by
  simp only [labelGroupPlan, Option.map_eq_some_iff, Prod.mk.injEq, through_eq_some_iff,
    Bool.not_eq_true']
  constructor
  · rintro ⟨m, ⟨front, rest, hkinds, rfl, hfront⟩, rfl, rfl⟩
    obtain ⟨body, behind, rfl, hbody, hbehind⟩ := exists_groupEnd rest
    refine ⟨front, body, behind, hkinds, hfront, hbody, hbehind, rfl, ?_⟩
    rw [hkinds, List.drop_length_add_append, List.drop_succ_cons, List.drop_zero,
      countWhile_body hbody hbehind]
  · rintro ⟨front, body, behind, hkinds, hfront, hbody, hbehind, rfl, rfl⟩
    refine ⟨_, ⟨front, body ++ behind, hkinds, rfl, hfront⟩, rfl, ?_⟩
    rw [hkinds, List.drop_length_add_append, List.drop_succ_cons, List.drop_zero,
      countWhile_body hbody hbehind]

/-- All words of labels begin groups in one way, but that words for access need their colon at
once. -/
theorem labelAtPlan_eq (h : groupKind? word = some kind) :
    labelAtPlan (some word) =
      guarded (fun scene => !accessWords.contains word || scene.kinds[1]? == some .colon)
        (labelGroupPlan kind) := by
  unfold groupKind? at h
  split at h <;> cases h <;> rfl

theorem isLabelRun_of_group (hword : groupKind? word = some kind)
    (hhead : scene.kinds.head? = some word)
    (h : labelAtPlan (some word) scene = some (found, n)) :
    ∃ run behind, scene.kinds = run ++ behind ∧ run.length = n
      ∧ IsLabelRun scene.previous found run behind := by
  rw [labelAtPlan_eq hword] at h
  obtain ⟨htest, h⟩ := guarded_eq_some_iff.1 h
  obtain ⟨front, body, behind, hkinds, hfront, hbody, hbehind, rfl, rfl⟩ :=
    labelGroupPlan_eq_some_iff.1 h
  -- the word is no colon, so it stands in front of one
  cases front with
  | nil =>
      rw [hkinds] at hhead
      exact absurd (Option.some.inj hhead).symm (groupKind?_passed hword).1
  | cons first front =>
      obtain rfl : first = word := by simpa [hkinds] using hhead
      refine ⟨first :: (front ++ .colon :: body), behind, by simp [hkinds], ?_,
        .group hword ⟨(List.forall_mem_cons.1 hfront).2, fun haccess => ?_⟩ hbody hbehind⟩
      · simp only [List.length_cons, List.length_append]
        omega
      · cases front with
        | nil => rfl
        | cons second front =>
            have hsecond : second = .colon := by simpa [hkinds, haccess] using htest
            exact absurd hsecond (hfront second (by simp)).1

/-- What the plan for labels finds is what a label takes. -/
theorem isLabelRun_of_found (h : labelsPlan scene = some (found, n)) :
    ∃ run behind, scene.kinds = run ++ behind ∧ run.length = n
      ∧ IsLabelRun scene.previous found run behind := by
  obtain ⟨-, h⟩ := guarded_eq_some_iff.1 h
  rw [dispatch] at h
  generalize hhead : scene.kinds.head? = head at h
  unfold labelAtPlan at h
  split at h
  · exact isLabelRun_of_group (show groupKind? .caseKw = some .flowCase from rfl) hhead h
  · exact isLabelRun_of_group (show groupKind? .defaultKw = some .flowDefault from rfl) hhead h
  · exact isLabelRun_of_group (show groupKind? .publicKw = some .cppPublic from rfl) hhead h
  · exact isLabelRun_of_group (show groupKind? .protectedKw = some .cppProtected from rfl) hhead h
  · exact isLabelRun_of_group (show groupKind? .privateKw = some .cppPrivate from rfl) hhead h
  · obtain ⟨htest, h⟩ := guarded_eq_some_iff.1 h
    rw [Bool.and_eq_true, beq_iff_eq] at htest
    split at h
    · obtain ⟨rfl, rfl⟩ := Prod.mk.inj (Option.some.inj h)
      obtain ⟨rest, hrest⟩ := List.head?_eq_some_iff.1 hhead
      rw [hrest, List.getElem?_cons_succ, ← List.head?_eq_getElem?] at htest
      obtain ⟨behind, rfl⟩ := List.head?_eq_some_iff.1 htest.1
      exact ⟨[.text, .colon], behind, hrest, rfl, .target htest.2⟩
    · cases h
  · cases h

/-- The plan for labels finds what a label takes. -/
theorem labelsPlan_of_isLabelRun (hparent : scene.parent = .braces)
    (hkinds : scene.kinds = run ++ behind) (h : IsLabelRun scene.previous kind run behind) :
    labelsPlan scene = some (kind, run.length) := by
  have hbraces : labelsPlan scene = labelAtPlan scene.kinds.head? scene := by
    rw [labelsPlan, guarded, if_pos (by simpa using hparent), dispatch]
  rw [hbraces]
  cases h with
  | @group word _ front body _ hkind hfront hbody hbehind =>
      have hplain : ∀ other ∈ word :: front, other ≠ .colon ∧ labelStop.contains other = false :=
        List.forall_mem_cons.2 ⟨groupKind?_passed hkind, hfront.passed⟩
      rw [hkinds, List.cons_append, List.head?_cons, labelAtPlan_eq hkind]
      refine guarded_eq_some_iff.2 ⟨?_, labelGroupPlan_eq_some_iff.2 ⟨word :: front, body, behind,
        by simp [hkinds], hplain, hbody, hbehind, rfl, ?_⟩⟩
      · cases haccess : accessWords.contains word with
        | false => rfl
        | true => simp [hkinds, hfront.access haccess]
      · simp only [List.length_cons, List.length_append]
        omega
  | target hprevious =>
      rw [hkinds]
      show gotoTargetPlan scene = some (.flowLabel, 2)
      simp [gotoTargetPlan, guarded, hkinds, hprevious]

/-! ## Sections -/

/-- What grouping labels makes of the children of a block, from left to right: each sibling that a
label does not begin with stays, and what a label takes becomes the children of a new node. -/
inductive Sectioned (isNew : NodeId → Bool) : Option Kind → List Node → List Node → Prop
  | nil {previous : Option Kind} : Sectioned isNew previous [] []
  | trivia {previous : Option Kind} {node node' : Node} {rest rest' : List Node}
      (hnode : node.kind.isSignificant = false) (hsame : node.Resembles isNew node')
      (hrest : Sectioned isNew previous rest rest') :
      Sectioned isNew previous (node :: rest) (node' :: rest')
  | keep {previous : Option Kind} {node node' : Node} {rest rest' : List Node}
      (hnode : node.kind.isSignificant = true)
      (hnone : ∀ kind run behind, node.kind :: significantKinds rest = run ++ behind →
        ¬IsLabelRun previous kind run behind)
      (hsame : node.Resembles isNew node') (hrest : Sectioned isNew (some node.kind) rest rest') :
      Sectioned isNew previous (node :: rest) (node' :: rest')
  | wrap {previous : Option Kind} {node : Node} {run rest rest' : List Node}
      (hrun : IsLabelRun previous node.kind (significantKinds run) (significantKinds rest))
      (hfirst : run.head?.any (·.kind.isSignificant) = true)
      (hlast : run.getLast?.any (·.kind.isSignificant) = true) (hnew : isNew node.id = true)
      (hchildren : List.Forall₂ (Node.Resembles isNew) run node.children)
      (hrest : Sectioned isNew (some node.kind) rest rest') :
      Sectioned isNew previous (run ++ rest) (node :: rest')

variable {isNew : NodeId → Bool} {previous : Option Kind} {lines : LineIndex} {next next' : Nat}
  {before ahead out children rest rest' : List Node}

theorem Node.resembles_of_erase {nodes nodes' : List Node}
    (hnodes : ∀ node ∈ nodes, isNew node.id = false)
    (hnodes' : ∀ node ∈ nodes', isNew node.id = false)
    (h : nodes'.flatMap (Node.erase isNew) = nodes.flatMap (Node.erase isNew)) :
    List.Forall₂ (Node.Resembles isNew) nodes nodes' := by
  induction nodes generalizing nodes' with
  | nil =>
      cases nodes' with
      | nil => exact .nil
      | cons node' rest' =>
          rw [List.forall_mem_cons] at hnodes'
          rw [List.flatMap_cons, Node.erase_of_old hnodes'.1] at h
          cases h
  | cons node rest ih =>
      rw [List.forall_mem_cons] at hnodes
      rw [List.flatMap_cons, Node.erase_of_old hnodes.1] at h
      cases nodes' with
      | nil => cases h
      | cons node' rest' =>
          rw [List.forall_mem_cons] at hnodes'
          rw [List.flatMap_cons, Node.erase_of_old hnodes'.1] at h
          obtain ⟨hnode, hrest⟩ := List.cons.inj h
          refine .cons ⟨(Node.mk.inj hnode).1, ?_⟩ (ih hnodes.2 hnodes'.2 hrest)
          rw [Node.erase_of_old hnodes.1, Node.erase_of_old hnodes'.1, hnode]

/-- What the plan finds at a sibling of a block is the run that the new node there is made of. -/
theorem isLabelRun_of_closes {node : Node} {run rest : List Node}
    (hnode : node.kind.isSignificant = true) (hcloses : Closes n (node :: run))
    (hfound : labelsPlan (Lookahead.atAnchor .braces before (node :: run ++ rest)).scene =
      some (kind, n)) :
    IsLabelRun ((before.map (·.kind)).find? (·.isSignificant)) kind
      (significantKinds (node :: run)) (significantKinds rest) := by
  obtain ⟨taken, behind, hkinds, hlength, hrun⟩ := isLabelRun_of_found hfound
  rw [List.cons_append, scene_atAnchor hnode] at hkinds hrun
  have hsplit : significantKinds (node :: run) ++ significantKinds rest = taken ++ behind := by
    rw [← significantKinds_append, ← hkinds, List.cons_append, significantKinds_cons hnode]
    rfl
  have hcount : (significantKinds (node :: run)).length = taken.length := by
    rw [hlength, significantKinds, List.length_map, hcloses.length_filter]
  obtain ⟨rfl, rfl⟩ := List.append_inj hsplit hcount
  exact hrun

/-- The new node over what was found is a section. -/
theorem Sectioned.of_wrap {node node' : Node} {run : List Node}
    (hnode : node.kind.isSignificant = true) (hcloses : Closes n (node :: run))
    (hfound : labelsPlan (Lookahead.atAnchor .braces before (node :: run ++ rest)).scene =
      some (kind, n)) (hnew : isNew (.fresh next) = true)
    (hsame : (Node.wrap lines (.fresh next) kind (node :: run)).Resembles isNew node')
    (hold : ∀ other ∈ node :: run, isNew other.id = false)
    (hflat : ∀ child ∈ node'.children, isNew child.id = false)
    (hrest : Sectioned isNew (some kind) rest rest') :
    Sectioned isNew ((before.map (·.kind)).find? (·.isSignificant)) (node :: run ++ rest)
      (node' :: rest') := by
  have hid : isNew node'.id = true := by
    rw [show node'.id = .fresh next from congrArg Label.id hsame.label]
    exact hnew
  have herase : node'.children.flatMap (Node.erase isNew) =
      (node :: run).flatMap (Node.erase isNew) := by
    rw [← Node.erase_of_new hid, hsame.erase, Node.erase_wrap hnew]
  obtain rfl : node'.kind = kind := hsame.kind
  apply Sectioned.wrap (isLabelRun_of_closes hnode hcloses hfound)
  · simpa using hnode
  · rw [List.getLast?_eq_some_getLast (List.cons_ne_nil node run)]
    exact hcloses.getLast_significant _ (List.getLast?_eq_some_getLast _)
  · exact hid
  · exact Node.resembles_of_erase hold hflat herase
  · exact hrest

/-- A level in a block cuts its children into sections. -/
theorem sectioned_of_levels {parent : Kind} (hparent : parent = .braces)
    (h : Levels lines labelsPlan parent next before ahead next' out)
    (hnew : ∀ index, next ≤ index → isNew (.fresh index) = true)
    (hchildren : List.Forall₂ (Node.Resembles isNew) out children)
    (hold : ∀ node ∈ ahead, isNew node.id = false)
    (hflat : ∀ node ∈ children, isNew node.id = true →
      ∀ child ∈ node.children, isNew child.id = false) :
    Sectioned isNew ((before.map (·.kind)).find? (·.isSignificant)) ahead children := by
  subst hparent
  induction h generalizing children with
  | done =>
      cases hchildren
      exact .nil
  | @pass next next' before rest out node hnode hrest ih =>
      cases hchildren with
      | @cons _ node' _ rest' hsame hrest' =>
          rw [List.forall_mem_cons] at hold hflat
          have hsections := ih hnew hrest' hold.2 hflat.2
          rw [List.map_cons, List.find?_cons_of_neg (by simp [hnode])] at hsections
          exact .trivia hnode hsame hsections
  | @keep next next' before rest out node hnode hkept hrest ih =>
      cases hchildren with
      | @cons _ node' _ rest' hsame hrest' =>
          rw [List.forall_mem_cons] at hold hflat
          have hsections := ih hnew hrest' hold.2 hflat.2
          rw [List.map_cons, List.find?_cons_of_pos hnode] at hsections
          refine .keep hnode (fun kind run behind hkinds hrun => ?_) hsame hsections
          -- what is found in a block is wrapped, for no label makes a block
          have hfound : labelsPlan (Lookahead.atAnchor .braces before (node :: rest)).scene =
              some (kind, run.length) := by
            rw [scene_atAnchor hnode]
            exact labelsPlan_of_isLabelRun rfl hkinds hrun
          obtain ⟨-, -, rfl⟩ := hkept kind run.length hfound
          exact absurd hrun.labelKinds (by decide)
  | @wrap next next' n before run rest out node kind hnode hcloses hfound hproper hrest ih =>
      cases hchildren with
      | @cons _ node' _ rest' hsame hrest' =>
          rw [List.forall_mem_append] at hold
          rw [List.forall_mem_cons] at hflat
          have hsections := ih (fun index hindex => hnew index (Nat.le_of_succ_le hindex)) hrest'
            hold.2 hflat.2
          have hsynthesized : kind.isSignificant = true :=
            Kind.isSignificant_of_synthesized (sound_labels.synthesized hfound)
          rw [List.map_cons, show (Node.wrap lines (.fresh next) kind (node :: run)).kind = kind
            from rfl, List.find?_cons_of_pos hsynthesized] at hsections
          have hid : isNew (.fresh next) = true := hnew next (Nat.le_refl next)
          have hnew' : isNew node'.id = true := by
            rw [show node'.id = .fresh next from congrArg Label.id hsame.label]
            exact hid
          exact .of_wrap hnode hcloses hfound hid hsame hold.1 (hflat.1 hnew') hsections

/-- A colon that the word of a label has behind the labels that were grouped, it had before. -/
theorem Sectioned.hasColon_of (h : Sectioned isNew previous rest rest') {front behind : List Kind}
    (hkinds : significantKinds rest' = front ++ .colon :: behind)
    (hfront : ∀ other ∈ front, other ≠ .colon ∧ labelStop.contains other = false) :
    ∃ front' behind', significantKinds rest = front' ++ .colon :: behind'
      ∧ (∀ other ∈ front', other ≠ .colon ∧ labelStop.contains other = false)
      ∧ (front = [] → front' = []) := by
  induction h generalizing front with
  | nil => cases front <;> cases hkinds
  | trivia hnode hsame hrest ih =>
      rw [significantKinds_skip (hsame.kind ▸ hnode)] at hkinds
      rw [significantKinds_skip hnode]
      exact ih hkinds hfront
  | @keep previous node node' rest rest' hnode hnone hsame hrest ih =>
      rw [significantKinds_cons (hsame.kind ▸ hnode), hsame.kind] at hkinds
      rw [significantKinds_cons hnode]
      cases front with
      | nil =>
          obtain ⟨hcolon, -⟩ := List.cons.inj hkinds
          exact ⟨[], significantKinds rest, by rw [hcolon]; rfl, by simp, fun _ => rfl⟩
      | cons first front =>
          obtain ⟨rfl, hbehind⟩ := List.cons.inj hkinds
          rw [List.forall_mem_cons] at hfront
          obtain ⟨front', behind', hrest', hfront', -⟩ := ih hbehind hfront.2
          exact ⟨node.kind :: front', behind', by rw [hrest']; rfl,
            List.forall_mem_cons.2 ⟨hfront.1, hfront'⟩, nofun⟩
  | @wrap previous node run rest rest' hrun hfirst hlast hnew hchildren hrest ih =>
      obtain ⟨front', body, hcolon, -, hfront'⟩ := hrun.exists_colon
      refine ⟨front', body ++ significantKinds rest, ?_, hfront', ?_⟩
      · rw [significantKinds_append, hcolon, List.append_assoc]
        rfl
      · -- the new node stands in front of the colon
        rintro rfl
        have hsignificant : node.kind.isSignificant = true :=
          Kind.isSignificant_of_synthesized
            (KindSet.contains_of_subset (by decide) hrun.labelKinds)
        rw [significantKinds_cons hsignificant] at hkinds
        obtain ⟨hkind, -⟩ := List.cons.inj hkinds
        exact absurd (hkind ▸ hrun.labelKinds) (by decide)

/-- A label that is left without a group has no colon in time. -/
theorem Sectioned.lone (h : Sectioned isNew previous rest rest') {front back : List Node}
    {node : Node} (hsplit : rest' = front ++ node :: back)
    (hword : groupKind? node.kind = some kind) :
    ¬HasColon node.kind (significantKinds back) := by
  induction h generalizing front with
  | nil => cases front <;> cases hsplit
  | trivia hnode hsame hrest ih =>
      cases front with
      | nil =>
          obtain ⟨rfl, -⟩ := List.cons.inj hsplit
          rw [← hsame.kind, (groupKind?_spec hword).2.2.1] at hnode
          cases hnode
      | cons first front => exact ih (List.cons.inj hsplit).2
  | keep hnode hnone hsame hrest ih =>
      cases front with
      | nil =>
          obtain ⟨rfl, rfl⟩ := List.cons.inj hsplit
          rintro ⟨between, behind, hkinds, hbetween⟩
          obtain ⟨between', behind', hkinds', hpassed, hnil⟩ :=
            hrest.hasColon_of hkinds hbetween.passed
          rw [hsame.kind] at hword hbetween
          obtain ⟨run, others, hothers, hrun⟩ := exists_isLabelRun hword
            ⟨between', behind', hkinds', hpassed, fun haccess => hnil (hbetween.access haccess)⟩
          exact hnone _ _ _ hothers hrun
      | cons first front => exact ih (List.cons.inj hsplit).2
  | wrap hrun hfirst hlast hnew hchildren hrest ih =>
      cases front with
      | nil =>
          obtain ⟨rfl, -⟩ := List.cons.inj hsplit
          cases hrun.labelKinds.symm.trans (groupKind?_spec hword).2.2.2
      | cons first front => exact ih (List.cons.inj hsplit).2

/-- Whether new nodes among the children of a node stand in braces. -/
def HoldsLabels (isNew : NodeId → Bool) (node : Node) : Prop :=
  ∀ child ∈ node.children, isNew child.id = true → node.kind = .braces

/-- Only in blocks does the pass make nodes, and the ones that it makes are no blocks. -/
theorem upholds_holdsLabels :
    labelsPlan.Upholds isNew (fun node => isNew node.id = false) (HoldsLabels isNew) := by
  have hturns : ∀ {label : Label} {children children' : List Node},
      (∀ child ∈ children, isNew child.id = false) →
      labelsPlan.Turns isNew label.kind children children' →
      HoldsLabels isNew ⟨label, children'⟩ := by
    intro label children children' hchildren hturned child hchild hnew
    by_contra hparent
    have hsame := hturned.resembles (silent_labels hparent)
    have hids : ∀ {node node' : Node}, node.Resembles isNew node' →
        (isNew node.id = true ↔ isNew node'.id = true) := by
      intro node node' hresembles
      rw [show node'.id = node.id from congrArg Label.id hresembles.label]
    obtain ⟨old, hold, hid⟩ := (Node.exists_iff_of_resembles hids hsame).2 ⟨child, hchild, hnew⟩
    rw [hchildren old hold] at hid
    cases hid
  constructor
  · intro node hclosed hall below hbelow child hchild hnew
    rw [hall child (Node.mem_descendants_trans hbelow (Node.child_mem_descendants
      below.self_mem_descendants hchild))] at hnew
    cases hnew
  · intro label children children' _ _ hchildren hturned
    exact hturns hchildren hturned
  · intro label children children' _ _ _ hchildren hturned
    exact hturns hchildren hturned

/-- What grouping labels makes of a tree. -/
structure GroupsLabels (isNew : NodeId → Bool) (before after : Node) : Prop where
  /-- Apart from the new nodes, the tree is what it was. -/
  erase_eq : after.erase isNew = [before]
  /-- The new nodes are those of labels. -/
  isNew_iff : ∀ node ∈ after.descendants,
    isNew node.id = true ↔ labelKinds.contains node.kind = true
  /-- New nodes stand in blocks, so none of them stands in another. -/
  parent : ∀ above ∈ after.descendants, ∀ child ∈ above.children, isNew child.id = true →
    above.kind = .braces
  /-- The children of each block are cut into sections. -/
  sections : ∀ block ∈ before.descendants, block.kind = .braces →
    ∃! place, place ∈ after.descendants ∧ place.label = block.label
      ∧ Sectioned isNew none block.children place.children
  /-- A label that is left in a block has no colon in front of semicolons, braces and delimiters. -/
  lone : ∀ block ∈ after.descendants, block.kind = .braces → ∀ front node back kind,
    block.children = front ++ node :: back → groupKind? node.kind = some kind →
      ¬HasColon node.kind (significantKinds back)

end CFamily

namespace Parse

open CFamily

variable {before : Parse} {sound : Prop}

theorem WellLaid.isFrom_eq_false (h : before.WellLaid sound) {node : Node}
    (hnode : node ∈ before.root.descendants) : NodeId.isFrom before.next node.id = false := by
  obtain ⟨index, hindex, hid⟩ :=
    h.numbered.mem_iff.1 (List.mem_map_of_mem (f := Node.id) hnode)
  rw [hid]
  exact decide_eq_false (Nat.not_le.2 hindex)

/-- The pass for labels makes nodes for labels. -/
theorem grows_labels (before : Parse) :
    Grows before.lines (fun kind => labelKinds.contains kind = true) before.next before.root
      (before.analyse [⟨"labels", labels⟩]).next (before.analyse [⟨"labels", labels⟩]).root := by
  refine Pass.grows_visit (fun look found hfound => ?_) _ before.next before.root
  rw [reads_labels.found?_eq, Option.map_eq_some_iff] at hfound
  obtain ⟨⟨kind, n⟩, hplanned, rfl⟩ := hfound
  exact makes_labels hplanned

theorem WellLaid.holdsLabels_analyse (hlaid : before.WellLaid sound) :
    (before.analyse [⟨"labels", labels⟩]).root.All (HoldsLabels (NodeId.isFrom before.next)) :=
  Pass.all_run upholds_holdsLabels reads_labels sound_labels
    (fun _ hindex => decide_eq_true hindex) fun _ hnode => hlaid.isFrom_eq_false hnode

/-- No node is below a new one that is new, too. -/
theorem WellLaid.isFrom_below (hlaid : before.WellLaid sound) {node child : Node}
    (hnode : node ∈ (before.analyse [⟨"labels", labels⟩]).root.descendants)
    (hid : NodeId.isFrom before.next node.id = true) (hchild : child ∈ node.children) :
    NodeId.isFrom before.next child.id = false := by
  by_contra hnew
  have hbraces := hlaid.holdsLabels_analyse node hnode child hchild (Bool.not_eq_false _ ▸ hnew)
  obtain ⟨hlabel, -⟩ | ⟨old, hmem, hsame⟩ := before.grows_labels.label_mem hnode
  · rw [hbraces] at hlabel
    exact absurd hlabel (by decide)
  · rw [← show old.id = node.id from congrArg Label.id hsame, hlaid.isFrom_eq_false hmem] at hid
    cases hid

/-- The pass cuts each block into sections. -/
theorem WellLaid.sectioned_analyse (hlaid : before.WellLaid sound)
    (hnone : before.root.All (Pass.HidesNone .braces)) {block : Node}
    (hblock : block ∈ before.root.descendants) (hkind : block.kind = .braces) :
    ∃! place, place ∈ (before.analyse [⟨"labels", labels⟩]).root.descendants
      ∧ place.label = block.label
      ∧ Sectioned (NodeId.isFrom before.next) none block.children place.children := by
  have hafter : (before.analyse [⟨"labels", labels⟩]).WellLaid False :=
    hlaid.weaken.analyse False.elim
  have hnew : ∀ index, before.next ≤ index →
      NodeId.isFrom before.next (.fresh index) = true :=
    fun index hindex => decide_eq_true hindex
  have hopen : Pass.isOpen block.kind = true := by
    rw [hkind]
    decide
  have henough : Pass.Enough before.lines labels (Pass.depthBound before.root) before.next
      before.root := Pass.enough_depthBound reads_labels sound_labels _ _
  obtain ⟨index, index', out, children, hindex, hlevels, hchildren, hmem⟩ :=
    (Pass.reaches_of_mem hblock (hkind ▸ hnone)).exists_level reads_labels sound_labels hopen
      henough hnew
  refine ⟨⟨block.label, children⟩, ⟨hmem, rfl, ?_⟩, fun place hplace => ?_⟩
  · refine sectioned_of_levels hkind hlevels
      (fun later hlater => hnew later (Nat.le_trans hindex hlater)) hchildren
      (fun node hnode => hlaid.isFrom_eq_false (Node.child_mem_descendants hblock hnode)) ?_
    intro node hnode hid child hchild
    exact hlaid.isFrom_below (Node.child_mem_descendants hmem hnode) hid hchild
  · exact List.inj_on_of_nodup_map hafter.numbered.nodup hplace.1 hmem
      (congrArg Label.id hplace.2.1)

/-- Grouping labels, in a tree that has no nodes for labels yet. -/
theorem WellLaid.groupsLabels_analyse (hlaid : before.WellLaid sound)
    (hnone : before.root.All (Pass.HidesNone .braces))
    (hkinds : ∀ node ∈ before.root.descendants, labelKinds.contains node.kind = false) :
    GroupsLabels (NodeId.isFrom before.next) before.root
      (before.analyse [⟨"labels", labels⟩]).root := by
  have hnew : ∀ index, before.next ≤ index →
      NodeId.isFrom before.next (.fresh index) = true :=
    fun index hindex => decide_eq_true hindex
  have hafter : (before.analyse [⟨"labels", labels⟩]).WellLaid False :=
    hlaid.weaken.analyse False.elim
  have hgrows := before.grows_labels
  constructor
  · rw [hgrows.erase_eq hnew]
    apply Node.erase_eq_self
    intro id hid
    obtain ⟨node, hnode, rfl⟩ := List.mem_map.1 hid
    exact hlaid.isFrom_eq_false hnode
  · intro node hnode
    obtain ⟨hlabel, index, hindex, hid⟩ | ⟨old, hold, hsame⟩ := hgrows.label_mem hnode
    · exact ⟨fun _ => hlabel, fun _ => hid ▸ hnew index hindex⟩
    · rw [← show old.kind = node.kind from congrArg Label.kind hsame,
        ← show old.id = node.id from congrArg Label.id hsame, hkinds old hold,
        hlaid.isFrom_eq_false hold]
  · exact hlaid.holdsLabels_analyse
  · exact fun block hblock hkind => hlaid.sectioned_analyse hnone hblock hkind
  · intro block hblock hkind front node back kind hsplit hword
    obtain ⟨hlabel, -⟩ | ⟨old, hold, hsame⟩ := hgrows.label_mem hblock
    · rw [hkind] at hlabel
      exact absurd hlabel (by decide)
    · obtain ⟨place, ⟨hplace, hlabel, hsectioned⟩, -⟩ :=
        hlaid.sectioned_analyse hnone hold ((congrArg Label.kind hsame).trans hkind)
      obtain rfl : place = block := List.inj_on_of_nodup_map hafter.numbered.nodup hplace hblock
        (congrArg Label.id (hlabel.trans hsame))
      exact hsectioned.lone hsplit hword

end Parse

namespace Language

open CFamily

variable {language : Language}

theorem eq_labels (h : language ∈ cFamily) {pass : Pass} {count : Nat}
    (hpass : language.grammar.passes[count]? = some pass) (hname : pass.name = "labels") :
    pass = ⟨"labels", labels⟩ := by
  refine eq_of_name (List.mem_of_getElem? hpass) ?_ hname
  obtain ⟨early, last, hpasses, -⟩ := exists_passes h
  simp [hpasses]

/-- The passes other than that for labels make no nodes for labels. -/
theorem exists_plan_of_ne_labels (h : language ∈ cFamily) {pass : Pass}
    (hpass : pass ∈ language.grammar.passes) (hname : pass.name ≠ "labels") :
    ∃ plan, pass.rule.Reads plan ∧ plan.Sound
      ∧ plan.Makes (declarationKinds ∪ functionKinds ∪ flowKinds ∪ callKinds) := by
  obtain ⟨early, last, hpasses, hearly, hlast⟩ := exists_passes h
  simp only [hpasses, List.mem_append, List.mem_cons, List.not_mem_nil, or_false] at hpass
  rcases hpass with hpass | rfl | rfl | rfl | rfl | rfl
  · exact exists_plan_makes (by decide) (hearly pass hpass)
  · exact ⟨_, reads_types, sound_types, makes_types.mono (by decide)⟩
  · exact ⟨_, reads_function, sound_function, makes_function.mono (by decide)⟩
  · exact ⟨_, reads_flow, sound_flow, makes_flow.mono (by decide)⟩
  · exact absurd rfl hname
  · exact exists_plan_of_last (·.Makes _) (makes_call.mono (by decide))
      (makes_messages.mono (by decide)) hlast

/-- In front of the pass for labels there are no nodes for labels. -/
theorem not_labelKinds_stage (h : language ∈ cFamily) {pass : Pass} {count : Nat}
    (hpass : language.grammar.passes[count]? = some pass) (hname : pass.name = "labels")
    (text : List Char) {node : Node}
    (hnode : node ∈ (language.stage count text).root.descendants) :
    labelKinds.contains node.kind = false := by
  refine (language.staged_analyse text (language.grammar.passes.take count)
    (declarationKinds ∪ functionKinds ∪ flowKinds ∪ callKinds) (fun other hother => ?_) node
    hnode).not_later (by decide) (by decide)
  refine exists_plan_of_ne_labels h (List.mem_of_mem_take hother) fun hsame => ?_
  -- no other pass has the name
  have hnodup := language.nodup_passes
  rw [← List.take_append_drop count language.grammar.passes, List.map_append] at hnodup
  have hdrop : pass ∈ language.grammar.passes.drop count := by
    apply List.mem_of_getElem? (i := 0)
    rw [List.getElem?_drop, Nat.add_zero, hpass]
  refine List.disjoint_of_nodup_append hnodup (List.mem_map_of_mem (f := Pass.name) hother) ?_
  rw [hsame, ← hname]
  exact List.mem_map_of_mem (f := Pass.name) hdrop

/-- Labels of a `switch` and words for access cut blocks into sections.  In the tree of a text of a
C-family language, the pass for labels goes through the children of each block from left to right.
A label that no group holds yet, and whose colon comes in front of any semicolon, braces and
delimiter, gets one group through the last significant sibling in front of the next label or
delimiter behind the colon.  No group stands in another, and a label that is left has no such
colon. -/
theorem groups_labels (hlanguage : language ∈ cFamily) {pass : Pass} {count : Nat}
    (hpass : language.grammar.passes[count]? = some pass) (hname : pass.name = "labels")
    (text : List Char) :
    GroupsLabels (NodeId.isFrom (language.stage count text).next)
      (language.stage count text).root ((language.stage count text).analyse [pass]).root := by
  obtain rfl := eq_labels hlanguage hpass hname
  exact (language.wellLaid_stage count text).groupsLabels_analyse
    (hidesNone_stage hlanguage count text)
    fun node hnode => not_labelKinds_stage hlanguage hpass rfl text hnode

/-- A target, three cases and a default get nodes.  The target in a case stays in it as it is, and
the last case has no colon. -/
theorem groups_labels_cases :
    Language.c ∈ cFamily
      ∧ Language.c.grammar.passes[4]? = some ⟨"labels", labels⟩
      ∧ (((Language.c.stage 4
            "\x7by: case 1: a; x: b; case 2: case 3: c; default: d; case e; \x7d".toList).analyse
          [⟨"labels", labels⟩]).root.descendants.map Node.kind).filter labelKinds.contains =
        [.flowLabel, .flowCase, .flowCase, .flowCase, .flowDefault]
      ∧ GroupsLabels (NodeId.isFrom (Language.c.stage 4
            "\x7by: case 1: a; x: b; case 2: case 3: c; default: d; case e; \x7d".toList).next)
          (Language.c.stage 4
            "\x7by: case 1: a; x: b; case 2: case 3: c; default: d; case e; \x7d".toList).root
          ((Language.c.stage 4
            "\x7by: case 1: a; x: b; case 2: case 3: c; default: d; case e; \x7d".toList).analyse
              [⟨"labels", labels⟩]).root := by
  have hlanguage : Language.c ∈ cFamily := by decide
  have hpass : Language.c.grammar.passes[4]? = some ⟨"labels", labels⟩ := rfl
  exact ⟨hlanguage, hpass, by decide +kernel, groups_labels hlanguage hpass rfl _⟩

end Language

end ConcreteSyntax
