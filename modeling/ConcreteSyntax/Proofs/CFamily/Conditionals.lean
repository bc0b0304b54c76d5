import ConcreteSyntax.Proofs.Analysis.Course
import ConcreteSyntax.Proofs.CFamily.Grouped
import ConcreteSyntax.Proofs.CFamily.Sealed
import ConcreteSyntax.Proofs.Layout
import ConcreteSyntax.Proofs.Lossless

/-!
# Grouping of conditionals

The first pass of the C family takes openers from left to right, and looks into the nodes that it
makes only afterwards.  What comes out is bracket matching: each opener with a partner among its
siblings gets a conditional that reaches to the partner, and nothing else changes
(`Language.groups_conditionals`).
-/

namespace ConcreteSyntax

namespace Pass

variable {lines : LineIndex} {rule : Rule}

theorem visit_of_closed {node : Node} (h : isOpen node.kind = false) (fuel next : Nat) :
    visit lines rule fuel next node = ⟨node, next, []⟩ := by
  obtain ⟨label, children⟩ := node
  cases fuel with
  | zero => rfl
  | succ fuel =>
      have hlabel : isOpen label.kind = false := h
      simp [visit, hlabel]

end Pass

namespace CFamily

/-- Whether a pass that does not look into a node misses no opener there. -/
def MissesNothing (node : Node) : Prop :=
  Pass.isOpen node.kind = false →
    ∀ below ∈ node.children.flatMap Node.descendants, opensConditional below = false

/-- Whether a pass that gives names from `first` on has made nothing of some trees so far, and
will miss nothing in them. -/
structure IsReady (first : Nat) (nodes : List Node) : Prop where
  misses : ∀ node ∈ nodes, node.All MissesNothing
  ungrouped : IsUngrouped (NodeId.isFrom first) nodes

variable {lines : LineIndex} {first fuel next : Nat} {opener endif node : Node}
  {nodes nodes' body rest out : List Node} {label : Label}

namespace IsReady

theorem subset (h : IsReady first nodes) (hsub : nodes' ⊆ nodes) : IsReady first nodes' :=
  ⟨fun node hnode => h.misses node (hsub hnode), h.ungrouped.subset hsub⟩

theorem tail (h : IsReady first (node :: rest)) : IsReady first rest :=
  h.subset (List.subset_cons_self ..)

theorem children (h : IsReady first nodes) (hnode : node ∈ nodes) :
    IsReady first node.children :=
  ⟨(h.misses node hnode).children, h.ungrouped.children hnode⟩

end IsReady

/-- Whether a pass of some depth groups what is below a node that was there before. -/
def GroupsOld (lines : LineIndex) (first fuel : Nat) : Prop :=
  ∀ (next : Nat) (label : Label) (children : List Node),
    Pass.Enough lines conditional fuel next ⟨label, children⟩ →
    IsReady first [⟨label, children⟩] → first ≤ next →
    ∃ children', (Pass.visit lines conditional fuel next ⟨label, children⟩).node =
        ⟨label, children'⟩
      ∧ (Pass.isOpen label.kind = false → children' = children)
      ∧ Grouped (NodeId.isFrom first) children children'

/-- Whether a pass of some depth groups what is in a node that it has made itself. -/
def GroupsNew (lines : LineIndex) (first fuel : Nat) : Prop :=
  ∀ (next : Nat) (label : Label) (opener endif : Node) (body : List Node),
    Pass.Enough lines conditional fuel next ⟨label, opener :: (body ++ [endif])⟩ →
    label.kind = .preprocessorConditional → opensConditional opener = true →
    closesConditional endif = true → Balanced body →
    IsReady first (opener :: (body ++ [endif])) → first ≤ next →
    ∃ inner, (Pass.visit lines conditional fuel next
        ⟨label, opener :: (body ++ [endif])⟩).node = ⟨label, opener :: (inner ++ [endif])⟩
      ∧ Grouped (NodeId.isFrom first) body inner

/-- Whether siblings are grouped when the nodes that a level has made of them are visited. -/
def GroupsEach (lines : LineIndex) (first fuel : Nat) (nodes out : List Node) : Prop :=
  ∀ next, first ≤ next →
    Pass.EachEnough (Pass.visit lines conditional fuel) (Pass.Enough lines conditional fuel)
      next out →
    Grouped (NodeId.isFrom first) nodes
      (Pass.visitEach (Pass.visit lines conditional fuel) next out).nodes

/-- A sibling that begins no pair stays. -/
theorem GroupsEach.keep (hrest : GroupsEach lines first fuel rest out)
    (hold : GroupsOld lines first fuel) (hready : IsReady first (node :: rest))
    (hlone : ∀ run, run <+: node :: rest → ¬IsPair run) :
    GroupsEach lines first fuel (node :: rest) (node :: out) := by
  intro next hnext henough
  obtain ⟨label, children⟩ := node
  obtain ⟨hself, hbehind⟩ := henough
  obtain ⟨children', hvisit, hclosed, hbelow⟩ :=
    hold next label children hself (hready.subset (by simp)) hnext
  have hlater := Nat.le_trans hnext
    (Pass.le_next_visit lines conditional fuel next ⟨label, children⟩)
  rw [Pass.visitEach]
  dsimp only
  rw [hvisit]
  exact .keep hlone hclosed hbelow (hrest _ hlater hbehind)

/-- A directive stays as it is. -/
theorem grouped_directive (h : IsReady first [node]) (hclosed : Pass.isOpen node.kind = false) :
    Grouped (NodeId.isFrom first) [node] [node] :=
  .of_directive ((h.misses node (List.mem_singleton_self _)).self hclosed)

/-- A pair becomes a node, in which its body is grouped. -/
theorem GroupsEach.wrap (hrest : GroupsEach lines first fuel rest out)
    (hnew : GroupsNew lines first fuel) (hready : IsReady first (opener :: (body ++ endif :: rest)))
    (hopener : opensConditional opener = true) (hendif : closesConditional endif = true)
    (hbody : Balanced body) (hid : NodeId.isFrom first label.id = true)
    (hkind : label.kind = .preprocessorConditional) :
    GroupsEach lines first fuel (opener :: (body ++ endif :: rest))
      (⟨label, opener :: (body ++ [endif])⟩ :: out) := by
  intro next hnext henough
  obtain ⟨hself, hbehind⟩ := henough
  have hpair : opener :: (body ++ [endif]) ⊆ opener :: (body ++ endif :: rest) := by
    simp only [List.subset_def, List.mem_cons, List.mem_append]
    tauto
  obtain ⟨inner, hvisit, hinner⟩ :=
    hnew next label opener endif body hself hkind hopener hendif hbody (hready.subset hpair) hnext
  have hlater := Nat.le_trans hnext
    (Pass.le_next_visit lines conditional fuel next ⟨label, opener :: (body ++ [endif])⟩)
  rw [Pass.visitEach]
  dsimp only
  rw [hvisit]
  exact .wrap hopener hendif hbody hid hkind
    (grouped_directive (hready.subset (by simp)) (isOpen_of_opens hopener))
    (grouped_directive (hready.subset (by simp)) (isOpen_of_closes hendif)) hinner
    (hrest _ hlater hbehind)

/-- What a level makes of siblings is grouped when it is visited. -/
theorem groupsEach_of_levels (hold : GroupsOld lines first fuel)
    (hnew : GroupsNew lines first fuel) {parent : Kind} {next' : Nat} {before ahead : List Node}
    (h : Levels lines conditionalPlan parent next before ahead next' out)
    (hplace : parent = .preprocessorConditional → before ≠ []) (hready : IsReady first ahead)
    (hnext : first ≤ next) : GroupsEach lines first fuel ahead out := by
  induction h with
  | done => exact fun _ _ _ => .nil
  | @pass next next' before rest out node hnode hrest ih =>
      have hbehind := ih (fun _ => List.cons_ne_nil _ _) hready.tail hnext
      refine hbehind.keep hold hready fun run hrun hpair => ?_
      rw [isSignificant_of_directives (isDirective_of_opens (hpair.opens_first hrun))] at hnode
      cases hnode
  | @keep next next' before rest out node hnode hkept hrest ih =>
      have hbehind := ih (fun _ => List.cons_ne_nil _ _) hready.tail hnext
      refine hbehind.keep hold hready fun run hrun hpair => ?_
      -- only at the first child of a conditional is something found and not taken
      obtain ⟨⟨kind, n⟩, hplan⟩ :=
        Option.ne_none_iff_exists'.1 (hpair.conditionalPlan_ne_none hrun hnode)
      obtain ⟨hbefore, hwhole, hparent⟩ := hkept kind n hplan
      rw [← List.append_nil rest] at hplan
      obtain ⟨rfl, -⟩ := isPair_of_conditionalPlan hnode hwhole hplan
      exact hplace hparent hbefore
  | @wrap next next' n before run rest out node kind hnode hcloses hfound hproper hrest ih =>
      obtain ⟨rfl, hpair⟩ := isPair_of_conditionalPlan hnode hcloses hfound
      have hbehind := ih (fun _ => List.cons_ne_nil _ _)
        (hready.subset (List.subset_append_right _ _)) (Nat.le_succ_of_le hnext)
      obtain ⟨opener, body, endif, hrun, hopener, hendif, hbody⟩ := hpair.exists_balanced
      rw [hrun, List.cons_append, List.append_assoc, List.singleton_append] at hready ⊢
      exact hbehind.wrap hnew hready hopener hendif hbody (decide_eq_true hnext) rfl

theorem groupsOld_succ (hold : GroupsOld lines first fuel) (hnew : GroupsNew lines first fuel) :
    GroupsOld lines first (fuel + 1) := by
  intro next label children henough hready hnext
  cases hopen : Pass.isOpen label.kind with
  | false =>
      rw [Pass.visit_of_closed (show Pass.isOpen (Node.mk label children).kind = false from hopen)]
      refine ⟨children, rfl, fun _ => rfl, .of_closed ?_⟩
      exact (hready.misses _ (List.mem_singleton_self _)).self hopen
  | true =>
      obtain ⟨out, hout, hlevels⟩ :=
        Pass.levels_level lines reads_conditional sound_conditional label.kind next [] children
      have heach := groupsEach_of_levels hold hnew hlevels
        (fun hkind => absurd hkind (hready.ungrouped.self (List.mem_singleton_self _)).2)
        (hready.children (List.mem_singleton_self _)) hnext
      have hbelow := henough hopen
      rw [hout] at hbelow
      have hlater := Nat.le_trans hnext
        (Pass.le_next_level lines conditional label next [] children)
      refine ⟨_, ?_, fun hclosed => ?_, heach _ hlater hbelow⟩
      · simp only [Pass.visit, hopen, if_true, hout]
        rfl
      · cases hclosed

/-- In the node of a pair, the opener finds the whole content of the node, which is not taken
again. -/
theorem levels_pair {next' : Nat}
    (h : Levels lines conditionalPlan .preprocessorConditional next [] (opener :: rest) next' out)
    (hpair : IsPair (opener :: rest)) :
    ∃ behind, out = opener :: behind
      ∧ Levels lines conditionalPlan .preprocessorConditional next [opener] rest next' behind := by
  generalize hnodes : opener :: rest = nodes at h hpair
  cases h with
  | done => cases hnodes
  | pass hnode hrest =>
      have hopener : opensConditional _ = true := hpair.opener
      rw [isSignificant_of_directives (isDirective_of_opens hopener)] at hnode
      cases hnode
  | keep hnode hkept hrest =>
      rw [List.cons.injEq] at hnodes
      obtain ⟨rfl, rfl⟩ := hnodes
      exact ⟨_, rfl, hrest⟩
  | @wrap _ _ n _ run behind out node kind hnode hcloses hfound hproper hrest =>
      obtain ⟨rfl, hfront⟩ := isPair_of_conditionalPlan hnode hcloses hfound
      have hwhole := hfront.eq_of_front hpair (List.prefix_append _ behind) (List.prefix_refl _)
      rw [List.self_eq_append_right] at hwhole
      exact absurd ⟨rfl, hwhole, rfl⟩ hproper

theorem groupsNew_succ (hold : GroupsOld lines first fuel) (hnew : GroupsNew lines first fuel) :
    GroupsNew lines first (fuel + 1) := by
  intro next label opener endif body henough hkind hopener hendif hbody hready hnext
  have hopen : Pass.isOpen label.kind = true := by
    rw [hkind]
    decide
  have hpair := IsPair.of_balanced hopener hendif hbody
  obtain ⟨out, hout, hlevels⟩ := Pass.levels_level lines reads_conditional sound_conditional
    label.kind next [] (opener :: (body ++ [endif]))
  have hbelow := henough hopen
  rw [hout] at hbelow
  have hlater := Nat.le_trans hnext
    (Pass.le_next_level lines conditional label next [] (opener :: (body ++ [endif])))
  rw [hkind] at hlevels
  obtain ⟨behind, rfl, hbehind⟩ := levels_pair hlevels hpair
  obtain ⟨-, hbelow⟩ := hbelow
  rw [Pass.visit_of_closed (isOpen_of_opens hopener)] at hbelow
  have hgrouped := groupsEach_of_levels hold hnew hbehind (fun _ => List.cons_ne_nil _ _)
    hready.tail hnext _ hlater hbelow
  obtain ⟨inner, hinner, hbody⟩ := hgrouped.of_concat hbody hendif rfl
  refine ⟨inner, ?_, hbody⟩
  simp only [Pass.visit, hopen, if_true, hout, List.reverse_nil, List.nil_append, Pass.visitEach,
    Pass.visit_of_closed (isOpen_of_opens hopener), hinner]

/-- A pass groups what it visits, to every depth that suffices. -/
theorem groups_visit (lines : LineIndex) (first fuel : Nat) :
    GroupsOld lines first fuel ∧ GroupsNew lines first fuel := by
  induction fuel with
  | zero =>
      constructor
      · intro next label children hclosed hready hnext
        refine ⟨children, rfl, fun _ => rfl, .of_closed ?_⟩
        exact (hready.misses _ (List.mem_singleton_self _)).self hclosed
      · intro next label opener endif body hclosed hkind
        have hopen : Pass.isOpen label.kind = false := hclosed
        rw [hkind] at hopen
        exact absurd hopen (by decide)
  | succ fuel ih => exact ⟨groupsOld_succ ih.1 ih.2, groupsNew_succ ih.1 ih.2⟩

/-- What grouping conditionals makes of a tree. -/
structure GroupsConditionals (isNew : NodeId → Bool) (before after : Node) : Prop where
  /-- Apart from the new nodes, the tree is what it was. -/
  erase_eq : after.erase isNew = [before]
  /-- The new nodes are the conditionals. -/
  isNew_iff : ∀ node ∈ after.descendants,
    isNew node.id = true ↔ node.kind = .preprocessorConditional
  /-- Each pair of directives among the children of a container has one conditional. -/
  conditional : ∀ container ∈ before.descendants, ∀ run, run <:+: container.children →
    IsPair run → ∃! node, node ∈ after.descendants ∧ IsConditionalOf isNew node run
  /-- Each conditional is that of a pair. -/
  pair : ∀ node ∈ after.descendants, node.kind = .preprocessorConditional →
    ∃ container ∈ before.descendants, ∃ run, run <:+: container.children ∧ IsPair run
      ∧ IsConditionalOf isNew node run
  /-- The conditionals of nested pairs are nested. -/
  nested : ∀ outer ∈ after.descendants, ∀ inner ∈ after.descendants, ∀ run run',
    IsConditionalOf isNew outer run → IsConditionalOf isNew inner run' → run' <:+: run →
      run' ≠ run → inner ∈ outer.children.flatMap Node.descendants
  /-- Directives without partners stay where they were. -/
  lone : ∀ container ∈ before.descendants, ∀ front directive back,
    container.children = front ++ directive :: back → IsLone front directive back →
      ∃ place ∈ after.descendants, place.label = container.label ∧ directive ∈ place.children

/-- In a grouped tree in which each node has one parent, conditionals are as they should be. -/
theorem groupsConditionals_of_grouped {isNew : NodeId → Bool} {before after : Node}
    (h : Grouped isNew [before] [after]) (hold : IsUngrouped isNew [before])
    (hparent : ∀ above ∈ after.descendants, ∀ above' ∈ after.descendants, ∀ child,
      child ∈ above.children → child ∈ above'.children → above = above') :
    GroupsConditionals isNew before after := by
  have hnew := h.isNew_iff hold
  have hpair := h.exists_pair hold
  have hinside := h.exists_inside hold
  have hcontainer := h.exists_container
  have herase := h.erase_eq hold
  simp only [List.flatMap_singleton] at hnew hpair hinside hcontainer herase
  -- two conditionals of one pair have the same opener, so they are one
  have hunique : ∀ node ∈ after.descendants, ∀ node' ∈ after.descendants, ∀ run,
      IsConditionalOf isNew node run → IsConditionalOf isNew node' run → node = node' := by
    intro node hnode node' hnode' run hrun hrun'
    obtain ⟨run', hfound, -, hconditional⟩ := hpair node hnode hrun.new
    obtain rfl : run' = run := hconditional.around.symm.trans hrun.around
    obtain ⟨opener, hopener, -⟩ := (Option.any_eq_true _ _).1 hfound.opener
    exact hparent node hnode node' hnode' opener
      (List.mem_of_mem_head? (hrun.first.trans hopener))
      (List.mem_of_mem_head? (hrun'.first.trans hopener))
  refine ⟨herase, hnew, ?_, ?_, ?_, ?_⟩
  · intro container hmem run hrun hfound
    obtain ⟨place, hplace, -, hgrouped⟩ := hcontainer container hmem
    have hmem' : container ∈ [before].flatMap Node.descendants := by
      rwa [List.flatMap_singleton]
    have hchildren : IsUngrouped isNew container.children := fun below hbelow =>
      hold below (by
        rw [List.flatMap_singleton]
        exact Node.mem_descendants_trans hmem (Node.mem_descendants_iff.2 (.inr hbelow)))
    obtain ⟨node, hnode, hconditional⟩ := hgrouped.exists_conditional hchildren hrun hfound
    have hbelow : node ∈ after.descendants :=
      Node.mem_descendants_trans hplace (Node.mem_descendants_iff.2 (.inr hnode))
    exact ⟨node, ⟨hbelow, hconditional⟩, fun node' hnode' =>
      hunique node' hnode'.1 node hbelow run hnode'.2 hconditional⟩
  · intro node hnode hkind
    obtain ⟨run, hfound, hrun, hconditional⟩ := hpair node hnode ((hnew node hnode).2 hkind)
    rcases hrun with hrun | ⟨container, hmem, hrun⟩
    · exact absurd hfound (not_isPair_of_infix_singleton hrun)
    · rw [List.flatMap_singleton] at hmem
      exact ⟨container, hmem, run, hrun, hfound, hconditional⟩
  · intro outer houter inner hinner run run' hrun hrun' hnested hne
    obtain ⟨found, hfound, -, hconditional⟩ := hpair inner hinner hrun'.new
    obtain rfl : found = run' := hconditional.around.symm.trans hrun'.around
    obtain ⟨below, hbelow, hsame⟩ := hinside outer houter hrun.new run hrun found hfound hnested hne
    have hmem : below ∈ after.descendants :=
      Node.mem_descendants_trans houter (Node.mem_descendants_iff.2 (.inr hbelow))
    rwa [hunique inner hinner below hmem found hrun' hsame]
  · intro container hmem front directive back hsplit hlone
    obtain ⟨place, hplace, hlabel, hgrouped⟩ := hcontainer container hmem
    exact ⟨place, hplace, hlabel, hgrouped.mem_of_isLone hsplit hlone⟩

end CFamily

namespace Parse

variable {parse : Parse} {sound : Prop}

/-- In a tree with names of their own, no node has two parents. -/
theorem WellLaid.eq_of_mem_children (h : parse.WellLaid sound) {above above' child : Node}
    (habove : above ∈ parse.root.descendants) (habove' : above' ∈ parse.root.descendants)
    (hchild : child ∈ above.children) (hchild' : child ∈ above'.children) : above = above' := by
  obtain ⟨parent, hshows⟩ := h.represents.shows.below habove
  obtain ⟨parent', hshows'⟩ := h.represents.shows.below habove'
  have hid := (hshows.parent?_child hchild).symm.trans (hshows'.parent?_child hchild')
  exact List.inj_on_of_nodup_map h.numbered.nodup habove habove' (Option.some.inj hid)

end Parse

namespace Language

variable {language : Language}

/-- Before analysis there is nothing new in a tree, and nothing of which a pass could miss
anything. -/
theorem isReady_build (h : language ∈ cFamily) (text : List Char) :
    CFamily.IsReady (Parse.build language.grammar text).next
      [(Parse.build language.grammar text).root] := by
  have hlaid : (Parse.build language.grammar text).WellLaid True :=
    Parse.wellLaid_build (fun _ => language.isSound_grammar) text
  constructor
  · rw [List.forall_mem_singleton]
    intro node hnode hclosed below hbelow
    have hsealed := sealed_build h text node hnode
    rw [Pass.isOpen, Bool.and_eq_false_iff, Bool.not_eq_false', Bool.not_eq_false'] at hclosed
    rcases hclosed with hatomic | hdirective
    · rw [(hlaid.fits node hnode).leaf trivial hatomic] at hbelow
      cases hbelow
    · have hplain := hsealed hdirective below hbelow
      cases hopener : CFamily.opensConditional below with
      | false => rfl
      | true =>
          rw [Kind.IsPlain, CFamily.isDirective_of_opens hopener] at hplain
          cases hplain
  · intro node hnode
    rw [List.flatMap_singleton] at hnode
    constructor
    · obtain ⟨index, hindex, hid⟩ :=
        hlaid.numbered.mem_iff.1 (List.mem_map_of_mem (f := Node.id) hnode)
      rw [hid]
      exact decide_eq_false (Nat.not_le.2 hindex)
    · intro hkind
      have hkeeps : KindSet.synthesized.contains node.kind = false :=
        Grammar.keeps_pair language.keeps_grammar (LineIndex.ofText text) node hnode
      rw [hkind] at hkeeps
      exact absurd hkeeps (by decide)

theorem eq_conditional (h : language ∈ cFamily) {pass : Pass}
    (hpass : pass ∈ language.grammar.passes) (hname : pass.name = "preprocessor") :
    pass = ⟨"preprocessor", CFamily.conditional⟩ := by
  refine eq_of_name hpass ?_ hname
  cases language with
  | c | cpp | objc | objcpp => exact List.mem_cons_self ..
  | html | xml | feed | propertyList => exact absurd h (by decide)

theorem grouped_build (h : language ∈ cFamily) (text : List Char) :
    CFamily.Grouped (NodeId.isFrom (Parse.build language.grammar text).next)
      [(Parse.build language.grammar text).root]
      [((Parse.build language.grammar text).analyse
        [⟨"preprocessor", CFamily.conditional⟩]).root] := by
  have hready := isReady_build h text
  generalize Parse.build language.grammar text = built at hready ⊢
  obtain ⟨lines, ⟨label, children⟩, next, notes⟩ := built
  have henough : Pass.Enough lines CFamily.conditional (Pass.depthBound ⟨label, children⟩) next
      ⟨label, children⟩ :=
    Pass.enough_depthBound CFamily.reads_conditional CFamily.sound_conditional next _
  obtain ⟨children', hvisit, hclosed, hgrouped⟩ :=
    (CFamily.groups_visit lines next _).1 next label children henough hready (Nat.le_refl next)
  have hroot : (Parse.analyse ⟨lines, ⟨label, children⟩, next, notes⟩
      [⟨"preprocessor", CFamily.conditional⟩]).root = ⟨label, children'⟩ := hvisit
  rw [hroot]
  apply CFamily.Grouped.keep _ hclosed hgrouped .nil
  intro run hrun
  exact CFamily.not_isPair_of_infix_singleton hrun.isInfix

/-- Grouping conditionals is bracket matching.  In the tree of a text of a C-family language, the
pass puts a conditional around each run of siblings that begins with `#if`, `#ifdef` or `#ifndef`
and ends with the first `#endif` through which as many conditionals are opened as closed, with the
conditionals of nested runs inside it.  It adds nothing else, and directives without partners stay
where they were. -/
theorem groups_conditionals (hlanguage : language ∈ cFamily) {pass : Pass}
    (hpass : pass ∈ language.grammar.passes) (hname : pass.name = "preprocessor")
    (text : List Char) :
    CFamily.GroupsConditionals (NodeId.isFrom (Parse.build language.grammar text).next)
      (Parse.build language.grammar text).root
      ((Parse.build language.grammar text).analyse [pass]).root := by
  obtain rfl := eq_conditional hlanguage hpass hname
  have hlaid : ((Parse.build language.grammar text).analyse
      [⟨"preprocessor", CFamily.conditional⟩]).WellLaid False :=
    (Parse.wellLaid_build False.elim text).analyse False.elim
  refine CFamily.groupsConditionals_of_grouped (grouped_build hlanguage text)
    (isReady_build hlanguage text).ungrouped ?_
  intro above habove above' habove' child hchild hchild'
  exact hlaid.eq_of_mem_children habove habove' hchild hchild'

/-- Of three openers and three ends, two pairs are made: the first end and the last opener stay. -/
theorem groups_conditionals_nested :
    Language.c ∈ cFamily
      ∧ (⟨"preprocessor", CFamily.conditional⟩ : Pass) ∈ Language.c.grammar.passes
      ∧ (((Parse.build Language.c.grammar
            "#endif\n#if a\n#ifdef b\n#else\n#endif\n#endif\n#ifndef c".toList).analyse
          [⟨"preprocessor", CFamily.conditional⟩]).root.descendants.map Node.kind).countP
            (· == .preprocessorConditional) = 2
      ∧ CFamily.GroupsConditionals (NodeId.isFrom (Parse.build Language.c.grammar
            "#endif\n#if a\n#ifdef b\n#else\n#endif\n#endif\n#ifndef c".toList).next)
          (Parse.build Language.c.grammar
            "#endif\n#if a\n#ifdef b\n#else\n#endif\n#endif\n#ifndef c".toList).root
          ((Parse.build Language.c.grammar
            "#endif\n#if a\n#ifdef b\n#else\n#endif\n#endif\n#ifndef c".toList).analyse
              [⟨"preprocessor", CFamily.conditional⟩]).root := by
  have hlanguage : Language.c ∈ cFamily := by decide
  have hpass : (⟨"preprocessor", CFamily.conditional⟩ : Pass) ∈ Language.c.grammar.passes :=
    List.mem_cons_self ..
  exact ⟨hlanguage, hpass, by decide +kernel, groups_conditionals hlanguage hpass rfl _⟩

end Language

end ConcreteSyntax
