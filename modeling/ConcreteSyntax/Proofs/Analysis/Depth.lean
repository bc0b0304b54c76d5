import ConcreteSyntax.Proofs.Analysis.Run
import ConcreteSyntax.Proofs.Node

/-!
# Depth of passes

A pass that follows a sound plan ends.  The new nodes inside one child list hold fewer and
fewer of its nodes, so that the depth of `Pass.depthBound` suffices, and every greater depth
gives the same tree.
-/

namespace ConcreteSyntax

variable {lines : LineIndex} {plan : Plan} {rule : Rule}

/-- A new node over at most `most` of some siblings, which its rule will not wrap again as a
whole. -/
def NewOver (lines : LineIndex) (plan : Plan) (next most : Nat) (siblings : List Node)
    (node : Node) : Prop :=
  ∃ kind index run, node = Node.wrap lines (.fresh index) kind run ∧ next ≤ index ∧ run ≠ []
    ∧ run ⊆ siblings ∧ run.length ≤ most ∧ plan.Firm kind run

theorem NewOver.mono {next next' most most' : Nat} {siblings siblings' : List Node} {node : Node}
    (h : NewOver lines plan next most siblings node) (hnext : next' ≤ next)
    (hmost : most ≤ most') (hsub : siblings ⊆ siblings') :
    NewOver lines plan next' most' siblings' node := by
  obtain ⟨kind, index, run, rfl, hindex, hne, hrun, hle, hfirm⟩ := h
  exact ⟨kind, index, run, rfl, by omega, hne, List.Subset.trans hrun hsub, by omega, hfirm⟩

/-- After a pass, the nodes of a child list were there before, or are new over some of those
that were there. -/
theorem Levels.mem (hplan : plan.Sound) {parent : Kind} {next next' : Nat}
    {before ahead out : List Node} (h : Levels lines plan parent next before ahead next' out) :
    ∀ node ∈ out, node ∈ ahead ∨ NewOver lines plan next ahead.length ahead node := by
  induction h with
  | done => simp
  | pass hnode hrest ih =>
      intro other hother
      rcases List.mem_cons.1 hother with rfl | hother
      · exact .inl (by simp)
      · rcases ih other hother with hmem | hnew
        · exact .inl (by simp [hmem])
        · exact .inr (hnew.mono (Nat.le_refl _) (by simp) (by simp))
  | keep hnode hkept hrest ih =>
      intro other hother
      rcases List.mem_cons.1 hother with rfl | hother
      · exact .inl (by simp)
      · rcases ih other hother with hmem | hnew
        · exact .inl (by simp [hmem])
        · exact .inr (hnew.mono (Nat.le_refl _) (by simp) (by simp))
  | @wrap next next' n before run rest out node kind hnode hcloses hfound hproper hrest ih =>
      intro other hother
      rcases List.mem_cons.1 hother with rfl | hother
      · exact .inr ⟨kind, next, node :: run, rfl, Nat.le_refl next, by simp, by simp, by simp,
          Plan.firm_of_found hplan hnode hcloses hfound⟩
      · rcases ih other hother with hmem | hnew
        · exact .inl (by simp [hmem])
        · refine .inr (hnew.mono (by omega) ?_ (by simp))
          rw [List.length_append]
          omega

/-- In a firm child list, no new node takes all there is. -/
theorem Levels.mem_of_firm (hplan : plan.Sound) {parent : Kind} {next next' : Nat}
    {nodes out : List Node} (h : Levels lines plan parent next [] nodes next' out)
    (hfirm : plan.Firm parent nodes) :
    ∀ node ∈ out, node ∈ nodes ∨ NewOver lines plan next (nodes.length - 1) nodes node := by
  intro other hother
  cases h with
  | done => simp at hother
  | pass hnode hrest =>
      rcases List.mem_cons.1 hother with rfl | hother
      · exact .inl (by simp)
      · rcases hrest.mem hplan other hother with hmem | hnew
        · exact .inl (by simp [hmem])
        · exact .inr (hnew.mono (Nat.le_refl _) (by simp) (by simp))
  | keep hnode hkept hrest =>
      rcases List.mem_cons.1 hother with rfl | hother
      · exact .inl (by simp)
      · rcases hrest.mem hplan other hother with hmem | hnew
        · exact .inl (by simp [hmem])
        · exact .inr (hnew.mono (Nat.le_refl _) (by simp) (by simp))
  | @wrap _ _ n _ run rest out node kind hnode hcloses hfound hproper hrest =>
      have hne : rest ≠ [] := by
        rintro rfl
        rw [List.append_nil] at hfirm hfound
        exact hproper ⟨rfl, rfl, (hfirm kind n hfound hcloses).symm⟩
      have hpos := List.length_pos_iff.2 hne
      rcases List.mem_cons.1 hother with rfl | hother
      · refine .inr ⟨kind, next, node :: run, rfl, Nat.le_refl next, by simp, by simp, ?_,
          Plan.firm_of_found hplan hnode hcloses hfound⟩
        rw [List.length_append]
        omega
      · rcases hrest.mem hplan other hother with hmem | hnew
        · exact .inl (by simp [hmem])
        · refine .inr (hnew.mono (by omega) ?_ (by simp))
          simp only [List.length_append, List.length_cons]
          omega

namespace Pass

/-- Whether a depth suffices to visit nodes from left to right. -/
def EachEnough (visit : Nat → Node → Run) (enough : Nat → Node → Prop) : Nat → List Node → Prop
  | _, [] => True
  | next, node :: rest => enough next node ∧ EachEnough visit enough (visit next node).next rest

/-- Whether a depth suffices to visit a node: only closed nodes are met at the bottom. -/
def Enough (lines : LineIndex) (rule : Rule) : Nat → Nat → Node → Prop
  | 0, _, node => isOpen node.kind = false
  | fuel + 1, next, ⟨label, children⟩ =>
      isOpen label.kind = true →
        EachEnough (visit lines rule fuel) (Enough lines rule fuel)
          (level lines rule label.kind next [] children).next
          (level lines rule label.kind next [] children).children

theorem eachEnough_of_forall {visit : Nat → Node → Run} {enough : Nat → Node → Prop}
    {nodes : List Node} (h : ∀ next, ∀ node ∈ nodes, enough next node) (next : Nat) :
    EachEnough visit enough next nodes := by
  induction nodes generalizing next with
  | nil => trivial
  | cons node rest ih =>
      exact ⟨h next node (by simp), ih (fun next other hother => h next other (by simp [hother])) _⟩

/-- Where the depth suffices, more of it changes nothing. -/
theorem visit_eq_visit {fuel more : Nat} {next : Nat} {node : Node}
    (h : Enough lines rule fuel next node) (hmore : Enough lines rule more next node) :
    visit lines rule fuel next node = visit lines rule more next node := by
  have heach : ∀ {a b : Nat}, (∀ next node, Enough lines rule a next node →
      Enough lines rule b next node → visit lines rule a next node = visit lines rule b next node) →
      ∀ nodes next, EachEnough (visit lines rule a) (Enough lines rule a) next nodes →
        EachEnough (visit lines rule b) (Enough lines rule b) next nodes →
        visitEach (visit lines rule a) next nodes = visitEach (visit lines rule b) next nodes := by
    intro a b hvisit nodes
    induction nodes with
    | nil => intros; rfl
    | cons node rest ih =>
        rintro next ⟨hnode, hrest⟩ ⟨hnode', hrest'⟩
        have hsame := hvisit next node hnode hnode'
        rw [← hsame] at hrest'
        simp only [visitEach, ← hsame, ih _ hrest hrest']
  induction fuel generalizing more next node with
  | zero =>
      obtain ⟨label, children⟩ := node
      cases more with
      | zero => rfl
      | succ more =>
          have hclosed : isOpen label.kind = false := h
          simp [visit, hclosed]
  | succ fuel ih =>
      obtain ⟨label, children⟩ := node
      cases hopen : isOpen label.kind with
      | false => cases more <;> simp [visit, hopen]
      | true =>
          cases more with
          | zero =>
              have hclosed : isOpen label.kind = false := hmore
              simp [hopen] at hclosed
          | succ more =>
              have hbelow := heach (fun next node => ih) _ _ (h hopen) (hmore hopen)
              simp only [visit, hopen, if_true, hbelow]

theorem length_add_le_sizeAll {nodes : List Node} {node : Node} (h : node ∈ nodes) :
    nodes.length + node.size ≤ Node.sizeAll nodes + 1 := by
  induction nodes with
  | nil => simp at h
  | cons head rest ih =>
      have hpos : ∀ other : Node, 0 < other.size := by
        rintro ⟨label, children⟩
        simp only [Node.size]
        omega
      have hlength : rest.length ≤ Node.sizeAll rest := by
        clear ih h
        induction rest with
        | nil => simp
        | cons other rest ih =>
            have := hpos other
            simp only [Node.sizeAll, List.length_cons]
            omega
      simp only [Node.sizeAll, List.length_cons]
      rcases List.mem_cons.1 h with rfl | h
      · omega
      · have := ih h
        have := hpos head
        omega

/-- The depth that suffices for a node that was there before a pass, or that it has made. -/
def Suffices (plan : Plan) (fuel : Nat) (node : Node) : Prop :=
  2 * node.size ≤ fuel ∨ plan.Firm node.kind node.children ∧ node.children ≠ []
    ∧ ∃ depth, node.children.length + depth ≤ fuel ∧ ∀ child ∈ node.children, 2 * child.size ≤ depth

/-- What is left of a child list needs less depth than the node above it. -/
theorem suffices_of_levels (hplan : plan.Sound) {fuel next next' : Nat} {label : Label}
    {children out : List Node} (h : Suffices plan (fuel + 1) ⟨label, children⟩)
    (hlevels : Levels lines plan label.kind next [] children next' out) :
    ∀ node ∈ out, Suffices plan fuel node := by
  intro node hnode
  rcases h with hsize | ⟨hfirm, _, depth, hdepth, hchildren⟩
  · simp only [Node.size] at hsize
    rcases hlevels.mem hplan node hnode with hmem | ⟨kind, index, run, rfl, _, hne, hsub, hle, hnew⟩
    · have hcount := length_add_le_sizeAll hmem
      have hpos := List.length_pos_of_mem hmem
      exact .inl (by omega)
    · refine .inr ⟨hnew, hne, 2 * (Node.sizeAll children + 1 - children.length), ?_, ?_⟩
      · obtain ⟨first, hfirst⟩ := List.exists_mem_of_ne_nil run hne
        have hcount := length_add_le_sizeAll (hsub hfirst)
        have hpos := List.length_pos_iff.2 hne
        change run.length + _ ≤ fuel
        omega
      · intro child hchild
        have hcount := length_add_le_sizeAll (hsub hchild)
        omega
  · simp only [Node.children] at hdepth
    rcases hlevels.mem_of_firm hplan hfirm node hnode with hmem |
      ⟨kind, index, run, rfl, _, hne, hsub, hle, hnew⟩
    · have hchild := hchildren node hmem
      have hpos := List.length_pos_of_mem hmem
      exact .inl (by omega)
    · refine .inr ⟨hnew, hne, depth, ?_, fun child hchild => hchildren child (hsub hchild)⟩
      have hpos := List.length_pos_iff.2 hne
      change run.length + depth ≤ fuel
      omega

theorem enough_of_suffices (hreads : rule.Reads plan) (hplan : plan.Sound) {fuel : Nat}
    {node : Node} (h : Suffices plan fuel node) (next : Nat) :
    Enough lines rule fuel next node := by
  induction fuel generalizing next node with
  | zero =>
      obtain ⟨label, children⟩ := node
      rcases h with hsize | ⟨_, hne, depth, hdepth, _⟩
      · simp only [Node.size] at hsize
        omega
      · have hpos := List.length_pos_iff.2 hne
        omega
  | succ fuel ih =>
      obtain ⟨label, children⟩ := node
      intro hopen
      obtain ⟨out, hchildren, hlevels⟩ :=
        levels_level lines hreads hplan label.kind next [] children
      rw [hchildren]
      exact eachEnough_of_forall
        (fun next node hnode =>
          ih (suffices_of_levels hplan h hlevels node (by simpa using hnode)) next) _

/-- The depth of a pass suffices for every tree. -/
theorem enough_depthBound (hreads : rule.Reads plan) (hplan : plan.Sound) (next : Nat)
    (node : Node) : Enough lines rule (depthBound node) next node :=
  enough_of_suffices hreads hplan (.inl (by unfold depthBound; omega)) next

end Pass

end ConcreteSyntax
