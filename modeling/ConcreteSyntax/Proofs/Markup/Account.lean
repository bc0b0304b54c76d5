import ConcreteSyntax.Proofs.Markup.Nesting
import ConcreteSyntax.Proofs.Markup.Places

/-!
# Accounting for tags

Each element of a markup text is opened by its first tag.  A closing tag either ends the element
that it stands in, or it closes none of the elements around it and is reported.  An element that
is not ended is reported, each once, and nothing else is (`Parse.accounts_for_tags`).
-/

namespace ConcreteSyntax

open Markup (Rules Tag Outline)

namespace Node

/-- Whether a node is the element that a tag opens, and begins with the leaf of the tag. -/
structure OpensWith (rules : Rules) (node leaf : Node) (tag : Tag) : Prop where
  first : node.children.head? = some leaf
  leafTag : leaf.leafTag? = some tag
  form : tag.form ≠ .closing
  kind : node.kind = rules.elementKind tag.name

/-- Whether a node is an element that ends with a leaf, the closing tag of its name. -/
def EndsWith (rules : Rules) (node last : Node) : Prop :=
  ∃ leaf tag closing, node.OpensWith rules leaf tag ∧ rules.awaits tag = true
    ∧ node.children.getLast? = some last ∧ last.leafTag? = some closing
    ∧ closing.form = .closing ∧ rules.sameName tag.name closing.name = true

/-- Whether a node is an element, of which the notes say how it ends. -/
inductive IsElement (rules : Rules) (notes : List Diagnostic) (node : Node) : Prop
  /-- The element of an empty tag, or of an opening tag with a void name. -/
  | alone {leaf : Node} {tag : Tag} :
      node.OpensWith rules leaf tag → rules.awaits tag = false → node.children = [leaf] →
        notesOver notes leaf.range = [] → IsElement rules notes node
  | closed {leaf last : Node} {tag : Tag} :
      node.OpensWith rules leaf tag → rules.awaits tag = true → node.EndsWith rules last →
        notesOver notes leaf.range = [] → IsElement rules notes node
  | unclosed {leaf : Node} {tag : Tag} :
      node.OpensWith rules leaf tag → rules.awaits tag = true →
        (∀ last, ¬ node.EndsWith rules last) →
          notesOver notes leaf.range = [leaf.unclosed tag] → IsElement rules notes node

/-- Whether a leaf somewhere in a node is a closing tag that does not end its parent. -/
def HasStray (rules : Rules) (node leaf : Node) (tag : Tag) : Prop :=
  ∃ parent ∈ node.descendants, leaf ∈ parent.children ∧ leaf.leafTag? = some tag
    ∧ tag.form = .closing ∧ ¬ parent.EndsWith rules leaf

/-- Whether a leaf holds a closing tag that closes none of the elements of the names `around`,
which is all that is reported of it. -/
structure IsStray (rules : Rules) (around : List (List Char)) (notes : List Diagnostic)
    (leaf : Node) (tag : Tag) : Prop where
  holds : leaf.Holds tag
  form : tag.form = .closing
  names : ∀ name ∈ around, rules.sameName name tag.name = false
  notes : notesOver notes leaf.range = [leaf.stray tag]

variable {rules : Rules} {node leaf last : Node} {tag closing : Tag} {notes part : List Diagnostic}

theorem OpensWith.unique {leaf' : Node} {tag' : Tag} (h : node.OpensWith rules leaf tag)
    (h' : node.OpensWith rules leaf' tag') : leaf = leaf' ∧ tag = tag' := by
  obtain rfl := Option.some.inj (h.first.symm.trans h'.first)
  exact ⟨rfl, Option.some.inj (h.leafTag.symm.trans h'.leafTag)⟩

theorem OpensWith.tag_eq (h : node.OpensWith rules leaf tag)
    (hleaf : leaf.leafTag? = some closing) : closing = tag := Option.some.inj (hleaf.symm.trans h.leafTag)

theorem OpensWith.children_ne_nil (h : node.OpensWith rules leaf tag) : node.children ≠ [] := by
  intro hnil
  have hfirst := h.first
  rw [hnil] at hfirst
  cases hfirst

/-- A closing tag of another name does not end an element. -/
theorem OpensWith.not_endsWith (h : node.OpensWith rules leaf tag)
    (hlast : last.leafTag? = some closing) (hname : rules.sameName tag.name closing.name = false) :
    ¬ node.EndsWith rules last := by
  rintro ⟨leaf', tag', closing', hopens, -, -, hclosing, -, hsame⟩
  obtain ⟨-, rfl⟩ := h.unique hopens
  obtain rfl := Option.some.inj (hlast.symm.trans hclosing)
  rw [hname] at hsame
  cases hsame

theorem HasStray.children_ne_nil (h : node.HasStray rules leaf tag) : node.children ≠ [] := by
  obtain ⟨parent, hparent, hleaf, -⟩ := h
  exact fun hnil => notMem_descendants hnil (List.ne_nil_of_mem hleaf) hparent

/-- An element of which it is reported that nothing ends it is not ended. -/
theorem IsElement.not_endsWith (h : node.IsElement rules notes)
    (hopens : node.OpensWith rules leaf tag) (hawaits : rules.awaits tag = true)
    (hnote : leaf.unclosed tag ∈ notes) : ∀ last, ¬ node.EndsWith rules last := by
  cases h with
  | alone hopens' hawaits' =>
      obtain ⟨-, rfl⟩ := hopens.unique hopens'
      rw [hawaits] at hawaits'
      cases hawaits'
  | closed hopens' _ _ hnotes =>
      obtain ⟨rfl, -⟩ := hopens.unique hopens'
      exact absurd (mem_notesOver hnote) (hnotes ▸ List.not_mem_nil)
  | unclosed _ _ hends => exact hends

/-- All that is reported of a stray tag is reported between the places around it. -/
theorem IsStray.agree {around : List (List Char)} {start stop : Nat}
    (h : leaf.IsStray rules around part tag) (hagree : NotesAgree start stop notes part)
    (hrange : start ≤ leaf.range.start ∧ leaf.range.stop ≤ stop) :
    leaf.IsStray rules around notes tag :=
  { h with
    notes := by
      rw [hagree leaf.range hrange.1 (Nat.lt_of_lt_of_le h.holds.proper hrange.2), h.notes] }

end Node

namespace Markup.Outline

variable {rules : Rules} {around tail : List (List Char)} {notes part : List Diagnostic}
  {nodes : List Node} {node leaf : Node} {tag : Tag} {lines : LineIndex} {start stop : Nat}

/-- A tag that stands among siblings by itself is stray. -/
theorem isStray (h : Outline rules around nodes tail notes) (hlaid : Laid lines start nodes stop)
    (hleaf : leaf ∈ nodes) (htag : leaf.leafTag? = some tag) :
    leaf.IsStray rules around notes tag := by
  induction h generalizing start stop with
  | nil => cases hleaf
  | leaf hchildren hkind _ _ ih =>
      rcases List.mem_cons.1 hleaf with rfl | hleaf
      · rw [Node.leafTag?_of_kind hkind] at htag
        cases htag
      · exact ih hlaid.tail hleaf
  | @stray _ _ first _ _ _ hfirst hform hnames hrest ih =>
      rcases List.mem_cons.1 hleaf with rfl | hleaf
      · obtain rfl := Option.some.inj (hfirst.tag.symm.trans htag)
        have hmore : notesOver _ leaf.range = [] := notesOver_eq_nil fun note hnote => by
          have hplace := hrest.place_of_note hlaid.tail hnote
          have hproper := hfirst.proper
          omega
        refine ⟨hfirst, hform, hnames, ?_⟩
        rw [← List.singleton_append, notesOver_append, hmore, List.append_nil]
        exact notesOver_self _
      · refine (ih hlaid.tail hleaf).agree ?_ (hlaid.tail.range_of_mem hleaf)
        exact (NotesAgree.refl _ _ _).cons (.inl hfirst.proper)
  | alone _ hchildren _ _ _ _ ih =>
      rcases List.mem_cons.1 hleaf with rfl | hleaf
      · exact absurd (Node.children_of_leafTag? htag) (by simp [hchildren])
      · exact ih hlaid.tail hleaf
  | closed _ hchildren _ _ _ _ _ _ hbelow _ _ ihRest =>
      rcases List.mem_cons.1 hleaf with rfl | hleaf
      · exact absurd (Node.children_of_leafTag? htag) (by simp [hchildren])
      · refine (ihRest hlaid.tail hleaf).agree ?_ (hlaid.tail.range_of_mem hleaf)
        obtain ⟨-, hinside⟩ := hlaid.inside hchildren
        obtain ⟨middle, hlaidBelow, hlaidLast⟩ := hinside.append
        exact (NotesAgree.refl _ _ _).append_left fun note hnote =>
          .inl (Nat.lt_of_lt_of_le (hbelow.place_of_note hlaidBelow hnote).2 hlaidLast.le)
  | unclosed _ hchildren =>
      obtain rfl := List.mem_singleton.1 hleaf
      exact absurd (Node.children_of_leafTag? htag) (by simp [hchildren])

end Markup.Outline

namespace Markup

/-- Whether siblings stand in a text within open elements, whose names are given, and of all notes
those over their place are as their outline says. -/
def Accounted (lines : LineIndex) (rules : Rules) (around : List (List Char))
    (notes : List Diagnostic) (nodes : List Node) : Prop :=
  ∃ start stop tail part, Outline rules around nodes tail part ∧ Laid lines start nodes stop
    ∧ NotesAgree start stop notes part

/-- How an element stands within open elements. -/
inductive Element (lines : LineIndex) (rules : Rules) (around : List (List Char))
    (notes : List Diagnostic) (node : Node) : Prop
  | alone {leaf : Node} {tag : Tag} :
      node.OpensWith rules leaf tag → rules.awaits tag = false → node.children = [leaf] →
        notesOver notes leaf.range = [] → Element lines rules around notes node
  | closed {leaf last : Node} {tag : Tag} {below : List Node} :
      node.OpensWith rules leaf tag → rules.awaits tag = true →
        node.children = leaf :: (below ++ [last]) →
          Accounted lines rules (tag.name :: around) notes below →
            node.EndsWith rules last → notesOver notes leaf.range = [] →
              notesOver notes last.range = [] → Element lines rules around notes node
  | unclosed {leaf : Node} {tag : Tag} {below : List Node} :
      node.OpensWith rules leaf tag → rules.awaits tag = true → node.children = leaf :: below →
        Accounted lines rules (tag.name :: around) notes below →
          notesOver notes leaf.range = [leaf.unclosed tag] →
            Element lines rules around notes node

variable {rules : Rules} {around : List (List Char)} {notes : List Diagnostic}
  {nodes : List Node} {node leaf child : Node} {tag closing : Tag} {lines : LineIndex}

namespace Accounted

theorem isStray (h : Accounted lines rules around notes nodes) (hleaf : leaf ∈ nodes)
    (htag : leaf.leafTag? = some tag) : leaf.IsStray rules around notes tag := by
  obtain ⟨start, stop, tail, part, houtline, hlaid, hagree⟩ := h
  exact (houtline.isStray hlaid hleaf htag).agree hagree (hlaid.range_of_mem hleaf)

/-- Siblings do not begin with a tag that opens an element. -/
theorem not_opensWith (h : Accounted lines rules around notes node.children) :
    ¬ node.OpensWith rules leaf tag := fun hopens =>
  hopens.form (h.isStray (List.mem_of_mem_head? hopens.first) hopens.leafTag).form

theorem within (h : Accounted lines rules around notes nodes)
    (hnode : node ∈ nodes.flatMap Node.descendants) (hchildren : node.children ≠ []) :
    ∃ outer, around ⊆ outer ∧ Accounted lines rules outer notes [node] := by
  obtain ⟨start, stop, tail, part, houtline, hlaid, hagree⟩ := h
  obtain ⟨outer, inner, own, hsub, hown, hagreeOwn⟩ := houtline.within hlaid hnode hchildren
  obtain ⟨other, hother, hbelow⟩ := List.mem_flatMap.1 hnode
  have hrange := hlaid.range_below hnode
  exact ⟨outer, hsub, node.range.start, node.range.stop, inner, own, hown,
    .single ((hlaid.fits other hother).below hbelow), hagree.trans hagreeOwn hrange.1 hrange.2⟩

/-- An element within open elements stands as its outline says. -/
theorem element (h : Accounted lines rules around notes [node]) (hchildren : node.children ≠ []) :
    Element lines rules around notes node := by
  obtain ⟨start, stop, tail, part, houtline, hlaid, hagree⟩ := h
  have hhead := hlaid.head
  cases houtline with
  | leaf hnil => exact absurd hnil hchildren
  | stray hleaf => exact absurd (Node.children_of_leafTag? hleaf.tag) hchildren
  | @alone _ _ _ leaf tag _ _ hkind hsingle hleaf hform hawaits hrest =>
      cases hrest
      have hopens : node.OpensWith rules leaf tag := ⟨by simp [hsingle], hleaf.tag, hform, hkind⟩
      obtain ⟨hfirst, hinside⟩ := hlaid.inside hsingle
      have hproper := hleaf.proper
      have hle := hinside.le
      exact .alone hopens hawaits hsingle (hagree leaf.range (by omega) (by omega))
  | @closed _ _ _ _ leaf last tag closing below _ inner _ hkind hall hleaf hawaits hlast hform
      hsame _ hbelow hrest =>
      cases hrest
      rw [List.append_nil] at hagree
      have hopens : node.OpensWith rules leaf tag :=
        ⟨by simp [hall], hleaf.tag, Rules.form_of_awaits hawaits, hkind⟩
      have hends : node.EndsWith rules last := ⟨leaf, tag, closing, hopens, hawaits,
        by rw [hall, ← List.cons_append, List.getLast?_concat], hlast.tag, hform, hsame⟩
      obtain ⟨hfirst, hinside⟩ := hlaid.inside hall
      obtain ⟨middle, hlaidBelow, hlaidLast⟩ := hinside.append
      have hproper := hleaf.proper
      have hproperLast := hlast.proper
      have hle := hlaidBelow.le
      have hheadLast := hlaidLast.head
      -- what is reported below begins between the two tags, so nothing is reported of them
      have hplace : ∀ note ∈ inner,
          leaf.range.stop ≤ note.range.start ∧ note.range.start < middle :=
        fun note hnote => hbelow.place_of_note hlaidBelow hnote
      refine .closed hopens hawaits hall ⟨_, _, _, _, hbelow, hlaidBelow, ?_⟩ hends ?_ ?_
      · exact hagree.trans (NotesAgree.refl _ _ _) (by omega) (by omega)
      · rw [hagree leaf.range (by omega) (by omega)]
        exact notesOver_eq_nil fun note hnote => by have := hplace note hnote; omega
      · rw [hagree last.range (by omega) (by omega)]
        exact notesOver_eq_nil fun note hnote => by have := hplace note hnote; omega
  | @unclosed _ _ _ leaf tag below inner hkind hall hleaf hawaits hbelow =>
      have hopens : node.OpensWith rules leaf tag :=
        ⟨by simp [hall], hleaf.tag, Rules.form_of_awaits hawaits, hkind⟩
      obtain ⟨hfirst, hinside⟩ := hlaid.inside hall
      have hproper := hleaf.proper
      have hle := hinside.le
      have hplace : (leaf.unclosed tag).range.start = leaf.range.start := rfl
      refine .unclosed hopens hawaits hall ⟨_, _, _, _, hbelow, hinside, ?_⟩ ?_
      · have hinner :
            NotesAgree leaf.range.stop node.range.stop (inner ++ [leaf.unclosed tag]) inner :=
          (NotesAgree.refl _ _ _).append_right (List.forall_mem_singleton.2 (by omega))
        exact hagree.trans hinner (by omega) (by omega)
      · have hinner : notesOver inner leaf.range = [] := notesOver_eq_nil fun note hnote => by
          have hplace := hbelow.place_of_note hinside hnote
          omega
        rw [hagree leaf.range (by omega) (by omega), notesOver_append, hinner, List.nil_append]
        exact notesOver_self _

end Accounted

namespace Element

/-- A tag in an element opens it, ends it, or is stray. -/
theorem of_child (h : Element lines rules around notes node) (hchild : child ∈ node.children)
    (htag : child.leafTag? = some closing) :
    node.OpensWith rules child closing
      ∨ (closing.form = .closing ∧ node.EndsWith rules child ∧ notesOver notes child.range = [])
      ∨ ∃ leaf tag, node.OpensWith rules leaf tag
          ∧ child.IsStray rules (tag.name :: around) notes closing := by
  cases h with
  | alone hopens _ hall _ =>
      rw [hall, List.mem_singleton] at hchild
      subst hchild
      obtain rfl := hopens.tag_eq htag
      exact .inl hopens
  | closed hopens _ hall hbelow hends _ hnotes =>
      rw [hall, List.mem_cons, List.mem_append, List.mem_singleton] at hchild
      rcases hchild with rfl | hchild | rfl
      · obtain rfl := hopens.tag_eq htag
        exact .inl hopens
      · exact .inr (.inr ⟨_, _, hopens, hbelow.isStray hchild htag⟩)
      · obtain ⟨_, _, tag, _, _, _, hlast, hform, _⟩ := id hends
        obtain rfl := Option.some.inj (htag.symm.trans hlast)
        exact .inr (.inl ⟨hform, hends, hnotes⟩)
  | unclosed hopens _ hall hbelow _ =>
      rw [hall, List.mem_cons] at hchild
      rcases hchild with rfl | hchild
      · obtain rfl := hopens.tag_eq htag
        exact .inl hopens
      · exact .inr (.inr ⟨_, _, hopens, hbelow.isStray hchild htag⟩)

/-- All elements in an element that waits for its closing tag are within it. -/
theorem exists_inside (h : Element lines rules around notes node)
    (hopens : node.OpensWith rules leaf tag) (hawaits : rules.awaits tag = true) :
    ∃ below, Accounted lines rules (tag.name :: around) notes below
      ∧ ∀ other ∈ node.children, other.children ≠ [] → other ∈ below := by
  cases h with
  | alone hopens' hawaits' =>
      obtain ⟨-, rfl⟩ := hopens.unique hopens'
      rw [hawaits] at hawaits'
      cases hawaits'
  | @closed _ _ _ below hopens' _ hall hbelow hends =>
      obtain ⟨rfl, rfl⟩ := hopens.unique hopens'
      obtain ⟨_, _, _, _, _, _, hlast, _⟩ := hends
      refine ⟨below, hbelow, fun other hother hchildren => ?_⟩
      rw [hall, List.mem_cons, List.mem_append, List.mem_singleton] at hother
      rcases hother with rfl | hother | rfl
      · exact absurd (Node.children_of_leafTag? hopens.leafTag) hchildren
      · exact hother
      · exact absurd (Node.children_of_leafTag? hlast) hchildren
  | @unclosed _ _ below hopens' _ hall hbelow =>
      obtain ⟨rfl, rfl⟩ := hopens.unique hopens'
      refine ⟨below, hbelow, fun other hother hchildren => ?_⟩
      rw [hall, List.mem_cons] at hother
      rcases hother with rfl | hother
      · exact absurd (Node.children_of_leafTag? hopens.leafTag) hchildren
      · exact hother

/-- A closing tag that does not end the element it is in is stray there. -/
theorem isStray (h : Element lines rules around notes node) (hopens : node.OpensWith rules leaf tag)
    (hchild : child ∈ node.children) (htag : child.leafTag? = some closing)
    (hform : closing.form = .closing) (hends : ¬ node.EndsWith rules child) :
    child.IsStray rules (tag.name :: around) notes closing := by
  rcases h.of_child hchild htag with hfirst | ⟨-, hlast, -⟩ | ⟨leaf', tag', hopens', hstray⟩
  · exact absurd hform hfirst.form
  · exact absurd hlast hends
  · obtain ⟨-, rfl⟩ := hopens.unique hopens'
    exact hstray

theorem isElement (h : Element lines rules around notes node) : node.IsElement rules notes := by
  cases h with
  | alone hopens hawaits hall hnotes => exact .alone hopens hawaits hall hnotes
  | closed hopens hawaits _ _ hends hnotes _ => exact .closed hopens hawaits hends hnotes
  | @unclosed leaf tag below hopens hawaits hall hbelow hnotes =>
      refine .unclosed hopens hawaits (fun last hends => ?_) hnotes
      obtain ⟨_, _, closing, _, _, hmem, hlast, hform, _⟩ := id hends
      have hchild := List.mem_of_mem_getLast? hmem
      rw [hall, List.mem_cons] at hchild
      rcases hchild with rfl | hchild
      · obtain rfl := hopens.tag_eq hlast
        exact hopens.form hform
      · have hname := (hbelow.isStray hchild hlast).names tag.name List.mem_cons_self
        exact hopens.not_endsWith hlast hname hends

end Element

/-- A stray tag is of none of the names around it, however deep it is. -/
theorem Accounted.names_of_hasStray (h : Accounted lines rules around notes nodes)
    (hnode : node ∈ nodes) (hstray : node.HasStray rules leaf tag) :
    ∀ name ∈ around, rules.sameName name tag.name = false := by
  obtain ⟨parent, hparent, hleaf, htag, hform, hends⟩ := hstray
  have hchildren := List.ne_nil_of_mem hleaf
  obtain ⟨outer, hsub, hown⟩ := h.within (List.mem_flatMap.2 ⟨node, hnode, hparent⟩) hchildren
  have helement := hown.element hchildren
  rcases helement.of_child hleaf htag with hfirst | ⟨-, hlast, -⟩ | ⟨_, _, _, hnames⟩
  · exact absurd hform hfirst.form
  · exact absurd hlast hends
  · exact fun name hname => hnames.names name (List.mem_cons_of_mem _ (hsub hname))

/-- A stray tag in an element that waits for its closing tag is not of its name. -/
theorem Element.name_of_hasStray (h : Element lines rules around notes node)
    (hopens : node.OpensWith rules leaf tag) (hawaits : rules.awaits tag = true)
    (hstray : node.HasStray rules child closing) :
    rules.sameName tag.name closing.name = false := by
  obtain ⟨parent, hparent, hchild, htag, hform, hends⟩ := hstray
  rcases Node.mem_descendants_iff.1 hparent with rfl | hparent
  · exact (h.isStray hopens hchild htag hform hends).names _ List.mem_cons_self
  · obtain ⟨other, hother, hparent⟩ := List.mem_flatMap.1 hparent
    have hstray : other.HasStray rules child closing :=
      ⟨parent, hparent, hchild, htag, hform, hends⟩
    obtain ⟨below, hbelow, hinside⟩ := h.exists_inside hopens hawaits
    exact hbelow.names_of_hasStray (hinside other hother hstray.children_ne_nil) hstray _
      List.mem_cons_self

/-! ## Who is blamed -/

/-- What is reported of siblings is that an element is not ended, or that a tag is stray. -/
theorem Outline.blames {tail : List (List Char)} (h : Outline rules around nodes tail notes)
    {note : Diagnostic} (hnote : note ∈ notes) :
    ∃ node ∈ nodes.flatMap Node.descendants,
      (∃ leaf tag, node.OpensWith rules leaf tag ∧ rules.awaits tag = true
          ∧ note = leaf.unclosed tag)
        ∨ ∃ tag, node.leafTag? = some tag ∧ tag.form = .closing ∧ note = node.stray tag := by
  have hrest : ∀ {first : Node} {rest : List Node} {blamed : Node → Prop},
      (∃ node ∈ rest.flatMap Node.descendants, blamed node) →
        ∃ node ∈ (first :: rest).flatMap Node.descendants, blamed node := by
    rintro first rest blamed ⟨node, hnode, hblamed⟩
    exact ⟨node, List.mem_append_right _ hnode, hblamed⟩
  induction h with
  | nil => cases hnote
  | leaf _ _ _ _ ih => exact hrest (ih hnote)
  | @stray _ _ leaf tag _ _ hleaf hform _ _ ih =>
      rcases List.mem_cons.1 hnote with rfl | hnote
      · exact ⟨leaf, List.mem_append_left _ leaf.self_mem_descendants,
          .inr ⟨tag, hleaf.tag, hform, rfl⟩⟩
      · exact hrest (ih hnote)
  | alone _ _ _ _ _ _ ih => exact hrest (ih hnote)
  | closed _ hall _ _ _ _ _ _ _ _ ihBelow ihRest =>
      rcases List.mem_append.1 hnote with hnote | hnote
      · obtain ⟨node, hnode, hblames⟩ := ihBelow hnote
        refine ⟨node, List.mem_append_left _ (Node.mem_descendants_iff.2 (.inr ?_)), hblames⟩
        rw [hall, List.flatMap_cons, List.flatMap_append]
        exact List.mem_append_right _ (List.mem_append_left _ hnode)
      · exact hrest (ihRest hnote)
  | @unclosed _ _ node leaf tag _ _ hkind hall hleaf hawaits _ ih =>
      rcases List.mem_append.1 hnote with hnote | hnote
      · obtain ⟨node, hnode, hblames⟩ := ih hnote
        refine ⟨node, List.mem_append_left _ (Node.mem_descendants_iff.2 (.inr ?_)), hblames⟩
        rw [hall, List.flatMap_cons]
        exact List.mem_append_right _ hnode
      · refine ⟨node, List.mem_append_left _ node.self_mem_descendants, .inl ⟨leaf, tag, ?_⟩⟩
        exact ⟨⟨by simp [hall], hleaf.tag, Rules.form_of_awaits hawaits, hkind⟩, hawaits,
          List.mem_singleton.1 hnote⟩

/-- The tree of a text stands outside all elements. -/
theorem accounted_build (rules : Rules) (text : List Char) :
    Accounted (Parse.build (grammar rules) text).lines rules []
      (Parse.build (grammar rules) text).notes
      (Parse.build (grammar rules) text).root.children := by
  obtain ⟨tail, houtline⟩ := outline_build rules text
  have hfits : (Parse.build (grammar rules) text).root.All
      (Node.Fits (Parse.build (grammar rules) text).lines False) :=
    Grammar.fits_pair (fun h => h.elim) _
  by_cases hchildren : (Parse.build (grammar rules) text).root.children = []
  · exact ⟨0, 0, tail, _, houtline, ⟨by rw [hchildren]; rfl, hfits.children⟩, .refl _ _ _⟩
  · exact ⟨_, _, tail, _, houtline, .children hfits hchildren, .refl _ _ _⟩

namespace Accounted

variable {root parent : Node}

/-- Each node with children below the root is an element. -/
theorem exists_element (h : Accounted lines rules around notes nodes)
    (hnode : node ∈ nodes.flatMap Node.descendants) (hchildren : node.children ≠ []) :
    ∃ outer, Element lines rules outer notes node := by
  obtain ⟨outer, -, hown⟩ := h.within hnode hchildren
  exact ⟨outer, hown.element hchildren⟩

/-- A tag opens the element that it is in, ends it, or is stray. -/
theorem of_child (h : Accounted lines rules [] notes root.children)
    (hparent : parent ∈ root.descendants) (hleaf : leaf ∈ parent.children)
    (htag : leaf.leafTag? = some tag) :
    parent.OpensWith rules leaf tag
      ∨ tag.form = .closing
        ∧ ((parent.EndsWith rules leaf ∧ notesOver notes leaf.range = [])
          ∨ (¬ parent.EndsWith rules leaf ∧ notesOver notes leaf.range = [leaf.stray tag])) := by
  rcases Node.mem_descendants_iff.1 hparent with rfl | hparent
  · have hstray := h.isStray hleaf htag
    refine .inr ⟨hstray.form, .inr ⟨?_, hstray.notes⟩⟩
    rintro ⟨_, _, _, hopens, -⟩
    exact h.not_opensWith hopens
  · obtain ⟨outer, helement⟩ := h.exists_element hparent (List.ne_nil_of_mem hleaf)
    rcases helement.of_child hleaf htag with hopens | ⟨hform, hends⟩ | ⟨_, _, hopens, hstray⟩
    · exact .inl hopens
    · exact .inr ⟨hform, .inl hends⟩
    · have hname := hstray.names _ List.mem_cons_self
      exact .inr ⟨hstray.form, .inr ⟨hopens.not_endsWith htag hname, hstray.notes⟩⟩

end Accounted

end Markup

/-! ## The account of a text -/

/-- How the nodes of a paired markup text account for its tags, and what is reported of them. -/
structure Parse.AccountsForTags (rules : Rules) (parse : Parse) : Prop where
  /-- The tags of the tree are those of the text. -/
  tags : parse.root.tags = (Markup.table.scan parse.lines.text).filterMap Span.tag?
  /-- Each node with children below the root is an element.  It is opened by its first child.  If
  that is an empty tag or has a void name, it is the only child.  Otherwise either a closing tag
  of the same name ends the element and nothing is reported of the opening tag, or the opening
  tag has one warning. -/
  elements : ∀ node ∈ parse.root.children.flatMap Node.descendants, node.children ≠ [] →
    node.IsElement rules parse.notes
  /-- Each opening or empty tag opens the element that it is in. -/
  openers : ∀ parent ∈ parse.root.descendants, ∀ leaf ∈ parent.children, ∀ tag,
    leaf.leafTag? = some tag → tag.form ≠ .closing → parent.OpensWith rules leaf tag
  /-- Each closing tag either ends the element that it is in, and nothing is reported of it, or it
  has one warning. -/
  closers : ∀ parent ∈ parse.root.descendants, ∀ leaf ∈ parent.children, ∀ tag,
    leaf.leafTag? = some tag → tag.form = .closing →
      (parent.EndsWith rules leaf ∧ notesOver parse.notes leaf.range = [])
        ∨ (¬ parent.EndsWith rules leaf ∧ notesOver parse.notes leaf.range = [leaf.stray tag])
  /-- A closing tag that does not end the element it is in stands in no element that an opening
  tag of its name opens, void ones apart. -/
  apart : ∀ above ∈ parse.root.descendants, ∀ first opening, above.OpensWith rules first opening →
    rules.awaits opening = true → ∀ leaf tag, above.HasStray rules leaf tag →
      rules.sameName opening.name tag.name = false
  /-- Nothing else is reported. -/
  notes : ∀ note ∈ parse.notes,
    (∃ node ∈ parse.root.descendants, ∃ leaf tag, node.OpensWith rules leaf tag
        ∧ rules.awaits tag = true ∧ (∀ last, ¬ node.EndsWith rules last)
        ∧ note = leaf.unclosed tag)
      ∨ ∃ leaf tag, parse.root.HasStray rules leaf tag ∧ note = leaf.stray tag
  /-- Nothing is reported exactly if the tags that pair are well nested: the opening tags, those of
  void names apart, and the closing tags. -/
  silent : parse.notes = [] ↔ rules.Nested (parse.root.tags.filter rules.pairs)

/-- Pairing accounts for all tags of a markup text. -/
theorem Parse.accounts_for_tags (rules : Rules) (text : List Char) :
    (build (Markup.grammar rules) text).AccountsForTags rules := by
  obtain ⟨tail, houtline⟩ := Markup.outline_build rules text
  have haccounted := Markup.accounted_build rules text
  constructor
  case tags => exact Markup.tags_build rules text
  case elements =>
    intro node hnode hchildren
    obtain ⟨outer, helement⟩ := haccounted.exists_element hnode hchildren
    exact helement.isElement
  case openers =>
    intro parent hparent leaf hleaf tag htag hform
    exact (haccounted.of_child hparent hleaf htag).resolve_right fun hclosing => hform hclosing.1
  case closers =>
    intro parent hparent leaf hleaf tag htag hform
    rcases haccounted.of_child hparent hleaf htag with hopens | ⟨-, hclosing⟩
    · exact absurd hform hopens.form
    · exact hclosing
  case apart =>
    intro above habove first opening hopens hawaits leaf tag hstray
    rcases Node.mem_descendants_iff.1 habove with rfl | habove
    · exact absurd hopens haccounted.not_opensWith
    · obtain ⟨outer, helement⟩ := haccounted.exists_element habove hopens.children_ne_nil
      exact helement.name_of_hasStray hopens hawaits hstray
  case notes =>
    intro note hnote
    obtain ⟨node, hnode, ⟨leaf, tag, hopens, hawaits, rfl⟩ | ⟨tag, htag, hform, rfl⟩⟩ :=
      houtline.blames hnote
    · obtain ⟨outer, helement⟩ := haccounted.exists_element hnode hopens.children_ne_nil
      exact .inl ⟨node, Node.mem_descendants_iff.2 (.inr hnode), leaf, tag, hopens, hawaits,
        helement.isElement.not_endsWith hopens hawaits hnote, rfl⟩
    · obtain ⟨parent, hparent, hchild⟩ := Node.exists_parent hnode
      rcases haccounted.of_child hparent hchild htag with hopens | ⟨-, ⟨-, hnil⟩ | ⟨hends, -⟩⟩
      · exact absurd hform hopens.form
      · exact absurd (mem_notesOver hnote) (hnil ▸ List.not_mem_nil)
      · exact .inr ⟨node, tag, ⟨parent, hparent, hchild, htag, hform, hends⟩, rfl⟩
  case silent =>
    have hkind : (build (Markup.grammar rules) text).root.kind = .root := rfl
    rw [Node.tags_of_kind (by simp [hkind])]
    exact houtline.notes_eq_nil_iff

end ConcreteSyntax
