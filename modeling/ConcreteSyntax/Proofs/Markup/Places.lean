import ConcreteSyntax.Proofs.Markup.Outline
import ConcreteSyntax.Proofs.Pairing.Nesting

/-!
# Places in an outline

The nodes of an outline stand side by side, and what is reported of them begins where they stand
(`Markup.Outline.place_of_note`).  So each element of an outline has an outline of its own, which
says all that is reported between its ends (`Markup.Outline.within`).
-/

namespace ConcreteSyntax

/-! ## Side by side -/

/-- Whether nodes stand side by side in a text from `start` to `stop`, and fit it. -/
structure Laid (lines : LineIndex) (start : Nat) (nodes : List Node) (stop : Nat) : Prop where
  abut : Abut start nodes stop
  fits : ∀ node ∈ nodes, node.All (Node.Fits lines False)

namespace Laid

variable {lines : LineIndex} {start stop : Nat} {node : Node} {nodes rest : List Node}

theorem le (h : Laid lines start nodes stop) : start ≤ stop := h.abut.le

theorem tail (h : Laid lines start (node :: rest) stop) : Laid lines node.range.stop rest stop :=
  ⟨h.abut.2, fun other hother => h.fits other (List.mem_cons_of_mem _ hother)⟩

/-- Where the first of some nodes stands. -/
theorem head (h : Laid lines start (node :: rest) stop) :
    node.range.start = start ∧ start ≤ node.range.stop ∧ node.range.stop ≤ stop := by
  have hnode := node.range.start_le_stop
  have hstart := h.abut.1
  have hle := h.tail.le
  omega

theorem append {others : List Node} (h : Laid lines start (nodes ++ others) stop) :
    ∃ middle, Laid lines start nodes middle ∧ Laid lines middle others stop := by
  obtain ⟨middle, hnodes, hothers⟩ := abut_append.1 h.abut
  have hfits := List.forall_mem_append.1 h.fits
  exact ⟨middle, ⟨hnodes, hfits.1⟩, hothers, hfits.2⟩

theorem single (h : node.All (Node.Fits lines False)) :
    Laid lines node.range.start [node] node.range.stop := ⟨⟨rfl, rfl⟩, by simpa using h⟩

/-- The children of a node take its whole range. -/
theorem children (h : node.All (Node.Fits lines False)) (hchildren : node.children ≠ []) :
    Laid lines node.range.start node.children node.range.stop :=
  ⟨h.self.tiled hchildren, h.children⟩

/-- All that is below nodes lies in their place. -/
theorem range_below (h : Laid lines start nodes stop) {below : Node}
    (hbelow : below ∈ nodes.flatMap Node.descendants) :
    start ≤ below.range.start ∧ below.range.stop ≤ stop := by
  induction nodes generalizing start with
  | nil => cases hbelow
  | cons node rest ih =>
      have hhead := h.head
      rw [List.flatMap_cons, List.mem_append] at hbelow
      rcases hbelow with hbelow | hbelow
      · have hrange := Node.range_below (h.fits node List.mem_cons_self) hbelow
        omega
      · have hrange := ih h.tail hbelow
        omega

theorem range_of_mem (h : Laid lines start nodes stop) (hnode : node ∈ nodes) :
    start ≤ node.range.start ∧ node.range.stop ≤ stop :=
  h.range_below (List.mem_flatMap.2 ⟨node, hnode, node.self_mem_descendants⟩)

/-- What stands in the first of some nodes, behind its first child. -/
theorem inside (h : Laid lines start (node :: rest) stop) {leaf : Node} {below : List Node}
    (hchildren : node.children = leaf :: below) :
    leaf.range.start = start ∧ Laid lines leaf.range.stop below node.range.stop := by
  have hall := children (h.fits node List.mem_cons_self) (by simp [hchildren])
  rw [hchildren] at hall
  exact ⟨hall.abut.1.trans h.abut.1, hall.tail⟩

end Laid

/-! ## Notes over a range -/

/-- Whether the same notes are over each range that begins from `start` up to `stop`. -/
def NotesAgree (start stop : Nat) (notes part : List Diagnostic) : Prop :=
  ∀ range : Range, start ≤ range.start → range.start < stop →
    notesOver notes range = notesOver part range

namespace NotesAgree

variable {start stop : Nat} {notes part more : List Diagnostic}

theorem refl (start stop : Nat) (notes : List Diagnostic) : NotesAgree start stop notes notes :=
  fun _ _ _ => rfl

theorem trans (h : NotesAgree start stop notes part) {first last : Nat}
    (hpart : NotesAgree first last part more) (hstart : start ≤ first) (hstop : last ≤ stop) :
    NotesAgree first last notes more := fun range hfirst hlast =>
  (h range (Nat.le_trans hstart hfirst) (Nat.lt_of_lt_of_le hlast hstop)).trans
    (hpart range hfirst hlast)

theorem append_right (h : NotesAgree start stop notes part)
    (hmore : ∀ note ∈ more, note.range.start < start ∨ stop ≤ note.range.start) :
    NotesAgree start stop (notes ++ more) part := by
  intro range hstart hstop
  have hnil : notesOver more range = [] := notesOver_eq_nil fun note hnote => by
    have hplace := hmore note hnote
    omega
  rw [notesOver_append, hnil, List.append_nil, h range hstart hstop]

theorem append_left (h : NotesAgree start stop notes part)
    (hmore : ∀ note ∈ more, note.range.start < start ∨ stop ≤ note.range.start) :
    NotesAgree start stop (more ++ notes) part := by
  intro range hstart hstop
  have hnil : notesOver more range = [] := notesOver_eq_nil fun note hnote => by
    have hplace := hmore note hnote
    omega
  rw [notesOver_append, hnil, List.nil_append, h range hstart hstop]

theorem cons (h : NotesAgree start stop notes part) {note : Diagnostic}
    (hnote : note.range.start < start ∨ stop ≤ note.range.start) :
    NotesAgree start stop (note :: notes) part :=
  h.append_left (List.forall_mem_singleton.2 hnote)

end NotesAgree

/-! ## Outlines -/

namespace Markup.Outline

variable {rules : Rules} {around tail : List (List Char)} {notes : List Diagnostic}
  {nodes : List Node} {lines : LineIndex} {start stop : Nat}

/-- What is reported of siblings begins where they stand. -/
theorem place_of_note (h : Outline rules around nodes tail notes)
    (hlaid : Laid lines start nodes stop) {note : Diagnostic} (hnote : note ∈ notes) :
    start ≤ note.range.start ∧ note.range.start < stop := by
  induction h generalizing start stop with
  | nil => cases hnote
  | leaf _ _ _ _ ih =>
      have hhead := hlaid.head
      have hplace := ih hlaid.tail hnote
      omega
  | @stray _ _ leaf tag _ _ hleaf _ _ _ ih =>
      have hhead := hlaid.head
      rcases List.mem_cons.1 hnote with rfl | hnote
      · have hproper := hleaf.proper
        have hplace : (leaf.stray tag).range.start = leaf.range.start := rfl
        omega
      · have hplace := ih hlaid.tail hnote
        omega
  | alone _ _ _ _ _ _ ih =>
      have hhead := hlaid.head
      have hplace := ih hlaid.tail hnote
      omega
  | @closed _ _ _ _ leaf _ _ _ _ _ _ _ _ hchildren _ _ _ _ _ _ _ _ ihBelow ihRest =>
      have hhead := hlaid.head
      rcases List.mem_append.1 hnote with hnote | hnote
      · obtain ⟨hfirst, hinside⟩ := hlaid.inside hchildren
        obtain ⟨middle, hbelow, hlast⟩ := hinside.append
        have hleaf := leaf.range.start_le_stop
        have hend := hlast.le
        have hplace := ihBelow hbelow hnote
        omega
      · have hplace := ihRest hlaid.tail hnote
        omega
  | @unclosed _ _ _ leaf tag _ _ _ hchildren hleaf _ _ ih =>
      have hhead := hlaid.head
      have hproper := hleaf.proper
      obtain ⟨hfirst, hinside⟩ := hlaid.inside hchildren
      rcases List.mem_append.1 hnote with hnote | hnote
      · have hplace := ih hinside hnote
        omega
      · obtain rfl := List.mem_singleton.1 hnote
        have hle := hinside.le
        have hplace : (leaf.unclosed tag).range.start = leaf.range.start := rfl
        omega

/-- Each element has an outline within the elements around it, and between its ends nothing else
is reported. -/
theorem within (h : Outline rules around nodes tail notes) (hlaid : Laid lines start nodes stop)
    {node : Node} (hnode : node ∈ nodes.flatMap Node.descendants) (hchildren : node.children ≠ []) :
    ∃ outer inner part, around ⊆ outer ∧ Outline rules outer [node] inner part
      ∧ NotesAgree node.range.start node.range.stop notes part := by
  induction h generalizing start stop with
  | nil => cases hnode
  | leaf hnil _ _ _ ih =>
      rw [List.flatMap_cons, List.mem_append] at hnode
      rcases hnode with hnode | hnode
      · exact absurd hnode (Node.notMem_descendants hnil hchildren)
      · exact ih hlaid.tail hnode
  | @stray _ _ leaf tag _ _ hleaf _ _ _ ih =>
      rw [List.flatMap_cons, List.mem_append] at hnode
      rcases hnode with hnode | hnode
      · exact absurd hnode (Node.notMem_descendants (Node.children_of_leafTag? hleaf.tag) hchildren)
      · obtain ⟨outer, inner, part, hsub, helement, hagree⟩ := ih hlaid.tail hnode
        refine ⟨outer, inner, part, hsub, helement, hagree.cons (.inl ?_)⟩
        have hproper := hleaf.proper
        have hrange := hlaid.tail.range_below hnode
        have hplace : (leaf.stray tag).range.start = leaf.range.start := rfl
        omega
  | alone hkind hsingle hleaf hform hawaits hrest ih =>
      rw [List.flatMap_cons, List.mem_append, Node.mem_descendants_iff, hsingle,
        List.flatMap_singleton] at hnode
      rcases hnode with (rfl | hnode) | hnode
      -- the element itself: what is reported behind it begins at its end or later
      · refine ⟨_, [], [], List.Subset.refl _, .alone hkind hsingle hleaf hform hawaits .nil, ?_⟩
        exact (NotesAgree.refl _ _ []).append_right fun note hnote =>
          .inr (hrest.place_of_note hlaid.tail hnote).1
      · exact absurd hnode (Node.notMem_descendants (Node.children_of_leafTag? hleaf.tag) hchildren)
      · exact ih hlaid.tail hnode
  | closed hkind hall hleaf hawaits hlast hform hsame hnames hbelow hrest ihBelow ihRest =>
      rw [List.flatMap_cons, List.mem_append, Node.mem_descendants_iff, hall, List.flatMap_cons,
        List.flatMap_append, List.flatMap_singleton, List.mem_append, List.mem_append] at hnode
      rcases hnode with (rfl | hnode | hnode | hnode) | hnode
      · refine ⟨_, [], _, List.Subset.refl _,
          .closed hkind hall hleaf hawaits hlast hform hsame hnames hbelow .nil, ?_⟩
        rw [List.append_nil]
        exact (NotesAgree.refl _ _ _).append_right fun note hnote =>
          .inr (hrest.place_of_note hlaid.tail hnote).1
      · exact absurd hnode (Node.notMem_descendants (Node.children_of_leafTag? hleaf.tag) hchildren)
      · obtain ⟨hfirst, hinside⟩ := hlaid.inside hall
        -- the closing tag keeps what is below apart from what is reported behind the element
        obtain ⟨middle, hlaidBelow, hlaidLast⟩ := hinside.append
        obtain ⟨outer, inner, part, hsub, helement, hagree⟩ := ihBelow hlaidBelow hnode
        refine ⟨outer, inner, part, List.Subset.trans (List.subset_cons_self ..) hsub, helement,
          hagree.append_right fun note hnote => .inr ?_⟩
        have hplace := hrest.place_of_note hlaid.tail hnote
        have hrange := hlaidBelow.range_below hnode
        have hle := hlaidLast.le
        omega
      · exact absurd hnode (Node.notMem_descendants (Node.children_of_leafTag? hlast.tag) hchildren)
      · obtain ⟨outer, inner, part, hsub, helement, hagree⟩ := ihRest hlaid.tail hnode
        refine ⟨outer, inner, part, hsub, helement, hagree.append_left fun note hnote => .inl ?_⟩
        obtain ⟨hfirst, hinside⟩ := hlaid.inside hall
        obtain ⟨middle, hlaidBelow, hlaidLast⟩ := hinside.append
        have hplace := hbelow.place_of_note hlaidBelow hnote
        have hrange := hlaid.tail.range_below hnode
        have hle := hlaidLast.le
        omega
  | @unclosed _ _ _ leaf tag _ _ hkind hall hleaf hawaits hbelow ih =>
      rw [List.flatMap_singleton, Node.mem_descendants_iff, hall, List.flatMap_cons,
        List.mem_append] at hnode
      rcases hnode with rfl | hnode | hnode
      · exact ⟨_, _, _, List.Subset.refl _, .unclosed hkind hall hleaf hawaits hbelow,
          NotesAgree.refl _ _ _⟩
      · exact absurd hnode (Node.notMem_descendants (Node.children_of_leafTag? hleaf.tag) hchildren)
      · obtain ⟨hfirst, hinside⟩ := hlaid.inside hall
        obtain ⟨outer, inner, part, hsub, helement, hagree⟩ := ih hinside hnode
        refine ⟨outer, inner, part, List.Subset.trans (List.subset_cons_self ..) hsub, helement,
          hagree.append_right fun note hnote => .inl ?_⟩
        obtain rfl := List.mem_singleton.1 hnote
        have hproper := hleaf.proper
        have hrange := hinside.range_below hnode
        have hplace : (leaf.unclosed tag).range.start = leaf.range.start := rfl
        omega

end Markup.Outline

end ConcreteSyntax
