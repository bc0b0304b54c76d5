import ConcreteSyntax.Proofs.Pairing.Containers
import ConcreteSyntax.Proofs.Pairing.Nesting

/-!
# Markers of a grouping

The nodes that a grouping shows hold a container for each opener in it and a leaf for each closer
that closes nothing (`Grouping.exists_box`, `Grouping.exists_stray`), and no other containers,
delimited ones apart (`Grouping.isContainerOf`).  The sequences of spans that a text is scanned
into are those of its grouping and of all interiors in it (`Grouping.scans_iff`).
-/

namespace ConcreteSyntax

/-- The sequences of spans that a text is scanned into: that of the whole text, and those of the
interiors of delimited containers. -/
inductive Table.Scans (table : Table) (text : List Char) : List Span → Prop
  | whole : Scans table text (table.scan text)
  | interior {spans : List Span} {kind : Kind} {opening interior closing : Fragment} :
      Scans table text spans → .delimited kind opening interior closing ∈ spans →
        Scans table text (table.scanInterior text kind interior)

/-- Whether a node is a container of a grouping. -/
structure Node.IsBox (node : Node) (box : Grouping.Box) : Prop where
  opens : node.Opens box.kind box.opening
  stop : node.range.stop = box.stop
  closes : ∀ closing, box.closing? = some closing → node.Closes closing

namespace Grouping

variable {table : Table} {lines : LineIndex} {group : Grouping} {around : List Kind}
  {start stop : Nat} {nodes : List Node}

/-! ## Nodes of a grouping -/

theorem isBox_unclosed (index first : Nat) {kind : Kind} {opening : Fragment} (below : List Node)
    (hstop : opening.start ≤ stop) :
    Node.IsBox ⟨.ofRange lines (.fresh index) kind (.upTo opening.start stop),
      opening.marker lines first :: below⟩ ⟨kind, opening, none, stop⟩ where
  opens := ⟨rfl, rfl, _, below, rfl, Node.isMarker_marker _ _ _⟩
  stop := Nat.max_eq_left hstop
  closes := by simp

theorem isBox_closed (index first last : Nat) {kind : Kind} {opening closing : Fragment}
    (below : List Node) (hstop : opening.start ≤ closing.stop) :
    Node.IsBox ⟨.ofRange lines (.fresh index) kind (.upTo opening.start closing.stop),
      opening.marker lines first :: (below ++ [closing.marker lines last])⟩
      ⟨kind, opening, some closing, closing.stop⟩ where
  opens := ⟨rfl, rfl, _, _, rfl, Node.isMarker_marker _ _ _⟩
  stop := Nat.max_eq_left hstop
  closes _ hclosing := by
    obtain rfl := Option.some.inj hclosing
    exact ⟨Nat.max_eq_left hstop, opening.marker lines first :: below, _, rfl,
      Node.isMarker_marker _ _ _⟩

/-- The nodes inside the first container of a list are among all nodes. -/
theorem mem_inside {label : Label} {first node : Node} {below last others : List Node}
    (h : node ∈ below.flatMap Node.descendants) :
    node ∈ ((⟨label, first :: (below ++ last)⟩ : Node) :: others).flatMap Node.descendants := by
  rw [List.flatMap_cons, Node.descendants_mk, List.flatMap_cons, List.flatMap_append]
  simp [h]

theorem mem_behind {first node : Node} {others : List Node}
    (h : node ∈ others.flatMap Node.descendants) :
    node ∈ (first :: others).flatMap Node.descendants := by
  rw [List.flatMap_cons]
  exact List.mem_append_right _ h

/-- How a grouping stands within a whole: its nodes, notes and paired markers are among those
of the whole. -/
structure Stands (lines : LineIndex) (table : Table) (all : List Node) (notes : List Diagnostic)
    (matched : List Nat) (group : Grouping) (around : List Kind) (start stop : Nat) : Prop where
  sound : group.Sound table lines.text around
  placed : group.Placed start stop
  shows : ∃ nodes, group.Shows lines stop nodes ∧ nodes.flatMap Node.descendants ⊆ all
  notes : group.notes ⊆ notes
  matched : group.matched ⊆ matched

variable {all : List Node} {notes : List Diagnostic} {matched : List Nat}

/-- The groupings of interiors stand within the whole as well. -/
theorem Stands.part (h : group.Stands lines table all notes matched around start stop)
    {part : Fragment × Grouping} (hpart : part ∈ group.interiors) :
    part.2.Stands lines table all notes matched [] part.1.start part.1.stop := by
  induction group generalizing around start stop with
  | nil => simp [interiors] at hpart
  | leaf kind text rest ih =>
      obtain ⟨_, ⟨index, others, rfl, hothers⟩, hnodes⟩ := h.shows
      exact ih ⟨h.sound, h.placed.2, ⟨others, hothers, fun _ h => hnodes (mem_behind h)⟩, h.notes,
        h.matched⟩ hpart
  | stray kind text rest ih =>
      obtain ⟨_, ⟨index, others, rfl, hothers⟩, hnodes⟩ := h.shows
      exact ih ⟨h.sound.2, h.placed.2.2, ⟨others, hothers, fun _ h => hnodes (mem_behind h)⟩,
        List.Subset.trans (List.subset_cons_self ..) h.notes, h.matched⟩ hpart
  | delimited kind opening interior closing inside rest ihInside ihRest =>
      obtain ⟨_, ⟨index, first, last, below, others, rfl, hbelow, hothers⟩, hnodes⟩ := h.shows
      obtain ⟨_, hsoundInside, hsoundRest⟩ := h.sound
      obtain ⟨_, _, hplacedInside, _, hplacedRest⟩ := h.placed
      have hinside : inside.Stands lines table all notes matched [] interior.start interior.stop :=
        ⟨hsoundInside, hplacedInside, ⟨below, hbelow, fun _ h => hnodes (mem_inside h)⟩,
          List.Subset.trans (List.subset_append_left ..) h.notes,
          List.Subset.trans (List.subset_append_left ..) h.matched⟩
      have hrest : rest.Stands lines table all notes matched around closing.stop stop :=
        ⟨hsoundRest, hplacedRest, ⟨others, hothers, fun _ h => hnodes (mem_behind h)⟩,
          List.Subset.trans (List.subset_append_right ..) h.notes,
          List.Subset.trans (List.subset_append_right ..) h.matched⟩
      rw [interiors, List.mem_cons, List.mem_append] at hpart
      rcases hpart with rfl | hpart | hpart
      · exact hinside
      · exact ihInside hinside hpart
      · exact ihRest hrest hpart
  | closed kind opening inside closing rest ihInside ihRest =>
      obtain ⟨_, ⟨index, first, last, below, others, rfl, hbelow, hothers⟩, hnodes⟩ := h.shows
      obtain ⟨_, hsoundInside, hsoundRest⟩ := h.sound
      obtain ⟨_, _, hplacedInside, _, hplacedRest⟩ := h.placed
      obtain ⟨_, hmatched⟩ := List.cons_subset.1 h.matched
      obtain ⟨hmatchedInside, hmatchedRest⟩ := List.append_subset.1 hmatched
      rcases List.mem_append.1 hpart with hpart | hpart
      · exact ihInside ⟨hsoundInside, hplacedInside,
          ⟨below, hbelow, fun _ h => hnodes (mem_inside h)⟩,
          List.Subset.trans (List.subset_append_left ..) h.notes, hmatchedInside⟩ hpart
      · exact ihRest ⟨hsoundRest, hplacedRest,
          ⟨others, hothers, fun _ h => hnodes (mem_behind h)⟩,
          List.Subset.trans (List.subset_append_right ..) h.notes,
          (List.cons_subset.1 hmatchedRest).2⟩ hpart
  | unclosed kind opening inside ih =>
      obtain ⟨_, ⟨index, first, below, rfl, hbelow⟩, hnodes⟩ := h.shows
      -- a container that nothing closes has no last marker and nothing behind it
      rw [← List.append_nil below] at hnodes
      exact ih ⟨h.sound, h.placed.2.2, ⟨below, hbelow, fun _ h => hnodes (mem_inside h)⟩,
        List.Subset.trans (List.subset_append_left ..) h.notes, h.matched⟩ hpart

theorem interiors_trans {part sub : Fragment × Grouping} (hpart : part ∈ group.interiors)
    (hsub : sub ∈ part.2.interiors) : sub ∈ group.interiors := by
  induction group with
  | nil => simp [interiors] at hpart
  | leaf kind text rest ih => exact ih hpart
  | stray kind text rest ih => exact ih hpart
  | delimited kind opening interior closing inside rest ihInside ihRest =>
      rw [interiors, List.mem_cons, List.mem_append] at hpart ⊢
      rcases hpart with rfl | hpart | hpart
      · exact .inr (.inl hsub)
      · exact .inr (.inl (ihInside hpart))
      · exact .inr (.inr (ihRest hpart))
  | closed kind opening inside closing rest ihInside ihRest =>
      rw [interiors, List.mem_append] at hpart ⊢
      exact hpart.imp ihInside ihRest
  | unclosed kind opening inside ih => exact ih hpart

theorem exists_interior (hsound : group.Sound table lines.text around) {kind : Kind}
    {opening interior closing : Fragment}
    (h : .delimited kind opening interior closing ∈ group.spans) :
    ∃ inside, (interior, inside) ∈ group.interiors
      ∧ inside.spans = table.scanInterior lines.text kind interior := by
  induction group generalizing around with
  | nil => simp [spans] at h
  | leaf kind text rest ih => exact ih hsound (by simpa [spans] using h)
  | stray kind text rest ih => exact ih hsound.2 (by simpa [spans] using h)
  | delimited kind opening interior closing inside rest ihInside ihRest =>
      rcases List.mem_cons.1 h with heq | h
      · obtain ⟨rfl, rfl, rfl, rfl⟩ := Span.delimited.inj heq
        exact ⟨inside, List.mem_cons_self, hsound.1⟩
      · obtain ⟨sub, hsub, hspans⟩ := ihRest hsound.2.2 h
        exact ⟨sub, by simp [interiors, hsub], hspans⟩
  | closed kind opening inside closing rest ihInside ihRest =>
      rw [spans, List.mem_cons, List.mem_append, List.mem_cons] at h
      rcases h with heq | hmem | heq | hmem
      · cases heq
      · obtain ⟨sub, hsub, hspans⟩ := ihInside hsound.2.1 hmem
        exact ⟨sub, List.mem_append_left _ hsub, hspans⟩
      · cases heq
      · obtain ⟨sub, hsub, hspans⟩ := ihRest hsound.2.2 hmem
        exact ⟨sub, List.mem_append_right _ hsub, hspans⟩
  | unclosed kind opening inside ih =>
      have hsoundInside : inside.Sound table lines.text (kind :: around) := hsound
      exact ih hsoundInside (by simpa [spans] using h)

theorem scans_interior (hsound : group.Sound table lines.text around)
    (hspans : ∀ kind opening interior closing,
      .delimited kind opening interior closing ∈ group.spans →
        table.Scans lines.text (table.scanInterior lines.text kind interior))
    {part : Fragment × Grouping} (hpart : part ∈ group.interiors) :
    table.Scans lines.text part.2.spans := by
  induction group generalizing around with
  | nil => simp [interiors] at hpart
  | leaf kind text rest ih =>
      exact ih hsound (fun _ _ _ _ h => hspans _ _ _ _ (List.mem_cons_of_mem _ h)) hpart
  | stray kind text rest ih =>
      exact ih hsound.2 (fun _ _ _ _ h => hspans _ _ _ _ (List.mem_cons_of_mem _ h)) hpart
  | delimited kind opening interior closing inside rest ihInside ihRest =>
      obtain ⟨hinside, hsoundInside, hsoundRest⟩ := hsound
      have hscans : table.Scans lines.text inside.spans :=
        hinside ▸ hspans _ _ _ _ List.mem_cons_self
      rw [interiors, List.mem_cons, List.mem_append] at hpart
      rcases hpart with rfl | hpart | hpart
      · exact hscans
      · exact ihInside hsoundInside (fun _ _ _ _ h => hscans.interior h) hpart
      · exact ihRest hsoundRest (fun _ _ _ _ h => hspans _ _ _ _ (List.mem_cons_of_mem _ h)) hpart
  | closed kind opening inside closing rest ihInside ihRest =>
      rcases List.mem_append.1 hpart with hpart | hpart
      · exact ihInside hsound.2.1 (fun _ _ _ _ h => hspans _ _ _ _
          (List.mem_cons_of_mem _ (List.mem_append_left _ h))) hpart
      · exact ihRest hsound.2.2 (fun _ _ _ _ h => hspans _ _ _ _
          (List.mem_cons_of_mem _ (List.mem_append_right _ (List.mem_cons_of_mem _ h)))) hpart
  | unclosed kind opening inside ih =>
      have hsoundInside : inside.Sound table lines.text (kind :: around) := hsound
      exact ih hsoundInside (fun _ _ _ _ h => hspans _ _ _ _ (List.mem_cons_of_mem _ h)) hpart

/-- The sequences of a text are the spans of its grouping, and those of all interiors in it. -/
theorem scans_iff (hspans : group.spans = table.scan lines.text)
    (h : group.Stands lines table all notes matched [] start stop) (whole : Fragment)
    {spans : List Span} :
    table.Scans lines.text spans ↔
      ∃ part ∈ (whole, group) :: group.interiors, part.2.spans = spans := by
  have hwhole : table.Scans lines.text group.spans := hspans ▸ .whole
  constructor
  · intro hscans
    induction hscans with
    | whole => exact ⟨_, List.mem_cons_self, hspans⟩
    | interior _ hmem ih =>
        obtain ⟨part, hpart, rfl⟩ := ih
        rcases List.mem_cons.1 hpart with rfl | hpart
        · obtain ⟨inside, hinside, hscan⟩ := exists_interior h.sound hmem
          exact ⟨_, List.mem_cons_of_mem _ hinside, hscan⟩
        · obtain ⟨inside, hinside, hscan⟩ := exists_interior (h.part hpart).sound hmem
          exact ⟨_, List.mem_cons_of_mem _ (interiors_trans hpart hinside), hscan⟩
  · rintro ⟨part, hpart, rfl⟩
    rcases List.mem_cons.1 hpart with rfl | hpart
    · exact hwhole
    · exact scans_interior h.sound (fun _ _ _ _ hmem => hwhole.interior hmem) hpart

/-! ## What is reported, and what the containers are -/

/-- The spans of a grouping and of all interiors in it. -/
def allSpans : Grouping → List Span
  | nil => []
  | leaf kind text rest => .leaf kind text :: rest.allSpans
  | stray kind text rest => .closer kind text :: rest.allSpans
  | delimited kind opening interior closing inside rest =>
      .delimited kind opening interior closing :: (inside.allSpans ++ rest.allSpans)
  | closed kind opening inside closing rest =>
      .opener kind opening :: (inside.allSpans ++ .closer kind closing :: rest.allSpans)
  | unclosed kind opening inside => .opener kind opening :: inside.allSpans

theorem exists_of_mem_allSpans {span : Span} (h : span ∈ group.allSpans) :
    span ∈ group.spans ∨ ∃ part ∈ group.interiors, span ∈ part.2.spans := by
  induction group with
  | nil => simp [allSpans] at h
  | leaf kind text rest ih =>
      rcases List.mem_cons.1 h with rfl | h
      · exact .inl List.mem_cons_self
      · exact (ih h).imp_left (List.mem_cons_of_mem _)
  | stray kind text rest ih =>
      rcases List.mem_cons.1 h with rfl | h
      · exact .inl List.mem_cons_self
      · exact (ih h).imp_left (List.mem_cons_of_mem _)
  | delimited kind opening interior closing inside rest ihInside ihRest =>
      simp only [allSpans, spans, interiors, List.mem_cons, List.mem_append] at h ⊢
      grind
  | closed kind opening inside closing rest ihInside ihRest =>
      simp only [allSpans, spans, interiors, List.mem_cons, List.mem_append] at h ⊢
      grind
  | unclosed kind opening inside ih =>
      rcases List.mem_cons.1 h with rfl | h
      · exact .inl List.mem_cons_self
      · exact (ih h).imp_left (List.mem_cons_of_mem _)

end Grouping

/-- Whether a note says that nothing closes an opener of some spans, or that a closer of theirs
closes nothing. -/
def Diagnostic.Blames (note : Diagnostic) (spans : List Span) : Prop :=
  ∃ kind text, .opener kind text ∈ spans ∧ note = text.unclosed
    ∨ .closer kind text ∈ spans ∧ note = text.unmatched

/-- Whether a node is a container that an opener of some spans opens, or a delimited one. -/
def Node.IsContainerOf (node : Node) (spans : List Span) : Prop :=
  ∃ kind opening, .opener kind opening ∈ spans ∧ node.Opens kind opening
    ∨ ∃ interior closing, .delimited kind opening interior closing ∈ spans
      ∧ node.IsDelimited kind opening closing

theorem Diagnostic.Blames.mono {note : Diagnostic} {spans spans' : List Span}
    (h : note.Blames spans) (hsub : spans ⊆ spans') : note.Blames spans' := by
  obtain ⟨kind, text, h⟩ := h
  exact ⟨kind, text, h.imp (And.imp_left (hsub ·)) (And.imp_left (hsub ·))⟩

theorem Node.IsContainerOf.mono {node : Node} {spans spans' : List Span}
    (h : node.IsContainerOf spans) (hsub : spans ⊆ spans') : node.IsContainerOf spans' := by
  obtain ⟨kind, opening, h⟩ := h
  refine ⟨kind, opening, h.imp (And.imp_left (hsub ·)) ?_⟩
  rintro ⟨interior, closing, hmem, hdelimited⟩
  exact ⟨interior, closing, hsub hmem, hdelimited⟩

namespace Grouping

variable {lines : LineIndex} {group : Grouping} {start stop : Nat} {nodes : List Node}

theorem blames {note : Diagnostic} (h : note ∈ group.notes) : note.Blames group.allSpans := by
  induction group with
  | nil => simp [notes] at h
  | leaf kind text rest ih => exact (ih h).mono (List.subset_cons_self ..)
  | stray kind text rest ih =>
      rcases List.mem_cons.1 h with rfl | h
      · exact ⟨kind, text, .inr ⟨List.mem_cons_self, rfl⟩⟩
      · exact (ih h).mono (List.subset_cons_self ..)
  | delimited kind opening interior closing inside rest ihInside ihRest =>
      rcases List.mem_append.1 h with h | h
      · exact (ihInside h).mono fun _ hmem => by simp [allSpans, hmem]
      · exact (ihRest h).mono fun _ hmem => by simp [allSpans, hmem]
  | closed kind opening inside closing rest ihInside ihRest =>
      rcases List.mem_append.1 h with h | h
      · exact (ihInside h).mono fun _ hmem => by simp [allSpans, hmem]
      · exact (ihRest h).mono fun _ hmem => by simp [allSpans, hmem]
  | unclosed kind opening inside ih =>
      rcases List.mem_append.1 h with h | h
      · exact (ih h).mono (List.subset_cons_self ..)
      · exact ⟨kind, opening, .inl ⟨List.mem_cons_self, List.mem_singleton.1 h⟩⟩

theorem children_of_leaf {leaf node : Node} (hleaf : leaf.children = [])
    (hnode : node ∈ leaf.descendants) : node.children = [] := by
  obtain ⟨label, _⟩ := leaf
  obtain rfl : _ = [] := hleaf
  obtain rfl : node = ⟨label, []⟩ := by simpa [Node.descendants_mk] using hnode
  rfl

/-- A node of a list that starts with a container is this container or a leaf of it, or it is
inside it or behind it. -/
theorem of_mem_container {label : Label} {first node : Node} {below last others : List Node}
    (hfirst : first.children = []) (hlast : ∀ leaf ∈ last, leaf.children = [])
    (h : node ∈ ((⟨label, first :: (below ++ last)⟩ : Node) :: others).flatMap Node.descendants)
    (hchildren : node.children ≠ []) :
    node = ⟨label, first :: (below ++ last)⟩ ∨ node ∈ below.flatMap Node.descendants
      ∨ node ∈ others.flatMap Node.descendants := by
  rw [List.flatMap_cons, Node.descendants_mk, List.flatMap_cons, List.flatMap_append,
    List.mem_append, List.mem_cons, List.mem_append, List.mem_append] at h
  rcases h with (heq | hmem | hmem | hmem) | hmem
  · exact .inl heq
  · exact absurd (children_of_leaf hfirst hmem) hchildren
  · exact .inr (.inl hmem)
  · obtain ⟨leaf, hmemLeaf, hmem⟩ := List.mem_flatMap.1 hmem
    exact absurd (children_of_leaf (hlast leaf hmemLeaf) hmem) hchildren
  · exact .inr (.inr hmem)

theorem isDelimited (index first last : Nat) {kind : Kind} {opening closing : Fragment}
    (below : List Node) (hstop : opening.start ≤ closing.stop) :
    Node.IsDelimited ⟨.ofRange lines (.fresh index) kind (.upTo opening.start closing.stop),
      opening.marker lines first :: (below
        ++ if closing.chars.isEmpty then [] else [closing.marker lines last])⟩
      kind opening closing where
  opens := ⟨rfl, rfl, _, _, rfl, Node.isMarker_marker _ _ _⟩
  stop := Nat.max_eq_left hstop
  closes hclosing := by
    rw [if_neg (mt List.isEmpty_iff.1 hclosing)]
    exact ⟨Nat.max_eq_left hstop, opening.marker lines first :: below, _, rfl,
      Node.isMarker_marker _ _ _⟩

/-- A node with children is a container of the grouping or of an interior in it. -/
theorem isContainerOf (hshows : group.Shows lines stop nodes) (hplaced : group.Placed start stop)
    {node : Node} (hnode : node ∈ nodes.flatMap Node.descendants)
    (hchildren : node.children ≠ []) : node.IsContainerOf group.allSpans := by
  induction group generalizing start stop nodes with
  | nil =>
      obtain rfl : nodes = [] := hshows
      cases hnode
  | leaf kind text rest ih =>
      obtain ⟨index, others, rfl, hothers⟩ := hshows
      rcases List.mem_append.1 hnode with hmem | hmem
      · exact absurd (children_of_leaf rfl hmem) hchildren
      · exact (ih hothers hplaced.2 hmem).mono (List.subset_cons_self ..)
  | stray kind text rest ih =>
      obtain ⟨index, others, rfl, hothers⟩ := hshows
      rcases List.mem_append.1 hnode with hmem | hmem
      · exact absurd (children_of_leaf rfl hmem) hchildren
      · exact (ih hothers hplaced.2.2 hmem).mono (List.subset_cons_self ..)
  | delimited kind opening interior closing inside rest ihInside ihRest =>
      obtain ⟨index, first, last, below, others, rfl, hbelow, hothers⟩ := hshows
      obtain ⟨_, hopening, hinside, hclosing, hafter⟩ := hplaced
      have hle := hinside.le
      have hlast : ∀ leaf ∈ (if closing.chars.isEmpty then [] else [closing.marker lines last]),
          leaf.children = [] := by
        intro leaf hleaf
        split at hleaf
        · cases hleaf
        · rw [List.mem_singleton.1 hleaf]
          rfl
      rcases of_mem_container rfl hlast hnode hchildren with rfl | hmem | hmem
      · exact ⟨kind, opening, .inr ⟨interior, closing, List.mem_cons_self,
          isDelimited index first last below (by omega)⟩⟩
      · exact (ihInside hbelow hinside hmem).mono fun _ hmem => by simp [allSpans, hmem]
      · exact (ihRest hothers hafter hmem).mono fun _ hmem => by simp [allSpans, hmem]
  | closed kind opening inside closing rest ihInside ihRest =>
      obtain ⟨index, first, last, below, others, rfl, hbelow, hothers⟩ := hshows
      obtain ⟨_, hopening, hinside, hclosing, hafter⟩ := hplaced
      have hle := hinside.le
      have hlast : ∀ leaf ∈ [closing.marker lines last], leaf.children = [] := by
        intro leaf hleaf
        rw [List.mem_singleton.1 hleaf]
        rfl
      rcases of_mem_container rfl hlast hnode hchildren with rfl | hmem | hmem
      · exact ⟨kind, opening, .inl ⟨List.mem_cons_self,
          (isBox_closed index first last below (by omega)).opens⟩⟩
      · exact (ihInside hbelow hinside hmem).mono fun _ hmem => by simp [allSpans, hmem]
      · exact (ihRest hothers hafter hmem).mono fun _ hmem => by simp [allSpans, hmem]
  | unclosed kind opening inside ih =>
      obtain ⟨index, first, below, rfl, hbelow⟩ := hshows
      obtain ⟨_, hopening, hinside⟩ := hplaced
      have hle := hinside.le
      rw [← List.append_nil below] at hnode
      rcases of_mem_container rfl (by simp) hnode hchildren with rfl | hmem | hmem
      · rw [List.append_nil]
        exact ⟨kind, opening, .inl ⟨List.mem_cons_self,
          (isBox_unclosed index first below (by omega)).opens⟩⟩
      · exact (ih hbelow hinside hmem).mono (List.subset_cons_self ..)
      · cases hmem

end Grouping

end ConcreteSyntax
