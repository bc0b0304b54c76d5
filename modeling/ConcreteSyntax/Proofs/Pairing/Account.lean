import ConcreteSyntax.Parse
import ConcreteSyntax.Proofs.Pairing.Markers

/-!
# Accounting for markers

Each opener of a text has one container, which it opens, and each closer either closes such a
container or is a leaf of its own.  What stays open and what closes nothing is reported, each
once, and nothing else is (`Parse.accounts_for_markers`).
-/

namespace ConcreteSyntax

namespace Grouping

variable {lines : LineIndex} {table : Table} {all : List Node} {group whole : Grouping}
  {around : List Kind} {start stop first last : Nat}

/-- What is known of the grouping of a whole text. -/
structure Covers (group : Grouping) (table : Table) (parse : Parse) : Prop where
  stands : group.Stands parse.lines table parse.root.descendants group.notes group.matched []
    parse.root.range.start parse.root.range.stop
  scans : ∀ {spans}, table.Scans parse.lines.text spans ↔
    ∃ part ∈ (⟨0, parse.lines.text⟩, group) :: group.interiors, part.2.spans = spans
  notes : parse.notes = group.notes
  fits : parse.root.All (Node.Fits parse.lines False)
  shows : group.Shows parse.lines parse.root.range.stop parse.root.children

namespace Covers

variable {parse : Parse} {spans : List Span} {kind : Kind} {opening closing : Fragment}

/-- Each sequence of spans has a grouping, which stands within that of the text. -/
theorem exists_part (h : group.Covers table parse) (hspans : table.Scans parse.lines.text spans) :
    ∃ (part : Grouping) (start stop : Nat), part.spans = spans
      ∧ part.Stands parse.lines table parse.root.descendants group.notes group.matched []
        start stop := by
  obtain ⟨part, hpart, hspans⟩ := h.scans.1 hspans
  rcases List.mem_cons.1 hpart with rfl | hpart
  · exact ⟨group, _, _, hspans, h.stands⟩
  · exact ⟨part.2, _, _, hspans, h.stands.part hpart⟩

/-- Each span of a grouping and of the interiors in it stands in one of the sequences. -/
theorem exists_scan (h : group.Covers table parse) {span : Span} (hspan : span ∈ group.allSpans) :
    ∃ spans, table.Scans parse.lines.text spans ∧ span ∈ spans := by
  rcases exists_of_mem_allSpans hspan with hmem | ⟨part, hpart, hmem⟩
  · exact ⟨_, h.scans.2 ⟨_, List.mem_cons_self, rfl⟩, hmem⟩
  · exact ⟨_, h.scans.2 ⟨part, List.mem_cons_of_mem _ hpart, rfl⟩, hmem⟩

theorem notes_eq_nil_iff (h : group.Covers table parse) :
    parse.notes = [] ↔ ∀ spans, table.Scans parse.lines.text spans → Nested (markers spans) := by
  rw [h.notes]
  constructor
  · intro hnil spans hspans
    obtain ⟨part, _, _, rfl, hpart⟩ := h.exists_part hspans
    exact nested_of_notes (List.subset_nil.1 (hnil ▸ hpart.notes))
  · intro hnested
    exact Grouping.notes_eq_nil h.stands.sound (hnested _ (h.scans.2 ⟨_, List.mem_cons_self, rfl⟩))
      fun part hpart => hnested _ (h.scans.2 ⟨part, List.mem_cons_of_mem _ hpart, rfl⟩)

theorem blames (h : group.Covers table parse) {note : Diagnostic} (hnote : note ∈ parse.notes) :
    ∃ spans, table.Scans parse.lines.text spans ∧ note.Blames spans := by
  rw [h.notes] at hnote
  obtain ⟨kind, text, hblames⟩ := Grouping.blames hnote
  rcases hblames with ⟨hmem, hnote⟩ | ⟨hmem, hnote⟩
  · obtain ⟨spans, hspans, hspan⟩ := h.exists_scan hmem
    exact ⟨spans, hspans, kind, text, .inl ⟨hspan, hnote⟩⟩
  · obtain ⟨spans, hspans, hspan⟩ := h.exists_scan hmem
    exact ⟨spans, hspans, kind, text, .inr ⟨hspan, hnote⟩⟩

/-- A node with children below the root is a container of one of the sequences. -/
theorem isContainerOf (h : group.Covers table parse) {node : Node}
    (hnode : node ∈ parse.root.children.flatMap Node.descendants) (hchildren : node.children ≠ []) :
    ∃ spans, table.Scans parse.lines.text spans ∧ node.IsContainerOf spans := by
  obtain ⟨kind, opening, hcontainer⟩ :=
    Grouping.isContainerOf h.shows h.stands.placed hnode hchildren
  rcases hcontainer with ⟨hmem, hopens⟩ | ⟨interior, closing, hmem, hdelimited⟩
  · obtain ⟨spans, hspans, hspan⟩ := h.exists_scan hmem
    exact ⟨spans, hspans, kind, opening, .inl ⟨hspan, hopens⟩⟩
  · obtain ⟨spans, hspans, hspan⟩ := h.exists_scan hmem
    exact ⟨spans, hspans, kind, opening, .inr ⟨interior, closing, hspan, hdelimited⟩⟩

end Covers

/-- Without markup, a text has a grouping. -/
theorem exists_covers (grammar : Grammar) (hmarkup : grammar.markup = none) (text : List Char) :
    ∃ group : Grouping, group.Covers grammar.table (.build grammar text) := by
  let parse := Parse.build grammar text
  have hstart : Text.isBoundary parse.lines.text parse.root.range.start = true :=
    Text.isBoundary_zero _
  have hstop : Text.isBoundary parse.lines.text parse.root.range.stop = true := by
    have hlength : parse.root.range.stop = Text.byteLength parse.lines.text := Nat.zero_add _
    rw [hlength]
    exact Text.isBoundary_byteLength _
  have hfuel : parse.root.range.length < Text.byteLength parse.lines.text + 1 := by
    have hlength : parse.root.range.length = 0 + Text.byteLength parse.lines.text - 0 := rfl
    omega
  obtain ⟨group, hspans, hsound, hshows, hnotes⟩ :=
    grammar.exists_grouping hmarkup none hstart hstop hfuel 1
  have hplaced : group.Placed parse.root.range.start parse.root.range.stop :=
    placed_of_chain hsound (hspans ▸ grammar.table.chain_scanRange none hstart hstop)
      (hspans ▸ grammar.table.marked_scanFrom _ _ _ _)
  have hchildren : parse.root.children.flatMap Node.descendants ⊆ parse.root.descendants := by
    rw [show parse.root = ⟨parse.root.label, parse.root.children⟩ from rfl, Node.descendants_mk]
    exact List.subset_cons_self ..
  have hstands : group.Stands parse.lines grammar.table parse.root.descendants group.notes
      group.matched [] parse.root.range.start parse.root.range.stop :=
    ⟨hsound, hplaced, ⟨_, hshows, hchildren⟩, List.Subset.refl _, List.Subset.refl _⟩
  exact ⟨group, hstands, scans_iff hspans hstands _, hnotes,
    Grammar.fits_pair (fun h => h.elim) parse.lines, hshows⟩

end Grouping

end ConcreteSyntax
