import ConcreteSyntax.Proofs.Pairing.Grouping

/-!
# Markers of containers

A container starts with the leaf of its opening marker, and ends with the leaf of its closing
marker if it has one.  In a tree that is laid out over a text, a marker opens one container at
most (`Node.Opens.eq`).
-/

namespace ConcreteSyntax

namespace Node

/-- Whether a node is the leaf of a marker. -/
structure IsMarker (node : Node) (text : Fragment) : Prop where
  kind : node.kind = .delimiter
  range : node.range = text.range
  text : node.text? = some text.chars
  leaf : node.children = []

/-- Whether a container starts with an opening marker. -/
structure Opens (node : Node) (kind : Kind) (opening : Fragment) : Prop where
  kind : node.kind = kind
  start : node.range.start = opening.start
  marker : ∃ marker rest, node.children = marker :: rest ∧ marker.IsMarker opening

/-- Whether a container ends with a closing marker. -/
structure Closes (node : Node) (closing : Fragment) : Prop where
  stop : node.range.stop = closing.stop
  marker : ∃ rest marker, node.children = rest ++ [marker] ∧ marker.IsMarker closing

/-- Whether a node is a delimited container. -/
structure IsDelimited (node : Node) (kind : Kind) (opening closing : Fragment) : Prop where
  opens : node.Opens kind opening
  stop : node.range.stop = closing.stop
  closes : closing.chars ≠ [] → node.Closes closing

theorem isMarker_marker (lines : LineIndex) (index : Nat) (text : Fragment) :
    (text.marker lines index).IsMarker text := ⟨rfl, rfl, rfl, rfl⟩

variable {lines : LineIndex}

theorem Opens.start_lt_stop {node : Node} (hfits : node.All (Fits lines False)) {kind : Kind}
    {opening : Fragment} (h : node.Opens kind opening) (hopening : opening.chars ≠ []) :
    opening.start < node.range.stop := by
  obtain ⟨marker, rest, hchildren, hmarker⟩ := h.marker
  have hbelow : marker ∈ node.descendants := by
    cases node
    obtain rfl : _ = marker :: rest := hchildren
    rw [descendants_mk, List.flatMap_cons]
    exact List.mem_cons_of_mem _ (List.mem_append_left _ marker.self_mem_descendants)
  have hrange := (range_below hfits hbelow).2
  rw [hmarker.range] at hrange
  exact Nat.lt_of_lt_of_le (Fragment.start_lt_stop hopening) hrange

/-- The topmost node is the only one that starts with its marker. -/
theorem Opens.eq_top {node below : Node} (hfits : node.All (Fits lines False)) {kind kind' : Kind}
    {opening : Fragment} (h : node.Opens kind opening) (hopening : opening.chars ≠ [])
    (hbelow : below ∈ node.descendants) (hopens : below.Opens kind' opening) : below = node := by
  obtain ⟨label, children⟩ := node
  obtain ⟨marker, rest, rfl : children = marker :: rest, hmarker⟩ := h.marker
  rw [descendants_mk, List.mem_cons, List.mem_flatMap] at hbelow
  rcases hbelow with heq | ⟨child, hchild, hbelow⟩
  · exact heq
  · have hchildFits := hfits.children child hchild
    have hrange := range_below hchildFits hbelow
    have hstart := hopens.start
    have hstop := hopens.start_lt_stop (hchildFits.below hbelow) hopening
    have hplace := Fragment.start_lt_stop hopening
    -- the child around it takes the place of the marker, so it is the marker
    have hchildEq : child = marker := by
      have habut : Abut label.range.start (marker :: rest) label.range.stop :=
        hfits.self.tiled (List.cons_ne_nil _ _)
      have hmarkerStart : marker.range.start = opening.start := congrArg Range.start hmarker.range
      have hmarkerStop : marker.range.stop = opening.stop := congrArg Range.stop hmarker.range
      exact habut.eq_of_mem hchild List.mem_cons_self opening.start (by omega) (by omega)
    subst hchildEq
    obtain ⟨label', children'⟩ := child
    obtain rfl : children' = [] := hmarker.leaf
    obtain rfl : below = _ := by simpa [descendants_mk] using hbelow
    obtain ⟨marker', rest', hchildren, _⟩ := hopens.marker
    cases hchildren

/-- A marker opens one node at most. -/
theorem Opens.eq {root node other : Node} (hfits : root.All (Fits lines False))
    {kind kind' : Kind} {opening : Fragment} (hopening : opening.chars ≠ [])
    (hnode : node ∈ root.descendants) (hother : other ∈ root.descendants)
    (h : node.Opens kind opening) (hopens : other.Opens kind' opening) : other = node := by
  induction root with
  | mk label children ih =>
      have hmem := hnode
      have hmemOther := hother
      rw [descendants_mk, List.mem_cons, List.mem_flatMap] at hnode hother
      rcases hnode with rfl | ⟨child, hchild, hnode⟩
      · exact h.eq_top hfits hopening hmemOther hopens
      · rcases hother with rfl | ⟨child', hchild', hother⟩
        · exact (hopens.eq_top hfits hopening hmem h).symm
        · have hchildFits := hfits.children child hchild
          have hchildFits' := hfits.children child' hchild'
          have hrange := range_below hchildFits hnode
          have hrange' := range_below hchildFits' hother
          have hstop := h.start_lt_stop (hchildFits.below hnode) hopening
          have hstop' := hopens.start_lt_stop (hchildFits'.below hother) hopening
          have hstart := h.start
          have hstart' := hopens.start
          have habut : Abut label.range.start children label.range.stop :=
            hfits.self.tiled (List.ne_nil_of_mem hchild)
          obtain rfl : child = child' :=
            habut.eq_of_mem hchild hchild' opening.start (by omega) (by omega)
          exact ih child hchild hchildFits hnode hother

end Node

end ConcreteSyntax
