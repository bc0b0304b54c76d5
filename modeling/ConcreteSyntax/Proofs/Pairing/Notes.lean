import ConcreteSyntax.Proofs.Pairing
import ConcreteSyntax.Proofs.Scan.Coverage

/-!
# What pairing takes note of

Each note of a pairing is a warning about one marker (`Diagnostic.Marks`), and its range is that
of the marker.  The marker stands in the range that is paired (`Grammar.marks_pairRange`).
-/

namespace ConcreteSyntax

/-- Whether a problem is about a marker with these characters. -/
def Problem.IsAbout (marker : List Char) : Problem → Prop
  | .unmatched text | .unclosed text => text = marker
  | .unclosedElement name | .strayTag name => name = (Markup.Tag.parse marker).name
  | .noDocument _ => False

/-- Whether a diagnostic warns of a marker, and where it stands. -/
structure Diagnostic.Marks (note : Diagnostic) (marker : Fragment) : Prop where
  severity : note.severity = .warning
  problem : note.problem.IsAbout marker.chars
  range : note.range = marker.range

theorem Diagnostic.marks_warning {problem : Problem} {marker : Fragment}
    (h : problem.IsAbout marker.chars) : (warning problem marker.range).Marks marker :=
  ⟨rfl, h, rfl⟩

/-- No span of a tiled range is empty. -/
theorem Span.Tile.lt_of_mem {start stop : Nat} {spans : List Span}
    (h : Span.Tile start spans stop) :
    ∀ span ∈ spans, span.range.start < span.range.stop := by
  induction spans generalizing start with
  | nil => simp
  | cons span rest ih =>
      obtain ⟨rfl, hlt, hrest⟩ := h
      exact List.forall_mem_cons.2 ⟨hlt, ih hrest⟩

/-- Whether a fragment with characters stands in a range of a text. -/
structure Fragment.StandsIn (fragment : Fragment) (text : List Char) (range : Range) : Prop where
  liesIn : fragment.LiesIn text
  chars : fragment.chars ≠ []
  start : range.start ≤ fragment.start
  stop : fragment.stop ≤ range.stop

theorem Fragment.StandsIn.mono {fragment : Fragment} {text : List Char} {inner outer : Range}
    (h : fragment.StandsIn text inner) (hstart : outer.start ≤ inner.start)
    (hstop : inner.stop ≤ outer.stop) : fragment.StandsIn text outer :=
  ⟨h.liesIn, h.chars, Nat.le_trans hstart h.start, Nat.le_trans h.stop hstop⟩

namespace Span

/-- The markers of a span that a note may be about. -/
def markers : Span → List Fragment
  | .leaf _ text | .opener _ text | .closer _ text => [text]
  | .delimited _ opening _ _ => [opening]

end Span

namespace Pairing

/-- Whether what waits to be closed, and what is noted, are allowed markers. -/
structure Marks (allowed : Fragment → Prop) (state : Pairing) : Prop where
  frames : ∀ frame ∈ state.frames, allowed frame.opening ∧ frame.unclosed.Marks frame.opening
  notes : ∀ note ∈ state.notes, ∃ marker, allowed marker ∧ note.Marks marker

variable {allowed : Fragment → Prop} {lines : LineIndex} {grammar : Grammar} {state : Pairing}

theorem Marks.push (h : state.Marks allowed) (node : Node) : (state.push node).Marks allowed := by
  unfold Pairing.push
  cases hframes : state.frames with
  | nil => exact ⟨by simp, h.notes⟩
  | cons frame outer =>
      have hopen := h.frames
      rw [hframes, List.forall_mem_cons] at hopen
      exact ⟨List.forall_mem_cons.2 hopen, h.notes⟩

theorem Marks.withNext (h : state.Marks allowed) (next : Nat) :
    ({ state with next } : Pairing).Marks allowed := ⟨h.frames, h.notes⟩

theorem Marks.pushLeaf (h : state.Marks allowed) (kind : Kind) (text : Fragment) :
    (state.pushLeaf lines kind text).Marks allowed :=
  (h.withNext (state.next + 1)).push _

theorem Marks.note (h : state.Marks allowed) {note : Diagnostic} {marker : Fragment}
    (hmarker : allowed marker) (hmarks : note.Marks marker) : (state.note note).Marks allowed :=
  ⟨h.frames, List.forall_mem_cons.2 ⟨⟨marker, hmarker, hmarks⟩, h.notes⟩⟩

theorem Marks.openFrame (h : state.Marks allowed) {awaited : Awaited} {opening : Fragment}
    (hopening : allowed opening)
    (hawaited : ∀ name, awaited = .tag name → name = (Markup.Tag.parse opening.chars).name)
    (kind markerKind : Kind) :
    (state.openFrame lines kind awaited markerKind opening).Marks allowed := by
  let frame : Frame := ⟨.fresh state.next, kind, awaited, opening, []⟩
  have hframe : frame.unclosed.Marks frame.opening := by
    cases awaited with
    | marker kind => exact Diagnostic.marks_warning rfl
    | tag name => exact Diagnostic.marks_warning (hawaited name rfl)
  have hopened : ({ state with frames := frame :: state.frames } : Pairing).Marks allowed :=
    ⟨List.forall_mem_cons.2 ⟨⟨hopening, hframe⟩, h.frames⟩, h.notes⟩
  exact (hopened.withNext (state.next + 1)).pushLeaf _ _

theorem Marks.closeInnermost (h : state.Marks allowed) (stop : Nat) :
    (state.closeInnermost lines stop).Marks allowed := by
  unfold Pairing.closeInnermost
  split
  · exact h
  · rename_i frame outer hframes
    have hopen := h.frames
    rw [hframes, List.forall_mem_cons] at hopen
    have houter : ({ state with frames := outer } : Pairing).Marks allowed := ⟨hopen.2, h.notes⟩
    exact houter.push _

theorem Marks.unwind (h : state.Marks allowed) (stop count : Nat) :
    (unwind lines stop count state).Marks allowed := by
  induction count generalizing state with
  | zero => exact h
  | succ count ih =>
      unfold Pairing.unwind
      split
      · exact h
      · rename_i frame outer hframes
        obtain ⟨hopening, hmarks⟩ := h.frames frame (by simp [hframes])
        exact ih ((h.closeInnermost stop).note hopening hmarks)

theorem Marks.close (h : state.Marks allowed) {marker : Fragment} (hmarker : allowed marker)
    {problem : Problem} (hproblem : problem.IsAbout marker.chars) (awaits : Awaited → Bool)
    (markerKind : Kind) :
    (state.close lines awaits markerKind marker problem).Marks allowed := by
  unfold Pairing.close
  split
  · exact ((h.unwind _ _).pushLeaf _ _).closeInnermost _
  · exact (h.pushLeaf _ _).note hmarker (Diagnostic.marks_warning hproblem)

theorem Marks.pairTag (h : state.Marks allowed) {text : Fragment} (htext : allowed text)
    (rules : Markup.Rules) : (state.pairTag lines rules text).Marks allowed := by
  have hopened : (state.openFrame lines
      (rules.elementKind (Markup.Tag.parse text.chars).name)
      (.tag (Markup.Tag.parse text.chars).name) .tag text).Marks allowed :=
    h.openFrame htext (fun _ hname => (Awaited.tag.inj hname).symm) _ _
  unfold Pairing.pairTag
  dsimp only
  split
  · exact h.close htext (show Problem.IsAbout _ (.strayTag _) from rfl) _ _
  · split
    · exact hopened
    · exact hopened.closeInnermost _

theorem Marks.pushAll (h : state.Marks allowed) (nodes : List Node) :
    (nodes.foldl Pairing.push state).Marks allowed := by
  induction nodes generalizing state with
  | nil => exact h
  | cons node rest ih => exact ih (h.push node)

theorem Marks.pairDelimited (h : state.Marks allowed) {inner : Range → Nat → Paired}
    {opening interior : Fragment} (hopening : allowed opening)
    (hinner : ∀ next, ∀ note ∈ (inner interior.range next).notes,
      ∃ marker, allowed marker ∧ note.Marks marker) (kind : Kind) (closing : Fragment) :
    (state.pairDelimited lines inner kind opening interior closing).Marks allowed := by
  have hopened : (state.openFrame lines kind (.marker kind) .delimiter opening).Marks allowed :=
    h.openFrame hopening (by simp) _ _
  have hfilled : ((state.openFrame lines kind (.marker kind) .delimiter opening).fill inner
      interior).Marks allowed := by
    unfold Pairing.fill
    split
    · exact hopened
    · refine Marks.pushAll ?_ _
      refine ⟨hopened.frames, fun note hnote => ?_⟩
      rcases List.mem_append.1 hnote with hnote | hnote
      · exact hinner _ note (List.mem_reverse.1 hnote)
      · exact hopened.notes note hnote
  refine Marks.closeInnermost ?_ _
  unfold Pairing.pushMarker
  split
  · exact hfilled
  · exact hfilled.pushLeaf _ _

/-- Where the interior of a span is paired, all notes are about allowed markers. -/
def InnerMarks (allowed : Fragment → Prop) (inner : Option KindSet → Range → Nat → Paired) :
    Span → Prop
  | .delimited _ _ interior _ => ∀ restrict next, ∀ note ∈ (inner restrict interior.range next).notes,
      ∃ marker, allowed marker ∧ note.Marks marker
  | _ => True

theorem Marks.step (h : state.Marks allowed) {inner : Option KindSet → Range → Nat → Paired}
    {span : Span} (hmarkers : ∀ marker ∈ span.markers, allowed marker)
    (hinner : InnerMarks allowed inner span) :
    (Pairing.step lines grammar inner state span).Marks allowed := by
  cases span with
  | leaf kind text =>
      unfold Pairing.step
      dsimp only
      split
      · exact h.pairTag (hmarkers text (List.mem_singleton_self _)) _
      · exact h.pushLeaf _ _
  | opener kind text =>
      exact h.openFrame (hmarkers text (List.mem_singleton_self _)) (by simp) _ _
  | closer kind text =>
      unfold Pairing.step
      exact h.close (hmarkers text (List.mem_singleton_self _))
        (show Problem.IsAbout _ (.unmatched _) from rfl) _ _
  | delimited kind opening interior closing =>
      exact h.pairDelimited (hmarkers opening (List.mem_singleton_self _)) (hinner _) _ _

theorem Marks.steps (h : state.Marks allowed) (lines : LineIndex) (grammar : Grammar)
    {inner : Option KindSet → Range → Nat → Paired} {spans : List Span}
    (hspans : ∀ span ∈ spans, (∀ marker ∈ span.markers, allowed marker)
      ∧ InnerMarks allowed inner span) :
    (spans.foldl (Pairing.step lines grammar inner) state).Marks allowed := by
  induction spans generalizing state with
  | nil => exact h
  | cons span rest ih =>
      rw [List.forall_mem_cons] at hspans
      exact ih (h.step hspans.1.1 hspans.1.2) hspans.2

end Pairing

namespace Grammar

variable {lines : LineIndex} {grammar : Grammar}

/-- Markers of a scanned range stand in it. -/
theorem standsIn_of_mem_scanRange {table : Table} {text : List Char} {restrict : Option KindSet}
    {range : Range} (hstart : Text.isBoundary text range.start = true)
    (hstop : Text.isBoundary text range.stop = true) {span : Span}
    (hspan : span ∈ table.scanRange text range restrict) :
    ∀ marker ∈ span.markers, marker.StandsIn text range := by
  intro marker hmarker
  obtain ⟨first, last, hfirst, hchain, hlast⟩ :=
    (table.chain_scanRange restrict hstart hstop).of_mem hspan
  have hmarked : span.Marked := table.marked_scanFrom _ _ _ _ span hspan
  have hne : span.range.start < span.range.stop :=
    (Table.tile_scanFrom range.start
      ⟨.ofText (Text.takeBytes range.start text), Text.slice text range⟩).lt_of_mem span hspan
  cases span with
  | leaf kind text =>
      obtain rfl := List.mem_singleton.1 hmarker
      obtain ⟨hplace, hliesIn, rfl⟩ := hchain
      refine ⟨hliesIn, fun hnil => ?_, by omega, hlast⟩
      simp [Span.range, Fragment.range, Range.ofLength, hnil] at hne
  | opener kind text | closer kind text =>
      obtain rfl := List.mem_singleton.1 hmarker
      obtain ⟨hplace, hliesIn, rfl⟩ := hchain
      exact ⟨hliesIn, hmarked, by omega, hlast⟩
  | delimited kind opening interior closing =>
      obtain rfl := List.mem_singleton.1 hmarker
      obtain ⟨hplace, hliesIn, hrest⟩ := hchain
      have hle := Chain.le hrest
      exact ⟨hliesIn, hmarked, by omega, by omega⟩

/-- Each note of a range marks a marker in it. -/
theorem marks_pairRange (grammar : Grammar) (fuel : Nat) (restrict : Option KindSet)
    {range : Range} (next : Nat) (hstart : Text.isBoundary lines.text range.start = true)
    (hstop : Text.isBoundary lines.text range.stop = true) :
    ∀ note ∈ (grammar.pairRange lines fuel restrict range next).notes,
      ∃ marker, marker.StandsIn lines.text range ∧ note.Marks marker := by
  induction fuel generalizing restrict range next with
  | zero => simp [pairRange]
  | succ fuel ih =>
      let spans := grammar.table.scanRange lines.text range restrict
      have hempty : ({ next } : Pairing).Marks (·.StandsIn lines.text range) :=
        ⟨by simp, by simp⟩
      have hspans : ∀ span ∈ spans, (∀ marker ∈ span.markers, marker.StandsIn lines.text range)
          ∧ Pairing.InnerMarks (·.StandsIn lines.text range) (grammar.pairRange lines fuel)
            span := by
        intro span hspan
        refine ⟨standsIn_of_mem_scanRange hstart hstop hspan, ?_⟩
        obtain ⟨first, last, hfirst, hchain, hlast⟩ :=
          (grammar.table.chain_scanRange restrict hstart hstop).of_mem hspan
        cases span with
        | leaf kind text | opener kind text | closer kind text => trivial
        | delimited kind opening interior closing =>
            intro restrict next note hnote
            obtain ⟨hplace, -, hmiddle, hinterior, hrest⟩ := hchain
            have hle := Chain.le hrest
            have hopening : opening.start ≤ opening.stop := Nat.le_add_right _ _
            obtain ⟨marker, hstands, hmarks⟩ := ih restrict next hinterior.isBoundary_start
              hinterior.isBoundary_stop note hnote
            exact ⟨marker, hstands.mono (show range.start ≤ interior.start by omega)
              (show interior.stop ≤ range.stop by omega), hmarks⟩
      have hscanned := hempty.steps lines grammar hspans
      have hended : (Pairing.unwind lines range.stop _ _).Marks (·.StandsIn lines.text range) :=
        hscanned.unwind range.stop (spans.foldl (Pairing.step lines grammar
          (grammar.pairRange lines fuel)) { next }).frames.length
      intro note hnote
      exact hended.notes note (List.mem_reverse.1 hnote)

/-- Each note of a text marks a marker in it. -/
theorem marks_pair (grammar : Grammar) (lines : LineIndex) :
    ∀ note ∈ (grammar.pair lines).2.2,
      ∃ marker, marker.LiesIn lines.text ∧ marker.chars ≠ [] ∧ note.Marks marker := by
  have hstop : Text.isBoundary lines.text (0 + Text.byteLength lines.text) = true := by
    rw [Nat.zero_add]
    exact Text.isBoundary_byteLength lines.text
  intro note hnote
  obtain ⟨marker, hstands, hmarks⟩ := grammar.marks_pairRange _ none 1
    (Text.isBoundary_zero lines.text) hstop note hnote
  exact ⟨marker, hstands.liesIn, hstands.chars, hmarks⟩

end Grammar

end ConcreteSyntax
