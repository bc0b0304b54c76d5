import ConcreteSyntax.Pairing
import ConcreteSyntax.Proofs.Node
import ConcreteSyntax.Proofs.Scan

/-!
# What pairing builds

Pairing keeps all nodes in their places, those of half-open containers too: the children of
each open container stand side by side from its opening marker on, and it stands behind the
children of the container around it (`Pairing.Reaches`).  The names of the nodes, read from
the outermost container inwards, follow one another without gaps (`Pairing.ids`).
-/

namespace ConcreteSyntax

/-- The names from one index up to another. -/
def freshIds (first next : Nat) : List NodeId := (List.range' first (next - first)).map .fresh

theorem freshIds_self (first : Nat) : freshIds first first = [] := by
  simp [freshIds]

theorem freshIds_append {first mid next : Nat} (hmid : first ≤ mid) (hnext : mid ≤ next) :
    freshIds first mid ++ freshIds mid next = freshIds first next := by
  obtain ⟨a, rfl⟩ := Nat.exists_eq_add_of_le hmid
  obtain ⟨b, rfl⟩ := Nat.exists_eq_add_of_le hnext
  simp only [freshIds, ← List.map_append]
  congr 1
  have hlength : first + a + b - first = (first + a - first) + (first + a + b - (first + a)) := by
    omega
  rw [hlength, ← List.range'_append_1]
  congr 2
  omega

theorem freshIds_succ (first : Nat) : freshIds first (first + 1) = [.fresh first] := by
  simp [freshIds]

namespace Pairing

theorem push_with (state : Pairing) (next : Nat) (notes : List Diagnostic) (node : Node) :
    ({ state with next, notes } : Pairing).push node = { state.push node with next, notes } := by
  unfold push
  dsimp only
  cases state.frames <;> rfl

/-- The open containers and what stands before them reach from `start` to `stop`. -/
def Reaches (start : Nat) (base : List Node) : List Frame → Nat → Prop
  | [], stop => Abut start base.reverse stop
  | frame :: outer, stop =>
      Abut frame.opening.start frame.children.reverse stop
        ∧ Reaches start base outer frame.opening.start

/-- The names in open containers, those of the outermost first. -/
def frameIds : List Frame → List NodeId
  | [] => []
  | frame :: outer => frameIds outer ++ (frame.id :: frame.children.reverse.flatMap Node.ids)

/-- All names given out so far. -/
def ids (state : Pairing) : List NodeId :=
  state.base.reverse.flatMap Node.ids ++ frameIds state.frames

/-- What holds of an open container. -/
structure FrameFits (lines : LineIndex) (sound : Prop) (frame : Frame) : Prop where
  opening : Text.isBoundary lines.text frame.opening.start = true
  kind : sound → frame.kind.isAtomic = false
  children : ∀ node ∈ frame.children, node.All (Node.Fits lines sound)

/-- What holds while the nodes from `start` to `stop` are paired. -/
structure Fits (lines : LineIndex) (sound : Prop) (start : Nat) (state : Pairing) (stop : Nat) :
    Prop where
  reaches : Reaches start state.base state.frames stop
  stop : Text.isBoundary lines.text stop = true
  base : ∀ node ∈ state.base, node.All (Node.Fits lines sound)
  frames : ∀ frame ∈ state.frames, FrameFits lines sound frame

variable {lines : LineIndex} {sound : Prop} {start stop : Nat} {state : Pairing}

/-! ## Steps -/

@[simp] theorem ids_push (state : Pairing) (node : Node) :
    (state.push node).ids = state.ids ++ node.ids := by
  unfold push ids
  cases hframes : state.frames with
  | nil => simp [frameIds]
  | cons frame outer => simp [frameIds]

@[simp] theorem next_push (state : Pairing) (node : Node) :
    (state.push node).next = state.next := by
  unfold push
  cases state.frames <;> rfl

theorem Fits.push (h : state.Fits lines sound start stop) {node : Node}
    (hnode : node.All (Node.Fits lines sound)) (hstart : node.range.start = stop) :
    (state.push node).Fits lines sound start node.range.stop := by
  have hreaches := h.reaches
  unfold Pairing.push
  cases hframes : state.frames with
  | nil =>
      rw [hframes] at hreaches
      refine ⟨?_, hnode.self.stop, ?_, by simp⟩
      · simp only [Reaches, List.reverse_cons]
        exact abut_append.2 ⟨stop, hreaches, hstart, rfl⟩
      · simp only [List.forall_mem_cons]
        exact ⟨hnode, h.base⟩
  | cons frame outer =>
      rw [hframes] at hreaches
      have hframe := h.frames frame (by simp [hframes])
      refine ⟨?_, hnode.self.stop, h.base, ?_⟩
      · simp only [Reaches, List.reverse_cons]
        exact ⟨abut_append.2 ⟨stop, hreaches.1, hstart, rfl⟩, hreaches.2⟩
      · simp only [List.forall_mem_cons]
        refine ⟨⟨hframe.opening, hframe.kind, ?_⟩, fun other hother =>
          h.frames other (by simp [hframes, hother])⟩
        simp only [List.forall_mem_cons]
        exact ⟨hnode, hframe.children⟩

/-- A new leaf fits where its text lies. -/
theorem fits_leaf {id : NodeId} {kind : Kind} {text : Fragment} (htext : text.LiesIn lines.text)
    (hkind : sound → kind.isAtomic = true) :
    Node.All (Node.Fits lines sound) ⟨.ofFragment lines id kind text, []⟩ := by
  refine Node.all_mk.2 ⟨{
    start := htext.isBoundary_start
    stop := htext.isBoundary_stop
    lines_eq := rfl
    text_eq := ?_
    revision_eq := rfl
    tiled := fun hnil => absurd rfl hnil
    leaf := fun _ _ => rfl
    empty := fun hs (hcontainer : kind.isAtomic = false) _ => by
      rw [hkind hs] at hcontainer
      cases hcontainer }, by simp⟩
  change (if kind.isAtomic then some text.chars else none) =
    if kind.isAtomic then some (Text.slice lines.text text.range) else none
  rw [htext.slice_range]

/-- Names and notes do not matter for the places of nodes. -/
theorem Fits.withNext (h : state.Fits lines sound start stop) (next : Nat)
    (notes : List Diagnostic) :
    ({ state with next, notes } : Pairing).Fits lines sound start stop :=
  ⟨h.reaches, h.stop, h.base, h.frames⟩

theorem Fits.pushLeaf (h : state.Fits lines sound start stop) {kind : Kind} {text : Fragment}
    (htext : text.LiesIn lines.text) (hstart : text.start = stop)
    (hkind : sound → kind.isAtomic = true) :
    (state.pushLeaf lines kind text).Fits lines sound start text.stop :=
  (h.withNext (state.next + 1) state.notes).push (fits_leaf htext hkind) hstart

theorem Fits.openFrame (h : state.Fits lines sound start stop) {kind : Kind} (awaited : Awaited)
    {markerKind : Kind} {opening : Fragment} (hopening : opening.LiesIn lines.text)
    (hstart : opening.start = stop) (hkind : sound → kind.isAtomic = false)
    (hmarker : sound → markerKind.isAtomic = true) :
    (state.openFrame lines kind awaited markerKind opening).Fits lines sound start
      opening.stop := by
  let frame : Frame := ⟨.fresh state.next, kind, awaited, opening, []⟩
  have hframe : FrameFits lines sound frame := ⟨hopening.isBoundary_start, hkind, by simp [frame]⟩
  have hopened : ({ state with frames := frame :: state.frames } : Pairing).Fits lines sound start
      stop :=
    ⟨⟨hstart, hstart ▸ h.reaches⟩, h.stop, h.base, List.forall_mem_cons.2 ⟨hframe, h.frames⟩⟩
  exact (hopened.withNext (state.next + 1) state.notes).pushLeaf hopening hstart hmarker

/-- A container that ends behind its children fits. -/
theorem fits_close {frame : Frame} (h : FrameFits lines sound frame)
    (hchildren : Abut frame.opening.start frame.children.reverse stop)
    (hstop : Text.isBoundary lines.text stop = true) :
    (frame.close lines stop).All (Node.Fits lines sound)
      ∧ (frame.close lines stop).range.start = frame.opening.start
      ∧ (frame.close lines stop).range.stop = stop := by
  have hmax : max stop frame.opening.start = stop := Nat.max_eq_left hchildren.le
  refine ⟨Node.fits_container h.kind h.opening ?_ ?_ ?_, rfl, hmax⟩
  · change Text.isBoundary lines.text (max stop frame.opening.start) = true
    rwa [hmax]
  · change Abut frame.opening.start frame.children.reverse (max stop frame.opening.start)
    rwa [hmax]
  · intro node hnode
    exact h.children node (List.mem_reverse.1 hnode)

theorem Fits.closeInnermost (h : state.Fits lines sound start stop) :
    (state.closeInnermost lines stop).Fits lines sound start stop := by
  have hreaches := h.reaches
  unfold Pairing.closeInnermost
  split
  · exact h
  · rename_i frame outer hframes
    rw [hframes] at hreaches
    obtain ⟨hnode, hstart, hstop⟩ :=
      fits_close (h.frames frame (by simp [hframes])) hreaches.1 h.stop
    have houter : ({ state with frames := outer } : Pairing).Fits lines sound start
        frame.opening.start :=
      ⟨hreaches.2, (h.frames frame (by simp [hframes])).opening, h.base, fun other hother =>
        h.frames other (by simp [hframes, hother])⟩
    have hpushed := houter.push hnode hstart
    rwa [hstop] at hpushed

theorem Fits.unwind (h : state.Fits lines sound start stop) (count : Nat) :
    (unwind lines stop count state).Fits lines sound start stop := by
  induction count generalizing state with
  | zero => exact h
  | succ count ih =>
      unfold Pairing.unwind
      split
      · exact h
      · exact ih (h.closeInnermost.withNext _ _)

theorem Fits.close (h : state.Fits lines sound start stop) {awaits : Awaited → Bool}
    {markerKind : Kind} {marker : Fragment} {problem : Problem}
    (hmarker : marker.LiesIn lines.text) (hstart : marker.start = stop)
    (hkind : sound → markerKind.isAtomic = true) :
    (state.close lines awaits markerKind marker problem).Fits lines sound start marker.stop := by
  unfold Pairing.close
  split
  · have hunwound := h.unwind ‹Nat›
    rw [← hstart] at hunwound
    exact (hunwound.pushLeaf hmarker rfl hkind).closeInnermost
  · exact (h.pushLeaf hmarker hstart hkind).withNext _ _

/-! ## Names -/

/-- The names of a list of finished nodes follow those given out before. -/
structure Counts (first : Nat) (state : Pairing) : Prop where
  le : first ≤ state.next
  ids : state.ids = freshIds first state.next

variable {first : Nat}

theorem ids_pushLeaf (lines : LineIndex) (state : Pairing) (kind : Kind) (text : Fragment) :
    (state.pushLeaf lines kind text).ids = state.ids ++ [.fresh state.next] := by
  rw [Pairing.pushLeaf, ids_push, Node.ids_mk]
  rfl

@[simp] theorem next_pushLeaf (lines : LineIndex) (state : Pairing) (kind : Kind)
    (text : Fragment) : (state.pushLeaf lines kind text).next = state.next + 1 := by
  rw [Pairing.pushLeaf, next_push]

theorem Counts.pushLeaf (h : Counts first state) (kind : Kind) (text : Fragment) :
    Counts first (state.pushLeaf lines kind text) := by
  have hle := h.le
  refine ⟨by rw [next_pushLeaf]; omega, ?_⟩
  rw [ids_pushLeaf, next_pushLeaf, h.ids, ← freshIds_succ, freshIds_append h.le (by omega)]

theorem Counts.openFrame (h : Counts first state) (kind markerKind : Kind) (awaited : Awaited)
    (opening : Fragment) : Counts first (state.openFrame lines kind awaited markerKind opening) := by
  let frame : Frame := ⟨.fresh state.next, kind, awaited, opening, []⟩
  have hopened : Counts first
      { state with frames := frame :: state.frames, next := state.next + 1 } := by
    refine ⟨Nat.le_succ_of_le h.le, ?_⟩
    have hids : state.ids ++ [.fresh state.next] = freshIds first (state.next + 1) := by
      rw [h.ids, ← freshIds_succ, freshIds_append h.le (Nat.le_succ _)]
    rw [← hids]
    simp [Pairing.ids, frameIds, frame]
  exact hopened.pushLeaf markerKind opening

/-- Ending a container moves its name, with those below it, into the container around it. -/
theorem ids_closeInnermost (lines : LineIndex) (state : Pairing) (stop : Nat) :
    (state.closeInnermost lines stop).ids = state.ids := by
  unfold Pairing.closeInnermost
  split
  · rfl
  · rename_i frame outer hframes
    rw [ids_push, Frame.close, Node.ids_mk]
    simp [ids, hframes, frameIds, Label.ofRange]

@[simp] theorem next_closeInnermost (lines : LineIndex) (state : Pairing) (stop : Nat) :
    (state.closeInnermost lines stop).next = state.next := by
  unfold Pairing.closeInnermost
  split
  · rfl
  · rw [next_push]

theorem Counts.closeInnermost (h : Counts first state) (stop : Nat) :
    Counts first (state.closeInnermost lines stop) :=
  ⟨by rw [next_closeInnermost]; exact h.le, by rw [ids_closeInnermost, next_closeInnermost, h.ids]⟩

theorem Counts.withNotes (h : Counts first state) (notes : List Diagnostic) :
    Counts first { state with notes } := ⟨h.le, h.ids⟩

theorem Counts.unwind (h : Counts first state) (stop count : Nat) :
    Counts first (unwind lines stop count state) := by
  induction count generalizing state with
  | zero => exact h
  | succ count ih =>
      unfold Pairing.unwind
      split
      · exact h
      · exact ih ((h.closeInnermost stop).withNotes _)

theorem Counts.close (h : Counts first state) (awaits : Awaited → Bool) (markerKind : Kind)
    (marker : Fragment) (problem : Problem) :
    Counts first (state.close lines awaits markerKind marker problem) := by
  unfold Pairing.close
  split
  · exact ((h.unwind _ _).pushLeaf _ _).closeInnermost _
  · exact (h.pushLeaf _ _).withNotes _

/-! ## Spans -/

theorem Fits.pushAll (h : state.Fits lines sound start stop) {nodes : List Node} {last : Nat}
    (habut : Abut stop nodes last) (hnodes : ∀ node ∈ nodes, node.All (Node.Fits lines sound)) :
    (nodes.foldl Pairing.push state).Fits lines sound start last := by
  induction nodes generalizing state stop with
  | nil =>
      have hlast : stop = last := habut
      exact hlast ▸ h
  | cons node rest ih =>
      rw [List.forall_mem_cons] at hnodes
      exact ih (h.push hnodes.1 habut.1) habut.2 hnodes.2

theorem ids_pushAll (state : Pairing) (nodes : List Node) :
    (nodes.foldl push state).ids = state.ids ++ nodes.flatMap Node.ids
      ∧ (nodes.foldl push state).next = state.next := by
  induction nodes generalizing state with
  | nil => simp
  | cons node rest ih =>
      obtain ⟨hids, hnext⟩ := ih (state.push node)
      rw [List.foldl_cons, hids, hnext]
      simp

end Pairing

/-- What holds of the paired nodes from `start` to `stop`. -/
structure Paired.Fits (lines : LineIndex) (sound : Prop) (start : Nat) (paired : Paired)
    (stop : Nat) : Prop where
  abut : Abut start paired.children stop
  nodes : ∀ node ∈ paired.children, node.All (Node.Fits lines sound)

/-- The names of paired nodes are those from `first` on. -/
structure Paired.Counts (first : Nat) (paired : Paired) : Prop where
  le : first ≤ paired.next
  ids : paired.children.flatMap Node.ids = freshIds first paired.next

/-- In a sound grammar, leaves are of kinds of leaves and elements of kinds of containers. -/
structure Grammar.IsSound (grammar : Grammar) : Prop where
  table : grammar.table.IsSound
  elements : ∀ rules, grammar.markup = some rules →
    ∀ name, (rules.elementKind name).isAtomic = false

namespace Pairing

variable {lines : LineIndex} {sound : Prop} {start stop first : Nat} {state : Pairing}

theorem Fits.pairTag (h : state.Fits lines sound start stop) {rules : Markup.Rules}
    (hrules : sound → ∀ name, (rules.elementKind name).isAtomic = false) {text : Fragment}
    (htext : text.LiesIn lines.text) (hstart : text.start = stop) :
    (state.pairTag lines rules text).Fits lines sound start text.stop := by
  unfold Pairing.pairTag
  dsimp only
  split
  · exact h.close htext hstart fun _ => by decide
  · split
    · exact h.openFrame _ htext hstart (fun hs => hrules hs _) fun _ => by decide
    · exact (h.openFrame _ htext hstart (fun hs => hrules hs _) fun _ => by decide).closeInnermost

theorem Counts.pairTag (h : Counts first state) (rules : Markup.Rules) (text : Fragment) :
    Counts first (state.pairTag lines rules text) := by
  unfold Pairing.pairTag
  dsimp only
  split
  · exact h.close _ _ _ _
  · split
    · exact h.openFrame _ _ _ _
    · exact (h.openFrame _ _ _ _).closeInnermost _

theorem Fragment.stop_of_isEmpty {fragment : Fragment} (h : fragment.chars.isEmpty = true) :
    fragment.stop = fragment.start := by
  rw [Fragment.stop, List.isEmpty_iff.1 h]
  rfl

theorem Fits.fill {inner : Range → Nat → Paired} {interior : Fragment}
    (h : state.Fits lines sound start interior.start)
    (hinner : ∀ next, (inner interior.range next).Fits lines sound interior.start interior.stop) :
    (state.fill inner interior).Fits lines sound start interior.stop := by
  unfold Pairing.fill
  split
  · rw [Fragment.stop_of_isEmpty ‹_›]
    exact h
  · have hpaired := hinner state.next
    exact (h.withNext _ _).pushAll hpaired.abut hpaired.nodes

theorem Fits.pushMarker {closing : Fragment} (h : state.Fits lines sound start closing.start)
    (hclosing : closing.LiesIn lines.text) :
    (state.pushMarker lines closing).Fits lines sound start closing.stop := by
  unfold Pairing.pushMarker
  split
  · rw [Fragment.stop_of_isEmpty ‹_›]
    exact h
  · exact h.pushLeaf hclosing rfl fun _ => by decide

theorem Fits.pairDelimited (h : state.Fits lines sound start stop)
    {inner : Range → Nat → Paired} {kind : Kind} {opening interior closing : Fragment} {last : Nat}
    (hchain : Chain lines.text stop [opening, interior, closing] last)
    (hkind : kind.isAtomic = false)
    (hinner : ∀ next, (inner interior.range next).Fits lines sound interior.start interior.stop) :
    (state.pairDelimited lines inner kind opening interior closing).Fits lines sound start
      last := by
  obtain ⟨hstart, hopening, hmiddle, hinterior, hend, hclosing, rfl⟩ := hchain
  have hopened := h.openFrame (.marker kind) hopening hstart (fun _ => hkind)
    (fun _ => (by decide : Kind.delimiter.isAtomic = true))
  rw [← hmiddle] at hopened
  have hfilled := hopened.fill hinner
  rw [← hend] at hfilled
  exact (hfilled.pushMarker hclosing).closeInnermost

theorem Counts.fill (h : Counts first state) {inner : Range → Nat → Paired} {interior : Fragment}
    (hinner : ∀ next, (inner interior.range next).Counts next) :
    Counts first (state.fill inner interior) := by
  unfold Pairing.fill
  split
  · exact h
  · have hpaired := hinner state.next
    have hle := hpaired.le
    obtain ⟨hids, hnext⟩ := ids_pushAll
      { state with
        next := (inner interior.range state.next).next
        notes := (inner interior.range state.next).notes.reverse ++ state.notes }
      (inner interior.range state.next).children
    refine ⟨by rw [hnext]; exact Nat.le_trans h.le hle, ?_⟩
    rw [hids, hnext, hpaired.ids, ← freshIds_append h.le hle, ← h.ids]
    rfl

theorem Counts.pairDelimited (h : Counts first state) {inner : Range → Nat → Paired} (kind : Kind)
    (opening : Fragment) {interior : Fragment} (closing : Fragment)
    (hinner : ∀ next, (inner interior.range next).Counts next) :
    Counts first (state.pairDelimited lines inner kind opening interior closing) := by
  have hfilled : Counts first
      ((state.openFrame lines kind (.marker kind) .delimiter opening).fill inner interior) :=
    (h.openFrame _ _ _ _).fill hinner
  refine Counts.closeInnermost ?_ _
  unfold Pairing.pushMarker
  split
  · exact hfilled
  · exact hfilled.pushLeaf _ _

variable {grammar : Grammar}

/-- What the pairing of interiors has to do for the places of nodes. -/
def InnerFits (lines : LineIndex) (sound : Prop) (inner : Option KindSet → Range → Nat → Paired) :
    Prop :=
  ∀ restrict range next, Text.isBoundary lines.text range.start = true →
    Text.isBoundary lines.text range.stop = true →
    (inner restrict range next).Fits lines sound range.start range.stop

theorem Fits.step (h : state.Fits lines sound start stop) (hgrammar : sound → grammar.IsSound)
    {inner : Option KindSet → Range → Nat → Paired} (hinner : InnerFits lines sound inner)
    {span : Span} {last : Nat} (hchain : Chain lines.text stop span.fragments last)
    (hspan : span.Suits sound) :
    (Pairing.step lines grammar inner state span).Fits lines sound start last := by
  cases span with
  | leaf kind text =>
      obtain ⟨hstart, htext, rfl⟩ := hchain
      unfold Pairing.step
      dsimp only
      split
      · rename_i rules hrules
        exact h.pairTag (fun hs => (hgrammar hs).elements rules hrules) htext hstart
      · exact h.pushLeaf htext hstart hspan
  | opener kind text =>
      obtain ⟨hstart, htext, rfl⟩ := hchain
      exact h.openFrame _ htext hstart (fun _ => hspan) fun _ => by decide
  | closer kind text =>
      obtain ⟨hstart, htext, rfl⟩ := hchain
      unfold Pairing.step
      exact h.close htext hstart fun _ => by decide
  | delimited kind opening interior closing =>
      refine h.pairDelimited hchain hspan fun next => ?_
      obtain ⟨_, _, _, hinterior, _⟩ := hchain
      exact hinner _ interior.range next hinterior.isBoundary_start hinterior.isBoundary_stop

theorem Counts.step (h : Counts first state) {inner : Option KindSet → Range → Nat → Paired}
    (hinner : ∀ restrict range next, (inner restrict range next).Counts next) (span : Span) :
    Counts first (Pairing.step lines grammar inner state span) := by
  cases span with
  | leaf kind text =>
      unfold Pairing.step
      dsimp only
      split
      · exact h.pairTag _ _
      · exact h.pushLeaf _ _
  | opener kind text => exact h.openFrame _ _ _ _
  | closer kind text =>
      unfold Pairing.step
      exact h.close _ _ _ _
  | delimited kind opening interior closing =>
      exact h.pairDelimited _ _ _ fun next => hinner _ _ _

theorem Fits.steps (h : state.Fits lines sound start stop) (hgrammar : sound → grammar.IsSound)
    {inner : Option KindSet → Range → Nat → Paired} (hinner : InnerFits lines sound inner)
    {spans : List Span} {last : Nat}
    (hchain : Chain lines.text stop (spans.flatMap Span.fragments) last)
    (hspans : ∀ span ∈ spans, span.Suits sound) :
    (spans.foldl (Pairing.step lines grammar inner) state).Fits lines sound start last := by
  induction spans generalizing state stop with
  | nil =>
      have hlast : stop = last := hchain
      exact hlast ▸ h
  | cons span rest ih =>
      rw [List.forall_mem_cons] at hspans
      obtain ⟨mid, hspan, hrest⟩ := chain_append.1 hchain
      exact ih (h.step hgrammar hinner hspan hspans.1) hrest hspans.2

theorem Counts.steps (h : Counts first state) (lines : LineIndex) (grammar : Grammar)
    {inner : Option KindSet → Range → Nat → Paired}
    (hinner : ∀ restrict range next, (inner restrict range next).Counts next)
    (spans : List Span) :
    Counts first (spans.foldl (Pairing.step lines grammar inner) state) := by
  induction spans generalizing state with
  | nil => exact h
  | cons span rest ih => exact ih (h.step hinner span)

/-! ## Ranges -/

theorem length_frames_push (state : Pairing) (node : Node) :
    (state.push node).frames.length = state.frames.length := by
  unfold push
  cases state.frames <;> simp

theorem length_frames_closeInnermost (lines : LineIndex) (state : Pairing) (stop : Nat) :
    (state.closeInnermost lines stop).frames.length = state.frames.length - 1 := by
  unfold closeInnermost
  cases hframes : state.frames with
  | nil => simp [hframes]
  | cons frame outer => rw [length_frames_push]; simp

/-- Unwinding ends as many containers as it is told to. -/
theorem length_frames_unwind (lines : LineIndex) (stop count : Nat) (state : Pairing) :
    (unwind lines stop count state).frames.length = state.frames.length - count := by
  induction count generalizing state with
  | zero => rfl
  | succ count ih =>
      unfold unwind
      cases hframes : state.frames with
      | nil => simp [hframes]
      | cons frame outer =>
          dsimp only
          rw [ih]
          simp only [note, length_frames_closeInnermost, hframes, List.length_cons]
          omega

theorem frames_unwind_all (lines : LineIndex) (stop : Nat) (state : Pairing) :
    (unwind lines stop state.frames.length state).frames = [] := by
  apply List.eq_nil_of_length_eq_zero
  rw [length_frames_unwind]
  omega

end Pairing

namespace Grammar

variable {lines : LineIndex} {sound : Prop}

/-- The nodes of a range stand side by side over the whole range. -/
theorem fits_pairRange {grammar : Grammar} (hgrammar : sound → grammar.IsSound)
    (fuel : Nat) (restrict : Option KindSet) {range : Range} (next : Nat)
    (hstart : Text.isBoundary lines.text range.start = true)
    (hstop : Text.isBoundary lines.text range.stop = true) :
    (grammar.pairRange lines fuel restrict range next).Fits lines sound range.start range.stop := by
  induction fuel generalizing restrict range next with
  | zero =>
      have htext := Fragment.liesIn_ofRange hstart hstop
      refine ⟨⟨rfl, Fragment.stop_ofRange hstart hstop⟩, ?_⟩
      intro node hnode
      obtain rfl := List.mem_singleton.1 hnode
      exact Pairing.fits_leaf htext fun _ => by decide
  | succ fuel ih =>
      have hempty : ({ next } : Pairing).Fits lines sound range.start range.start :=
        ⟨rfl, hstart, by simp, by simp⟩
      have hscanned := hempty.steps hgrammar
        (fun restrict range next hstart hstop => ih restrict next hstart hstop)
        (grammar.table.chain_scanRange restrict hstart hstop)
        (Table.suits_scanFrom (fun hs => (hgrammar hs).table) _ _ _ _)
      have hended := hscanned.unwind (List.foldl (Pairing.step lines grammar
        (grammar.pairRange lines fuel)) { next }
        (grammar.table.scanRange lines.text range restrict)).frames.length
      have hreaches := hended.reaches
      rw [Pairing.frames_unwind_all] at hreaches
      exact ⟨hreaches, fun node hnode => hended.base node (List.mem_reverse.1 hnode)⟩

/-- The names in a range follow one another without gaps. -/
theorem counts_pairRange (grammar : Grammar) (lines : LineIndex) (fuel : Nat)
    (restrict : Option KindSet) (range : Range) (next : Nat) :
    (grammar.pairRange lines fuel restrict range next).Counts next := by
  induction fuel generalizing restrict range next with
  | zero => exact ⟨Nat.le_succ next, (freshIds_succ next).symm⟩
  | succ fuel ih =>
      have hempty : Pairing.Counts next { next } := ⟨Nat.le_refl next, (freshIds_self next).symm⟩
      have hscanned := hempty.steps lines grammar ih
        (grammar.table.scanRange lines.text range restrict)
      have hended : Pairing.Counts next (Pairing.unwind lines range.stop _ _) :=
        hscanned.unwind range.stop
          (List.foldl (Pairing.step lines grammar (grammar.pairRange lines fuel)) { next }
            (grammar.table.scanRange lines.text range restrict)).frames.length
      have hids := hended.ids
      rw [Pairing.ids, Pairing.frames_unwind_all, Pairing.frameIds, List.append_nil] at hids
      exact ⟨hended.le, hids⟩

/-- The tree of a text from its spans. -/
theorem pair_of_scan {grammar : Grammar} {spans : List Span}
    (h : grammar.table.scanRange lines.text (.ofLength 0 (Text.byteLength lines.text)) none =
      spans) :
    grammar.pair lines =
      let whole := Range.ofLength 0 (Text.byteLength lines.text)
      let state := spans.foldl (Pairing.step lines grammar
        (grammar.pairRange lines (Text.byteLength lines.text))) { next := 1 }
      let state := Pairing.unwind lines whole.stop state.frames.length state
      (⟨.ofRange lines (.fresh 0) .root whole, state.base.reverse⟩, state.next,
        state.notes.reverse) := by
  subst h
  rfl

/-- All nodes of a paired text fit it. -/
theorem fits_pair {grammar : Grammar} (hgrammar : sound → grammar.IsSound) (lines : LineIndex) :
    (grammar.pair lines).1.All (Node.Fits lines sound) := by
  have hstop : Text.isBoundary lines.text (0 + Text.byteLength lines.text) = true := by
    rw [Nat.zero_add]
    exact Text.isBoundary_byteLength lines.text
  let whole : Range := .ofLength 0 (Text.byteLength lines.text)
  have hpaired : Paired.Fits lines sound whole.start
      (grammar.pairRange lines (Text.byteLength lines.text + 1) none whole 1) whole.stop :=
    fits_pairRange hgrammar _ none 1 (Text.isBoundary_zero lines.text) hstop
  exact Node.fits_container (fun _ => by decide) (Text.isBoundary_zero lines.text) hstop
    hpaired.abut hpaired.nodes

/-- The names in a paired text, each node's before those below it, are the first ones. -/
theorem ids_pair (grammar : Grammar) (lines : LineIndex) :
    (grammar.pair lines).1.ids = freshIds 0 (grammar.pair lines).2.1 := by
  obtain ⟨hle, hids⟩ := counts_pairRange grammar lines (Text.byteLength lines.text + 1) none
    (.ofLength 0 (Text.byteLength lines.text)) 1
  rw [pair, Node.ids_mk]
  dsimp only
  rw [hids]
  exact freshIds_append (Nat.zero_le 1) hle

end Grammar

end ConcreteSyntax
