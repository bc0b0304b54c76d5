import ConcreteSyntax.Proofs.Node.Cutout
import ConcreteSyntax.Proofs.Pairing.Grouping
import ConcreteSyntax.Proofs.Pairing.Notes
import ConcreteSyntax.Proofs.Scan.Shift

/-!
# Pairing outside a gap

Two texts that differ in gaps only are paired in step.  Whatever the one reads outside its gap the
other reads too, and both states of pairing look the same outside the gaps (`Pairing.Alike`).  A
directive around the gap is one node in both, and nothing that pairing makes of its interior is
seen outside it.
-/

namespace ConcreteSyntax

/-- Two open containers that look the same outside gaps. -/
structure Frame.Alike (gap gap' : Gap) (frame frame' : Frame) : Prop where
  kind : frame.kind = frame'.kind
  container : frame.kind.isAtomic = false
  awaited : frame.awaited = frame'.awaited
  opening : frame.opening.Alike gap gap' frame'.opening
  children : frame.children.map (Node.cut gap) = frame'.children.map (Node.cut gap')

/-- Two states of pairing that look the same outside gaps. -/
structure Pairing.Alike (gap gap' : Gap) (state state' : Pairing) : Prop where
  base : state.base.map (Node.cut gap) = state'.base.map (Node.cut gap')
  frames : List.Forall₂ (Frame.Alike gap gap') state.frames state'.frames
  notes : state.notes.filterMap (·.cut? gap) = state'.notes.filterMap (·.cut? gap')

/-- What is paired in two texts and looks the same outside gaps. -/
structure Paired.Alike (gap gap' : Gap) (paired paired' : Paired) : Prop where
  children : paired.children.map (Node.cut gap) = paired'.children.map (Node.cut gap')
  notes : paired.notes.filterMap (·.cut? gap) = paired'.notes.filterMap (·.cut? gap')

variable {gap gap' : Gap} {lines lines' : LineIndex}

/-- Leaves with the same text look the same. -/
theorem Fragment.Alike.cut_leaf {text text' : Fragment} (h : text.Alike gap gap' text')
    (hgaps : gap.Alike gap' lines lines') (id id' : NodeId) (kind : Kind) :
    Node.cut gap ⟨.ofFragment lines id kind text, []⟩ =
      Node.cut gap' ⟨.ofFragment lines' id' kind text', []⟩ := by
  refine Node.cut_eq hgaps.start ⟨rfl, h.extent, hgaps.span h.extent, ?_⟩ rfl
  simp only [Label.ofFragment, h.chars]

namespace Frame.Alike

variable {frame frame' : Frame}

theorem close (h : frame.Alike gap gap' frame') (hgaps : gap.Alike gap' lines lines')
    {stop stop' : Nat} (hstop : gap.place? stop = gap'.place? stop') :
    (frame.close lines stop).cut gap = (frame'.close lines' stop').cut gap' := by
  unfold Frame.close
  rw [← h.kind]
  refine Node.cut_eq hgaps.start (Label.alike_ofRange hgaps h.container _ _ ?_) ?_
  · exact Gap.extent_upTo hgaps.start h.opening.start hstop
  · rw [List.map_reverse, List.map_reverse, h.children]

theorem unclosed (h : frame.Alike gap gap' frame') :
    frame.unclosed.cut? gap = frame'.unclosed.cut? gap' := by
  unfold Frame.unclosed
  rw [← h.awaited]
  cases frame.awaited with
  | marker kind =>
      refine Diagnostic.cut?_eq rfl ?_ h.opening.extent
      exact congrArg Problem.unclosed h.opening.chars
  | tag name => exact Diagnostic.cut?_eq rfl rfl h.opening.extent

end Frame.Alike

namespace Pairing.Alike

variable {state state' : Pairing} {text text' : Fragment}

/-! ## Steps -/

theorem push (h : state.Alike gap gap' state') {node node' : Node}
    (hnode : node.cut gap = node'.cut gap') :
    (state.push node).Alike gap gap' (state'.push node') := by
  obtain ⟨base, frames, next, notes⟩ := state
  obtain ⟨base', frames', next', notes'⟩ := state'
  obtain ⟨hbase, hframes, hnotes⟩ := h
  cases hframes with
  | nil =>
      refine ⟨?_, .nil, hnotes⟩
      exact congrArg₂ List.cons hnode hbase
  | cons hframe hrest =>
      refine ⟨hbase, .cons ⟨hframe.kind, hframe.container, hframe.awaited, hframe.opening, ?_⟩ hrest,
        hnotes⟩
      exact congrArg₂ List.cons hnode hframe.children

theorem withNext (h : state.Alike gap gap' state') (next next' : Nat) :
    Alike gap gap' { state with next } { state' with next := next' } :=
  ⟨h.base, h.frames, h.notes⟩

theorem note (h : state.Alike gap gap' state') {note note' : Diagnostic}
    (hnote : note.cut? gap = note'.cut? gap') :
    (state.note note).Alike gap gap' (state'.note note') := by
  refine ⟨h.base, h.frames, ?_⟩
  simp only [Pairing.note, List.filterMap_cons, hnote, h.notes]

theorem pushLeaf (h : state.Alike gap gap' state') (hgaps : gap.Alike gap' lines lines')
    (kind : Kind) (htext : text.Alike gap gap' text') :
    (state.pushLeaf lines kind text).Alike gap gap' (state'.pushLeaf lines' kind text') :=
  (h.withNext _ _).push (htext.cut_leaf hgaps _ _ kind)

theorem openFrame (h : state.Alike gap gap' state') (hgaps : gap.Alike gap' lines lines')
    {kind : Kind} (hkind : kind.isAtomic = false) (awaited : Awaited) (markerKind : Kind)
    (htext : text.Alike gap gap' text') :
    (state.openFrame lines kind awaited markerKind text).Alike gap gap'
      (state'.openFrame lines' kind awaited markerKind text') := by
  have hopened : Alike gap gap'
      { state with
        frames := ⟨.fresh state.next, kind, awaited, text, []⟩ :: state.frames
        next := state.next + 1 }
      { state' with
        frames := ⟨.fresh state'.next, kind, awaited, text', []⟩ :: state'.frames
        next := state'.next + 1 } :=
    ⟨h.base, .cons ⟨rfl, hkind, rfl, htext, rfl⟩ h.frames, h.notes⟩
  exact hopened.pushLeaf hgaps markerKind htext

theorem closeInnermost (h : state.Alike gap gap' state') (hgaps : gap.Alike gap' lines lines')
    {stop stop' : Nat} (hstop : gap.place? stop = gap'.place? stop') :
    (state.closeInnermost lines stop).Alike gap gap' (state'.closeInnermost lines' stop') := by
  have hstate := h
  obtain ⟨base, frames, next, notes⟩ := state
  obtain ⟨base', frames', next', notes'⟩ := state'
  obtain ⟨hbase, hframes, hnotes⟩ := h
  cases hframes with
  | nil => exact hstate
  | @cons frame frame' outer outer' hframe hrest =>
      have houter : Alike gap gap' ⟨base, outer, next, notes⟩ ⟨base', outer', next', notes'⟩ :=
        ⟨hbase, hrest, hnotes⟩
      exact houter.push (hframe.close hgaps hstop)

theorem unwind (h : state.Alike gap gap' state') (hgaps : gap.Alike gap' lines lines')
    {stop stop' : Nat} (hstop : gap.place? stop = gap'.place? stop') (count : Nat) :
    (unwind lines stop count state).Alike gap gap' (Pairing.unwind lines' stop' count state') := by
  induction count generalizing state state' with
  | zero => exact h
  | succ count ih =>
      have hframes := h.frames
      unfold Pairing.unwind
      cases hopen : state.frames with
      | nil =>
          rw [hopen, List.forall₂_nil_left_iff] at hframes
          rwa [hframes]
      | cons frame outer =>
          rw [hopen, List.forall₂_cons_left_iff] at hframes
          obtain ⟨frame', outer', hframe, -, hopen'⟩ := hframes
          rw [hopen']
          exact ih ((h.closeInnermost hgaps hstop).note hframe.unclosed)

/-- Both find the same container that awaits a marker. -/
theorem findIdx?_frames (h : state.Alike gap gap' state') (awaits : Awaited → Bool) :
    state.frames.findIdx? (awaits ·.awaited) = state'.frames.findIdx? (awaits ·.awaited) := by
  have hframes := h.frames
  generalize state.frames = frames at hframes
  generalize state'.frames = frames' at hframes
  induction hframes with
  | nil => rfl
  | cons hframe _ ih => rw [List.findIdx?_cons, List.findIdx?_cons, hframe.awaited, ih]

theorem close (h : state.Alike gap gap' state') (hgaps : gap.Alike gap' lines lines')
    (awaits : Awaited → Bool) (markerKind : Kind) (htext : text.Alike gap gap' text')
    {problem problem' : Problem} (hproblem : problem = problem') :
    (state.close lines awaits markerKind text problem).Alike gap gap'
      (state'.close lines' awaits markerKind text' problem') := by
  unfold Pairing.close
  rw [h.findIdx?_frames awaits]
  split
  · exact ((h.unwind hgaps htext.start _).pushLeaf hgaps markerKind htext).closeInnermost hgaps
      htext.stop
  · exact (h.pushLeaf hgaps markerKind htext).note (Diagnostic.cut?_eq rfl hproblem htext.extent)

/-! ## Delimited containers -/

theorem pushAll (h : state.Alike gap gap' state') {nodes nodes' : List Node}
    (hnodes : nodes.map (Node.cut gap) = nodes'.map (Node.cut gap')) :
    (nodes.foldl Pairing.push state).Alike gap gap' (nodes'.foldl Pairing.push state') := by
  induction nodes generalizing nodes' state state' with
  | nil =>
      obtain rfl := List.map_eq_nil_iff.1 hnodes.symm
      exact h
  | cons node rest ih =>
      obtain ⟨node', rest', rfl, hnode, hrest⟩ := List.map_eq_cons_iff.1 hnodes.symm
      exact ih (h.push hnode.symm) hrest.symm

theorem fill (h : state.Alike gap gap' state') {inner inner' : Range → Nat → Paired}
    (hchars : text.chars = text'.chars)
    (hinner : ∀ next next', (inner text.range next).Alike gap gap' (inner' text'.range next')) :
    (state.fill inner text).Alike gap gap' (state'.fill inner' text') := by
  have hnoted : ∀ paired paired' : Paired, paired.Alike gap gap' paired' → Alike gap gap'
      { state with next := paired.next, notes := paired.notes.reverse ++ state.notes }
      { state' with next := paired'.next, notes := paired'.notes.reverse ++ state'.notes } := by
    intro paired paired' hpaired
    refine ⟨h.base, h.frames, ?_⟩
    simp only [List.filterMap_append, List.filterMap_reverse, hpaired.notes, h.notes]
  unfold Pairing.fill
  rw [hchars]
  split
  · exact h
  · exact (hnoted _ _ (hinner _ _)).pushAll (hinner _ _).children

theorem pushMarker (h : state.Alike gap gap' state') (hgaps : gap.Alike gap' lines lines')
    (htext : text.Alike gap gap' text') :
    (state.pushMarker lines text).Alike gap gap' (state'.pushMarker lines' text') := by
  unfold Pairing.pushMarker
  rw [htext.chars]
  split
  · exact h
  · exact h.pushLeaf hgaps .delimiter htext

theorem pairDelimited (h : state.Alike gap gap' state') (hgaps : gap.Alike gap' lines lines')
    {inner inner' : Range → Nat → Paired} {kind : Kind} (hkind : kind.isAtomic = false)
    {opening opening' closing closing' : Fragment} (hopening : opening.Alike gap gap' opening')
    (hclosing : closing.Alike gap gap' closing') (hchars : text.chars = text'.chars)
    (hinner : ∀ next next', (inner text.range next).Alike gap gap' (inner' text'.range next')) :
    (state.pairDelimited lines inner kind opening text closing).Alike gap gap'
      (state'.pairDelimited lines' inner' kind opening' text' closing') :=
  (((h.openFrame hgaps hkind (.marker kind) .delimiter hopening).fill hchars hinner).pushMarker
    hgaps hclosing).closeInnermost hgaps hclosing.stop

end Pairing.Alike

/-! ## Spans -/

/-- Two spans that are the same outside gaps, and whose interiors are paired to the same. -/
inductive Span.Alike (gap gap' : Gap) (table : Table)
    (inner inner' : Option KindSet → Range → Nat → Paired) : Span → Span → Prop
  | leaf (kind : Kind) {text text' : Fragment} (htext : text.Alike gap gap' text') :
      Alike gap gap' table inner inner' (.leaf kind text) (.leaf kind text')
  | opener {kind : Kind} (hkind : kind.isAtomic = false) {text text' : Fragment}
      (htext : text.Alike gap gap' text') :
      Alike gap gap' table inner inner' (.opener kind text) (.opener kind text')
  | closer (kind : Kind) {text text' : Fragment} (htext : text.Alike gap gap' text') :
      Alike gap gap' table inner inner' (.closer kind text) (.closer kind text')
  | delimited {kind : Kind} (hkind : kind.isAtomic = false)
      {opening opening' interior interior' closing closing' : Fragment}
      (hopening : opening.Alike gap gap' opening') (hclosing : closing.Alike gap gap' closing')
      (hchars : interior.chars = interior'.chars)
      (hinner : ∀ next next',
        (inner ((table.spec? kind).bind (·.interior)) interior.range next).Alike gap gap'
          (inner' ((table.spec? kind).bind (·.interior)) interior'.range next')) :
      Alike gap gap' table inner inner' (.delimited kind opening interior closing)
        (.delimited kind opening' interior' closing')

namespace Pairing.Alike

variable {grammar : Grammar} {inner inner' : Option KindSet → Range → Nat → Paired}
  {state state' : Pairing}

theorem step (h : state.Alike gap gap' state') (hgaps : gap.Alike gap' lines lines')
    (hmarkup : grammar.markup = none) {span span' : Span}
    (hspan : span.Alike gap gap' grammar.table inner inner' span') :
    (step lines grammar inner state span).Alike gap gap'
      (Pairing.step lines' grammar inner' state' span') := by
  cases hspan with
  | leaf kind htext =>
      rw [step_leaf hmarkup, step_leaf hmarkup]
      exact h.pushLeaf hgaps kind htext
  | opener hkind htext => exact h.openFrame hgaps hkind _ _ htext
  | closer kind htext =>
      exact h.close hgaps (· == .marker kind) .delimiter htext
        (congrArg Problem.unmatched htext.chars)
  | delimited hkind hopening hclosing hchars hinner =>
      exact h.pairDelimited hgaps hkind hopening hclosing hchars hinner

/-- Spans that are the same outside gaps are paired in step. -/
theorem steps (h : state.Alike gap gap' state') (hgaps : gap.Alike gap' lines lines')
    (hmarkup : grammar.markup = none) {spans spans' : List Span}
    (hspans : List.Forall₂ (Span.Alike gap gap' grammar.table inner inner') spans spans') :
    (spans.foldl (Pairing.step lines grammar inner) state).Alike gap gap'
      (spans'.foldl (Pairing.step lines' grammar inner') state') := by
  induction hspans generalizing state state' with
  | nil => exact h
  | cons hspan _ ih => exact ih (h.step hgaps hmarkup hspan)

/-- The containers that are open at the end are ended in both. -/
theorem finish (h : state.Alike gap gap' state') (hgaps : gap.Alike gap' lines lines')
    {stop stop' : Nat} (hstop : gap.place? stop = gap'.place? stop') :
    (Pairing.unwind lines stop state.frames.length state).Alike gap gap'
      (Pairing.unwind lines' stop' state'.frames.length state') := by
  rw [h.frames.length_eq]
  exact h.unwind hgaps hstop _

end Pairing.Alike

/-! ## Ranges -/

/-- The spans of a stretch that two texts share are the same outside gaps, if what they are made
of is paired to the same. -/
theorem Aligned.forall₂_alike {text text' chars : List Char} {start start' : Nat}
    (h : Aligned gap gap' text text' start start' chars) (table : Table)
    {inner inner' : Option KindSet → Range → Nat → Paired}
    (hinner : ∀ restrict next next' {fragment : Fragment},
      Aligned gap gap' text text' (start + fragment.start) (start' + fragment.start)
        fragment.chars → Text.byteLength fragment.chars < Text.byteLength chars →
        (inner restrict (fragment.behind start).range next).Alike gap gap'
          (inner' restrict (fragment.behind start').range next'))
    {spans : List Span} (hspans : ∀ span ∈ spans, span.LiesIn chars) :
    List.Forall₂ (Span.Alike gap gap' table inner inner') (spans.map (Span.behind start))
      (spans.map (Span.behind start')) := by
  rw [List.forall₂_map_left_iff, List.forall₂_map_right_iff, List.forall₂_same]
  intro span hspan
  obtain ⟨hfragments, hsuits, hshorter⟩ := hspans span hspan
  cases span with
  | leaf kind text => exact .leaf kind (h.fragment (hfragments text (by simp [Span.fragments])))
  | opener kind text =>
      exact .opener hsuits (h.fragment (hfragments text (by simp [Span.fragments])))
  | closer kind text => exact .closer kind (h.fragment (hfragments text (by simp [Span.fragments])))
  | delimited kind opening interior closing =>
      exact .delimited hsuits (h.fragment (hfragments opening (by simp [Span.fragments])))
        (h.fragment (hfragments closing (by simp [Span.fragments]))) rfl fun next next' =>
          hinner _ next next' (h.part (hfragments interior (by simp [Span.fragments])))
            (hshorter rfl)

namespace Grammar

variable {grammar : Grammar}

/-- A stretch that two texts share is paired to the same outside gaps. -/
theorem pairRange_alike (hmarkup : grammar.markup = none) (hgaps : gap.Alike gap' lines lines')
    {fuel fuel' : Nat} (restrict : Option KindSet) {start start' : Nat} {chars : List Char}
    (h : Aligned gap gap' lines.text lines'.text start start' chars)
    (hfuel : Text.byteLength chars < fuel) (hfuel' : Text.byteLength chars < fuel')
    (next next' : Nat) :
    (grammar.pairRange lines fuel restrict (.ofLength start (Text.byteLength chars)) next).Alike
      gap gap'
      (grammar.pairRange lines' fuel' restrict (.ofLength start' (Text.byteLength chars))
        next') := by
  induction fuel generalizing fuel' restrict start start' chars next next' with
  | zero => omega
  | succ fuel ih =>
      obtain _ | fuel' := fuel'
      · omega
      obtain ⟨left, hscan, hscan'⟩ := h.scanRange grammar.table restrict
      have hspans := h.forall₂_alike grammar.table
        (fun restrict next next' fragment hpart hshorter =>
          ih restrict hpart (by omega) (by omega : _ < fuel') next next')
        (grammar.table.liesIn_scanFrom restrict left chars)
      have hempty : Pairing.Alike gap gap' { next } { next := next' } := ⟨rfl, .nil, rfl⟩
      have hpaired := (hempty.steps hgaps hmarkup hspans).finish hgaps
        (h.places _ (Nat.le_refl _))
      rw [pairRange, pairRange, hscan, hscan']
      refine ⟨?_, ?_⟩
      · simp only [List.map_reverse]
        exact congrArg List.reverse hpaired.base
      · simp only [List.filterMap_reverse]
        exact congrArg List.reverse hpaired.notes

/-! ## The directive around a gap -/

/-- Pairing makes one node of a delimited container, and reports problems of its interior only. -/
theorem exists_absorb (hmarkup : grammar.markup = none) (state : Pairing) {fuel : Nat}
    (restrict : Option KindSet) (kind : Kind) (opening : Fragment) {interior : Fragment}
    (closing : Fragment) (hinterior : interior.LiesIn lines.text)
    (hfuel : Text.byteLength interior.chars < fuel) :
    ∃ id children next notes,
      state.pairDelimited lines (grammar.pairRange lines fuel restrict) kind opening interior
          closing =
        state.absorb [⟨.ofRange lines id kind (.upTo opening.start closing.stop), children⟩] next
          notes
      ∧ ∀ note ∈ notes, interior.start ≤ note.range.start ∧ note.range.start < interior.stop := by
  have hlength : interior.range.length < fuel := by
    simpa only [Fragment.range, Range.ofLength, Range.length, Nat.add_sub_cancel_left] using hfuel
  obtain ⟨group, -, -, hgroup⟩ := grammar.exists_grouping hmarkup restrict
    hinterior.isBoundary_start hinterior.isBoundary_stop hlength (state.next + 2)
  have hnotes : ∀ note ∈ group.notes,
      interior.start ≤ note.range.start ∧ note.range.start < interior.stop := by
    intro note hnote
    rw [← hgroup.2] at hnote
    obtain ⟨marker, hstands, hmarks⟩ := grammar.marks_pairRange fuel restrict (state.next + 2)
      hinterior.isBoundary_start hinterior.isBoundary_stop note hnote
    rw [hmarks.range]
    exact ⟨hstands.start, Nat.lt_of_lt_of_le (Fragment.start_lt_stop hstands.chars) hstands.stop⟩
  -- an empty interior is not paired at all
  obtain ⟨inside, hempty, hinside, hsub⟩ : ∃ inside : Grouping,
      (interior.chars.isEmpty = true → inside = .nil)
      ∧ (interior.chars.isEmpty = false → Pairing.Explains lines inside interior.stop
          (grammar.pairRange lines fuel restrict interior.range (state.next + 2)))
      ∧ inside.notes ⊆ group.notes := by
    cases interior.chars.isEmpty with
    | true => exact ⟨.nil, fun _ => rfl, fun h => (by cases h), List.nil_subset _⟩
    | false => exact ⟨group, fun h => (by cases h), fun _ => hgroup, List.Subset.refl _⟩
  obtain ⟨node, next, hpaired, hshows⟩ :=
    Pairing.pairDelimited_eq state opening closing hempty hinside
  obtain ⟨index, _, _, below, others, hnode, -⟩ := hshows .nil 0 [] rfl
  obtain ⟨rfl, -⟩ := List.cons.inj hnode
  exact ⟨_, _, next, inside.notes, hpaired, fun note hnote => hnotes note (hsub hnote)⟩

end Grammar

/-- Problems in a gap are not seen outside it. -/
theorem Gap.filterMap_cut? {notes : List Diagnostic}
    (h : ∀ note ∈ notes, gap.start ≤ note.range.start ∧ note.range.start < gap.stop) :
    notes.filterMap (·.cut? gap) = [] := by
  rw [List.filterMap_eq_nil_iff]
  intro note hnote
  obtain ⟨hstart, hstop⟩ := h note hnote
  have hnone : gap.place? note.range.start = none := by
    rw [place?, if_neg (by omega), if_neg (by omega)]
  rw [Diagnostic.cut?, extent, hnone]
  rfl

theorem Pairing.Alike.absorb {state state' : Pairing} (h : state.Alike gap gap' state')
    {nodes nodes' : List Node} (hnodes : nodes.map (Node.cut gap) = nodes'.map (Node.cut gap'))
    {notes notes' : List Diagnostic}
    (hnotes : notes.filterMap (·.cut? gap) = notes'.filterMap (·.cut? gap')) (next next' : Nat) :
    (state.absorb nodes next notes).Alike gap gap' (state'.absorb nodes' next' notes') := by
  obtain ⟨hbase, hframes, -⟩ := h.pushAll hnodes
  refine ⟨hbase, hframes, ?_⟩
  simp only [Pairing.absorb, List.filterMap_append, List.filterMap_reverse, hnotes, h.notes]

/-- The directive around a gap is one node, and nothing of its interior is seen outside the gap. -/
theorem Pairing.Alike.directive {grammar : Grammar} {state state' : Pairing}
    {interior interior' : Fragment} (h : state.Alike interior.gap interior'.gap state')
    (hgaps : interior.gap.Alike interior'.gap lines lines') (hmarkup : grammar.markup = none)
    {kind : Kind} (hkind : KindSet.directives.contains kind = true) {opening : Fragment}
    (hopening : opening.start < interior.start) (hinterior : interior.LiesIn lines.text)
    (hinterior' : interior'.LiesIn lines'.text) {fuel fuel' : Nat}
    (hfuel : Text.byteLength interior.chars < fuel)
    (hfuel' : Text.byteLength interior'.chars < fuel') (restrict : Option KindSet) :
    (state.pairDelimited lines (grammar.pairRange lines fuel restrict) kind opening interior
        ⟨interior.stop, []⟩).Alike interior.gap interior'.gap
      (state'.pairDelimited lines' (grammar.pairRange lines' fuel' restrict) kind opening interior'
        ⟨interior'.stop, []⟩) := by
  obtain ⟨id, children, next, notes, hpaired, hnotes⟩ := grammar.exists_absorb hmarkup state restrict
    kind opening ⟨interior.stop, []⟩ hinterior hfuel
  obtain ⟨id', children', next', notes', hpaired', hnotes'⟩ := grammar.exists_absorb hmarkup state'
    restrict kind opening ⟨interior'.stop, []⟩ hinterior' hfuel'
  rw [hpaired, hpaired']
  have hstop : interior.gap.place? interior.stop = interior'.gap.place? interior'.stop :=
    (interior.gap.place?_stop.trans (congrArg some hgaps.start)).trans
      interior'.gap.place?_stop.symm
  have hextent : interior.gap.extent (.upTo opening.start interior.stop) =
      interior'.gap.extent (.upTo opening.start interior'.stop) := by
    refine Gap.extent_upTo hgaps.start ?_ hstop
    rw [Gap.place?_of_lt hopening, Gap.place?_of_lt (hgaps.start ▸ hopening)]
  have hhides : Label.hides interior.gap
      (.ofRange lines id kind (.upTo opening.start interior.stop)) = true := by
    have hwithin : interior.gap.isWithin (.upTo opening.start interior.stop) = true := by
      rw [Gap.isWithin, Bool.and_eq_true, decide_eq_true_eq, decide_eq_true_eq]
      exact ⟨hopening, Nat.le_max_left _ _⟩
    exact Bool.and_eq_true_iff.2 ⟨hkind, hwithin⟩
  refine h.absorb ?_ ?_ next next'
  · refine congrArg (· :: []) (Node.cut_eq_of_hides hgaps.start ?_ hhides)
    exact Label.alike_ofRange hgaps (Kind.isAtomic_of_directives hkind) id id' hextent
  · rw [Gap.filterMap_cut? hnotes, Gap.filterMap_cut? hnotes']

/-- Texts with a directive around a gap each are paired to trees and problems that look the same
outside the gaps, if they are scanned into the same spans there. -/
theorem Grammar.pair_alike {grammar : Grammar} {interior interior' : Fragment}
    (hgaps : interior.gap.Alike interior'.gap lines lines') (hmarkup : grammar.markup = none)
    {kind : Kind} (hkind : KindSet.directives.contains kind = true) {opening : Fragment}
    (hopening : opening.start < interior.start) (hinterior : interior.LiesIn lines.text)
    (hinterior' : interior'.LiesIn lines'.text) {spans rest rest' : List Span}
    (hscan : grammar.table.scan lines.text =
      spans ++ .delimited kind opening interior ⟨interior.stop, []⟩ :: rest)
    (hscan' : grammar.table.scan lines'.text =
      spans ++ .delimited kind opening interior' ⟨interior'.stop, []⟩ :: rest')
    (hspans : List.Forall₂ (Span.Alike interior.gap interior'.gap grammar.table
      (grammar.pairRange lines (Text.byteLength lines.text))
      (grammar.pairRange lines' (Text.byteLength lines'.text))) spans spans)
    (hrest : List.Forall₂ (Span.Alike interior.gap interior'.gap grammar.table
      (grammar.pairRange lines (Text.byteLength lines.text))
      (grammar.pairRange lines' (Text.byteLength lines'.text))) rest rest')
    (hlength : interior.gap.place? (Text.byteLength lines.text) =
      interior'.gap.place? (Text.byteLength lines'.text)) :
    (grammar.pair lines).1.cut interior.gap = (grammar.pair lines').1.cut interior'.gap
      ∧ (grammar.pair lines).2.2.filterMap (·.cut? interior.gap) =
        (grammar.pair lines').2.2.filterMap (·.cut? interior'.gap) := by
  have hstart : interior.start = interior'.start := hgaps.start
  have hshorter : ∀ {fragment : Fragment} {text : List Char}, fragment.LiesIn text →
      opening.start < fragment.start → Text.byteLength fragment.chars < Text.byteLength text := by
    rintro fragment _ ⟨before, after, rfl, hbefore⟩ hlt
    simp only [Text.byteLength_append]
    omega
  have hempty : Pairing.Alike interior.gap interior'.gap { next := 1 } { next := 1 } :=
    ⟨rfl, .nil, rfl⟩
  -- up to the directive, the directive itself, and what is behind it
  have hdirective := (hempty.steps hgaps hmarkup hspans).directive hgaps hmarkup hkind hopening
    hinterior hinterior' (hshorter hinterior hopening)
    (hshorter hinterior' (hstart ▸ hopening)) ((grammar.table.spec? kind).bind (·.interior))
  have hextent : interior.gap.extent (.ofLength 0 (Text.byteLength lines.text)) =
      interior'.gap.extent (.ofLength 0 (Text.byteLength lines'.text)) := by
    have hzero : 0 < interior.start := Nat.lt_of_le_of_lt (Nat.zero_le _) hopening
    have hzero' : 0 < interior'.start := hstart ▸ hzero
    have hplace : interior.gap.place? 0 = interior'.gap.place? 0 :=
      (Gap.place?_of_lt hzero).trans (Gap.place?_of_lt hzero').symm
    simp only [Gap.extent, Range.ofLength, Nat.zero_add, hlength, hplace]
  obtain ⟨hbase, -, hnotes⟩ := (hdirective.steps hgaps hmarkup hrest).finish hgaps
    (Extent.mk.inj hextent).2
  rw [Table.scan] at hscan hscan'
  refine ⟨Node.cut_eq hgaps.start (Label.alike_ofRange hgaps (by decide) _ _ hextent) ?_, ?_⟩
  · simp only [pairRange, hscan, hscan', List.foldl_append, List.foldl_cons, List.map_reverse]
    exact congrArg List.reverse hbase
  · simp only [pair, pairRange, hscan, hscan', List.foldl_append, List.foldl_cons,
      List.filterMap_reverse]
    exact congrArg List.reverse hnotes

end ConcreteSyntax
