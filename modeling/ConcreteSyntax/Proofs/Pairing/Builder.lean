import ConcreteSyntax.Proofs.Scan.Attempt
import ConcreteSyntax.Proofs.Tree.Construction
import ConcreteSyntax.Tree.Builder

/-!
# Building does not break

Pairing in an arena goes the same way as pairing of values: at every moment the arena holds the
tree in which each open container is the last child of the one around it (`Builder.Stands`).
So a text that is short enough is built without breaking, with the tree and the problems of
`Parse.build`.
-/

namespace ConcreteSyntax

/-- An open node: its label, its children so far, and the nodes around it. -/
structure Site where
  label : Label
  done : List Node
  outer : List Crumb

namespace Site

/-- The whole tree, with the node as it is. -/
def tree (site : Site) : Node := .plug site.outer ⟨site.label, site.done⟩

/-- The node with more children. -/
def add (site : Site) (nodes : List Node) : Site := { site with done := site.done ++ nodes }

/-- An open node behind the children of the node. -/
def enter (site : Site) (label : Label) (done : List Node) : Site :=
  ⟨label, done, ⟨site.label, site.done, []⟩ :: site.outer⟩

theorem add_add (site : Site) (nodes more : List Node) :
    (site.add nodes).add more = site.add (nodes ++ more) := by
  simp [add]

end Site

/-- The label of a container before it has its end. -/
def Frame.openLabel (lines : LineIndex) (frame : Frame) : Label :=
  .ofRange lines frame.id frame.kind (.empty frame.opening.start)

/-- An open container as a builder knows it. -/
def Frame.openNode (frame : Frame) : OpenNode := ⟨frame.id, frame.awaited, frame.opening.range⟩

/-- What holds of an open container over a text. -/
structure Frame.IsOpen (lines : LineIndex) (frame : Frame) : Prop where
  opening : frame.opening.LiesIn lines.text
  kind : frame.kind.isAtomic = false

/-- A container that gets its end keeps the rest of its label. -/
theorem Frame.close_eq {lines : LineIndex} {frame : Frame} (h : frame.kind.isAtomic = false)
    (stop : Nat) :
    frame.close lines stop =
      ⟨{ frame.openLabel lines with
          range := .upTo frame.opening.start stop
          lines := lines.span (.upTo frame.opening.start stop) }, frame.children.reverse⟩ := by
  simp [Frame.openLabel, Frame.close, Label.ofRange, h]

namespace Pairing

variable {lines : LineIndex} {site : Site}

/-- The innermost of some open containers below a node. -/
def innermostOf (lines : LineIndex) (site : Site) : List Frame → Site
  | [] => site
  | frame :: outer =>
      (innermostOf lines site outer).enter (frame.openLabel lines) frame.children.reverse

/-- The innermost open container of what is paired below a node. -/
def innermost (lines : LineIndex) (site : Site) (state : Pairing) : Site :=
  innermostOf lines (site.add state.base.reverse) state.frames

theorem innermost_push (state : Pairing) (node : Node) :
    (state.push node).innermost lines site = (state.innermost lines site).add [node] := by
  unfold push innermost
  cases hframes : state.frames with
  | nil => simp [innermostOf, Site.add_add]
  | cons frame outer => simp [innermostOf, Site.enter, Site.add, Frame.openLabel]

theorem innermost_pushAll (state : Pairing) (nodes : List Node) :
    (nodes.foldl push state).innermost lines site = (state.innermost lines site).add nodes := by
  induction nodes generalizing state with
  | nil => simp [Site.add]
  | cons node rest ih =>
      rw [List.foldl_cons, ih, innermost_push, Site.add_add, List.singleton_append]

end Pairing

namespace Builder

/-- The open containers of building and of pairing, and the problems that they met beside those
met earlier. -/
structure Waits (lines : LineIndex) (earlier : List Diagnostic) (builder : Builder)
    (state : Pairing) : Prop where
  frames : builder.frames = state.frames.map Frame.openNode
  isOpen : ∀ frame ∈ state.frames, frame.IsOpen lines
  notes : builder.notes = state.notes ++ earlier

/-- How building below an open node stands beside the pairing of the same spans. -/
structure Stands (lines : LineIndex) (site : Site) (earlier : List Diagnostic) (builder : Builder)
    (state : Pairing) : Prop where
  keeps : builder.tree.Keeps lines state.next (state.innermost lines site).tree
  base : builder.base = site.label.id
  container : site.label.kind.isAtomic = false
  waits : builder.Waits lines earlier state

/-- Whether building comes to stand where pairing does. -/
def Follows (lines : LineIndex) (site : Site) (earlier : List Diagnostic)
    (result : Except Halt Builder) (state : Pairing) : Prop :=
  ∃ built, result = .ok built ∧ built.Stands lines site earlier state

variable {lines : LineIndex} {site : Site} {earlier : List Diagnostic} {builder : Builder}
  {state : Pairing}

theorem Waits.push (h : builder.Waits lines earlier state) (node : Node) :
    builder.Waits lines earlier (state.push node) := by
  obtain ⟨base, frames, next, notes⟩ := state
  obtain ⟨hframes, hopen, hnotes⟩ := h
  cases frames with
  | nil => exact ⟨hframes, hopen, hnotes⟩
  | cons frame outer =>
      obtain ⟨hframe, houter⟩ := List.forall_mem_cons.1 hopen
      exact ⟨hframes, List.forall_mem_cons.2 ⟨⟨hframe.opening, hframe.kind⟩, houter⟩, hnotes⟩

theorem Waits.pushAll (h : builder.Waits lines earlier state) (nodes : List Node) :
    builder.Waits lines earlier (nodes.foldl Pairing.push state) := by
  induction nodes generalizing state with
  | nil => exact h
  | cons node rest ih => exact ih (h.push node)

theorem Follows.bind {result : Except Halt Builder} {next : Builder → Except Halt Builder}
    {state' : Pairing} (h : Follows lines site earlier result state)
    (hnext : ∀ built, built.Stands lines site earlier state →
      Follows lines site earlier (next built) state') :
    Follows lines site earlier (result >>= next) state' := by
  obtain ⟨built, rfl, hstands⟩ := h
  exact hnext built hstands

namespace Stands

/-- The node that the next nodes go below is the innermost open one, a container. -/
theorem parent (h : builder.Stands lines site earlier state) :
    (state.innermost lines site).label.id = builder.parent
      ∧ (state.innermost lines site).label.kind.isAtomic = false := by
  unfold Builder.parent Pairing.innermost
  rw [h.waits.frames, h.base]
  cases hframes : state.frames with
  | nil => exact ⟨rfl, h.container⟩
  | cons frame outer => exact ⟨rfl, (h.waits.isOpen frame (by simp [hframes])).kind⟩

theorem note (h : builder.Stands lines site earlier state) (diagnostic : Diagnostic) :
    (builder.note diagnostic).Stands lines site earlier (state.note diagnostic) :=
  { h with waits := { h.waits with notes := congrArg (diagnostic :: ·) h.waits.notes } }

end Stands

/-- Nodes were added to the innermost open container. -/
theorem stands_pushAll (hwaits : builder.Waits lines earlier state)
    (hbase : builder.base = site.label.id) (hcontainer : site.label.kind.isAtomic = false)
    {nodes : List Node}
    (hkeeps : builder.tree.Keeps lines state.next ((state.innermost lines site).add nodes).tree) :
    builder.Stands lines site earlier (nodes.foldl Pairing.push state) where
  keeps := by
    rw [(Pairing.ids_pushAll state nodes).2, Pairing.innermost_pushAll]
    exact hkeeps
  base := hbase
  container := hcontainer
  waits := hwaits.pushAll nodes

theorem edit_of_run {α : Type} {edit : Edit α} {value : α} {tree : Tree}
    (h : edit.run builder.tree = .ok value tree) :
    builder.edit edit = .ok (value, { builder with tree }) := by
  rw [Builder.edit, h]

theorem Stands.textOf (h : builder.Stands lines site earlier state) {text : Fragment}
    (htext : text.LiesIn lines.text) : builder.textOf text.range = .ok text.chars := by
  have hcut : Text.cut builder.tree.source text.range = .ok text.chars := by
    rw [Tree.source, h.keeps.index, Text.cut_eq htext.isBoundary_start htext.isBoundary_stop]
    exact congrArg _ htext.slice_range
  rw [Builder.textOf, hcut]
  rfl

/-! ## Steps -/

theorem Stands.pushLeaf (h : builder.Stands lines site earlier state) (kind : Kind)
    {text : Fragment} (htext : text.LiesIn lines.text) :
    Follows lines site earlier (builder.pushLeaf kind text.range)
      (state.pushLeaf lines kind text) := by
  obtain ⟨hid, hcontainer⟩ := h.parent
  have hstart : Text.isBoundary lines.text text.range.start = true := htext.isBoundary_start
  obtain ⟨tree, hrun, hkeeps⟩ := h.keeps.run_addLeaf hcontainer kind hstart htext.isBoundary_stop
  rw [hid] at hrun
  have hlabel : Label.ofFragment lines (.fresh state.next) kind text =
      .ofRange lines (.fresh state.next) kind text.range := by
    rw [Label.ofFragment, Label.ofRange, htext.slice_range]
  have hwaits : { builder with tree }.Waits lines earlier { state with next := state.next + 1 } :=
    ⟨h.waits.frames, h.waits.isOpen, h.waits.notes⟩
  refine ⟨{ builder with tree }, ?_, ?_⟩
  · rw [Builder.pushLeaf, edit_of_run hrun]
    rfl
  · rw [Pairing.pushLeaf, hlabel]
    exact stands_pushAll hwaits h.base h.container hkeeps

theorem Stands.openFrame (h : builder.Stands lines site earlier state) {kind : Kind}
    (hkind : kind.isAtomic = false) (awaited : Awaited) (markerKind : Kind) {opening : Fragment}
    (hopening : opening.LiesIn lines.text) :
    Follows lines site earlier (builder.openFrame kind awaited markerKind opening.range)
      (state.openFrame lines kind awaited markerKind opening) := by
  obtain ⟨hid, hcontainer⟩ := h.parent
  have hstart : Text.isBoundary lines.text (Range.empty opening.start).start = true :=
    hopening.isBoundary_start
  obtain ⟨tree, hrun, hkeeps⟩ := h.keeps.run_addLeaf hcontainer kind hstart hstart
  rw [hid] at hrun
  let frame : Frame := ⟨.fresh state.next, kind, awaited, opening, []⟩
  have hopened : { builder with tree, frames := frame.openNode :: builder.frames }.Stands lines site
      earlier { state with frames := frame :: state.frames, next := state.next + 1 } :=
    ⟨hkeeps, h.base, h.container, congrArg _ h.waits.frames,
      List.forall_mem_cons.2 ⟨⟨hopening, hkind⟩, h.waits.isOpen⟩, h.waits.notes⟩
  have hedit : builder.edit (Edit.addContainer builder.parent kind opening.range.start) =
      .ok (.fresh state.next, { builder with tree }) := edit_of_run hrun
  rw [Builder.openFrame, hedit]
  exact hopened.pushLeaf markerKind hopening

theorem Stands.closeInnermost (h : builder.Stands lines site earlier state) {stop : Nat}
    (hstop : Text.isBoundary lines.text stop = true) :
    Follows lines site earlier (builder.closeInnermost stop) (state.closeInnermost lines stop) := by
  obtain ⟨hkeeps, hbase, hcontainer, hframes, hopen, hnotes⟩ := h
  unfold Builder.closeInnermost Pairing.closeInnermost
  cases hstate : state.frames with
  | nil =>
      rw [hframes, hstate]
      exact ⟨builder, rfl, hkeeps, hbase, hcontainer, hframes, hopen, hnotes⟩
  | cons frame outer =>
      rw [hstate, List.forall_mem_cons] at hopen
      rw [Pairing.innermost, hstate] at hkeeps
      obtain ⟨hframe, houter⟩ := hopen
      have hstart : Text.isBoundary lines.text frame.opening.start = true :=
        hframe.opening.isBoundary_start
      obtain ⟨tree, hrun, hkeeps⟩ := hkeeps.run_endAt hstart hstop
      let around := Pairing.innermostOf lines (site.add state.base.reverse) outer
      have hclosed : tree.Keeps lines state.next (around.add [frame.close lines stop]).tree := by
        rw [frame.close_eq hframe.kind]
        exact hkeeps
      have hrun : (Edit.endAt frame.openNode.id stop).run builder.tree = .ok () tree := hrun
      have hwaits : { builder with tree, frames := outer.map Frame.openNode }.Waits lines earlier
          { state with frames := outer } := ⟨rfl, houter, hnotes⟩
      rw [hframes, hstate, List.map_cons]
      dsimp only
      rw [edit_of_run hrun]
      exact ⟨_, rfl, stands_pushAll hwaits hbase hcontainer hclosed⟩

theorem Stands.unclosed (h : builder.Stands lines site earlier state) {frame : Frame}
    (hopen : frame.IsOpen lines) : builder.unclosed frame.openNode = .ok frame.unclosed := by
  unfold Builder.unclosed Frame.unclosed Frame.openNode
  dsimp only
  cases frame.awaited with
  | marker kind =>
      dsimp only
      rw [h.textOf hopen.opening]
      rfl
  | tag name => rfl

theorem Stands.unwind (h : builder.Stands lines site earlier state) {stop : Nat}
    (hstop : Text.isBoundary lines.text stop = true) (count : Nat) :
    Follows lines site earlier (Builder.unwind stop count builder)
      (Pairing.unwind lines stop count state) := by
  induction count generalizing builder state with
  | zero => exact ⟨builder, rfl, h⟩
  | succ count ih =>
      unfold Builder.unwind Pairing.unwind
      rw [h.waits.frames]
      cases hstate : state.frames with
      | nil => exact ⟨builder, rfl, h⟩
      | cons frame outer =>
          have hopen := h.waits.isOpen frame (by simp [hstate])
          refine (h.closeInnermost hstop).bind fun closed hclosed => ?_
          rw [hclosed.unclosed hopen]
          exact ih (hclosed.note frame.unclosed)

theorem Stands.close (h : builder.Stands lines site earlier state) (awaits : Awaited → Bool)
    (markerKind : Kind) {marker : Fragment} (hmarker : marker.LiesIn lines.text)
    {problem : Except Halt Problem} {found : Problem} (hproblem : problem = .ok found) :
    Follows lines site earlier (builder.close awaits markerKind marker.range problem)
      (state.close lines awaits markerKind marker found) := by
  have hfind : builder.frames.findIdx? (awaits ·.awaited) =
      state.frames.findIdx? (awaits ·.awaited) := by
    rw [h.waits.frames, List.findIdx?_map]
    rfl
  unfold Builder.close Pairing.close
  rw [hfind]
  cases state.frames.findIdx? (awaits ·.awaited) with
  | some inner =>
      refine (h.unwind hmarker.isBoundary_start inner).bind fun unwound hunwound => ?_
      refine (hunwound.pushLeaf markerKind hmarker).bind fun marked hmarked => ?_
      exact hmarked.closeInnermost hmarker.isBoundary_stop
  | none =>
      refine (h.pushLeaf markerKind hmarker).bind fun pushed hpushed => ?_
      rw [hproblem]
      exact ⟨_, rfl, hpushed.note _⟩

theorem Stands.pairTag (h : builder.Stands lines site earlier state) {rules : Markup.Rules}
    (hrules : ∀ name, (rules.elementKind name).isAtomic = false) {text : Fragment}
    (htext : text.LiesIn lines.text) :
    Follows lines site earlier (builder.pairTag rules text.range)
      (state.pairTag lines rules text) := by
  unfold Builder.pairTag Pairing.pairTag
  rw [h.textOf htext]
  simp only [bind, Except.bind]
  generalize Markup.Tag.parse text.chars = tag
  obtain ⟨name, form, attributeText⟩ := tag
  have hopened := h.openFrame (hrules name) (.tag name) .tag htext
  cases form with
  | closing => exact h.close _ .tag htext rfl
  | opening =>
      refine hopened.bind fun opened hopened => ?_
      dsimp only
      split
      · exact ⟨opened, rfl, hopened⟩
      · exact hopened.closeInnermost htext.isBoundary_stop
  | empty =>
      refine hopened.bind fun opened hopened => ?_
      exact hopened.closeInnermost htext.isBoundary_stop

/-- Whether building a range below an open node comes to what is paired there. -/
def Fills (lines : LineIndex) (inner : Builder → Except Halt Builder) (paired : Nat → Paired) :
    Prop :=
  ∀ {site earlier builder next}, builder.Stands lines site earlier { next } →
    ∃ filled, inner builder = .ok filled
      ∧ filled.tree.Keeps lines (paired next).next (site.add (paired next).children).tree
      ∧ filled.notes = (paired next).notes.reverse ++ earlier

theorem isEmpty_range (fragment : Fragment) :
    fragment.range.isEmpty = fragment.chars.isEmpty := by
  obtain ⟨start, chars⟩ := fragment
  cases chars with
  | nil => simp [Fragment.range, Range.isEmpty, Range.ofLength]
  | cons c rest =>
      have hpos := c.utf8Size_pos
      simp only [Fragment.range, Range.isEmpty, Range.ofLength, Text.byteLength_cons,
        List.isEmpty_cons, beq_eq_false_iff_ne]
      omega

theorem Stands.fill (h : builder.Stands lines site earlier state)
    {inner : Range → Builder → Except Halt Builder} {paired : Range → Nat → Paired}
    {interior : Fragment}
    (hinner : Fills lines (inner interior.range) (paired interior.range)) :
    Follows lines site earlier (builder.fill inner interior.range) (state.fill paired interior) := by
  unfold Builder.fill Pairing.fill
  rw [isEmpty_range]
  split
  · exact ⟨builder, rfl, h⟩
  · obtain ⟨hid, hcontainer⟩ := h.parent
    have hinside : { builder with base := builder.parent, frames := [] }.Stands lines
        (state.innermost lines site) builder.notes { next := state.next } := by
      refine ⟨?_, hid.symm, hcontainer, rfl, by simp, rfl⟩
      have hsame : ({ next := state.next } : Pairing).innermost lines (state.innermost lines site) =
          state.innermost lines site := by simp [Pairing.innermost, Pairing.innermostOf, Site.add]
      rw [hsame]
      exact h.keeps
    obtain ⟨filled, hfilled, hkeeps, hnotes⟩ := hinner hinside
    have hwaits : { filled with base := builder.base, frames := builder.frames }.Waits lines earlier
        { state with
          next := (paired interior.range state.next).next
          notes := (paired interior.range state.next).notes.reverse ++ state.notes } := by
      refine ⟨h.waits.frames, h.waits.isOpen, ?_⟩
      rw [hnotes, h.waits.notes, List.append_assoc]
    rw [hfilled]
    exact ⟨_, rfl, stands_pushAll hwaits h.base h.container hkeeps⟩

theorem Stands.pushMarker (h : builder.Stands lines site earlier state) {closing : Fragment}
    (hclosing : closing.LiesIn lines.text) :
    Follows lines site earlier (builder.pushMarker closing.range)
      (state.pushMarker lines closing) := by
  unfold Builder.pushMarker Pairing.pushMarker
  rw [isEmpty_range]
  split
  · exact ⟨builder, rfl, h⟩
  · exact h.pushLeaf .delimiter hclosing

theorem Stands.pairDelimited (h : builder.Stands lines site earlier state)
    {inner : Range → Builder → Except Halt Builder} {paired : Range → Nat → Paired} {kind : Kind}
    {opening interior closing : Fragment} (hkind : kind.isAtomic = false)
    (hopening : opening.LiesIn lines.text) (hclosing : closing.LiesIn lines.text)
    (hinner : Fills lines (inner interior.range) (paired interior.range)) :
    Follows lines site earlier
      (builder.pairDelimited inner kind opening.range interior.range closing.range)
      (state.pairDelimited lines paired kind opening interior closing) := by
  unfold Builder.pairDelimited Pairing.pairDelimited
  refine (h.openFrame hkind (.marker kind) .delimiter hopening).bind fun opened hopened => ?_
  refine (hopened.fill hinner).bind fun filled hfilled => ?_
  refine (hfilled.pushMarker hclosing).bind fun marked hmarked => ?_
  exact hmarked.closeInnermost hclosing.isBoundary_stop

variable {grammar : Grammar} {bound : Nat}
  {inner : Option KindSet → Range → Builder → Except Halt Builder}
  {paired : Option KindSet → Range → Nat → Paired}

/-- Whether interiors with fewer bytes than a bound are built as they are paired. -/
def InnerFills (lines : LineIndex) (bound : Nat)
    (inner : Option KindSet → Range → Builder → Except Halt Builder)
    (paired : Option KindSet → Range → Nat → Paired) : Prop :=
  ∀ restrict range, Text.isBoundary lines.text range.start = true →
    Text.isBoundary lines.text range.stop = true → range.length < bound →
    Fills lines (inner restrict range) (paired restrict range)

/-- Whether a span lies in a text, suits its kind, and has a short interior. -/
structure Fine (lines : LineIndex) (bound : Nat) (span : Span) : Prop where
  liesIn : ∀ fragment ∈ span.fragments, fragment.LiesIn lines.text
  suits : span.Suits True
  short : ∀ kind opening interior closing, span = .delimited kind opening interior closing →
    interior.range.length < bound

theorem Stands.step (h : builder.Stands lines site earlier state) (hgrammar : grammar.IsSound)
    (hinner : InnerFills lines bound inner paired) {span : Span} (hspan : Fine lines bound span) :
    Follows lines site earlier (Builder.step grammar inner builder span)
      (Pairing.step lines grammar paired state span) := by
  obtain ⟨hlies, hsuits, hshort⟩ := hspan
  cases span with
  | leaf kind text =>
      have htext := hlies text (by simp [Span.fragments])
      by_cases htag : kind = .tag
      · subst htag
        cases hrules : grammar.markup with
        | some rules =>
            simp only [Builder.step, Pairing.step, hrules]
            exact h.pairTag (hgrammar.elements rules hrules) htext
        | none =>
            simp only [Builder.step, Pairing.step, hrules]
            exact h.pushLeaf _ htext
      · have hbuilder : Builder.step grammar inner builder (.leaf kind text) =
            builder.pushLeaf kind text.range := by simp [Builder.step, htag]
        have hpairing : Pairing.step lines grammar paired state (.leaf kind text) =
            state.pushLeaf lines kind text := by simp [Pairing.step, htag]
        rw [hbuilder, hpairing]
        exact h.pushLeaf _ htext
  | opener kind text =>
      exact h.openFrame hsuits (.marker kind) .delimiter (hlies text (by simp [Span.fragments]))
  | closer kind text =>
      have htext := hlies text (by simp [Span.fragments])
      have hproblem : (builder.textOf text.range).map .unmatched =
          .ok (Problem.unmatched text.chars) := by
        rw [h.textOf htext]
        rfl
      exact h.close (· == .marker kind) .delimiter htext hproblem
  | delimited kind opening interior closing =>
      simp only [Span.fragments, List.forall_mem_cons] at hlies
      refine h.pairDelimited hsuits hlies.1 hlies.2.2.1 ?_
      exact hinner _ interior.range hlies.2.1.isBoundary_start hlies.2.1.isBoundary_stop
        (hshort kind opening interior closing rfl)

theorem Stands.steps (h : builder.Stands lines site earlier state) (hgrammar : grammar.IsSound)
    (hinner : InnerFills lines bound inner paired) {spans : List Span}
    (hspans : ∀ span ∈ spans, Fine lines bound span) :
    Follows lines site earlier (spans.foldlM (Builder.step grammar inner) builder)
      (spans.foldl (Pairing.step lines grammar paired) state) := by
  induction spans generalizing builder state with
  | nil => exact ⟨builder, rfl, h⟩
  | cons span rest ih =>
      rw [List.forall_mem_cons] at hspans
      rw [List.foldlM_cons]
      exact (h.step hgrammar hinner hspans.1).bind fun built hbuilt => ih hbuilt hspans.2

end Builder

/-! ## Ranges -/

namespace Grammar

variable {grammar : Grammar} {lines : LineIndex}

/-- The spans of a range: the interior of each is shorter than the range. -/
theorem fine_scanRange (hgrammar : grammar.IsSound) (restrict : Option KindSet) {range : Range}
    (hstart : Text.isBoundary lines.text range.start = true)
    (hstop : Text.isBoundary lines.text range.stop = true) :
    ∀ span ∈ grammar.table.scanRange lines.text range restrict,
      Builder.Fine lines range.length span := by
  intro span hspan
  obtain ⟨first, last, hfirst, hchain, hlast⟩ :=
    (grammar.table.chain_scanRange restrict hstart hstop).of_mem hspan
  have hmarked := grammar.table.marked_scanFrom restrict _ _ _ span hspan
  refine ⟨hchain.liesIn, Table.suits_scanFrom (fun _ => hgrammar.table) _ _ _ _ span hspan, ?_⟩
  rintro kind opening interior closing rfl
  obtain ⟨hopening, _, hinterior, _, hclosing, _, hend⟩ := hchain
  have hopens := Fragment.start_lt_stop hmarked
  have hends : closing.start ≤ closing.stop := Nat.le_add_right _ _
  have hlength : interior.range.length = interior.stop - interior.start := rfl
  have hwhole : range.length = range.stop - range.start := rfl
  have hcloses : closing.stop = last := hend
  have hwithin : interior.start ≤ interior.stop := Nat.le_add_right _ _
  omega

/-- Building a range comes to what is paired there, where the depth suffices. -/
theorem fills_buildRange (hgrammar : grammar.IsSound) (htable : grammar.table.IsMeasured)
    (fuel : Nat) :
    Builder.InnerFills lines fuel (Builder.buildRange grammar fuel)
      (grammar.pairRange lines fuel) := by
  induction fuel with
  | zero => exact fun _ _ _ _ hlt => absurd hlt (Nat.not_lt_zero _)
  | succ fuel ih =>
      intro restrict range hstart hstop hlt site earlier builder next hstands
      have hscan : grammar.table.attemptRange builder.tree.source range restrict =
          .ok (grammar.table.scanRange lines.text range restrict) := by
        rw [Tree.source, hstands.keeps.index]
        exact Table.attemptRange_eq htable restrict hstart hstop
      have hfine : ∀ span ∈ grammar.table.scanRange lines.text range restrict,
          Builder.Fine lines fuel span := fun span hspan =>
        have hspan := fine_scanRange hgrammar restrict hstart hstop span hspan
        { hspan with
          short := fun kind opening interior closing heq =>
            Nat.lt_of_lt_of_le (hspan.short kind opening interior closing heq)
              (Nat.le_of_lt_succ hlt) }
      obtain ⟨built, hbuilt, hscanned⟩ := hstands.steps hgrammar ih hfine
      obtain ⟨ended, hended, hunwound⟩ := hscanned.unwind hstop built.frames.length
      have hcount : built.frames.length = (List.foldl (Pairing.step lines grammar
          (grammar.pairRange lines fuel)) { next }
          (grammar.table.scanRange lines.text range restrict)).frames.length := by
        rw [hscanned.waits.frames, List.length_map]
      have hrun : Builder.buildRange grammar (fuel + 1) restrict range builder = .ok ended := by
        rw [Builder.buildRange, hscan]
        change ((grammar.table.scanRange lines.text range restrict).foldlM
          (Builder.step grammar (Builder.buildRange grammar fuel)) builder >>= fun built =>
            Builder.unwind range.stop built.frames.length built) = _
        rw [hbuilt]
        exact hended
      rw [hcount] at hunwound
      refine ⟨ended, hrun, ?_, ?_⟩
      · have hkeeps := hunwound.keeps
        rw [Pairing.innermost, Pairing.frames_unwind_all] at hkeeps
        exact hkeeps
      · have hnotes := hunwound.waits.notes
        rw [hnotes, pairRange]
        dsimp only
        rw [List.reverse_reverse]

/-- A text that is not too long is built without breaking, into the tree and with the problems
of its pairing. -/
theorem build_eq (hgrammar : grammar.IsSound) (htable : grammar.table.IsMeasured)
    {text : List Char} (hlength : Text.byteLength text < UInt32.size) :
    ∃ builder, grammar.build text = .ok builder
      ∧ builder.tree = .ofParse (.build grammar text)
      ∧ builder.notes.reverse = (Parse.build grammar text).notes := by
  let lines := LineIndex.ofText text
  let whole : Range := .ofLength 0 (Text.byteLength text)
  have hstop : Text.isBoundary lines.text whole.stop = true := by
    rw [show whole.stop = Text.byteLength text from Nat.zero_add _]
    exact Text.isBoundary_byteLength text
  have hshort : whole.length < Text.byteLength text + 1 := by
    simp [whole, Range.length, Range.ofLength]
  have hstands : Builder.Stands lines ⟨.ofRange lines (.fresh 0) .root whole, [], []⟩ []
      ⟨.new text, (Tree.new text).root, [], []⟩ { next := 1 } :=
    ⟨Tree.keeps_new text, rfl, (by decide : Kind.root.isAtomic = false), rfl, by simp, rfl⟩
  obtain ⟨built, hbuilt, hkeeps, hnotes⟩ := fills_buildRange hgrammar htable
    (Text.byteLength text + 1) none whole (Text.isBoundary_zero text) hstop hshort hstands
  refine ⟨built, ?_, ?_, ?_⟩
  · rw [Grammar.build, if_neg (Nat.not_le.2 hlength)]
    exact hbuilt
  · exact (hkeeps.represents (Parse.build grammar text).notes).eq_ofParse hkeeps.numbered
  · rw [hnotes, List.append_nil, List.reverse_reverse]
    rfl

end Grammar

end ConcreteSyntax
