import ConcreteSyntax.Scan.Attempt
import ConcreteSyntax.Tree.Edit.Construction

/-!
# Building trees in an arena

Pairing as it is done, in an arena: containers are attached where they open and get their end
when they close, and what is left of a text is read from the text again.  It breaks where an
edit breaks or a text is cut inside a character.  `Grammar.pair` builds the same trees as
values.
-/

namespace ConcreteSyntax

/-- A container in an arena that waits for its closing marker. -/
structure OpenNode where
  id : NodeId
  awaited : Awaited
  /-- The bytes of the opening marker. -/
  opening : Range

/-- Where building stands within one range of a text. -/
structure Builder where
  tree : Tree
  /-- The node that the nodes outside all open containers go below. -/
  base : NodeId
  /-- The open containers, the innermost first. -/
  frames : List OpenNode
  /-- The problems met, the latest first. -/
  notes : List Diagnostic

namespace Builder

/-- The node that the next nodes go below. -/
def parent (builder : Builder) : NodeId := (builder.frames.head?.map (·.id)).getD builder.base

/-- Edits the tree. -/
def edit {α : Type} (builder : Builder) (edit : Edit α) : Except Halt (α × Builder) :=
  match edit.run builder.tree with
  | .ok value tree => .ok (value, { builder with tree })
  | .error halt _ => .error halt

/-- What the text holds in a range. -/
def textOf (builder : Builder) (range : Range) : Except Halt (List Char) :=
  (Text.cut builder.tree.source range).mapError .broken

/-- Records a problem. -/
def note (builder : Builder) (diagnostic : Diagnostic) : Builder :=
  { builder with notes := diagnostic :: builder.notes }

/-- Adds a leaf to the innermost open container. -/
def pushLeaf (builder : Builder) (kind : Kind) (range : Range) : Except Halt Builder := do
  let (_, builder) ← builder.edit (Edit.addLeaf builder.parent kind range)
  return builder

/-- Opens a container, whose first child is its opening marker. -/
def openFrame (builder : Builder) (kind : Kind) (awaited : Awaited) (markerKind : Kind)
    (opening : Range) : Except Halt Builder := do
  let (id, builder) ← builder.edit (Edit.addContainer builder.parent kind opening.start)
  { builder with frames := ⟨id, awaited, opening⟩ :: builder.frames }.pushLeaf markerKind opening

/-- Ends the innermost open container. -/
def closeInnermost (builder : Builder) (stop : Nat) : Except Halt Builder :=
  match builder.frames with
  | [] => .ok builder
  | frame :: outer => do
      let (_, builder) ← builder.edit (Edit.endAt frame.id stop)
      return { builder with frames := outer }

/-- The warning that nothing closed a container. -/
def unclosed (builder : Builder) (frame : OpenNode) : Except Halt Diagnostic :=
  match frame.awaited with
  | .marker _ =>
      (builder.textOf frame.opening).map fun chars => .warning (.unclosed chars) frame.opening
  | .tag name => .ok (.warning (.unclosedElement name) frame.opening)

/-- Ends the innermost `count` open containers, each with a warning. -/
def unwind (stop : Nat) : Nat → Builder → Except Halt Builder
  | 0, builder => .ok builder
  | count + 1, builder =>
      match builder.frames with
      | [] => .ok builder
      | frame :: _ => do
          let closed ← builder.closeInnermost stop
          unwind stop count (closed.note (← closed.unclosed frame))

/-- Closes the innermost container that `awaits` accepts, with a marker as its last child.
When no container accepts, the marker becomes a leaf and a problem is recorded. -/
def close (builder : Builder) (awaits : Awaited → Bool) (markerKind : Kind) (marker : Range)
    (problem : Except Halt Problem) : Except Halt Builder :=
  match builder.frames.findIdx? (awaits ·.awaited) with
  | some inner => do
      let unwound ← unwind marker.start inner builder
      let marked ← unwound.pushLeaf markerKind marker
      marked.closeInnermost marker.stop
  | none => do
      let pushed ← builder.pushLeaf markerKind marker
      return pushed.note (.warning (← problem) marker)

/-- Pairs a tag. -/
def pairTag (builder : Builder) (rules : Markup.Rules) (text : Range) : Except Halt Builder := do
  let tag := Markup.Tag.parse (← builder.textOf text)
  match tag.form with
  | .closing =>
      builder.close
        (fun awaited =>
          match awaited with
          | .tag name => rules.sameName name tag.name
          | .marker _ => false)
        .tag text (.ok (.strayTag tag.name))
  | form =>
      let opened ← builder.openFrame (rules.elementKind tag.name) (.tag tag.name) .tag text
      if form = .opening ∧ !rules.isVoid tag.name then return opened
      else opened.closeInnermost text.stop

/-- Builds an interior below the innermost open container. -/
def fill (inner : Range → Builder → Except Halt Builder) (builder : Builder) (interior : Range) :
    Except Halt Builder :=
  if interior.isEmpty then .ok builder
  else
    (inner interior { builder with base := builder.parent, frames := [] }).map fun filled =>
      { filled with base := builder.base, frames := builder.frames }

/-- Adds a closing marker, unless it is empty. -/
def pushMarker (builder : Builder) (closing : Range) : Except Halt Builder :=
  if closing.isEmpty then .ok builder else builder.pushLeaf .delimiter closing

/-- Builds a delimited container with its markers and its interior. -/
def pairDelimited (inner : Range → Builder → Except Halt Builder) (builder : Builder) (kind : Kind)
    (opening interior closing : Range) : Except Halt Builder := do
  let opened ← builder.openFrame kind (.marker kind) .delimiter opening
  let filled ← opened.fill inner interior
  let marked ← filled.pushMarker closing
  marked.closeInnermost closing.stop

/-- Builds the nodes of one span.  Of the span only the ranges are read. -/
def step (grammar : Grammar) (inner : Option KindSet → Range → Builder → Except Halt Builder)
    (builder : Builder) (span : Span) : Except Halt Builder :=
  match span with
  | .leaf kind text =>
      match kind, grammar.markup with
      | .tag, some rules => builder.pairTag rules text.range
      | _, _ => builder.pushLeaf kind text.range
  | .opener kind text => builder.openFrame kind (.marker kind) .delimiter text.range
  | .closer kind text =>
      builder.close (· == .marker kind) .delimiter text.range
        ((builder.textOf text.range).map .unmatched)
  | .delimited kind opening interior closing =>
      builder.pairDelimited (inner ((grammar.table.spec? kind).bind (·.interior))) kind
        opening.range interior.range closing.range

/-- Builds the nodes of a range of the text below the base.  Interiors that nest deeper than
`fuel` would have no end. -/
def buildRange (grammar : Grammar) :
    Nat → Option KindSet → Range → Builder → Except Halt Builder
  | 0, _, _, builder => .error (.broken (.endless builder.base))
  | fuel + 1, restrict, range, builder => do
      let spans ← (grammar.table.attemptRange builder.tree.source range restrict).mapError .broken
      let built ← spans.foldlM (step grammar (buildRange grammar fuel)) builder
      unwind range.stop built.frames.length built

end Builder

/-- Builds the tree of a text, whose offsets have to fit into 32 bits. -/
def Grammar.build (grammar : Grammar) (text : List Char) : Except Halt Builder :=
  let length := Text.byteLength text
  let tree := Tree.new text
  if UInt32.size ≤ length then .error (.broken .oversized)
  else
    Builder.buildRange grammar (length + 1) none (.ofLength 0 length)
      { tree, base := tree.root, frames := [], notes := [] }

end ConcreteSyntax
