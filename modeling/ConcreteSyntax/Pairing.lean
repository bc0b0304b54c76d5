import ConcreteSyntax.Diagnostic
import ConcreteSyntax.Grammar
import ConcreteSyntax.Markup.Tag

/-!
# Pairing

The flat spans of a text become a tree by pairing delimiters and markup tags.
Pairing never fails: a closing marker that closes nothing stays a leaf where it
stands, and a container that nothing closes runs to the end of the range around
it.  Each such recovery is a warning.
-/

namespace ConcreteSyntax

/-- What closes an open container. -/
inductive Awaited where
  /-- The closing marker of a kind. -/
  | marker (kind : Kind)
  /-- The closing tag of an element. -/
  | tag (name : List Char)
deriving DecidableEq, Inhabited

/-- A container that waits for its closing marker. -/
structure Frame where
  id : NodeId
  kind : Kind
  awaited : Awaited
  /-- The opening marker. -/
  opening : Fragment
  /-- The children so far, the latest first. -/
  children : List Node
deriving Inhabited

namespace Frame

/-- The warning that nothing closed a container. -/
def unclosed (frame : Frame) : Diagnostic :=
  match frame.awaited with
  | .marker _ => .warning (.unclosed frame.opening.chars) frame.opening.range
  | .tag name => .warning (.unclosedElement name) frame.opening.range

/-- The node of a container that ends at `stop`. -/
def close (lines : LineIndex) (frame : Frame) (stop : Nat) : Node :=
  ⟨.ofRange lines frame.id frame.kind (.upTo frame.opening.start stop),
    frame.children.reverse⟩

end Frame

/-- A list of sibling nodes, the index of the next node, and the problems met. -/
structure Paired where
  children : List Node
  next : Nat
  notes : List Diagnostic
deriving Inhabited

/-- Where pairing stands within one range of a text. -/
structure Pairing where
  /-- The nodes outside all open containers, the latest first. -/
  base : List Node := []
  /-- The open containers, the innermost first. -/
  frames : List Frame := []
  /-- The index of the next node. -/
  next : Nat
  /-- The problems met, the latest first. -/
  notes : List Diagnostic := []
deriving Inhabited

namespace Pairing

/-- Adds a finished node to the innermost open container. -/
def push (state : Pairing) (node : Node) : Pairing :=
  match state.frames with
  | [] => { state with base := node :: state.base }
  | frame :: outer =>
      { state with frames := { frame with children := node :: frame.children } :: outer }

/-- Adds a new leaf to the innermost open container. -/
def pushLeaf (lines : LineIndex) (state : Pairing) (kind : Kind) (text : Fragment) : Pairing :=
  { state with next := state.next + 1 }.push
    ⟨.ofFragment lines (.fresh state.next) kind text, []⟩

/-- Records a problem. -/
def note (state : Pairing) (diagnostic : Diagnostic) : Pairing :=
  { state with notes := diagnostic :: state.notes }

/-- Opens a container, whose first child is its opening marker. -/
def openFrame (lines : LineIndex) (state : Pairing) (kind : Kind) (awaited : Awaited)
    (markerKind : Kind) (opening : Fragment) : Pairing :=
  let frame : Frame := ⟨.fresh state.next, kind, awaited, opening, []⟩
  { state with frames := frame :: state.frames, next := state.next + 1 }.pushLeaf
    lines markerKind opening

/-- Ends the innermost open container at `stop`. -/
def closeInnermost (lines : LineIndex) (state : Pairing) (stop : Nat) : Pairing :=
  match state.frames with
  | [] => state
  | frame :: outer => { state with frames := outer }.push (frame.close lines stop)

/-- Ends the innermost `count` open containers at `stop`, each with a warning. -/
def unwind (lines : LineIndex) (stop : Nat) : Nat → Pairing → Pairing
  | 0, state => state
  | count + 1, state =>
      match state.frames with
      | [] => state
      | frame :: _ =>
          unwind lines stop count ((state.closeInnermost lines stop).note frame.unclosed)

/-- Closes the innermost container that `awaits` accepts, with `marker` as its last
child; what was opened inside it ends where the marker begins.  When no container
accepts, the marker becomes a leaf and `problem` is recorded. -/
def close (lines : LineIndex) (state : Pairing) (awaits : Awaited → Bool) (markerKind : Kind)
    (marker : Fragment) (problem : Problem) : Pairing :=
  match state.frames.findIdx? (awaits ·.awaited) with
  | some inner =>
      (unwind lines marker.start inner state |>.pushLeaf lines markerKind marker
        |>.closeInnermost lines marker.stop)
  | none =>
      (state.pushLeaf lines markerKind marker).note (.warning problem marker.range)

/-- Pairs a tag.  Void elements and empty tags are elements of their own. -/
def pairTag (lines : LineIndex) (rules : Markup.Rules) (state : Pairing) (text : Fragment) :
    Pairing :=
  let tag := Markup.Tag.parse text.chars
  match tag.form with
  | .closing =>
      state.close lines
        (fun awaited =>
          match awaited with
          | .tag name => rules.sameName name tag.name
          | .marker _ => false)
        .tag text (.strayTag tag.name)
  | form =>
      let opened :=
        state.openFrame lines (rules.elementKind tag.name) (.tag tag.name) .tag text
      if form = .opening ∧ !rules.isVoid tag.name then opened
      else opened.closeInnermost lines text.stop

/-- Adds the nodes of an interior, which `inner` pairs. -/
def fill (inner : Range → Nat → Paired) (state : Pairing) (interior : Fragment) : Pairing :=
  if interior.chars.isEmpty then state
  else
    let paired := inner interior.range state.next
    paired.children.foldl push
      { state with next := paired.next, notes := paired.notes.reverse ++ state.notes }

/-- Adds a closing marker, unless it is empty. -/
def pushMarker (lines : LineIndex) (state : Pairing) (closing : Fragment) : Pairing :=
  if closing.chars.isEmpty then state else state.pushLeaf lines .delimiter closing

/-- Adds a delimited container with its markers and the nodes of its interior. -/
def pairDelimited (lines : LineIndex) (inner : Range → Nat → Paired) (state : Pairing)
    (kind : Kind) (opening interior closing : Fragment) : Pairing :=
  let opened := state.openFrame lines kind (.marker kind) .delimiter opening
  ((opened.fill inner interior).pushMarker lines closing).closeInnermost lines closing.stop

/-- Pairs one span.  The interior of a delimited container is paired by `inner`. -/
def step (lines : LineIndex) (grammar : Grammar)
    (inner : Option KindSet → Range → Nat → Paired) (state : Pairing) (span : Span) : Pairing :=
  match span with
  | .leaf kind text =>
      match kind, grammar.markup with
      | .tag, some rules => state.pairTag lines rules text
      | _, _ => state.pushLeaf lines kind text
  | .opener kind text => state.openFrame lines kind (.marker kind) .delimiter text
  | .closer kind text =>
      state.close lines (· == .marker kind) .delimiter text (.unmatched text.chars)
  | .delimited kind opening interior closing =>
      state.pairDelimited lines (inner ((grammar.table.spec? kind).bind (·.interior))) kind
        opening interior closing

end Pairing

namespace Grammar

/-- Pairs the spans of a range of a text, which `restrict` may limit to some kinds.
Interiors of delimited containers nest to the depth of `fuel`; below it they stay
text. -/
def pairRange (grammar : Grammar) (lines : LineIndex) :
    Nat → Option KindSet → Range → Nat → Paired
  | 0, _, range, next =>
      ⟨[⟨.ofFragment lines (.fresh next) .text (.ofRange lines.text range), []⟩], next + 1, []⟩
  | fuel + 1, restrict, range, next =>
      let spans := grammar.table.scanRange lines.text range restrict
      let state := spans.foldl (Pairing.step lines grammar (pairRange grammar lines fuel))
        { next }
      let state := Pairing.unwind lines range.stop state.frames.length state
      ⟨state.base.reverse, state.next, state.notes.reverse⟩

/-- The tree of a text before analysis, the index of the next node, and the warnings.
An interior is always shorter than the text around it, so the depth suffices. -/
def pair (grammar : Grammar) (lines : LineIndex) : Node × Nat × List Diagnostic :=
  let length := Text.byteLength lines.text
  let paired := grammar.pairRange lines (length + 1) none (.ofLength 0 length) 1
  (⟨.ofRange lines (.fresh 0) .root (.ofLength 0 length), paired.children⟩,
    paired.next, paired.notes)

end Grammar

end ConcreteSyntax
