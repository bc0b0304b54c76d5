import ConcreteSyntax.Proofs.Pairing

/-!
# Groupings of spans

Without markup, pairing groups the spans of a range (`Grouping`): an opener and the closer that
closes it stand around what is between them, an opener that nothing closes stands before all
that follows, and a closer that closes nothing stands alone.  What pairing builds and reports is
read off the grouping (`Grammar.exists_grouping`).
-/

namespace ConcreteSyntax

/-- The spans of a range, grouped by their markers.  What is `inside` a delimited container are
the spans of its interior. -/
inductive Grouping where
  | nil
  | leaf (kind : Kind) (text : Fragment) (rest : Grouping)
  | stray (kind : Kind) (text : Fragment) (rest : Grouping)
  | delimited (kind : Kind) (opening interior closing : Fragment) (inside rest : Grouping)
  | closed (kind : Kind) (opening : Fragment) (inside : Grouping) (closing : Fragment)
      (rest : Grouping)
  | unclosed (kind : Kind) (opening : Fragment) (inside : Grouping)

/-- The warning that nothing closes an opening marker. -/
def Fragment.unclosed (opening : Fragment) : Diagnostic :=
  .warning (.unclosed opening.chars) opening.range

/-- The warning that a closing marker closes nothing. -/
def Fragment.unmatched (closing : Fragment) : Diagnostic :=
  .warning (.unmatched closing.chars) closing.range

/-- The spans of the interior of a delimited container. -/
def Table.scanInterior (table : Table) (text : List Char) (kind : Kind) (interior : Fragment) :
    List Span :=
  table.scanRange text interior.range ((table.spec? kind).bind (·.interior))

theorem Table.scanInterior_of_isEmpty {table : Table} {text : List Char} {kind : Kind}
    {interior : Fragment} (h : interior.chars.isEmpty = true) :
    table.scanInterior text kind interior = [] := by
  have hlength : interior.range.length = 0 := by
    simp [Fragment.range, Range.ofLength, Range.length, List.isEmpty_iff.1 h]
  rw [scanInterior, scanRange, Text.slice, hlength, Text.takeBytes_zero, scanFrom]

theorem Table.chain_scanInterior (table : Table) {text : List Char} (kind : Kind)
    {interior : Fragment} (h : interior.LiesIn text) :
    Chain text interior.start ((table.scanInterior text kind interior).flatMap Span.fragments)
      interior.stop :=
  table.chain_scanRange _ (show Text.isBoundary text interior.range.start = true from
    h.isBoundary_start) h.isBoundary_stop

theorem Table.marked_scanInterior (table : Table) (text : List Char) (kind : Kind)
    (interior : Fragment) : ∀ span ∈ table.scanInterior text kind interior, span.Marked :=
  table.marked_scanFrom _ _ _ _

/-- The leaf of a marker. -/
def Fragment.marker (lines : LineIndex) (index : Nat) (text : Fragment) : Node :=
  ⟨.ofFragment lines (.fresh index) .delimiter text, []⟩

namespace Grouping

/-- The spans that are grouped. -/
def spans : Grouping → List Span
  | nil => []
  | leaf kind text rest => .leaf kind text :: rest.spans
  | stray kind text rest => .closer kind text :: rest.spans
  | delimited kind opening interior closing _ rest =>
      .delimited kind opening interior closing :: rest.spans
  | closed kind opening inside closing rest =>
      .opener kind opening :: (inside.spans ++ .closer kind closing :: rest.spans)
  | unclosed kind opening inside => .opener kind opening :: inside.spans

/-- The kinds of the containers that are still open at the end, the innermost first. -/
def tail : Grouping → List Kind
  | nil => []
  | leaf _ _ rest | stray _ _ rest | delimited _ _ _ _ _ rest | closed _ _ _ _ rest => rest.tail
  | unclosed kind _ inside => inside.tail ++ [kind]

/-- The warnings, in the order in which they are reported. -/
def notes : Grouping → List Diagnostic
  | nil => []
  | leaf _ _ rest => rest.notes
  | stray _ text rest => text.unmatched :: rest.notes
  | delimited _ _ _ _ inside rest | closed _ _ inside _ rest => inside.notes ++ rest.notes
  | unclosed _ opening inside => inside.notes ++ [opening.unclosed]

/-- Whether spans are grouped as they should be, where containers of some kinds are `around`:
what closes nothing is of none of these kinds, what is closed is not of a kind that is still open
further in, and interiors are grouped on their own. -/
def Sound (table : Table) (text : List Char) (around : List Kind) : Grouping → Prop
  | nil => True
  | leaf _ _ rest => Sound table text around rest
  | stray kind _ rest => kind ∉ around ∧ Sound table text around rest
  | delimited kind _ interior _ inside rest =>
      inside.spans = table.scanInterior text kind interior
        ∧ Sound table text [] inside ∧ Sound table text around rest
  | closed kind _ inside _ rest =>
      kind ∉ inside.tail ∧ Sound table text (kind :: around) inside ∧ Sound table text around rest
  | unclosed kind _ inside => Sound table text (kind :: around) inside

/-- Whether nodes are those of grouped spans, where what is still open ends at `stop`. -/
def Shows (lines : LineIndex) : Grouping → Nat → List Node → Prop
  | nil, _, nodes => nodes = []
  | leaf kind text rest, stop, nodes =>
      ∃ index others, nodes = ⟨.ofFragment lines (.fresh index) kind text, []⟩ :: others
        ∧ Shows lines rest stop others
  | stray _ text rest, stop, nodes =>
      ∃ index others, nodes = text.marker lines index :: others ∧ Shows lines rest stop others
  | delimited kind opening interior closing inside rest, stop, nodes =>
      ∃ index indexOpening indexClosing below others,
        nodes = ⟨.ofRange lines (.fresh index) kind (.upTo opening.start closing.stop),
          opening.marker lines indexOpening :: (below
            ++ if closing.chars.isEmpty then [] else [closing.marker lines indexClosing])⟩ :: others
        ∧ Shows lines inside interior.stop below ∧ Shows lines rest stop others
  | closed kind opening inside closing rest, stop, nodes =>
      ∃ index indexOpening indexClosing below others,
        nodes = ⟨.ofRange lines (.fresh index) kind (.upTo opening.start closing.stop),
          opening.marker lines indexOpening ::
            (below ++ [closing.marker lines indexClosing])⟩ :: others
        ∧ Shows lines inside closing.start below ∧ Shows lines rest stop others
  | unclosed kind opening inside, stop, nodes =>
      ∃ index indexOpening below,
        nodes = [⟨.ofRange lines (.fresh index) kind (.upTo opening.start stop),
          opening.marker lines indexOpening :: below⟩]
        ∧ Shows lines inside stop below

theorem eq_nil_of_spans {group : Grouping} (h : group.spans = []) : group = .nil := by
  cases group <;> simp_all [spans]

end Grouping

namespace Pairing

variable {lines : LineIndex} {grammar : Grammar} {state : Pairing}

/-! ## Adding finished nodes -/

/-- The state with nodes added, after further names and notes. -/
def absorb (state : Pairing) (nodes : List Node) (next : Nat) (notes : List Diagnostic) : Pairing :=
  { nodes.foldl push state with next, notes := notes.reverse ++ state.notes }

theorem foldl_push_with (state : Pairing) (next : Nat) (notes : List Diagnostic)
    (nodes : List Node) : nodes.foldl push { state with next, notes } =
      { nodes.foldl push state with next, notes } := by
  induction nodes generalizing state with
  | nil => rfl
  | cons node rest ih => rw [List.foldl_cons, push_with, ih, List.foldl_cons]

theorem absorb_absorb (state : Pairing) (nodes nodes' : List Node) (next next' : Nat)
    (notes notes' : List Diagnostic) :
    (state.absorb nodes next notes).absorb nodes' next' notes' =
      state.absorb (nodes ++ nodes') next' (notes ++ notes') := by
  unfold absorb
  rw [foldl_push_with, List.foldl_append, List.reverse_append, List.append_assoc]

theorem awaited_push (state : Pairing) (node : Node) :
    (state.push node).frames.map (·.awaited) = state.frames.map (·.awaited) := by
  unfold push
  cases state.frames <;> rfl

theorem awaited_absorb (state : Pairing) (nodes : List Node) (next : Nat)
    (notes : List Diagnostic) :
    (state.absorb nodes next notes).frames.map (·.awaited) = state.frames.map (·.awaited) := by
  have hfold : (nodes.foldl push state).frames.map (·.awaited) = state.frames.map (·.awaited) := by
    induction nodes generalizing state with
    | nil => rfl
    | cons node rest ih => rw [List.foldl_cons, ih, awaited_push]
  exact hfold

theorem absorb_empty (first : Nat) (nodes : List Node) (next : Nat) (notes : List Diagnostic) :
    ({ next := first } : Pairing).absorb nodes next notes =
      { base := nodes.reverse, frames := [], next, notes := notes.reverse } := by
  have hfold : ∀ base : List Node, nodes.foldl push ({ base, next := first } : Pairing) =
      { base := nodes.reverse ++ base, next := first } := by
    induction nodes with
    | nil => exact fun base => rfl
    | cons node rest ih =>
        intro base
        rw [List.foldl_cons]
        exact (ih (node :: base)).trans (by simp)
  rw [absorb, hfold, List.append_nil, List.append_nil]

/-- Nodes are added to the innermost open container. -/
theorem absorb_cons (state : Pairing) (frame : Frame) (nodes : List Node) (next : Nat)
    (notes : List Diagnostic) :
    ({ state with frames := frame :: state.frames } : Pairing).absorb nodes next notes =
      { state with
        frames := { frame with children := nodes.reverse ++ frame.children } :: state.frames
        next
        notes := notes.reverse ++ state.notes } := by
  have hfold : ∀ frame : Frame,
      nodes.foldl push ({ state with frames := frame :: state.frames } : Pairing) =
        { state with
          frames := { frame with children := nodes.reverse ++ frame.children } :: state.frames } := by
    induction nodes with
    | nil => exact fun frame => rfl
    | cons node rest ih =>
        intro frame
        rw [List.foldl_cons]
        exact (ih { frame with children := node :: frame.children }).trans (by simp)
  rw [absorb, hfold]

theorem pushLeaf_eq_absorb (state : Pairing) (kind : Kind) (text : Fragment) :
    state.pushLeaf lines kind text =
      state.absorb [⟨.ofFragment lines (.fresh state.next) kind text, []⟩] (state.next + 1) [] := by
  unfold pushLeaf absorb
  exact push_with state (state.next + 1) state.notes _

/-- A new container, with its opening marker in it. -/
def opened (lines : LineIndex) (state : Pairing) (kind : Kind) (opening : Fragment) : Frame :=
  ⟨.fresh state.next, kind, .marker kind, opening, [opening.marker lines (state.next + 1)]⟩

theorem openFrame_eq (state : Pairing) (kind : Kind) (opening : Fragment) :
    state.openFrame lines kind (.marker kind) .delimiter opening =
      { state with
        frames := state.opened lines kind opening :: state.frames, next := state.next + 2 } := rfl

/-- The node of a container with an opening marker. -/
def container (lines : LineIndex) (state : Pairing) (kind : Kind) (opening : Fragment) (stop : Nat)
    (below : List Node) : Node :=
  ⟨.ofRange lines (.fresh state.next) kind (.upTo opening.start stop),
    opening.marker lines (state.next + 1) :: below⟩

/-- The innermost container, which has got nodes, ends as one node. -/
theorem closeInnermost_absorb (state : Pairing) (kind : Kind) (opening : Fragment)
    (nodes : List Node) (next stop : Nat) (notes : List Diagnostic) :
    ((state.openFrame lines kind (.marker kind) .delimiter opening).absorb nodes next
        notes).closeInnermost lines stop =
      state.absorb [state.container lines kind opening stop nodes] next notes := by
  rw [openFrame_eq]
  have habsorb := absorb_cons { state with next := state.next + 2 }
    (state.opened lines kind opening) nodes next notes
  dsimp only at habsorb
  rw [habsorb, closeInnermost]
  dsimp only
  have hclose : ({ state.opened lines kind opening with
      children := nodes.reverse ++ (state.opened lines kind opening).children } : Frame).close lines
        stop = state.container lines kind opening stop nodes := by
    simp [Frame.close, opened, container]
  rw [hclose]
  exact push_with state next (notes.reverse ++ state.notes) _

/-! ## Steps -/

theorem step_leaf (hmarkup : grammar.markup = none)
    (inner : Option KindSet → Range → Nat → Paired) (state : Pairing) (kind : Kind)
    (text : Fragment) :
    step lines grammar inner state (.leaf kind text) = state.pushLeaf lines kind text := by
  unfold step
  rw [hmarkup]
  cases kind <;> rfl

/-- A closer that no open container waits for. -/
theorem step_stray (inner : Option KindSet → Range → Nat → Paired) {kind : Kind} (text : Fragment)
    (hstray : Awaited.marker kind ∉ state.frames.map (·.awaited)) :
    step lines grammar inner state (.closer kind text) =
      state.absorb [text.marker lines state.next] (state.next + 1) [text.unmatched] := by
  have hnone : state.frames.findIdx? (fun frame => frame.awaited == .marker kind) = none := by
    rw [List.findIdx?_eq_none_iff]
    intro frame hframe
    rw [beq_eq_false_iff_ne]
    rintro heq
    exact hstray (List.mem_map.2 ⟨frame, hframe, heq⟩)
  unfold step close
  dsimp only
  rw [hnone]
  dsimp only
  rw [pushLeaf_eq_absorb]
  rfl

/-- What pairs the interiors of delimited containers explains them. -/
def Explains (lines : LineIndex) (inside : Grouping) (stop : Nat) (paired : Paired) : Prop :=
  inside.Shows lines stop paired.children ∧ paired.notes = inside.notes

/-- A delimited container is one node. -/
theorem pairDelimited_eq {inner : Range → Nat → Paired} {kind : Kind} (state : Pairing)
    (opening : Fragment) {interior : Fragment} (closing : Fragment) {inside : Grouping}
    (hempty : interior.chars.isEmpty = true → inside = .nil)
    (hinner : interior.chars.isEmpty = false →
      Explains lines inside interior.stop (inner interior.range (state.next + 2))) :
    ∃ node next,
      state.pairDelimited lines inner kind opening interior closing =
        state.absorb [node] next inside.notes
      ∧ ∀ rest stop others, Grouping.Shows lines rest stop others →
        (Grouping.delimited kind opening interior closing inside rest).Shows lines stop
          (node :: others) := by
  obtain ⟨below, next, hfill, hshows⟩ : ∃ below next,
      (state.openFrame lines kind (.marker kind) .delimiter opening).fill inner interior =
        (state.openFrame lines kind (.marker kind) .delimiter opening).absorb below next
          inside.notes
      ∧ inside.Shows lines interior.stop below := by
    cases hinterior : interior.chars.isEmpty with
    | true =>
        rw [hempty hinterior]
        refine ⟨[], state.next + 2, ?_, rfl⟩
        rw [fill, if_pos hinterior]
        rfl
    | false =>
        obtain ⟨hbelow, hnotes⟩ := hinner hinterior
        refine ⟨_, (inner interior.range (state.next + 2)).next, ?_, hbelow⟩
        rw [fill, if_neg (by simp [hinterior]), ← hnotes]
        exact foldl_push_with _ _ _ _
  obtain ⟨next', hclosing⟩ : ∃ next',
      ((state.openFrame lines kind (.marker kind) .delimiter opening).absorb below next
        inside.notes).pushMarker lines closing =
      (state.openFrame lines kind (.marker kind) .delimiter opening).absorb
        (below ++ if closing.chars.isEmpty then [] else [closing.marker lines next]) next'
          inside.notes := by
    cases hempty : closing.chars.isEmpty with
    | true => exact ⟨next, by simp [pushMarker, hempty]⟩
    | false =>
        refine ⟨next + 1, ?_⟩
        rw [pushMarker, if_neg (by simp [hempty]), pushLeaf_eq_absorb, absorb_absorb,
          List.append_nil]
        rfl
  refine ⟨state.container lines kind opening closing.stop
    (below ++ if closing.chars.isEmpty then [] else [closing.marker lines next]), next', ?_,
    fun rest stop others hrest => ?_⟩
  · rw [pairDelimited, hfill, hclosing]
    exact closeInnermost_absorb _ _ _ _ _ _ _
  · exact ⟨_, _, _, below, others, rfl, hshows, hrest⟩

/-! ## Sequences -/

/-- Whether pairing the spans of a grouping comes to what the grouping says. -/
structure Takes (lines : LineIndex) (grammar : Grammar)
    (inner : Option KindSet → Range → Nat → Paired) (state : Pairing) (group : Grouping) : Prop where
  awaited : (group.spans.foldl (step lines grammar inner) state).frames.map (·.awaited) =
    group.tail.map .marker ++ state.frames.map (·.awaited)
  unwound : ∀ stop, ∃ nodes next, group.Shows lines stop nodes
    ∧ unwind lines stop group.tail.length (group.spans.foldl (step lines grammar inner) state) =
      state.absorb nodes next group.notes

variable {inner : Option KindSet → Range → Nat → Paired} {group rest inside : Grouping}

/-- A finished node in front of a grouping. -/
theorem Takes.item (spans : List Span) {node : Node} {next : Nat} {notes : List Diagnostic}
    (hspans : group.spans = spans ++ rest.spans) (htail : group.tail = rest.tail)
    (hnotes : group.notes = notes ++ rest.notes)
    (hstep : spans.foldl (step lines grammar inner) state = state.absorb [node] next notes)
    (hrest : Takes lines grammar inner (state.absorb [node] next notes) rest)
    (hshows : ∀ stop others, rest.Shows lines stop others →
      group.Shows lines stop (node :: others)) : Takes lines grammar inner state group where
  awaited := by
    rw [hspans, List.foldl_append, hstep, hrest.awaited, htail, awaited_absorb]
  unwound stop := by
    obtain ⟨nodes, next', hnodes, hunwound⟩ := hrest.unwound stop
    refine ⟨node :: nodes, next', hshows stop nodes hnodes, ?_⟩
    rw [hspans, List.foldl_append, hstep, htail, hunwound, absorb_absorb, hnotes]
    rfl

/-- The last container to end is ended on its own. -/
theorem unwind_succ (lines : LineIndex) (stop count : Nat) (state : Pairing) :
    unwind lines stop (count + 1) state = unwind lines stop 1 (unwind lines stop count state) := by
  induction count generalizing state with
  | zero => rfl
  | succ count ih =>
      cases hframes : state.frames with
      | nil =>
          have hself : ∀ count, unwind lines stop count state = state := by
            intro count
            cases count with
            | zero => rfl
            | succ count => rw [unwind, hframes]
          rw [hself, hself, hself]
      | cons frame outer =>
          have hone : ∀ count, unwind lines stop (count + 1) state =
              unwind lines stop count
                ((state.closeInnermost lines stop).note frame.unclosed) := by
            intro count
            rw [unwind, hframes]
          rw [hone, ih, ← hone]

/-- The innermost container, which has got nodes, is not closed. -/
theorem unwind_one_absorb (state : Pairing) (kind : Kind) (opening : Fragment)
    (nodes : List Node) (next stop : Nat) (notes : List Diagnostic) :
    unwind lines stop 1 ((state.openFrame lines kind (.marker kind) .delimiter opening).absorb nodes
        next notes) =
      state.absorb [state.container lines kind opening stop nodes] next
        (notes ++ [opening.unclosed]) := by
  obtain ⟨frame, hframes, hunclosed⟩ : ∃ frame,
      ((state.openFrame lines kind (.marker kind) .delimiter opening).absorb nodes next
        notes).frames = frame :: state.frames ∧ frame.unclosed = opening.unclosed := by
    have habsorb := absorb_cons { state with next := state.next + 2 }
      (state.opened lines kind opening) nodes next notes
    exact ⟨_, congrArg Pairing.frames habsorb, rfl⟩
  rw [unwind, hframes]
  dsimp only
  rw [unwind, closeInnermost_absorb, hunclosed, note, absorb, absorb, List.reverse_append]
  rfl

/-- An opener that nothing closes. -/
theorem Takes.unclosed {kind : Kind} {opening : Fragment}
    (h : Takes lines grammar inner
      (state.openFrame lines kind (.marker kind) .delimiter opening) inside) :
    Takes lines grammar inner state (.unclosed kind opening inside) where
  awaited := by
    rw [Grouping.spans, List.foldl_cons]
    refine h.awaited.trans ?_
    rw [openFrame_eq, Grouping.tail, List.map_append, List.append_assoc]
    rfl
  unwound stop := by
    obtain ⟨below, next, hbelow, hunwound⟩ := h.unwound stop
    refine ⟨[state.container lines kind opening stop below], next, ⟨_, _, below, rfl, hbelow⟩, ?_⟩
    rw [Grouping.spans, Grouping.tail, List.length_append, List.length_singleton, List.foldl_cons,
      unwind_succ]
    exact (congrArg _ hunwound).trans (unwind_one_absorb _ _ _ _ _ _ _)

/-- An opener and the closer that closes it. -/
theorem step_closed {kind : Kind} {opening : Fragment} (closing : Fragment)
    (h : Takes lines grammar inner
      (state.openFrame lines kind (.marker kind) .delimiter opening) inside)
    (hkind : kind ∉ inside.tail) :
    ∃ node next,
      (Span.opener kind opening :: (inside.spans ++ [.closer kind closing])).foldl
          (step lines grammar inner) state =
        state.absorb [node] next inside.notes
      ∧ ∀ rest stop others, Grouping.Shows lines rest stop others →
        (Grouping.closed kind opening inside closing rest).Shows lines stop (node :: others) := by
  obtain ⟨below, next, hbelow, hunwound⟩ := h.unwound closing.start
  refine ⟨state.container lines kind opening closing.stop (below ++ [closing.marker lines next]),
    next + 1, ?_, fun rest stop others hrest => ⟨_, _, _, below, others, rfl, hbelow, hrest⟩⟩
  rw [List.foldl_cons, List.foldl_append, List.foldl_cons, List.foldl_nil]
  -- the closer finds the opener behind all that is still open inside
  have hfound : (inside.spans.foldl (step lines grammar inner)
      (state.openFrame lines kind (.marker kind) .delimiter opening)).frames.findIdx?
        (fun frame => frame.awaited == .marker kind) = some inside.tail.length := by
    have hnone : (inside.tail.map Awaited.marker).findIdx? (· == .marker kind) = none := by
      rw [List.findIdx?_eq_none_iff]
      intro awaited hawaited
      obtain ⟨open', hopen, rfl⟩ := List.mem_map.1 hawaited
      rw [beq_eq_false_iff_ne]
      rintro heq
      obtain rfl : open' = kind := by simpa using heq
      exact hkind hopen
    have hframes := h.awaited
    rw [openFrame_eq, List.map_cons] at hframes
    have hmap : ∀ frames : List Frame,
        frames.findIdx? (fun frame => frame.awaited == .marker kind) =
          (frames.map (·.awaited)).findIdx? (· == .marker kind) := by
      intro frames
      rw [List.findIdx?_map]
      rfl
    rw [hmap, openFrame_eq, hframes, List.findIdx?_append, hnone]
    simp [opened, List.findIdx?_cons]
  change (inside.spans.foldl (step lines grammar inner)
    (state.openFrame lines kind (.marker kind) .delimiter opening)).close lines
      (· == .marker kind) .delimiter closing (.unmatched closing.chars) = _
  rw [close, hfound]
  dsimp only
  rw [hunwound, pushLeaf_eq_absorb, absorb_absorb, List.append_nil]
  exact closeInnermost_absorb _ _ _ _ _ _ _

theorem Takes.nil (lines : LineIndex) (grammar : Grammar)
    (inner : Option KindSet → Range → Nat → Paired) (state : Pairing) :
    Takes lines grammar inner state .nil where
  awaited := rfl
  unwound _ := ⟨[], state.next, rfl, rfl⟩

/-- What has to be known of the interior of a span: it is explained by a grouping. -/
def Enters (lines : LineIndex) (grammar : Grammar)
    (inner : Option KindSet → Range → Nat → Paired) : Span → Prop
  | .delimited kind _ interior _ =>
      ∀ next, ∃ inside : Grouping,
        inside.spans = grammar.table.scanInterior lines.text kind interior
        ∧ inside.Sound grammar.table lines.text []
        ∧ (interior.chars.isEmpty = false → Explains lines inside interior.stop
            (inner ((grammar.table.spec? kind).bind (·.interior)) interior.range next))
  | _ => True

/-- Whether spans can be grouped up to the first closer that closes a container from around
them. -/
def Divides (lines : LineIndex) (grammar : Grammar) (inner : Option KindSet → Range → Nat → Paired)
    (state : Pairing) (around : List Kind) (spans : List Span) : Prop :=
  ∃ (group : Grouping) (rest : List Span), spans = group.spans ++ rest
    ∧ group.Sound grammar.table lines.text around ∧ Takes lines grammar inner state group
    ∧ (rest = [] ∨ ∃ kind closing after, rest = .closer kind closing :: after ∧ kind ∈ around
        ∧ kind ∉ group.tail)

/-- Spans that come to one finished node go in front of what can be grouped. -/
theorem Divides.behind {around : List Kind} {front spans : List Span} {node : Node} {next : Nat}
    {notes : List Diagnostic}
    (h : Divides lines grammar inner (state.absorb [node] next notes) around spans)
    (extend : Grouping → Grouping)
    (hstep : front.foldl (step lines grammar inner) state = state.absorb [node] next notes)
    (hspans : ∀ rest, (extend rest).spans = front ++ rest.spans)
    (htail : ∀ rest, (extend rest).tail = rest.tail)
    (hnotes : ∀ rest, (extend rest).notes = notes ++ rest.notes)
    (hsound : ∀ rest, rest.Sound grammar.table lines.text around →
      (extend rest).Sound grammar.table lines.text around)
    (hshows : ∀ rest stop others, Grouping.Shows lines rest stop others →
      (extend rest).Shows lines stop (node :: others)) :
    Divides lines grammar inner state around (front ++ spans) := by
  obtain ⟨group, rest, rfl, hgroup, htakes, hrest⟩ := h
  refine ⟨extend group, rest, by rw [hspans, List.append_assoc], hsound group hgroup, ?_, ?_⟩
  · exact .item front (hspans group) (htail group) (hnotes group) hstep htakes (hshows group)
  · rwa [htail]

/-- An opener in front of what can be grouped is not closed, unless its closer comes next. -/
theorem Divides.opener {around : List Kind} {spans : List Span} {kind : Kind} {opening : Fragment}
    (h : Divides lines grammar inner (state.openFrame lines kind (.marker kind) .delimiter opening)
      (kind :: around) spans)
    (hafter : ∀ node next notes after, after.length ≤ spans.length → after ⊆ spans →
      Divides lines grammar inner (state.absorb [node] next notes) around after) :
    Divides lines grammar inner state around (.opener kind opening :: spans) := by
  obtain ⟨inside, rest, rfl, hsound, htakes, hrest⟩ := h
  have hunclosed : Takes lines grammar inner state (.unclosed kind opening inside) :=
    htakes.unclosed
  rcases hrest with rfl | ⟨kind', closing, after, rfl, hkind', htail⟩
  · exact ⟨.unclosed kind opening inside, [], rfl, hsound, hunclosed, .inl rfl⟩
  · by_cases hsame : kind' = kind
    · subst hsame
      obtain ⟨node, next, hstep, hshows⟩ := step_closed closing htakes htail
      have hdivides := hafter node next inside.notes after
        (by simp only [List.length_append, List.length_cons]; omega)
        (fun span hspan => by simp [hspan])
      have hclosed := hdivides.behind (.closed kind' opening inside closing) hstep
        (fun rest => by simp [Grouping.spans]) (fun _ => rfl) (fun _ => rfl)
        (fun rest hrest => ⟨htail, hsound, hrest⟩) hshows
      simpa using hclosed
    · have haround : kind' ∈ around := by simpa [hsame] using hkind'
      refine ⟨.unclosed kind opening inside, _, rfl, hsound, hunclosed,
        .inr ⟨kind', closing, after, rfl, haround, ?_⟩⟩
      simp [Grouping.tail, htail, hsame]

/-- Spans can be grouped up to the first closer that closes a container from around them. -/
theorem divides (hmarkup : grammar.markup = none) {spans : List Span}
    (hspans : ∀ span ∈ spans, Enters lines grammar inner span) {around : List Kind}
    (hstate : state.frames.map (·.awaited) = around.map .marker) :
    Divides lines grammar inner state around spans := by
  -- behind a container that is closed pairing goes on with what its content leaves
  induction hlength : spans.length using Nat.strongRecOn
    generalizing spans around state with
  | _ length ih =>
    subst hlength
    cases spans with
    | nil => exact ⟨.nil, [], rfl, trivial, .nil _ _ _ _, .inl rfl⟩
    | cons span spans =>
      rw [List.forall_mem_cons] at hspans
      have hafter : ∀ node next notes after, after.length ≤ spans.length → after ⊆ spans →
          Divides lines grammar inner (state.absorb [node] next notes) around after :=
        fun node next notes after hle hsub =>
          ih after.length (Nat.lt_succ_of_le hle) (fun span hspan => hspans.2 span (hsub hspan))
            ((awaited_absorb _ _ _ _).trans hstate) rfl
      have hnext : ∀ node next notes,
          Divides lines grammar inner (state.absorb [node] next notes) around spans :=
        fun node next notes => hafter node next notes spans (Nat.le_refl _) (List.Subset.refl spans)
      cases span with
      | leaf kind text =>
          have hstep : [.leaf kind text].foldl (step lines grammar inner) state =
              state.absorb [_] (state.next + 1) [] :=
            (step_leaf hmarkup inner state kind text).trans (pushLeaf_eq_absorb state kind text)
          exact (hnext _ _ _).behind (.leaf kind text) hstep (fun _ => rfl) (fun _ => rfl)
            (fun _ => rfl) (fun _ hrest => hrest)
            fun _ stop others hothers => ⟨_, others, rfl, hothers⟩
      | closer kind text =>
          by_cases hkind : kind ∈ around
          · exact ⟨.nil, _, rfl, trivial, .nil _ _ _ _,
              .inr ⟨kind, text, spans, rfl, hkind, List.not_mem_nil⟩⟩
          · have hstray : Awaited.marker kind ∉ state.frames.map (·.awaited) := by
              rw [hstate]
              intro hmem
              obtain ⟨kind', hkind', heq⟩ := List.mem_map.1 hmem
              obtain rfl : kind' = kind := by simpa using heq
              exact hkind hkind'
            have hstep : [.closer kind text].foldl (step lines grammar inner) state =
                state.absorb [text.marker lines state.next] (state.next + 1) [text.unmatched] := by
              rw [List.foldl_cons, List.foldl_nil, step_stray inner text hstray]
            exact (hnext _ _ _).behind (.stray kind text) hstep (fun _ => rfl) (fun _ => rfl)
              (fun _ => rfl) (fun _ hrest => ⟨hkind, hrest⟩)
              fun _ stop others hothers => ⟨_, others, rfl, hothers⟩
      | delimited kind opening interior closing =>
          obtain ⟨inside, hinside, hsound, hexplains⟩ := hspans.1 (state.next + 2)
          have hempty : interior.chars.isEmpty = true → inside = .nil := by
            intro hempty
            rw [Table.scanInterior_of_isEmpty hempty] at hinside
            exact Grouping.eq_nil_of_spans hinside
          obtain ⟨node, next, hstep, hshows⟩ :=
            pairDelimited_eq state opening closing hempty hexplains
          have hstep : [.delimited kind opening interior closing].foldl (step lines grammar inner)
              state = state.absorb [node] next inside.notes := hstep
          exact (hnext node next inside.notes).behind
            (.delimited kind opening interior closing inside) hstep (fun _ => rfl) (fun _ => rfl) (fun _ => rfl)
            (fun _ hrest => ⟨hinside, hsound, hrest⟩) hshows
      | opener kind opening =>
          have hopened : (state.openFrame lines kind (.marker kind) .delimiter
              opening).frames.map (·.awaited) = (kind :: around).map .marker := by
            rw [openFrame_eq, List.map_cons, hstate]
            rfl
          exact (ih spans.length (Nat.lt_succ_self _) hspans.2 hopened rfl).opener hafter

end Pairing

namespace Grammar

variable {lines : LineIndex} {grammar : Grammar}

/-- Without markup, what a range is paired into comes from a grouping of its spans. -/
theorem exists_grouping (hmarkup : grammar.markup = none) {fuel : Nat} (restrict : Option KindSet)
    {range : Range} (hstart : Text.isBoundary lines.text range.start = true)
    (hstop : Text.isBoundary lines.text range.stop = true) (hfuel : range.length < fuel)
    (next : Nat) :
    ∃ group : Grouping, group.spans = grammar.table.scanRange lines.text range restrict
      ∧ group.Sound grammar.table lines.text []
      ∧ Pairing.Explains lines group range.stop
          (grammar.pairRange lines fuel restrict range next) := by
  induction fuel generalizing restrict range next with
  | zero => omega
  | succ fuel ih =>
      have hchain := grammar.table.chain_scanRange restrict hstart hstop
      have henters : ∀ span ∈ grammar.table.scanRange lines.text range restrict,
          Pairing.Enters lines grammar (grammar.pairRange lines fuel) span := by
        intro span hspan
        cases span with
        | leaf kind text => trivial
        | opener kind text => trivial
        | closer kind text => trivial
        | delimited kind opening interior closing =>
            -- the opening marker makes the interior shorter than the range
            have hmarked : opening.chars ≠ [] := grammar.table.marked_scanFrom _ _ _ _ _ hspan
            obtain ⟨first, last, hfirst, hparts, hlast⟩ := hchain.of_mem hspan
            obtain ⟨rfl, _, hmiddle, hinterior, hend, _, rfl⟩ := hparts
            have hopening := Fragment.start_lt_stop hmarked
            have hinside : interior.start ≤ interior.stop := Nat.le_add_right _ _
            have hclosing : closing.start ≤ closing.stop := Nat.le_add_right _ _
            have hshorter : interior.range.length < fuel := by
              have hlength : interior.range.length = interior.stop - interior.start := rfl
              unfold Range.length at hfuel hlength ⊢
              omega
            intro next
            obtain ⟨inside, hspans, hsound, hexplains⟩ :=
              ih ((grammar.table.spec? kind).bind (·.interior)) hinterior.isBoundary_start
                hinterior.isBoundary_stop hshorter next
            exact ⟨inside, hspans, hsound, fun _ => hexplains⟩
      have hempty : ({ next } : Pairing).frames.map (·.awaited) =
          ([] : List Kind).map .marker := rfl
      obtain ⟨group, rest, hspans, hsound, htakes, hrest⟩ :=
        Pairing.divides hmarkup henters hempty
      have hnil : rest = [] := by
        rcases hrest with hnil | ⟨kind, closing, after, _, hkind, _⟩
        · exact hnil
        · cases hkind
      rw [hnil, List.append_nil] at hspans
      obtain ⟨nodes, next', hnodes, hunwound⟩ := htakes.unwound range.stop
      have hcount := congrArg List.length htakes.awaited
      simp only [List.length_map, List.map_nil, List.append_nil] at hcount
      rw [← hcount, Pairing.absorb_empty] at hunwound
      refine ⟨group, hspans.symm, hsound, ?_, ?_⟩
      · rw [pairRange, hspans]
        dsimp only
        rw [hunwound]
        dsimp only
        rwa [List.reverse_reverse]
      · rw [pairRange, hspans]
        dsimp only
        rw [hunwound]
        dsimp only
        rw [List.reverse_reverse]

end Grammar

end ConcreteSyntax
