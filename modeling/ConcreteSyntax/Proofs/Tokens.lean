import ConcreteSyntax.Proofs.Lossless

/-!
# The leaves of a parsed text

Pairing puts each marker and each leaf of a scan into a leaf of its own, in the order of the text,
and analysis leaves all leaves in place.  So the leaves of a parsed text, read as `Token`s, are the
pieces that its scans found: those of the text itself, and in the place of each interior of a
delimited container those of the interior (`Language.tokens_parse`).
-/

namespace ConcreteSyntax

/-- What a leaf is apart from its name and its lines: a kind, and a piece of text. -/
structure Token where
  kind : Kind
  text : Fragment
deriving DecidableEq

namespace Node

/-- A leaf as a token. -/
def token (leaf : Node) : Token := ⟨leaf.kind, leaf.range.start, leaf.text?.getD []⟩

/-- The leaves of a tree as tokens, from left to right. -/
def tokens (node : Node) : List Token := node.leaves.map token

theorem tokens_mk (label : Label) (children : List Node) :
    tokens ⟨label, children⟩ =
      (if label.kind.isAtomic then [token ⟨label, []⟩] else []) ++ children.flatMap tokens := by
  rw [tokens, leaves_mk, List.map_append, List.map_flatMap]
  congr 1
  split <;> rfl

theorem tokens_container {label : Label} (h : label.kind.isAtomic = false) (children : List Node) :
    tokens ⟨label, children⟩ = children.flatMap tokens := by
  rw [tokens_mk, h]
  rfl

theorem tokens_leaf (lines : LineIndex) (id : NodeId) {kind : Kind} (h : kind.isAtomic = true)
    (text : Fragment) : tokens ⟨.ofFragment lines id kind text, []⟩ = [⟨kind, text⟩] := by
  have hkind : (Label.ofFragment lines id kind text).kind.isAtomic = true := h
  have htext : (Label.ofFragment lines id kind text).text? = some text.chars := if_pos h
  rw [tokens_mk, hkind]
  simp only [token, Node.text?, Node.label, htext]
  rfl

end Node

/-- The tokens of a span, where `inner` are those of an interior. -/
def Span.tokens (inner : Kind → Range → List Token) : Span → List Token
  | .leaf kind text => [⟨kind, text⟩]
  | .opener _ text | .closer _ text => [⟨.delimiter, text⟩]
  | .delimited kind opening interior closing =>
      ⟨.delimiter, opening⟩ ::
        ((if interior.chars.isEmpty then [] else inner kind interior.range)
          ++ if closing.chars.isEmpty then [] else [⟨.delimiter, closing⟩])

namespace Grammar

/-- The tokens of a range of a text.  Interiors of delimited containers are scanned on their own,
down to the depth of `fuel`. -/
def tokensIn (grammar : Grammar) (text : List Char) :
    Nat → Option KindSet → Range → List Token
  | 0, _, range => [⟨.text, .ofRange text range⟩]
  | fuel + 1, restrict, range =>
      (grammar.table.scanRange text range restrict).flatMap <| Span.tokens fun kind interior =>
        tokensIn grammar text fuel ((grammar.table.spec? kind).bind (·.interior)) interior

/-- The tokens of a text. -/
def tokens (grammar : Grammar) (text : List Char) : List Token :=
  grammar.tokensIn text (Text.byteLength text + 1) none (.ofLength 0 (Text.byteLength text))

end Grammar

/-! ## Pairing -/

namespace Pairing

/-- The leaves in open containers, those of the outermost first. -/
def frameTokens : List Frame → List Token
  | [] => []
  | frame :: outer => frameTokens outer ++ frame.children.reverse.flatMap Node.tokens

/-- Whether the leaves so far are those of `tokens`, and only containers are open. -/
structure Holds (state : Pairing) (tokens : List Token) : Prop where
  containers : ∀ frame ∈ state.frames, frame.kind.isAtomic = false
  tokens : state.base.reverse.flatMap Node.tokens ++ frameTokens state.frames = tokens

variable {lines : LineIndex} {grammar : Grammar} {state : Pairing} {tokens : List Token}

theorem holds_start (next : Nat) : ({ next } : Pairing).Holds [] := ⟨by simp, rfl⟩

theorem Holds.withNext (h : state.Holds tokens) (next : Nat) (notes : List Diagnostic) :
    ({ state with next, notes } : Pairing).Holds tokens := ⟨h.containers, h.tokens⟩

theorem Holds.push (h : state.Holds tokens) (node : Node) :
    (state.push node).Holds (tokens ++ node.tokens) := by
  have hcontainers := h.containers
  have htokens := h.tokens
  unfold Pairing.push
  cases hframes : state.frames with
  | nil =>
      rw [hframes] at htokens
      refine ⟨by simp, ?_⟩
      simpa [frameTokens] using htokens
  | cons frame outer =>
      rw [hframes, List.forall_mem_cons] at hcontainers
      rw [hframes] at htokens
      refine ⟨List.forall_mem_cons.2 hcontainers, ?_⟩
      rw [← htokens]
      simp [frameTokens]

theorem Holds.pushLeaf (h : state.Holds tokens) {kind : Kind} (hkind : kind.isAtomic = true)
    (text : Fragment) : (state.pushLeaf lines kind text).Holds (tokens ++ [⟨kind, text⟩]) := by
  have hleaf := (h.withNext (state.next + 1) state.notes).push
    ⟨.ofFragment lines (.fresh state.next) kind text, []⟩
  rwa [Node.tokens_leaf lines _ hkind] at hleaf

theorem Holds.openFrame (h : state.Holds tokens) {kind markerKind : Kind}
    (hkind : kind.isAtomic = false) (hmarker : markerKind.isAtomic = true) (awaited : Awaited)
    (opening : Fragment) :
    (state.openFrame lines kind awaited markerKind opening).Holds
      (tokens ++ [⟨markerKind, opening⟩]) := by
  let frame : Frame := ⟨.fresh state.next, kind, awaited, opening, []⟩
  have hopened : ({ state with frames := frame :: state.frames } : Pairing).Holds tokens := by
    refine ⟨List.forall_mem_cons.2 ⟨hkind, h.containers⟩, ?_⟩
    simpa [frameTokens, frame] using h.tokens
  exact (hopened.withNext (state.next + 1) state.notes).pushLeaf hmarker opening

/-- Ending a container leaves the leaves where they are. -/
theorem Holds.closeInnermost (h : state.Holds tokens) (stop : Nat) :
    (state.closeInnermost lines stop).Holds tokens := by
  unfold Pairing.closeInnermost
  split
  · exact h
  · rename_i frame outer hframes
    have hcontainers := h.containers
    have htokens := h.tokens
    rw [hframes, List.forall_mem_cons] at hcontainers
    rw [hframes, frameTokens, ← List.append_assoc] at htokens
    have houter : ({ state with frames := outer } : Pairing).Holds _ := ⟨hcontainers.2, rfl⟩
    have hpushed := houter.push (frame.close lines stop)
    rw [Frame.close, Node.tokens_container, htokens] at hpushed
    · exact hpushed
    · exact hcontainers.1

theorem Holds.unwind (h : state.Holds tokens) (stop count : Nat) :
    (unwind lines stop count state).Holds tokens := by
  induction count generalizing state with
  | zero => exact h
  | succ count ih =>
      unfold Pairing.unwind
      split
      · exact h
      · exact ih ((h.closeInnermost stop).withNext _ _)

theorem Holds.close (h : state.Holds tokens) {markerKind : Kind}
    (hmarker : markerKind.isAtomic = true) (awaits : Awaited → Bool) (marker : Fragment)
    (problem : Problem) :
    (state.close lines awaits markerKind marker problem).Holds
      (tokens ++ [⟨markerKind, marker⟩]) := by
  unfold Pairing.close
  split
  · exact ((h.unwind _ _).pushLeaf hmarker marker).closeInnermost _
  · exact (h.pushLeaf hmarker marker).withNext _ _

theorem Holds.pairTag (h : state.Holds tokens) {rules : Markup.Rules}
    (helements : ∀ name, (rules.elementKind name).isAtomic = false) (text : Fragment) :
    (state.pairTag lines rules text).Holds (tokens ++ [⟨.tag, text⟩]) := by
  have htag : Kind.tag.isAtomic = true := by decide
  unfold Pairing.pairTag
  dsimp only
  split
  · exact h.close htag _ _ _
  · split
    · exact h.openFrame (helements _) htag _ _
    · exact (h.openFrame (helements _) htag _ _).closeInnermost _

theorem Holds.pushAll (h : state.Holds tokens) (nodes : List Node) :
    (nodes.foldl Pairing.push state).Holds (tokens ++ nodes.flatMap Node.tokens) := by
  induction nodes generalizing state tokens with
  | nil => simpa using h
  | cons node rest ih => simpa using ih (h.push node)

theorem Holds.fill (h : state.Holds tokens) {inner : Range → Nat → Paired} {interior : Fragment}
    {found : List Token}
    (hinner : ∀ next, (inner interior.range next).children.flatMap Node.tokens = found) :
    (state.fill inner interior).Holds
      (tokens ++ if interior.chars.isEmpty then [] else found) := by
  unfold Pairing.fill
  split
  · simpa using h
  · rw [← hinner state.next]
    exact (h.withNext _ _).pushAll _

theorem Holds.pushMarker (h : state.Holds tokens) (closing : Fragment) :
    (state.pushMarker lines closing).Holds
      (tokens ++ if closing.chars.isEmpty then [] else [⟨.delimiter, closing⟩]) := by
  unfold Pairing.pushMarker
  split
  · simpa using h
  · exact h.pushLeaf (by decide) closing

/-- The pairing of a span adds its tokens. -/
theorem Holds.step (h : state.Holds tokens) (hgrammar : grammar.IsSound)
    {inner : Option KindSet → Range → Nat → Paired} {found : Option KindSet → Range → List Token}
    (hinner : ∀ restrict range next,
      (inner restrict range next).children.flatMap Node.tokens = found restrict range)
    {span : Span} (hspan : span.Suits True) :
    (Pairing.step lines grammar inner state span).Holds (tokens ++
      span.tokens fun kind => found ((grammar.table.spec? kind).bind (·.interior))) := by
  cases span with
  | leaf kind text =>
      unfold Pairing.step
      dsimp only
      split
      · rename_i rules hrules
        exact h.pairTag (hgrammar.elements rules hrules) text
      · exact h.pushLeaf (hspan trivial) text
  | opener kind text => exact h.openFrame hspan (by decide) _ text
  | closer kind text =>
      unfold Pairing.step
      exact h.close (by decide) _ text _
  | delimited kind opening interior closing =>
      unfold Pairing.step pairDelimited
      have hopened : (state.openFrame lines kind (.marker kind) .delimiter opening).Holds _ :=
        h.openFrame hspan (by decide) _ opening
      have hfilled := hopened.fill
        (hinner ((grammar.table.spec? kind).bind (·.interior)) interior.range)
      rw [Span.tokens, List.append_cons, ← List.append_assoc]
      exact (hfilled.pushMarker closing).closeInnermost closing.stop

theorem Holds.steps (h : state.Holds tokens) (lines : LineIndex) (hgrammar : grammar.IsSound)
    {inner : Option KindSet → Range → Nat → Paired} {found : Option KindSet → Range → List Token}
    (hinner : ∀ restrict range next,
      (inner restrict range next).children.flatMap Node.tokens = found restrict range)
    {spans : List Span} (hspans : ∀ span ∈ spans, span.Suits True) :
    (spans.foldl (Pairing.step lines grammar inner) state).Holds (tokens ++
      spans.flatMap (Span.tokens fun kind =>
        found ((grammar.table.spec? kind).bind (·.interior)))) := by
  induction spans generalizing state tokens with
  | nil => simpa using h
  | cons span rest ih =>
      rw [List.forall_mem_cons] at hspans
      simpa using ih (h.step hgrammar hinner hspans.1) hspans.2

end Pairing

namespace Grammar

variable {grammar : Grammar} {lines : LineIndex}

theorem tokens_pairRange (h : grammar.IsSound) (fuel : Nat) (restrict : Option KindSet)
    (range : Range) (next : Nat) :
    (grammar.pairRange lines fuel restrict range next).children.flatMap Node.tokens =
      grammar.tokensIn lines.text fuel restrict range := by
  induction fuel generalizing restrict range next with
  | zero =>
      rw [pairRange, List.flatMap_singleton, Node.tokens_leaf lines _ (by decide)]
      rfl
  | succ fuel ih =>
      have hspans : ∀ span ∈ grammar.table.scanRange lines.text range restrict,
          span.Suits True := Table.suits_scanFrom (fun _ => h.table) restrict _ _ _
      have hscanned := (Pairing.holds_start next).steps lines h ih hspans
      have hended : (Pairing.unwind lines range.stop _ _).Holds _ :=
        hscanned.unwind range.stop
          (List.foldl (Pairing.step lines grammar (grammar.pairRange lines fuel)) { next }
            (grammar.table.scanRange lines.text range restrict)).frames.length
      have htokens := hended.tokens
      rw [Pairing.frames_unwind_all, Pairing.frameTokens, List.append_nil] at htokens
      exact htokens

/-- The leaves of a paired text are its tokens. -/
theorem tokens_pair (h : grammar.IsSound) (lines : LineIndex) :
    (grammar.pair lines).1.tokens = grammar.tokens lines.text := by
  have hroot : Kind.root.isAtomic = false := by decide
  exact (Node.tokens_container hroot _).trans (tokens_pairRange h _ _ _ _)

end Grammar

/-! ## Analysis -/

section

variable {lines : LineIndex} {kinds : Kind → Prop} {next next' : Nat} {node node' : Node}

theorem Wraps.tokens_eq (h : Wraps lines kinds next node node')
    (hkinds : ∀ kind, kinds kind → kind.isAtomic = false) : node'.tokens = node.tokens := by
  induction h with
  | @here label before run after kind hrun hkind =>
      have hwrapped : (Node.wrap lines (.fresh next) kind run).tokens = run.flatMap Node.tokens := by
        apply Node.tokens_container
        exact hkinds kind hkind
      simp [Node.tokens_mk, hwrapped]
  | @inside label before after child child' hchild ih => simp [Node.tokens_mk, ih]

/-- New containers leave the leaves of a tree where they are. -/
theorem Grows.tokens_eq (h : Grows lines kinds next node next' node')
    (hkinds : ∀ kind, kinds kind → kind.isAtomic = false) : node'.tokens = node.tokens := by
  induction h with
  | refl => rfl
  | step hwrap _ ih => rw [ih, hwrap.tokens_eq hkinds]

end

/-- What a leaf is, is told by its token. -/
theorem Node.Fits.of_token {lines : LineIndex} {leaf : Node} (h : leaf.Fits lines True)
    (hkind : leaf.kind.isAtomic = true) :
    leaf.range = leaf.token.text.range ∧ leaf.text? = some leaf.token.text.chars
      ∧ leaf.children = [] := by
  have htext := h.text_eq
  rw [if_pos hkind] at htext
  have hlength := Text.byteLength_slice h.start h.stop
  have hle := leaf.range.start_le_stop
  refine ⟨?_, ?_, h.leaf trivial hkind⟩
  · apply Range.ext
    · rfl
    · simp only [Node.token, Fragment.range, Range.ofLength, htext, Option.getD_some, hlength,
        Range.length]
      omega
  · simp only [Node.token, htext, Option.getD_some]

namespace Language

/-- The leaves of a parsed text are the tokens of the prepared text, with analysis or without. -/
theorem tokens_parse (language : Language) (analysis : Bool) (text : List Char) :
    (language.parse analysis text).root.tokens =
      language.grammar.tokens (language.prepare text) := by
  have hbuilt : (Parse.build language.grammar (language.prepare text)).root.tokens =
      language.grammar.tokens (language.prepare text) :=
    Grammar.tokens_pair language.isSound_grammar _
  cases analysis with
  | false => exact hbuilt
  | true =>
      rw [← hbuilt]
      refine Grows.tokens_eq (Pass.grows_runAll
        (fun pass hpass look found hfound =>
          Kind.isAtomic_of_synthesized ((language.planned_passes pass hpass).synthesized hfound))
        _ _) fun _ h => h

theorem of_mem_leaves (language : Language) (analysis : Bool) (text : List Char) {leaf : Node}
    (h : leaf ∈ (language.parse analysis text).root.leaves) :
    leaf.kind.isAtomic = true ∧ leaf.range = leaf.token.text.range
      ∧ leaf.text? = some leaf.token.text.chars ∧ leaf.children = [] := by
  obtain ⟨hbelow, hkind⟩ := List.mem_filter.1 h
  have hlaid := language.wellLaid_stage
    (if analysis then language.grammar.passes.length else 0) text
  rw [← parse_eq_stage] at hlaid
  exact ⟨hkind, (hlaid.fits leaf hbelow).of_token hkind⟩

/-- Each token of a text is a leaf of the tree. -/
theorem exists_leaf (language : Language) (analysis : Bool) (text : List Char) {token : Token}
    (h : token ∈ language.grammar.tokens (language.prepare text)) :
    ∃ leaf ∈ (language.parse analysis text).root.leaves, leaf.kind = token.kind
      ∧ leaf.range = token.text.range ∧ leaf.text? = some token.text.chars
      ∧ leaf.children = [] := by
  rw [← language.tokens_parse analysis] at h
  obtain ⟨leaf, hleaf, rfl⟩ := List.mem_map.1 h
  obtain ⟨-, hfacts⟩ := language.of_mem_leaves analysis text hleaf
  exact ⟨leaf, hleaf, rfl, hfacts⟩

end Language

/-! ## Characters of leaves -/

theorem Table.chars_ne_nil_of_leaf {table : Table} {restrict : Option KindSet} {offset : Nat}
    (place : Context) {kind : Kind} {text : Fragment}
    (h : .leaf kind text ∈ table.scanFrom restrict offset place.toLeftContext place.rest) :
    text.chars ≠ [] := by
  generalize hspans : table.scanFrom restrict offset place.toLeftContext place.rest = spans at h
  induction spans generalizing offset place with
  | nil => cases h
  | cons span after ih =>
      obtain ⟨n, htake, hrange, hafter, -⟩ := scanFrom_cases hspans
      rcases List.mem_cons.1 h with rfl | hmem
      · intro hnil
        have hstart := congrArg Range.start hrange
        have hstop := congrArg Range.stop hrange
        have hpos : Text.byteLength (place.rest.take n) ≠ 0 :=
          mt Text.byteLength_eq_zero_iff.1 htake
        have hlength : Text.byteLength text.chars = 0 := by rw [hnil, Text.byteLength_nil]
        simp only [Span.range, Fragment.range, Range.ofLength, hlength]
          at hstart hstop
        omega
      · exact ih (place.advance n) hafter hmem

/-- No token is empty. -/
theorem Grammar.chars_ne_nil_of_mem_tokensIn {grammar : Grammar} {text : List Char} (fuel : Nat)
    (restrict : Option KindSet) (range : Range) (hstart : Text.isBoundary text range.start = true)
    (hstop : Text.isBoundary text range.stop = true) (hfuel : range.length < fuel) :
    ∀ token ∈ grammar.tokensIn text fuel restrict range, token.text.chars ≠ [] := by
  induction fuel generalizing restrict range with
  | zero => omega
  | succ fuel ih =>
      have hchain := grammar.table.chain_scanRange restrict hstart hstop
      intro token htoken
      obtain ⟨span, hspan, htoken⟩ := List.mem_flatMap.1 htoken
      have hmarked := grammar.table.marked_scanFrom _ _ _ _ span hspan
      obtain ⟨first, last, hfirst, hparts, hlast⟩ := hchain.of_mem hspan
      cases span with
      | leaf kind fragment =>
          obtain rfl := List.mem_singleton.1 htoken
          exact Table.chars_ne_nil_of_leaf ⟨_, _⟩ hspan
      | opener kind fragment | closer kind fragment =>
          obtain rfl := List.mem_singleton.1 htoken
          exact hmarked
      | delimited kind opening interior closing =>
          obtain ⟨rfl, -, hmiddle, hinterior, hend, -, rfl⟩ := hparts
          rw [Span.tokens, List.mem_cons, List.mem_append] at htoken
          rcases htoken with rfl | htoken | htoken
          · exact hmarked
          · split at htoken
            · cases htoken
            -- the opening marker makes the interior shorter than the range
            have hopening := Fragment.start_lt_stop hmarked
            have hinside : interior.start ≤ interior.stop := Nat.le_add_right _ _
            have hclosing : closing.start ≤ closing.stop := Nat.le_add_right _ _
            refine ih _ _ hinterior.isBoundary_start hinterior.isBoundary_stop ?_ token htoken
            have hlength : interior.range.length = interior.stop - interior.start := rfl
            unfold Range.length at hfuel hlength ⊢
            omega
          · split at htoken
            · cases htoken
            · obtain rfl := List.mem_singleton.1 htoken
              simpa using ‹¬closing.chars.isEmpty = true›

namespace Language

/-- No leaf of a parsed text is empty. -/
theorem content_ne_nil (language : Language) (analysis : Bool) (text : List Char) {leaf : Node}
    (h : leaf ∈ (language.parse analysis text).root.descendants)
    (hkind : leaf.kind.isAtomic = true) : leaf.content ≠ [] := by
  have hleaf : leaf ∈ (language.parse analysis text).root.leaves := List.mem_filter.2 ⟨h, hkind⟩
  have htoken : leaf.token ∈ language.grammar.tokens (language.prepare text) := by
    rw [← language.tokens_parse analysis]
    exact List.mem_map_of_mem hleaf
  obtain ⟨-, -, htext, -⟩ := language.of_mem_leaves analysis text hleaf
  rw [Node.content, htext, Option.getD_some]
  refine Grammar.chars_ne_nil_of_mem_tokensIn _ none (.ofLength 0 _)
    (Text.isBoundary_zero _) ?_ ?_ leaf.token htoken
  · simp only [Range.ofLength, Nat.zero_add]
    exact Text.isBoundary_byteLength _
  · simp [Range.length, Range.ofLength]

end Language

end ConcreteSyntax
