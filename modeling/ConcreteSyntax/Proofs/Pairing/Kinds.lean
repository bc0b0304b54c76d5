import ConcreteSyntax.Proofs.Pairing

/-!
# Kinds before analysis

Pairing makes nodes only of the kinds that its grammar names: those of its specs and elements,
and those of texts, markers and the root.
-/

namespace ConcreteSyntax

/-- Whether all nodes of a tree are of allowed kinds. -/
abbrev Node.Keeps (allowed : Kind → Prop) (node : Node) : Prop :=
  node.All fun below => allowed below.kind

/-- Whether a grammar makes nodes of allowed kinds only. -/
structure Grammar.Keeps (allowed : Kind → Prop) (grammar : Grammar) : Prop where
  root : allowed .root
  text : allowed .text
  delimiter : allowed .delimiter
  specs : ∀ spec ∈ grammar.table.candidates, allowed spec.kind
  elements : ∀ rules, grammar.markup = some rules → ∀ name, allowed (rules.elementKind name)

variable {allowed : Kind → Prop} {lines : LineIndex} {grammar : Grammar}

namespace Pairing

/-- Whether all nodes so far are of allowed kinds, those of open containers included. -/
structure Keeps (allowed : Kind → Prop) (state : Pairing) : Prop where
  base : ∀ node ∈ state.base, node.Keeps allowed
  kinds : ∀ frame ∈ state.frames, allowed frame.kind
  frames : ∀ frame ∈ state.frames, ∀ node ∈ frame.children, node.Keeps allowed

variable {state : Pairing}

theorem Keeps.push (h : state.Keeps allowed) {node : Node} (hnode : node.Keeps allowed) :
    (state.push node).Keeps allowed := by
  unfold Pairing.push
  cases hframes : state.frames with
  | nil => exact ⟨List.forall_mem_cons.2 ⟨hnode, h.base⟩, by simp, by simp⟩
  | cons frame outer =>
      have hkinds := h.kinds
      have hchildren := h.frames
      rw [hframes, List.forall_mem_cons] at hkinds hchildren
      refine ⟨h.base, List.forall_mem_cons.2 hkinds, ?_⟩
      rw [List.forall_mem_cons]
      exact ⟨List.forall_mem_cons.2 ⟨hnode, hchildren.1⟩, hchildren.2⟩

theorem Keeps.withNext (h : state.Keeps allowed) (next : Nat) (notes : List Diagnostic) :
    ({ state with next, notes } : Pairing).Keeps allowed := ⟨h.base, h.kinds, h.frames⟩

theorem keeps_leaf {label : Label} (h : allowed label.kind) :
    Node.Keeps allowed ⟨label, []⟩ := Node.all_mk.2 ⟨h, by simp⟩

theorem Keeps.pushLeaf (h : state.Keeps allowed) {kind : Kind} (hkind : allowed kind)
    (text : Fragment) : (state.pushLeaf lines kind text).Keeps allowed :=
  (h.withNext _ _).push (keeps_leaf hkind)

theorem Keeps.openFrame (h : state.Keeps allowed) {kind markerKind : Kind} (hkind : allowed kind)
    (hmarker : allowed markerKind) (awaited : Awaited) (opening : Fragment) :
    (state.openFrame lines kind awaited markerKind opening).Keeps allowed := by
  let frame : Frame := ⟨.fresh state.next, kind, awaited, opening, []⟩
  have hopened : ({ state with frames := frame :: state.frames } : Pairing).Keeps allowed := by
    refine ⟨h.base, List.forall_mem_cons.2 ⟨hkind, h.kinds⟩, ?_⟩
    rw [List.forall_mem_cons]
    exact ⟨by simp [frame], h.frames⟩
  exact (hopened.withNext (state.next + 1) state.notes).pushLeaf hmarker opening

theorem Keeps.closeInnermost (h : state.Keeps allowed) (stop : Nat) :
    (state.closeInnermost lines stop).Keeps allowed := by
  unfold Pairing.closeInnermost
  split
  · exact h
  · rename_i frame outer hframes
    have hkinds := h.kinds
    have hchildren := h.frames
    rw [hframes, List.forall_mem_cons] at hkinds hchildren
    have houter : ({ state with frames := outer } : Pairing).Keeps allowed :=
      ⟨h.base, hkinds.2, hchildren.2⟩
    refine houter.push (Node.all_mk.2 ⟨hkinds.1, fun node hnode => ?_⟩)
    exact hchildren.1 node (List.mem_reverse.1 hnode)

theorem Keeps.unwind (h : state.Keeps allowed) (stop count : Nat) :
    (unwind lines stop count state).Keeps allowed := by
  induction count generalizing state with
  | zero => exact h
  | succ count ih =>
      unfold Pairing.unwind
      split
      · exact h
      · exact ih ((h.closeInnermost stop).withNext _ _)

theorem Keeps.close (h : state.Keeps allowed) {markerKind : Kind} (hmarker : allowed markerKind)
    (awaits : Awaited → Bool) (marker : Fragment) (problem : Problem) :
    (state.close lines awaits markerKind marker problem).Keeps allowed := by
  unfold Pairing.close
  split
  · exact ((h.unwind _ _).pushLeaf hmarker _).closeInnermost _
  · exact (h.pushLeaf hmarker _).withNext _ _

theorem Keeps.pairTag (h : state.Keeps allowed) {rules : Markup.Rules} (htag : allowed .tag)
    (helements : ∀ name, allowed (rules.elementKind name)) (text : Fragment) :
    (state.pairTag lines rules text).Keeps allowed := by
  unfold Pairing.pairTag
  dsimp only
  split
  · exact h.close htag _ _ _
  · split
    · exact h.openFrame (helements _) htag _ _
    · exact (h.openFrame (helements _) htag _ _).closeInnermost _

theorem Keeps.pushAll (h : state.Keeps allowed) {nodes : List Node}
    (hnodes : ∀ node ∈ nodes, node.Keeps allowed) :
    (nodes.foldl Pairing.push state).Keeps allowed := by
  induction nodes generalizing state with
  | nil => exact h
  | cons node rest ih =>
      rw [List.forall_mem_cons] at hnodes
      exact ih (h.push hnodes.1) hnodes.2

theorem Keeps.pairDelimited (h : state.Keeps allowed) {inner : Range → Nat → Paired} {kind : Kind}
    (hkind : allowed kind) (hdelimiter : allowed .delimiter) (opening : Fragment)
    {interior : Fragment} (closing : Fragment)
    (hinner : ∀ next, ∀ node ∈ (inner interior.range next).children, node.Keeps allowed) :
    (state.pairDelimited lines inner kind opening interior closing).Keeps allowed := by
  have hopened : (state.openFrame lines kind (.marker kind) .delimiter opening).Keeps allowed :=
    h.openFrame hkind hdelimiter _ _
  have hfilled : ((state.openFrame lines kind (.marker kind) .delimiter opening).fill inner
      interior).Keeps allowed := by
    unfold Pairing.fill
    split
    · exact hopened
    · exact (hopened.withNext _ _).pushAll (hinner _)
  refine Keeps.closeInnermost ?_ _
  unfold Pairing.pushMarker
  split
  · exact hfilled
  · exact hfilled.pushLeaf hdelimiter _

theorem Keeps.step (h : state.Keeps allowed) (hgrammar : grammar.Keeps allowed)
    {inner : Option KindSet → Range → Nat → Paired}
    (hinner : ∀ restrict range next, ∀ node ∈ (inner restrict range next).children,
      node.Keeps allowed) {span : Span} (hspan : allowed span.kind) :
    (Pairing.step lines grammar inner state span).Keeps allowed := by
  cases span with
  | leaf kind text =>
      unfold Pairing.step
      dsimp only
      split
      · rename_i rules hrules
        exact h.pairTag hspan (hgrammar.elements rules hrules) text
      · exact h.pushLeaf hspan text
  | opener kind text => exact h.openFrame hspan hgrammar.delimiter _ _
  | closer kind text =>
      unfold Pairing.step
      exact h.close hgrammar.delimiter _ _ _
  | delimited kind opening interior closing =>
      exact h.pairDelimited hspan hgrammar.delimiter opening closing fun next => hinner _ _ _

theorem Keeps.steps (h : state.Keeps allowed) (lines : LineIndex) (hgrammar : grammar.Keeps allowed)
    {inner : Option KindSet → Range → Nat → Paired}
    (hinner : ∀ restrict range next, ∀ node ∈ (inner restrict range next).children,
      node.Keeps allowed) {spans : List Span} (hspans : ∀ span ∈ spans, allowed span.kind) :
    (spans.foldl (Pairing.step lines grammar inner) state).Keeps allowed := by
  induction spans generalizing state with
  | nil => exact h
  | cons span rest ih =>
      rw [List.forall_mem_cons] at hspans
      exact ih (h.step hgrammar hinner hspans.1) hspans.2

end Pairing

namespace Grammar

theorem keeps_pairRange (h : grammar.Keeps allowed) (fuel : Nat) (restrict : Option KindSet)
    (range : Range) (next : Nat) :
    ∀ node ∈ (grammar.pairRange lines fuel restrict range next).children, node.Keeps allowed := by
  induction fuel generalizing restrict range next with
  | zero =>
      intro node hnode
      obtain rfl := List.mem_singleton.1 hnode
      exact Pairing.keeps_leaf h.text
  | succ fuel ih =>
      have hempty : ({ next } : Pairing).Keeps allowed := ⟨by simp, by simp, by simp⟩
      have hscanned := hempty.steps lines h ih
        (Table.kind_scanFrom restrict h.text (fun spec hspec _ => h.specs spec hspec) range.start
          (.ofText (Text.takeBytes range.start lines.text)) (Text.slice lines.text range))
      intro node hnode
      exact (hscanned.unwind range.stop _).base node (List.mem_reverse.1 hnode)

/-- A paired text holds nodes of allowed kinds only. -/
theorem keeps_pair (h : grammar.Keeps allowed) (lines : LineIndex) :
    (grammar.pair lines).1.Keeps allowed :=
  Node.all_mk.2 ⟨h.root, keeps_pairRange h _ _ _ _⟩

end Grammar

end ConcreteSyntax
