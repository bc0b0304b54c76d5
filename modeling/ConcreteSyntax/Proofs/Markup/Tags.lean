import ConcreteSyntax.Parse
import ConcreteSyntax.Proofs.Pairing

/-!
# Tags of markup

The scanner makes leaves of markup (`Markup.exists_leaf_of_mem_scanFrom`), and pairing keeps all
tags, in their order (`Pairing.Tagged.step`), so the tags of a tree are those of its text
(`Markup.tags_build`).
-/

namespace ConcreteSyntax

/-- The tag that a span holds. -/
def Span.tag? : Span → Option Markup.Tag
  | .leaf .tag text => some (.parse text.chars)
  | _ => none

namespace Node

/-- The tag that a leaf holds. -/
def leafTag? (node : Node) : Option Markup.Tag :=
  if node.kind = .tag ∧ node.children.isEmpty then node.text?.map Markup.Tag.parse else none

/-- The tags of a tree in the order of the text. -/
def tags (node : Node) : List Markup.Tag := node.descendants.filterMap leafTag?

variable {node : Node}

theorem leafTag?_of_kind (h : node.kind ≠ .tag) : node.leafTag? = none := by
  simp [leafTag?, h]

theorem leafTag?_of_children (h : node.children ≠ []) : node.leafTag? = none := by
  simp [leafTag?, h]

theorem children_of_leafTag? {tag : Markup.Tag} (h : node.leafTag? = some tag) :
    node.children = [] := by
  by_contra hchildren
  rw [leafTag?_of_children hchildren] at h
  cases h

theorem tags_eq (node : Node) : node.tags = node.leafTag?.toList ++ node.children.flatMap tags := by
  obtain ⟨label, children⟩ := node
  rw [tags, descendants_mk, List.filterMap_cons, List.filterMap_flatMap]
  cases leafTag? ⟨label, children⟩ <;> rfl

theorem tags_of_leafTag? {tag : Markup.Tag} (h : node.leafTag? = some tag) : node.tags = [tag] := by
  rw [tags_eq, h, children_of_leafTag? h]
  rfl

theorem tags_of_kind (h : node.kind ≠ .tag) : node.tags = node.children.flatMap tags := by
  rw [tags_eq, leafTag?_of_kind h]
  rfl

theorem tags_of_children (h : node.children ≠ []) : node.tags = node.children.flatMap tags := by
  rw [tags_eq, leafTag?_of_children h]
  rfl

theorem tags_ofFragment (lines : LineIndex) (id : NodeId) (kind : Kind) (text : Fragment) :
    tags ⟨.ofFragment lines id kind text, []⟩ = (Span.leaf kind text).tag?.toList := by
  rw [tags_eq]
  cases kind <;> rfl

end Node

namespace Pairing

/-- The tags of all nodes so far, in the order of the text. -/
def tags (state : Pairing) : List Markup.Tag :=
  state.base.reverse.flatMap Node.tags
    ++ state.frames.reverse.flatMap fun frame => frame.children.reverse.flatMap Node.tags

/-- Whether the tags of all nodes so far are the given ones, and open containers have nodes. -/
structure Tagged (state : Pairing) (tags : List Markup.Tag) : Prop where
  tags_eq : state.tags = tags
  begun : ∀ frame ∈ state.frames, frame.children ≠ []

variable {state : Pairing} {tags : List Markup.Tag} {lines : LineIndex}

namespace Tagged

theorem push (h : state.Tagged tags) (node : Node) :
    (state.push node).Tagged (tags ++ node.tags) := by
  obtain ⟨base, frames, next, notes⟩ := state
  obtain ⟨rfl, hbegun⟩ := h
  cases frames with
  | nil => exact ⟨by simp [Pairing.push, Pairing.tags], by simp [Pairing.push]⟩
  | cons frame outer =>
      rw [List.forall_mem_cons] at hbegun
      exact ⟨by simp [Pairing.push, Pairing.tags],
        List.forall_mem_cons.2 ⟨List.cons_ne_nil _ _, hbegun.2⟩⟩

theorem note (h : state.Tagged tags) (diagnostic : Diagnostic) :
    (state.note diagnostic).Tagged tags := ⟨h.tags_eq, h.begun⟩

theorem pushLeaf (h : state.Tagged tags) (kind : Kind) (text : Fragment) :
    (state.pushLeaf lines kind text).Tagged (tags ++ (Span.leaf kind text).tag?.toList) := by
  have hnext : ({ state with next := state.next + 1 } : Pairing).Tagged tags :=
    ⟨h.tags_eq, h.begun⟩
  rw [← Node.tags_ofFragment lines (.fresh state.next)]
  exact hnext.push _

theorem openFrame (h : state.Tagged tags) (kind markerKind : Kind) (awaited : Awaited)
    (opening : Fragment) :
    (state.openFrame lines kind awaited markerKind opening).Tagged
      (tags ++ (Span.leaf markerKind opening).tag?.toList) := by
  obtain ⟨rfl, hbegun⟩ := h
  rw [← Node.tags_ofFragment lines (.fresh (state.next + 1))]
  exact ⟨by simp [Pairing.openFrame, Pairing.pushLeaf, Pairing.push, Pairing.tags],
    List.forall_mem_cons.2 ⟨List.cons_ne_nil _ _, hbegun⟩⟩

theorem closeInnermost (h : state.Tagged tags) (stop : Nat) :
    (state.closeInnermost lines stop).Tagged tags := by
  obtain ⟨base, frames, next, notes⟩ := state
  cases frames with
  | nil => exact h
  | cons frame outer =>
      obtain ⟨rfl, hbegun⟩ := h
      rw [List.forall_mem_cons] at hbegun
      have hnode : (frame.close lines stop).tags = frame.children.reverse.flatMap Node.tags :=
        Node.tags_of_children (mt List.reverse_eq_nil_iff.1 hbegun.1)
      have hclosed : Tagged ⟨base, outer, next, notes⟩ (Pairing.tags ⟨base, outer, next, notes⟩) :=
        ⟨rfl, hbegun.2⟩
      have htags : Pairing.tags ⟨base, frame :: outer, next, notes⟩ =
          Pairing.tags ⟨base, outer, next, notes⟩ ++ (frame.close lines stop).tags := by
        simp [Pairing.tags, hnode]
      rw [htags]
      exact hclosed.push _

theorem unwind (lines : LineIndex) (h : state.Tagged tags) (stop count : Nat) :
    (unwind lines stop count state).Tagged tags := by
  induction count generalizing state with
  | zero => exact h
  | succ count ih =>
      rw [Pairing.unwind]
      split
      · exact h
      · exact ih ((h.closeInnermost stop).note _)

theorem close (h : state.Tagged tags) (awaits : Awaited → Bool) (markerKind : Kind)
    (marker : Fragment) (problem : Problem) :
    (state.close lines awaits markerKind marker problem).Tagged
      (tags ++ (Span.leaf markerKind marker).tag?.toList) := by
  unfold Pairing.close
  split
  · exact ((h.unwind lines _ _).pushLeaf markerKind marker).closeInnermost _
  · exact (h.pushLeaf markerKind marker).note _

theorem pairTag (h : state.Tagged tags) (rules : Markup.Rules) (text : Fragment) :
    (state.pairTag lines rules text).Tagged (tags ++ [.parse text.chars]) := by
  unfold Pairing.pairTag
  dsimp only
  split
  · exact h.close _ .tag text _
  · split
    · exact h.openFrame _ .tag _ text
    · exact (h.openFrame _ .tag _ text).closeInnermost _

/-- Pairing keeps the tags of leaves in each step. -/
theorem step (lines : LineIndex) (h : state.Tagged tags) (rules : Markup.Rules)
    (inner : Option KindSet → Range → Nat → Paired) (kind : Kind) (text : Fragment) :
    (Pairing.step lines (Markup.grammar rules) inner state (.leaf kind text)).Tagged
      (tags ++ (Span.leaf kind text).tag?.toList) := by
  cases kind
  case tag => exact h.pairTag rules text
  all_goals exact h.pushLeaf _ text

theorem steps (lines : LineIndex) (h : state.Tagged tags) (rules : Markup.Rules)
    (inner : Option KindSet → Range → Nat → Paired) {spans : List Span}
    (hspans : ∀ span ∈ spans, ∃ kind text, span = .leaf kind text ∧ text.chars ≠ []) :
    (spans.foldl (Pairing.step lines (Markup.grammar rules) inner) state).Tagged
      (tags ++ spans.filterMap Span.tag?) := by
  induction spans generalizing state tags with
  | nil => simpa using h
  | cons span rest ih =>
      rw [List.forall_mem_cons] at hspans
      obtain ⟨⟨kind, text, rfl, -⟩, hrest⟩ := hspans
      have hall := ih (h.step lines rules inner kind text) hrest
      rw [List.append_assoc] at hall
      rw [List.foldl_cons]
      cases htag : (Span.leaf kind text).tag? <;> simpa [htag] using hall

/-- All tags are in the tree when everything has ended. -/
theorem ended (lines : LineIndex) (h : state.Tagged tags) (stop : Nat) :
    (Pairing.unwind lines stop state.frames.length state).base.reverse.flatMap Node.tags =
      tags := by
  have hunwound := (h.unwind lines stop state.frames.length).tags_eq
  rw [Pairing.tags, frames_unwind_all] at hunwound
  simpa using hunwound

end Tagged

end Pairing

namespace Markup

/-- No kind of the markup languages has markers that pair. -/
theorem exists_leaf_of_recognise? {restrict : Option KindSet} {place : Context} {found : Found}
    (h : table.recognise? restrict place = some found) : ∃ kind n, found = .leaf kind n := by
  have hshapes :
      specs.all (fun spec => spec.shape = .leaf ∨ spec.shape = .delimitedLeaf) = true := by
    decide +kernel
  obtain ⟨before, spec, after, hcandidates, -, hrecognised, -⟩ := Table.exists_of_recognise? h
  have hspec : spec ∈ specs :=
    Table.mem_of_mem_candidates (show spec ∈ table.candidates by simp [hcandidates])
  have hshape := of_decide_eq_true (List.all_eq_true.1 hshapes spec hspec)
  unfold Spec.recognise? at hrecognised
  rcases hshape with hshape | hshape
  · rw [hshape] at hrecognised
    split at hrecognised
    · cases hrecognised
    · exact ⟨_, _, (Option.some.inj hrecognised).symm⟩
    · cases hrecognised
  · rw [hshape] at hrecognised
    split at hrecognised
    · cases hrecognised
    · exact ⟨_, _, (Option.some.inj hrecognised).symm⟩
    · cases hrecognised

/-- Markup is scanned into leaves. -/
theorem exists_leaf_of_mem_scanFrom (restrict : Option KindSet) (offset : Nat) (place : Context) :
    ∀ span ∈ table.scanFrom restrict offset place.toLeftContext place.rest,
      ∃ kind text, span = .leaf kind text ∧ text.chars ≠ [] := by
  generalize h : table.scanFrom restrict offset place.toLeftContext place.rest = spans
  induction spans generalizing offset place with
  | nil => simp
  | cons span after ih =>
      obtain ⟨n, htake, -, hafter, ⟨found, hfound, rfl, rfl⟩ | ⟨-, -, rfl⟩⟩ :=
        Table.scanFrom_cases h
      · obtain ⟨kind, n, rfl⟩ := exists_leaf_of_recognise? hfound
        exact List.forall_mem_cons.2 ⟨⟨kind, _, rfl, htake⟩, ih _ _ hafter⟩
      · exact List.forall_mem_cons.2 ⟨⟨.text, _, rfl, htake⟩, ih _ _ hafter⟩

theorem exists_leaf_of_mem_scan (text : List Char) :
    ∀ span ∈ table.scan text, ∃ kind text, span = .leaf kind text ∧ text.chars ≠ [] := by
  let whole := Range.ofLength 0 (Text.byteLength text)
  exact exists_leaf_of_mem_scanFrom none whole.start
    ⟨.ofText (Text.takeBytes whole.start text), Text.slice text whole⟩

/-- The tags of a tree are those of its text. -/
theorem tags_build (rules : Rules) (text : List Char) :
    (Parse.build (grammar rules) text).root.tags = (table.scan text).filterMap Span.tag? := by
  have hempty : Pairing.Tagged { next := 1 } [] := ⟨rfl, by simp⟩
  have hscanned := hempty.steps (.ofText text) rules
    ((grammar rules).pairRange (.ofText text) (Text.byteLength text)) (exists_leaf_of_mem_scan text)
  have hkind : (Parse.build (grammar rules) text).root.kind = .root := rfl
  rw [Node.tags_of_kind (by simp [hkind])]
  exact hscanned.ended (.ofText text) (Range.ofLength 0 (Text.byteLength text)).stop

end Markup

end ConcreteSyntax
