import ConcreteSyntax.Proofs.Markup.Tags

/-!
# Outlines of markup

Pairing makes elements of the tags of a text.  An `Outline` says how sibling nodes stand within
the elements around them: which of them are elements and how these end, and what is reported.
Each step of pairing keeps to an outline (`Pairing.Outlined.step`), and so does the tree of every
text (`Markup.outline_build`).
-/

namespace ConcreteSyntax

/-- The warning that nothing closes the element of an opening tag. -/
def Node.unclosed (leaf : Node) (tag : Markup.Tag) : Diagnostic :=
  .warning (.unclosedElement tag.name) leaf.range

/-- The warning that a closing tag closes nothing. -/
def Node.stray (leaf : Node) (tag : Markup.Tag) : Diagnostic :=
  .warning (.strayTag tag.name) leaf.range

/-- Whether a leaf takes bytes and holds a tag. -/
structure Node.Holds (leaf : Node) (tag : Markup.Tag) : Prop where
  tag : leaf.leafTag? = some tag
  proper : leaf.range.start < leaf.range.stop

namespace Markup

/-- Whether a tag opens an element that waits for its closing tag. -/
def Rules.awaits (rules : Rules) (tag : Tag) : Bool :=
  tag.form = .opening && !rules.isVoid tag.name

/-- How siblings stand within open elements, whose names are given from the inside out.  Given
are as well the names of the elements that are still open behind the siblings, from the inside
out, and what is reported. -/
inductive Outline (rules : Rules) :
    List (List Char) → List Node → List (List Char) → List Diagnostic → Prop
  | nil {around : List (List Char)} : Outline rules around [] [] []
  /-- A leaf that holds no tag. -/
  | leaf {around tail : List (List Char)} {node : Node} {rest : List Node}
      {notes : List Diagnostic} :
      node.children = [] → node.kind ≠ .tag → node.range.start < node.range.stop →
        Outline rules around rest tail notes → Outline rules around (node :: rest) tail notes
  /-- A closing tag that closes none of the elements around it. -/
  | stray {around tail : List (List Char)} {leaf : Node} {tag : Tag} {rest : List Node}
      {notes : List Diagnostic} :
      leaf.Holds tag → tag.form = .closing →
        (∀ name ∈ around, rules.sameName name tag.name = false) →
          Outline rules around rest tail notes →
            Outline rules around (leaf :: rest) tail (leaf.stray tag :: notes)
  /-- An element of one tag. -/
  | alone {around tail : List (List Char)} {node leaf : Node} {tag : Tag} {rest : List Node}
      {notes : List Diagnostic} :
      node.kind = rules.elementKind tag.name → node.children = [leaf] → leaf.Holds tag →
        tag.form ≠ .closing → rules.awaits tag = false →
          Outline rules around rest tail notes → Outline rules around (node :: rest) tail notes
  /-- An element that is closed.  No element that is still open in it could be closed instead. -/
  | closed {around inside tail : List (List Char)} {node leaf last : Node} {tag closing : Tag}
      {below rest : List Node} {notes more : List Diagnostic} :
      node.kind = rules.elementKind tag.name → node.children = leaf :: (below ++ [last]) →
        leaf.Holds tag → rules.awaits tag = true → last.Holds closing → closing.form = .closing →
          rules.sameName tag.name closing.name = true →
            (∀ name ∈ inside, rules.sameName name closing.name = false) →
              Outline rules (tag.name :: around) below inside notes →
                Outline rules around rest tail more →
                  Outline rules around (node :: rest) tail (notes ++ more)
  /-- An element that is not closed before the one around it ends. -/
  | unclosed {around tail : List (List Char)} {node leaf : Node} {tag : Tag} {below : List Node}
      {notes : List Diagnostic} :
      node.kind = rules.elementKind tag.name → node.children = leaf :: below → leaf.Holds tag →
        rules.awaits tag = true → Outline rules (tag.name :: around) below tail notes →
          Outline rules around [node] (tail ++ [tag.name]) (notes ++ [leaf.unclosed tag])

variable {rules : Rules} {around tail : List (List Char)} {notes more : List Diagnostic}

/-- Behind siblings that leave nothing open stand others. -/
theorem Outline.append {nodes others : List Node} (h : Outline rules around nodes [] notes)
    (hothers : Outline rules around others tail more) :
    Outline rules around (nodes ++ others) tail (notes ++ more) := by
  generalize hopen : ([] : List (List Char)) = none at h
  induction h with
  | nil => exact hothers
  | leaf hchildren hkind hproper _ ih => exact .leaf hchildren hkind hproper (ih hothers hopen)
  | stray hleaf hform hnames _ ih => exact .stray hleaf hform hnames (ih hothers hopen)
  | alone hkind hchildren hleaf hform hawaits _ ih =>
      exact .alone hkind hchildren hleaf hform hawaits (ih hothers hopen)
  | closed hkind hchildren hleaf hawaits hlast hform hsame hnames hbelow _ _ ih =>
      rw [List.cons_append, List.append_assoc]
      exact .closed hkind hchildren hleaf hawaits hlast hform hsame hnames hbelow (ih hothers hopen)
  | unclosed => simp at hopen

/-! ## Open elements -/

/-- Open elements with what stands in them, the innermost first.  Only siblings in the innermost
one may leave elements open. -/
inductive Stack (rules : Rules) (base : List Node) :
    List Frame → List (List Char) → List (List Char) → List Diagnostic → Prop
  | ground {tail : List (List Char)} {notes : List Diagnostic} :
      Outline rules [] base.reverse tail notes → Stack rules base [] [] tail notes
  | element {around tail : List (List Char)} {frame : Frame} {outer : List Frame} {leaf : Node}
      {tag : Tag} {below : List Node} {notes more : List Diagnostic} :
      frame.kind = rules.elementKind tag.name → frame.awaited = .tag tag.name →
        frame.children.reverse = leaf :: below → leaf.Holds tag → rules.awaits tag = true →
          leaf.range = frame.opening.range → Stack rules base outer around [] notes →
            Outline rules (tag.name :: around) below tail more →
              Stack rules base (frame :: outer) (tag.name :: around) tail (notes ++ more)

theorem Stack.awaited {base : List Node} {frames : List Frame}
    (h : Stack rules base frames around tail notes) :
    frames.map (·.awaited) = around.map .tag := by
  induction h with
  | ground => rfl
  | element _ hawaited _ _ _ _ _ _ ih => rw [List.map_cons, List.map_cons, hawaited, ih]

theorem Stack.outline {base : List Node} {frames : List Frame}
    (h : Stack rules base frames [] tail notes) : Outline rules [] base.reverse tail notes := by
  cases h with
  | ground hbase => exact hbase

/-- A node is added to the innermost open element. -/
theorem Stack.push {state : Pairing} {sofar : List Diagnostic}
    (h : Stack rules state.base state.frames around [] sofar) {node : Node}
    (hnode : Outline rules around [node] tail more) :
    Stack rules (state.push node).base (state.push node).frames around tail (sofar ++ more) := by
  obtain ⟨base, frames, next, notes⟩ := state
  cases h with
  | ground hbase =>
      have hadded := hbase.append hnode
      rw [← List.reverse_cons] at hadded
      exact .ground hadded
  | element hkind hawaited hchildren hleaf hawaits hrange houter hbelow =>
      rw [List.append_assoc]
      refine .element hkind hawaited ?_ hleaf hawaits hrange houter (hbelow.append hnode)
      rw [List.reverse_cons, hchildren]
      rfl

end Markup

namespace Pairing

open Markup (Rules Outline Stack)

variable {rules : Rules} {around tail : List (List Char)} {state : Pairing} {lines : LineIndex}

/-- Whether what has been paired keeps to outlines, within open elements of the names `around`. -/
def Outlined (rules : Rules) (state : Pairing) (around tail : List (List Char)) : Prop :=
  Stack rules state.base state.frames around tail state.notes.reverse

/-- A node and what is reported of it are added to the innermost open element. -/
theorem outlined_push (state : Pairing) {sofar more : List Diagnostic}
    (h : Stack rules state.base state.frames around [] sofar) {node : Node}
    (hnode : Outline rules around [node] tail more) (next : Nat) {notes : List Diagnostic}
    (hnotes : notes.reverse = sofar ++ more) :
    Outlined rules (({ state with next, notes } : Pairing).push node) around tail := by
  rw [push_with]
  unfold Outlined
  rw [hnotes]
  exact h.push hnode

theorem holds_ofFragment (lines : LineIndex) (id : NodeId) {text : Fragment}
    (h : text.chars ≠ []) :
    Node.Holds ⟨.ofFragment lines id .tag text, []⟩ (.parse text.chars) where
  tag := rfl
  proper := Fragment.start_lt_stop h

namespace Outlined

/-- A leaf that holds no tag. -/
theorem pushLeaf (h : state.Outlined rules around []) {kind : Kind} (hkind : kind ≠ .tag)
    {text : Fragment} (htext : text.chars ≠ []) :
    (state.pushLeaf lines kind text).Outlined rules around [] := by
  have hleaf : Outline rules around [⟨.ofFragment lines (.fresh state.next) kind text, []⟩] [] [] :=
    .leaf rfl hkind (Fragment.start_lt_stop htext) .nil
  exact outlined_push state h hleaf (state.next + 1) (List.append_nil _).symm

theorem note_push (state : Pairing) (node : Node) (diagnostic : Diagnostic) :
    (state.push node).note diagnostic = (state.note diagnostic).push node := by
  unfold push note
  dsimp only
  cases state.frames <;> rfl

/-- A closing tag that closes nothing. -/
theorem stray (h : state.Outlined rules around []) {text : Fragment} (htext : text.chars ≠ [])
    {tag : Markup.Tag} (htag : .parse text.chars = tag) (hform : tag.form = .closing)
    (hnames : ∀ name ∈ around, rules.sameName name tag.name = false) :
    ((state.pushLeaf lines .tag text).note
      (.warning (.strayTag tag.name) text.range)).Outlined rules around [] := by
  have hholds := holds_ofFragment lines (.fresh state.next) htext
  rw [htag] at hholds
  rw [Pairing.pushLeaf, note_push]
  exact outlined_push state h (.stray hholds hform hnames .nil) (state.next + 1)
    (List.reverse_cons ..)

/-- An opening tag that waits for its closing tag. -/
theorem opened (h : state.Outlined rules around []) {text : Fragment} (htext : text.chars ≠ [])
    {tag : Markup.Tag} (htag : .parse text.chars = tag) (hawaits : rules.awaits tag = true) :
    (state.openFrame lines (rules.elementKind tag.name) (.tag tag.name) .tag text).Outlined rules
      (tag.name :: around) [] := by
  have hholds := holds_ofFragment lines (.fresh (state.next + 1)) htext
  rw [htag] at hholds
  let frame : Frame := ⟨.fresh state.next, rules.elementKind tag.name, .tag tag.name, text,
    [⟨.ofFragment lines (.fresh (state.next + 1)) .tag text, []⟩]⟩
  have hopened : Stack rules state.base (frame :: state.frames) (tag.name :: around) []
      (state.notes.reverse ++ []) := .element rfl rfl rfl hholds hawaits rfl h .nil
  rw [List.append_nil] at hopened
  exact hopened

/-- A tag that is an element of its own. -/
theorem alone (h : state.Outlined rules around []) {text : Fragment} (htext : text.chars ≠ [])
    {tag : Markup.Tag} (htag : .parse text.chars = tag) (hform : tag.form ≠ .closing)
    (hawaits : rules.awaits tag = false) :
    ((state.openFrame lines (rules.elementKind tag.name) (.tag tag.name) .tag text).closeInnermost
      lines text.stop).Outlined rules around [] := by
  have hholds := holds_ofFragment lines (.fresh (state.next + 1)) htext
  rw [htag] at hholds
  have hnode : Outline rules around [⟨.ofRange lines (.fresh state.next)
      (rules.elementKind tag.name) (.upTo text.start text.stop),
        [⟨.ofFragment lines (.fresh (state.next + 1)) .tag text, []⟩]⟩] [] [] :=
    .alone rfl rfl hholds hform hawaits .nil
  exact outlined_push state h hnode (state.next + 2) (List.append_nil _).symm

/-- The innermost open element ends where the one around it does. -/
theorem unclosed (lines : LineIndex) {name : List Char}
    (h : state.Outlined rules (name :: around) tail) (stop : Nat) :
    ∃ frame outer, state.frames = frame :: outer
      ∧ ((state.closeInnermost lines stop).note frame.unclosed).Outlined rules around
          (tail ++ [name]) := by
  obtain ⟨base, frames, next, notes⟩ := state
  unfold Outlined at h
  generalize hnotes : notes.reverse = reported at h
  cases h with
  | @element _ _ frame outer leaf tag below sofar more hkind hawaited hchildren hleaf hawaits hrange
      houter hbelow =>
      have hnode : Outline rules around [frame.close lines stop] (tail ++ [tag.name])
          (more ++ [leaf.unclosed tag]) := .unclosed hkind hchildren hleaf hawaits hbelow
      have hunclosed : frame.unclosed = leaf.unclosed tag := by
        simp only [Frame.unclosed, hawaited, Node.unclosed, hrange]
      refine ⟨frame, outer, rfl, ?_⟩
      rw [closeInnermost]
      dsimp only
      rw [note_push]
      refine outlined_push ⟨base, outer, next, notes⟩ houter hnode next ?_
      rw [List.reverse_cons, hnotes, hunclosed, List.append_assoc]

/-- A closing tag closes the innermost open element. -/
theorem closed {name : List Char} {inside : List (List Char)}
    (h : state.Outlined rules (name :: around) inside) {text : Fragment} (htext : text.chars ≠ [])
    {tag : Markup.Tag} (htag : .parse text.chars = tag) (hform : tag.form = .closing)
    (hsame : rules.sameName name tag.name = true)
    (hnames : ∀ name ∈ inside, rules.sameName name tag.name = false) :
    ((state.pushLeaf lines .tag text).closeInnermost lines text.stop).Outlined rules around [] := by
  obtain ⟨base, frames, next, notes⟩ := state
  have hlast := holds_ofFragment lines (.fresh next) htext
  rw [htag] at hlast
  unfold Outlined at h
  generalize hnotes : notes.reverse = reported at h
  cases h with
  | @element _ _ frame outer leaf tag below sofar more hkind hawaited hchildren hleaf hawaits hrange
      houter hbelow =>
      have hall : (⟨.ofFragment lines (.fresh next) .tag text, []⟩ :: frame.children).reverse =
          leaf :: (below ++ [⟨.ofFragment lines (.fresh next) .tag text, []⟩]) := by
        rw [List.reverse_cons, hchildren, List.cons_append]
      have hnode : Outline rules around [⟨.ofRange lines frame.id frame.kind
          (.upTo frame.opening.start text.stop),
            (⟨.ofFragment lines (.fresh next) .tag text, []⟩ :: frame.children).reverse⟩] []
          (more ++ []) :=
        .closed hkind hall hleaf hawaits hlast hform hsame hnames hbelow .nil
      rw [List.append_nil] at hnode
      exact outlined_push ⟨base, outer, next, notes⟩ houter hnode (next + 1) hnotes

/-- Open elements end where the one around them does. -/
theorem unwind (lines : LineIndex) (h : state.Outlined rules around tail) (stop : Nat)
    {count : Nat} (hcount : count ≤ around.length) :
    (unwind lines stop count state).Outlined rules (around.drop count)
      (tail ++ around.take count) := by
  induction count generalizing state around tail with
  | zero => simpa [Pairing.unwind] using h
  | succ count ih =>
      obtain ⟨name, around, rfl⟩ :=
        List.exists_cons_of_length_pos (Nat.lt_of_lt_of_le (Nat.succ_pos _) hcount)
      obtain ⟨frame, outer, hframes, hclosed⟩ := h.unclosed lines stop
      rw [Pairing.unwind, hframes]
      have hrest := ih hclosed (Nat.le_of_succ_le_succ hcount)
      rw [List.append_assoc] at hrest
      exact hrest

/-- What a closing tag accepts. -/
theorem findIdx?_eq (h : state.Outlined rules around tail) (tag : Markup.Tag) :
    state.frames.findIdx? (fun frame =>
        match frame.awaited with
        | .tag name => rules.sameName name tag.name
        | .marker _ => false) =
      around.findIdx? (rules.sameName · tag.name) := by
  have hmap := congrArg (List.findIdx? fun awaited =>
    match awaited with
    | .tag name => rules.sameName name tag.name
    | .marker _ => false) h.awaited
  rw [List.findIdx?_map, List.findIdx?_map] at hmap
  exact hmap

/-- A closing tag. -/
theorem close (h : state.Outlined rules around []) {text : Fragment} (htext : text.chars ≠ [])
    {tag : Markup.Tag} (htag : .parse text.chars = tag) (hform : tag.form = .closing) :
    ∃ outer, (state.close lines
      (fun awaited =>
        match awaited with
        | .tag name => rules.sameName name tag.name
        | .marker _ => false)
      .tag text (.strayTag tag.name)).Outlined rules outer [] := by
  unfold Pairing.close
  rw [h.findIdx?_eq]
  cases hfound : around.findIdx? (rules.sameName · tag.name) with
  | none =>
      rw [List.findIdx?_eq_none_iff] at hfound
      exact ⟨around, h.stray htext htag hform hfound⟩
  | some inner =>
      obtain ⟨hlt, hsame, hbefore⟩ := List.findIdx?_eq_some_iff_getElem.1 hfound
      have hunwound := h.unwind lines text.start (Nat.le_of_lt hlt)
      rw [List.drop_eq_getElem_cons hlt, List.nil_append] at hunwound
      refine ⟨_, hunwound.closed htext htag hform hsame fun name hname => ?_⟩
      obtain ⟨j, hj, rfl⟩ := List.mem_take_iff_getElem.1 hname
      exact Bool.eq_false_iff.2 (hbefore j (by omega))

theorem pairTag (h : state.Outlined rules around []) {text : Fragment} (htext : text.chars ≠ []) :
    ∃ outer, (state.pairTag lines rules text).Outlined rules outer [] := by
  generalize htag : Markup.Tag.parse text.chars = tag
  unfold Pairing.pairTag
  simp only [htag]
  split
  · rename_i hform
    exact h.close htext htag hform
  · rename_i hform
    split
    · rename_i hopen
      exact ⟨_, h.opened htext htag (by simpa [Rules.awaits] using hopen)⟩
    · rename_i hopen
      exact ⟨around, h.alone htext htag hform (by simpa [Rules.awaits] using hopen)⟩

/-- Pairing keeps to outlines in each step. -/
theorem step (lines : LineIndex) (h : state.Outlined rules around [])
    (inner : Option KindSet → Range → Nat → Paired) (kind : Kind) {text : Fragment}
    (htext : text.chars ≠ []) :
    ∃ outer, (Pairing.step lines (Markup.grammar rules) inner state
      (.leaf kind text)).Outlined rules outer [] := by
  by_cases hkind : kind = .tag
  · subst hkind
    exact h.pairTag htext
  · have hleaf : Pairing.step lines (Markup.grammar rules) inner state (.leaf kind text) =
        state.pushLeaf lines kind text := by
      unfold Pairing.step
      cases kind <;> first | rfl | exact absurd rfl hkind
    rw [hleaf]
    exact ⟨around, h.pushLeaf hkind htext⟩

theorem steps (lines : LineIndex) (h : state.Outlined rules around [])
    (inner : Option KindSet → Range → Nat → Paired) {spans : List Span}
    (hspans : ∀ span ∈ spans, ∃ kind text, span = .leaf kind text ∧ text.chars ≠ []) :
    ∃ outer, (spans.foldl (Pairing.step lines (Markup.grammar rules) inner) state).Outlined rules
      outer [] := by
  induction spans generalizing state around with
  | nil => exact ⟨around, h⟩
  | cons span rest ih =>
      rw [List.forall_mem_cons] at hspans
      obtain ⟨⟨kind, text, rfl, htext⟩, hrest⟩ := hspans
      obtain ⟨outer, hstep⟩ := h.step lines inner kind htext
      exact ih hstep hrest

/-- When everything has ended, all nodes stand outside of open elements. -/
theorem ended (lines : LineIndex) (h : state.Outlined rules around []) (stop : Nat) :
    Outline rules []
      (Pairing.unwind lines stop state.frames.length state).base.reverse around
      (Pairing.unwind lines stop state.frames.length state).notes.reverse := by
  have hcount := congrArg List.length h.awaited
  rw [List.length_map, List.length_map] at hcount
  have hunwound := h.unwind lines stop (Nat.le_of_eq hcount)
  rw [List.drop_of_length_le (Nat.le_of_eq hcount.symm),
    List.take_of_length_le (Nat.le_of_eq hcount.symm)] at hunwound
  exact hunwound.outline

end Outlined

end Pairing

/-- The tree of a text, and what is reported of it, keep to an outline. -/
theorem Markup.outline_build (rules : Rules) (text : List Char) :
    ∃ tail, Outline rules [] (Parse.build (grammar rules) text).root.children tail
      (Parse.build (grammar rules) text).notes := by
  have hempty : Pairing.Outlined rules { next := 1 } [] [] := .ground .nil
  obtain ⟨outer, hscanned⟩ := hempty.steps (.ofText text)
    ((grammar rules).pairRange (.ofText text) (Text.byteLength text)) (exists_leaf_of_mem_scan text)
  exact ⟨outer, hscanned.ended (.ofText text) (Range.ofLength 0 (Text.byteLength text)).stop⟩

end ConcreteSyntax
