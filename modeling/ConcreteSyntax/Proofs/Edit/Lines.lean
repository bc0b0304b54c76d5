import ConcreteSyntax.Proofs.Check
import ConcreteSyntax.Proofs.Edit.History
import ConcreteSyntax.Tree.Edit.Construction

/-!
# Lines of nodes

Every node lies on the lines of its range.  What builds a tree asks for lines that are known
(`Edit.keepsLines_linesOf`), an edit gives a new node the lines of a node that is there, and no
step changes the range of a node without its lines, so this holds of all trees that can be made
over a text (`Tree.Made`), also where a step stops before its end.  The lines are those that a
reader counts: a line ends behind each `\n`, and behind each `\r` that no `\n` follows
(`Tree.Made.lines_count_endings`).
-/

namespace ConcreteSyntax

variable {α β : Type} {text : List Char} {lines : LineIndex} {tree : Tree} {id : NodeId}

/-! ## Trees on their lines -/

/-- Whether a node lies between characters of a text, on the lines that are there. -/
structure Record.IsLined (lines : LineIndex) (record : Record) : Prop where
  start : Text.isBoundary lines.text record.range.start = true
  stop : Text.isBoundary lines.text record.range.stop = true
  lines_eq : record.lines = lines.span record.range

theorem Record.isLined_empty (kind : Kind) (text : Option (List Char)) :
    Record.IsLined lines
      { kind, range := .empty 0, lines := lines.span (.empty 0), text } where
  start := Text.isBoundary_zero _
  stop := Text.isBoundary_zero _
  lines_eq := rfl

/-- What a name leads to after a value was put in is that value, or was there. -/
theorem Arena.eq_or_of_get?_alloc {arena : Arena α} {value found : α}
    (h : (arena.alloc value).2.get? id = some found) :
    found = value ∨ arena.get? id = some found := by
  rw [Arena.get?_eq_some_iff] at h ⊢
  unfold Arena.alloc at h
  cases hfree : arena.free with
  | nil =>
      simp only [hfree, Array.getElem?_push] at h
      split at h
      · exact .inl (Option.some.inj (Slot.mk.inj (Option.some.inj h)).2).symm
      · exact .inr h
  | cons index rest =>
      simp only [hfree, Array.getElem?_setIfInBounds] at h
      split at h
      · split at h
        · exact .inl (Option.some.inj (Slot.mk.inj (Option.some.inj h)).2).symm
        · cases h
      · exact .inr h

namespace Tree

/-- Whether all nodes of a tree over a text lie on their lines. -/
structure IsLined (lines : LineIndex) (tree : Tree) : Prop where
  index : tree.index = lines
  lined : ∀ id record, tree.record? id = some record → record.IsLined lines

namespace IsLined

theorem grow (h : tree.IsLined lines) {record : Record} (hrecord : record.IsLined lines) :
    (tree.grow record).IsLined lines where
  index := h.index
  lined id found hfound := by
    rcases Arena.eq_or_of_get?_alloc hfound with rfl | hold
    · exact hrecord
    · exact h.lined id found hold

theorem modify (h : tree.IsLined lines) (id : NodeId) {change : Record → Record}
    (hchange : ∀ record : Record, record.IsLined lines → (change record).IsLined lines) :
    (tree.modify id change).IsLined lines where
  index := h.index
  lined other found hfound := by
    rw [record?_modify] at hfound
    split at hfound
    · obtain ⟨record, hrecord, rfl⟩ := Option.map_eq_some_iff.1 hfound
      exact hchange record (h.lined other record hrecord)
    · exact h.lined other found hfound

theorem free (h : tree.IsLined lines) (id : NodeId) : (tree.free id).IsLined lines where
  index := h.index
  lined other found hfound := by
    have hget := Arena.get?_foldl_remove tree.nodes (tree.freeOrderWithin (tree.size + 1) id) other
    rw [show (tree.free id).record? other = _ from hget] at hfound
    split at hfound
    · cases hfound
    · exact h.lined other found hfound

theorem new (text : List Char) : (Tree.new text).IsLined (.ofText text) where
  index := rfl
  lined id found hfound := by
    have halloc : (Arena.empty.alloc _).2.get? id = some found := hfound
    rcases Arena.eq_or_of_get?_alloc halloc with rfl | hold
    · refine ⟨Text.isBoundary_zero _, ?_, rfl⟩
      change Text.isBoundary text (0 + Text.byteLength text) = true
      rw [Nat.zero_add]
      exact Text.isBoundary_byteLength text
    · simp [Arena.get?, Arena.empty] at hold

theorem ofParse (language : Language) (analysis : Bool) (text : List Char) :
    (Tree.ofParse (language.parse analysis text)).IsLined (.ofText (language.prepare text)) := by
  rw [Language.parse_eq_stage]
  have hlaid := language.wellLaid_stage
    (if analysis then language.grammar.passes.length else 0) text
  refine ⟨rfl, fun id record hrecord => ?_⟩
  obtain ⟨node, hnode, rfl, parent, _, rfl⟩ :=
    hlaid.represents.exists_node hlaid.numbered hrecord
  have hfits := hlaid.fits node hnode
  exact ⟨hfits.start, hfits.stop, hfits.lines_eq⟩

end IsLined

end Tree

/-! ## Edits that keep lines -/

namespace Edit

/-- Whether an edit keeps all nodes on their lines, also where it stops, and gives values with a
property. -/
def KeepsLines (lines : LineIndex) (edit : Edit α) (gives : α → Prop) : Prop :=
  ∀ tree, tree.IsLined lines →
    match edit.run tree with
    | .ok value after => after.IsLined lines ∧ gives value
    | .error _ after => after.IsLined lines

variable {gives : α → Prop} {edit : Edit α}

namespace KeepsLines

theorem pure {value : α} (h : gives value) : (Pure.pure value : Edit α).KeepsLines lines gives :=
  fun _ hlined => ⟨hlined, h⟩

theorem bind {gives' : β → Prop} {next : α → Edit β} (h : edit.KeepsLines lines gives)
    (hnext : ∀ value, gives value → (next value).KeepsLines lines gives') :
    (edit >>= next).KeepsLines lines gives' := by
  intro tree hlined
  have hedit := h tree hlined
  rw [run_bind]
  cases hrun : edit.run tree with
  | ok value after =>
      rw [hrun] at hedit
      exact hnext value hedit.2 after hedit.1
  | error halt after =>
      rw [hrun] at hedit
      exact hedit

theorem map {gives' : β → Prop} {give : α → β} (h : edit.KeepsLines lines gives)
    (hgive : ∀ value, gives value → gives' (give value)) :
    (give <$> edit).KeepsLines lines gives' := by
  rw [map_eq_pure_bind]
  exact .bind h fun value hvalue => .pure (hgive value hvalue)

theorem ite {c : Prop} [Decidable c] {edit' : Edit α} (h : edit.KeepsLines lines gives)
    (h' : edit'.KeepsLines lines gives) : (if c then edit else edit').KeepsLines lines gives := by
  split
  · exact h
  · exact h'

/-- What stops an edit leaves the tree as it is. -/
theorem refuse (error : EditError) : (refuse error : Edit α).KeepsLines lines gives :=
  fun _ hlined => hlined

theorem fail (fault : Fault) : (fail fault : Edit α).KeepsLines lines gives :=
  fun _ hlined => hlined

/-- A step in front of others that is made on a condition, such as the refusal of a check. -/
theorem cond {c : Prop} [Decidable c] {first : Edit Unit} {next : Unit → Edit α}
    (hfirst : first.KeepsLines lines fun _ => True) (h : (next ()).KeepsLines lines gives) :
    (if c then first >>= next else next ()).KeepsLines lines gives :=
  .ite (.bind hfirst fun _ _ => h) h

theorem get : (MonadState.get : Edit Tree).KeepsLines lines (·.IsLined lines) :=
  fun _ hlined => ⟨hlined, hlined⟩

theorem forM {items : List β} {step : β → Edit PUnit}
    (h : ∀ item ∈ items, (step item).KeepsLines lines fun _ => True) :
    (items.forM step).KeepsLines lines fun _ => True := by
  induction items with
  | nil => exact .pure trivial
  | cons item rest ih =>
      rw [List.forall_mem_cons] at h
      exact .bind h.1 fun _ _ => ih h.2

end KeepsLines

/-! ### Reading, changing and freeing nodes -/

theorem keepsLines_record (id : NodeId) : (record id).KeepsLines lines (·.IsLined lines) := by
  intro tree hlined
  rw [run_record]
  cases hrecord : tree.record? id with
  | none => exact hlined
  | some found => exact ⟨hlined, hlined.lined id found hrecord⟩

theorem keepsLines_live (id : NodeId) : (live id).KeepsLines lines (·.IsLined lines) := by
  intro tree hlined
  rw [run_live]
  cases hrecord : tree.record? id with
  | none => exact hlined
  | some found => exact ⟨hlined, hlined.lined id found hrecord⟩

theorem keepsLines_update (id : NodeId) {change : Record → Record}
    (hchange : ∀ record : Record, record.IsLined lines → (change record).IsLined lines) :
    (update id change).KeepsLines lines fun _ => True :=
  .bind (keepsLines_record id) fun _ _ _ hlined => ⟨hlined.modify id hchange, trivial⟩

/-- A change of links, of a revision or of a text. -/
theorem keepsLines_relink (id : NodeId) {change : Record → Record}
    (hchange : ∀ record, (change record).range = record.range
      ∧ (change record).lines = record.lines) :
    (update id change).KeepsLines lines fun _ => True :=
  keepsLines_update id fun record hrecord => by
    obtain ⟨hrange, hlines⟩ := hchange record
    exact ⟨hrange ▸ hrecord.start, hrange ▸ hrecord.stop, by rw [hlines, hrange, hrecord.lines_eq]⟩

theorem keepsLines_alloc {record : Record} (hrecord : record.IsLined lines) :
    (alloc record).KeepsLines lines fun _ => True :=
  fun _ hlined => ⟨hlined.grow hrecord, trivial⟩

theorem keepsLines_free (id : NodeId) : (free id).KeepsLines lines fun _ => True :=
  fun _ hlined => ⟨hlined.free id, trivial⟩

theorem keepsLines_lineageWithin (fuel : Nat) (start : Option NodeId) :
    (lineageWithin fuel start).KeepsLines lines fun _ => True := by
  induction fuel generalizing start with
  | zero =>
      cases start with
      | none => exact .pure trivial
      | some id => exact .fail _
  | succ fuel ih =>
      cases start with
      | none => exact .pure trivial
      | some id =>
          exact .bind (keepsLines_record id) fun node _ =>
            .bind (ih node.parent) fun _ _ => .pure trivial

theorem keepsLines_lineage (id : NodeId) : (lineage id).KeepsLines lines fun _ => True :=
  .bind .get fun _ _ => keepsLines_lineageWithin _ _

theorem keepsLines_touch (id : NodeId) : (touch id).KeepsLines lines fun _ => True :=
  .bind (keepsLines_lineage id) fun _ _ =>
    .forM fun above _ => keepsLines_relink above fun _ => ⟨rfl, rfl⟩

theorem keepsLines_position (id : NodeId) : (position id).KeepsLines lines fun _ => True := by
  unfold position
  refine .bind .get fun _ _ => .cond (.refuse _) ?_
  refine .bind (keepsLines_live id) fun node _ => ?_
  cases node.parent with
  | none => exact .refuse _
  | some parent =>
      refine .bind (keepsLines_record parent) fun above _ => ?_
      cases above.children.idxOf? id with
      | none => exact .refuse _
      | some index => exact .pure trivial

/-! ### Construction -/

/-- What is asked for the lines of a range answers with those that are there. -/
theorem keepsLines_linesOf (range : Range) :
    (linesOf range).KeepsLines lines fun given =>
      Record.IsLined lines { kind := .root, range, lines := given } := by
  refine .bind .get fun tree hlined => ?_
  rw [hlined.index, LineIndex.span?]
  split
  · next hspan =>
      obtain ⟨hif, hgiven⟩ := Option.ite_none_right_eq_some.1 hspan
      obtain ⟨hstart, hstop⟩ := Bool.and_eq_true_iff.1 hif
      exact .pure ⟨hstart, hstop, (Option.some.inj hgiven).symm⟩
  · exact .fail _

theorem keepsLines_allocOver (kind : Kind) (range : Range) :
    (allocOver kind range).KeepsLines lines fun _ => True :=
  .bind (keepsLines_linesOf range) fun _ hgiven =>
    keepsLines_alloc ⟨hgiven.start, hgiven.stop, hgiven.lines_eq⟩

theorem keepsLines_attach (parent child : NodeId) :
    (attach parent child).KeepsLines lines fun _ => True :=
  .bind (keepsLines_record parent) fun _ _ => .cond (.fail _) <|
    .bind (keepsLines_relink child fun _ => ⟨rfl, rfl⟩) fun _ _ =>
      keepsLines_relink parent fun _ => ⟨rfl, rfl⟩

theorem keepsLines_addLeaf (parent : NodeId) (kind : Kind) (range : Range) :
    (addLeaf parent kind range).KeepsLines lines fun _ => True :=
  .bind (keepsLines_allocOver kind range) fun leaf _ =>
    .bind (keepsLines_attach parent leaf) fun _ _ => .pure trivial

theorem keepsLines_endAt (id : NodeId) (stop : Nat) :
    (endAt id stop).KeepsLines lines fun _ => True :=
  .bind (keepsLines_record id) fun _ _ => .bind (keepsLines_linesOf _) fun _ hgiven =>
    keepsLines_update id fun _ _ => ⟨hgiven.start, hgiven.stop, hgiven.lines_eq⟩

theorem keepsLines_runOf (parent : NodeId) (start stop : Nat) :
    (runOf parent start stop).KeepsLines lines fun _ => True := by
  unfold runOf
  refine .cond (.fail _) (.bind (keepsLines_record parent) fun _ _ => ?_)
  exact .cond (.fail _) (.pure trivial)

theorem keepsLines_wrapRun (parent : NodeId) (start stop : Nat) (kind : Kind) :
    (wrapRun parent start stop kind).KeepsLines lines fun _ => True := by
  refine .bind (keepsLines_runOf parent start stop) fun run _ => ?_
  refine .bind (keepsLines_record _) fun first _ => .bind (keepsLines_record _) fun last _ => ?_
  refine .bind (keepsLines_allocOver kind _) fun id _ => ?_
  refine .bind (.forM fun child _ => keepsLines_relink child fun _ => ⟨rfl, rfl⟩) fun _ _ => ?_
  refine .bind (keepsLines_relink id fun _ => ⟨rfl, rfl⟩) fun _ _ => ?_
  exact .bind (keepsLines_relink parent fun _ => ⟨rfl, rfl⟩) fun _ _ => .pure trivial

/-! ### Calls -/

theorem keepsLines_allocDetached (kind : Kind) (text : Option (List Char)) :
    (allocDetached kind text).KeepsLines lines fun _ => True :=
  .bind .get fun tree hlined => keepsLines_alloc <| by
    rw [hlined.index]
    exact Record.isLined_empty kind text

theorem keepsLines_newLeaf (kind : Kind) (text : List Char) :
    (newLeaf kind text).KeepsLines lines fun _ => True := by
  unfold newLeaf
  exact .cond (.refuse _) (keepsLines_allocDetached kind (some text))

theorem keepsLines_newNode (kind : Kind) : (newNode kind).KeepsLines lines fun _ => True := by
  unfold newNode
  exact .cond (.refuse _) (keepsLines_allocDetached kind none)

theorem keepsLines_insertChild (parent : NodeId) (index : Nat) (child : NodeId) :
    (insertChild parent index child).KeepsLines lines fun _ => True := by
  refine .bind (keepsLines_live parent) fun above _ => .cond (.refuse _) (.cond (.refuse _) ?_)
  refine .bind .get fun _ _ => .cond (.refuse _) ?_
  refine .bind (keepsLines_live child) fun _ _ => .cond (.refuse _) ?_
  refine .bind (keepsLines_lineage parent) fun _ _ => .cond (.refuse _) ?_
  refine .bind (keepsLines_relink parent fun _ => ⟨rfl, rfl⟩) fun _ _ => ?_
  exact .bind (keepsLines_relink child fun _ => ⟨rfl, rfl⟩) fun _ _ => keepsLines_touch parent

theorem keepsLines_removeChild (parent : NodeId) (index : Nat) :
    (removeChild parent index).KeepsLines lines fun _ => True := by
  refine .bind (keepsLines_live parent) fun above _ => ?_
  cases above.children[index]? with
  | none => exact .refuse _
  | some child =>
      exact .bind (keepsLines_relink parent fun _ => ⟨rfl, rfl⟩) fun _ _ =>
        .bind (keepsLines_free child) fun _ _ => keepsLines_touch parent

theorem keepsLines_remove (id : NodeId) : (remove id).KeepsLines lines fun _ => True :=
  .bind (keepsLines_position id) fun _ _ => keepsLines_removeChild _ _

theorem keepsLines_detach (id : NodeId) : (detach id).KeepsLines lines fun _ => True :=
  .bind (keepsLines_position id) fun _ _ =>
    .bind (keepsLines_relink _ fun _ => ⟨rfl, rfl⟩) fun _ _ =>
      .bind (keepsLines_relink id fun _ => ⟨rfl, rfl⟩) fun _ _ => keepsLines_touch _

theorem keepsLines_moveChildren (source target : NodeId) :
    (moveChildren source target).KeepsLines lines fun _ => True :=
  .bind (keepsLines_record source) fun _ _ =>
    .bind (keepsLines_relink source fun _ => ⟨rfl, rfl⟩) fun _ _ =>
      .bind (.forM fun child _ => keepsLines_relink child fun _ => ⟨rfl, rfl⟩) fun _ _ =>
        keepsLines_relink target fun _ => ⟨rfl, rfl⟩

theorem keepsLines_replace (id new : NodeId) (keepChildren : Bool) :
    (replace id new keepChildren).KeepsLines lines fun _ => True := by
  refine .bind (keepsLines_position id) fun place _ => .bind .get fun _ _ => .cond (.refuse _) ?_
  refine .bind (keepsLines_live new) fun made _ => .cond (.refuse _) ?_
  refine .bind (keepsLines_lineage _) fun _ _ => .cond (.refuse _) ?_
  refine .bind (keepsLines_record id) fun _ _ => .cond (.refuse _) ?_
  refine .cond (keepsLines_moveChildren id new) ?_
  refine .bind (keepsLines_relink place.1 fun _ => ⟨rfl, rfl⟩) fun _ _ => ?_
  refine .bind (keepsLines_relink new fun _ => ⟨rfl, rfl⟩) fun _ _ => ?_
  exact .bind (keepsLines_free id) fun _ _ => keepsLines_touch place.1

/-- The text leaf has the lines of the node that it takes the place of. -/
theorem keepsLines_replaceWithText (id : NodeId) (text : List Char) :
    (replaceWithText id text).KeepsLines lines fun _ => True := by
  unfold replaceWithText
  refine .ite (.bind (keepsLines_remove id) fun _ _ => .pure trivial) ?_
  refine .bind (keepsLines_position id) fun _ _ => ?_
  refine .bind (keepsLines_record id) fun old hold => ?_
  refine .bind (keepsLines_newLeaf .text text) fun leaf _ => ?_
  refine .bind (keepsLines_update leaf fun _ _ => ⟨hold.start, hold.stop, hold.lines_eq⟩)
    fun _ _ => ?_
  exact .bind (keepsLines_replace id leaf false) fun _ _ => .pure trivial

end Edit

/-- Every call keeps all nodes on their lines, also where it is refused. -/
theorem Call.keepsLines (call : Call) : call.edit.KeepsLines lines fun _ => True := by
  cases call with
  | newLeaf kind text => exact (Edit.keepsLines_newLeaf kind text).map fun _ _ => trivial
  | newNode kind => exact (Edit.keepsLines_newNode kind).map fun _ _ => trivial
  | insertChild parent index child =>
      exact (Edit.keepsLines_insertChild parent index child).map fun _ _ => trivial
  | appendChild parent child =>
      exact .map (.bind (Edit.keepsLines_live parent) fun _ _ =>
        Edit.keepsLines_insertChild parent _ child) fun _ _ => trivial
  | insertBefore id sibling | insertAfter id sibling =>
      exact .map (.bind (Edit.keepsLines_position id) fun _ _ =>
        Edit.keepsLines_insertChild _ _ sibling) fun _ _ => trivial
  | removeChild parent index =>
      exact (Edit.keepsLines_removeChild parent index).map fun _ _ => trivial
  | remove id => exact (Edit.keepsLines_remove id).map fun _ _ => trivial
  | detach id => exact (Edit.keepsLines_detach id).map fun _ _ => trivial
  | replace id new keepChildren =>
      exact (Edit.keepsLines_replace id new keepChildren).map fun _ _ => trivial
  | replaceWithText id text => exact Edit.keepsLines_replaceWithText id text

/-! ## Trees that can be made -/

/-- A step that builds a tree over its source. -/
inductive Construction where
  | addLeaf (parent : NodeId) (kind : Kind) (range : Range)
  | addContainer (parent : NodeId) (kind : Kind) (start : Nat)
  | endAt (id : NodeId) (stop : Nat)
  | wrapRun (parent : NodeId) (start stop : Nat) (kind : Kind)

namespace Construction

/-- The edit of a step, which may give the name of a new node. -/
def edit : Construction → Edit (Option NodeId)
  | addLeaf parent kind range => some <$> Edit.addLeaf parent kind range
  | addContainer parent kind start => some <$> Edit.addContainer parent kind start
  | endAt id stop => (fun _ => none) <$> Edit.endAt id stop
  | wrapRun parent start stop kind => some <$> Edit.wrapRun parent start stop kind

theorem keepsLines (step : Construction) : step.edit.KeepsLines lines fun _ => True := by
  cases step with
  | addLeaf parent kind range =>
      exact (Edit.keepsLines_addLeaf parent kind range).map fun _ _ => trivial
  | addContainer parent kind start =>
      exact (Edit.keepsLines_addLeaf parent kind (.empty start)).map fun _ _ => trivial
  | endAt id stop => exact (Edit.keepsLines_endAt id stop).map fun _ _ => trivial
  | wrapRun parent start stop kind =>
      exact (Edit.keepsLines_wrapRun parent start stop kind).map fun _ _ => trivial

end Construction

/-- The tree that an edit leaves, also where it stops before its end. -/
def Edit.left (edit : Edit α) (tree : Tree) : Tree :=
  match edit.run tree with
  | .ok _ after | .error _ after => after

theorem Edit.KeepsLines.left {edit : Edit α} {gives : α → Prop} (h : edit.KeepsLines lines gives)
    (hlined : tree.IsLined lines) : (edit.left tree).IsLined lines := by
  have hkept := h tree hlined
  unfold Edit.left
  cases hrun : edit.run tree with
  | ok value after =>
      rw [hrun] at hkept
      exact hkept.1
  | error halt after =>
      rw [hrun] at hkept
      exact hkept

namespace Tree

/-- The trees that can be made over a text: from nothing but its root, or from what parsing gives,
by steps that build and calls that edit, those that stop among them. -/
inductive Made (text : List Char) : Tree → Prop
  | new : Made text (.new text)
  | parsed (language : Language) (analysis : Bool) (written : List Char)
      (h : language.prepare written = text) :
      Made text (.ofParse (language.parse analysis written))
  | built {tree : Tree} (h : Made text tree) (step : Construction) :
      Made text (step.edit.left tree)
  | called {tree : Tree} (h : Made text tree) (call : Call) : Made text (call.edit.left tree)

theorem Made.isLined (h : tree.Made text) : tree.IsLined (.ofText text) := by
  induction h with
  | new => exact .new text
  | parsed language analysis written h => exact h ▸ .ofParse language analysis written
  | built _ step ih => exact step.keepsLines.left ih
  | called _ call ih => exact call.keepsLines.left ih

/-- A node over a range lies on the lines of the two ends of the range, and the line of a place is
one more than the number of the lines that end there or before.  So it is for every node of every
tree that can be made over a text, and the source file with this text gives the same line for the
start of the node. -/
theorem Made.lines_count_endings (h : tree.Made text) {record : Record}
    (hrecord : tree.record? id = some record) (path : String) :
    record.lines = ⟨1 + Text.endingsUpTo text record.range.start,
        1 + Text.endingsUpTo text record.range.stop⟩
      ∧ SourceFile.location ⟨path, text⟩ record.range.start =
          .ok (path ++ ":" ++ toString record.lines.first ++ ":"
            ++ toString (Text.columnAt text record.range.start)) := by
  obtain ⟨hstart, _, hlines⟩ := h.isLined.lined id record hrecord
  have hline : ∀ place, (LineIndex.ofText text).line place + 1 = Text.lineAt text place := by
    intro place
    rw [LineIndex.line, LineIndex.starts_ofText, Text.lineAt]
  have hspan : record.lines =
      ⟨Text.lineAt text record.range.start, Text.lineAt text record.range.stop⟩ := by
    rw [hlines, LineIndex.span, hline, hline]
  refine ⟨by rw [hspan, Text.lineAt_eq, Text.lineAt_eq], ?_⟩
  rw [SourceFile.location_eq ⟨path, text⟩ hstart, hspan]

/-- A leaf that begins within a `\r\n` lies on the line that this pair ends. -/
theorem Made.lines_count_endings_within_pair :
    let text := "a\r\nb\r".toList
    let root := (Tree.new text).root
    let tree := (Construction.addLeaf root .text (.upTo 2 5)).edit.left (.new text)
    let id : NodeId := ⟨1, 0⟩
    ∃ record, tree.Made text ∧ tree.record? id = some record
      ∧ (record.lines = ⟨1 + Text.endingsUpTo text record.range.start,
            1 + Text.endingsUpTo text record.range.stop⟩
        ∧ SourceFile.location ⟨"a.xml", text⟩ record.range.start =
            .ok ("a.xml" ++ ":" ++ toString record.lines.first ++ ":"
              ++ toString (Text.columnAt text record.range.start)))
      ∧ record.lines = ⟨1, 3⟩ := by
  intro text root tree id
  have hmade : tree.Made text := .built .new _
  have hlines : (tree.record? id).map (·.lines) = some ⟨1, 3⟩ := by decide +kernel
  obtain ⟨record, hrecord, hlines⟩ := Option.map_eq_some_iff.1 hlines
  exact ⟨record, hmade, hrecord, hmade.lines_count_endings hrecord "a.xml", hlines⟩

end Tree

end ConcreteSyntax
