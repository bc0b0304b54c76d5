import ConcreteSyntax.Analysis.Walk
import ConcreteSyntax.Proofs.Lossless
import ConcreteSyntax.Proofs.Tree.Construction

/-!
# Walks only add parents

Whatever its rules find, a walk over a parsed text goes on until all passes are done, and the
arena always represents a tree that has grown from the one at the beginning (`Walk.Grown`).
-/

namespace ConcreteSyntax

/-- Cuts a list before and behind a run. -/
theorem exists_split {nodes : List Node} {start stop : Nat} (hle : start ≤ stop)
    (hlt : stop < nodes.length) :
    ∃ before run after, nodes = before ++ (run ++ after) ∧ before.length = start
      ∧ run ≠ [] ∧ start + run.length - 1 = stop := by
  have hlength : ((nodes.drop start).take (stop + 1 - start)).length = stop + 1 - start := by
    simp only [List.length_take, List.length_drop]
    omega
  refine ⟨nodes.take start, (nodes.drop start).take (stop + 1 - start),
    (nodes.drop start).drop (stop + 1 - start), ?_, ?_, ?_, ?_⟩
  · rw [List.take_append_drop, List.take_append_drop]
  · rw [List.length_take]
    omega
  · rw [← List.length_pos_iff, hlength]
    omega
  · rw [hlength]
    omega

/-- Whether an attempt to find a run never breaks, and finds kinds of some sort only. -/
def Finder.Answers (kinds : Kind → Prop) (find : Finder) : Prop :=
  ∀ tree owner index, ∃ found, find tree owner index = .ok found
    ∧ ∀ run, found = some run → kinds run.kind

namespace Walk

/-- What holds at every point of a walk over a parsed text: the arena represents a tree that
has grown from the one at the beginning, and the walk is in a container that is there. -/
structure Grown (built : Parse) (kinds : Kind → Prop) (walk : Walk) : Prop where
  represents : ∃ parse, walk.tree.Represents parse ∧ parse.lines = built.lines
    ∧ Grows built.lines kinds built.next built.root parse.next parse.root
  find : walk.find.Answers kinds
  todo : ∀ find ∈ walk.todo, find.Answers kinds
  level : ∀ owner index, walk.level = some (owner, index) →
    ∃ record, walk.tree.record? owner = some record

variable {built : Parse} {kinds : Kind → Prop} {walk : Walk} {sound : Prop}

/-- Without the nodes added so far, the tree is the one at the beginning. -/
theorem Grown.erase_eq (h : walk.Grown built kinds) (hlaid : built.WellLaid sound) :
    walk.tree.rootNode.erase (fun id => decide (built.next ≤ id.index)) = [built.root] := by
  obtain ⟨parse, hrepresents, hlines, hgrows⟩ := h.represents
  have hgrown := hlaid.weaken.grows hlines hgrows False.elim
  rw [hrepresents.rootNode_eq hgrown.numbered hgrown.fits,
    hgrows.erase_eq fun index hindex => decide_eq_true hindex]
  refine Node.erase_eq_self fun id hid => ?_
  obtain ⟨index, hlt, rfl⟩ := hlaid.numbered.mem_iff.1 hid
  exact decide_eq_false (Nat.not_le.2 hlt)

theorem Grown.linked (h : walk.Grown built kinds) (hlaid : built.WellLaid sound) :
    walk.tree.Linked := by
  obtain ⟨parse, hrepresents, hlines, hgrows⟩ := h.represents
  exact (hlaid.weaken.grows hlines hgrows False.elim).linked hrepresents

/-- Where all new nodes are containers, the tree stays laid out without gaps. -/
theorem Grown.wellFormed (h : walk.Grown built kinds) (hlaid : built.WellLaid sound)
    (hsound : sound) (hkinds : ∀ kind, kinds kind → kind.isAtomic = false) :
    walk.tree.WellFormed ∧ walk.tree.Spells built.lines.text := by
  obtain ⟨parse, hrepresents, hlines, hgrows⟩ := h.represents
  have hgrown := hlaid.grows hlines hgrows fun _ => hkinds
  exact ⟨hgrown.wellFormed hsound hrepresents, hlines ▸ hgrown.spells hsound hrepresents⟩

theorem grown_start (hnumbered : built.root.Numbered built.next) {passes : List Finder}
    (h : ∀ find ∈ passes, find.Answers kinds) :
    (start (Tree.ofParse built) passes).Grown built kinds where
  represents := ⟨built, Tree.represents_ofParse hnumbered, rfl, .refl⟩
  find _ _ _ := ⟨none, rfl, by simp⟩
  todo := h
  level := by simp [start]

theorem wrap_of_run {owner id : NodeId} {found : Match} {tree : Tree}
    (h : (Edit.wrapRun owner found.start found.stop found.kind).run walk.tree = .ok id tree) :
    walk.wrap owner found = .ok { walk with
      tree, wrapped := walk.wrapped + 1, level := some (owner, found.start + 1) } := by
  rw [wrap, h]

/-- Wrapping a run that is accepted never breaks. -/
theorem Grown.wrap (h : walk.Grown built kinds) (hlaid : built.WellLaid sound) {owner : NodeId}
    {above : Record} {found : Match} (habove : walk.tree.record? owner = some above)
    (hle : found.start ≤ found.stop) (hlt : found.stop < above.children.length)
    (hkind : kinds found.kind) :
    ∃ next, walk.wrap owner found = .ok next ∧ next.Grown built kinds := by
  obtain ⟨parse, hrepresents, hlines, hgrows⟩ := h.represents
  have hgrown := hlaid.weaken.grows hlines hgrows False.elim
  obtain ⟨node, hnode, rfl, parent, hshows, rfl⟩ :=
    hrepresents.exists_node hgrown.numbered habove
  obtain ⟨crumbs, hplace⟩ := Node.exists_plug hnode
  obtain ⟨label, children⟩ := node
  have hlength : found.stop < children.length := by simpa [Tree.recordOf, Node.children] using hlt
  obtain ⟨before, run, after, rfl, hstart, hrun, hstop⟩ := exists_split hle hlength
  have hkeeps := hrepresents.keeps hgrown.numbered
  rw [hplace, hlines] at hkeeps
  obtain ⟨tree, hedit, hwrapped⟩ :=
    hkeeps.run_wrapRun (hlines ▸ hgrown.fits.below hnode) hrun found.kind
  have hwrap : Wraps built.lines kinds parse.next ⟨label, before ++ (run ++ after)⟩
      ⟨label, before ++ (Node.wrap built.lines (.fresh parse.next) found.kind run :: after)⟩ :=
    .here hrun hkind
  have hwraps := hwrap.plug crumbs
  rw [← hplace] at hwraps
  rw [hstart, hstop] at hedit
  refine ⟨{ walk with
      tree, wrapped := walk.wrapped + 1, level := some (label.id, found.start + 1) },
    wrap_of_run hedit, ⟨⟨built.lines, _, parse.next + 1, parse.notes⟩, hwrapped.represents _, rfl,
      hgrows.trans hwraps.grows⟩, h.find, h.todo, ?_⟩
  intro owner index hlevel
  obtain ⟨rfl, rfl⟩ : label.id = owner ∧ found.start + 1 = index := by simpa using hlevel
  obtain ⟨above, hrecord⟩ := hwrapped.record?_eq
  exact ⟨_, hrecord⟩

theorem tryAt_of_not_isSignificant {owner child : NodeId} {above record : Record} (index : Nat)
    (hrecord : walk.tree.record? child = some record) (hkind : record.kind.isSignificant = false) :
    walk.tryAt owner above index child = .ok { walk with level := some (owner, index + 1) } := by
  simp only [tryAt, Walk.record, hrecord, bind, Except.bind, hkind]
  rfl

theorem tryAt_of_isSignificant {owner child : NodeId} {above record : Record} {index : Nat}
    {found : Option Match} (hrecord : walk.tree.record? child = some record)
    (hkind : record.kind.isSignificant = true)
    (hfound : walk.find walk.tree owner index = .ok found) :
    walk.tryAt owner above index child =
      match found.filter (·.isAccepted above.kind index above.children.length) with
      | some found => walk.wrap owner found
      | none => .ok { walk with level := some (owner, index + 1) } := by
  simp only [tryAt, Walk.record, hrecord, Walk.found, hfound, bind, Except.bind, hkind, if_true]
  rfl

theorem step_try {owner child : NodeId} {above : Record} {index : Nat}
    (hlevel : walk.level = some (owner, index)) (habove : walk.tree.record? owner = some above)
    (hchild : above.children[index]? = some child) :
    walk.step = (walk.tryAt owner above index child).map some := by
  simp only [step, hlevel, Walk.record, habove, bind, Except.bind, hchild]
  cases walk.tryAt owner above index child <;> rfl

theorem step_leave {owner : NodeId} {above : Record} {index : Nat}
    (hlevel : walk.level = some (owner, index)) (habove : walk.tree.record? owner = some above)
    (hchild : above.children[index]? = none) :
    walk.step =
      .ok (some { walk with stack := above.children ++ walk.stack, level := none }) := by
  simp only [step, hlevel, Walk.record, habove, bind, Except.bind, hchild]
  rfl

theorem step_visit {id : NodeId} {stack : List NodeId} (hlevel : walk.level = none)
    (hstack : walk.stack = id :: stack) : walk.step = .ok (some (walk.visit id stack)) := by
  simp only [step, hlevel, hstack]
  rfl

theorem step_pass {find : Finder} {todo : List Finder} (hlevel : walk.level = none)
    (hstack : walk.stack = []) (htodo : walk.todo = find :: todo) :
    walk.step = .ok (some { walk with find, todo, wrapped := 0, stack := [walk.tree.root] }) := by
  simp only [step, hlevel, hstack, htodo]
  rfl

theorem step_done (hlevel : walk.level = none) (hstack : walk.stack = [])
    (htodo : walk.todo = []) : walk.step = .ok none := by
  simp only [step, hlevel, hstack, htodo]
  rfl

/-- The children of a container are there. -/
theorem Grown.exists_child (h : walk.Grown built kinds) (hlaid : built.WellLaid sound)
    {owner child : NodeId} {above : Record} (habove : walk.tree.record? owner = some above)
    (hchild : child ∈ above.children) : ∃ record, walk.tree.record? child = some record := by
  obtain ⟨parse, hrepresents, hlines, hgrows⟩ := h.represents
  obtain ⟨node, hnode, rfl, parent, hshows, rfl⟩ :=
    hrepresents.exists_node (hgrows.numbered hlaid.numbered) habove
  obtain ⟨below, hbelow, rfl⟩ := List.mem_map.1 hchild
  exact hshows.exists_record (Node.id_mem_ids_of_mem_children hbelow)

/-- Trying a rule at a child never breaks. -/
theorem Grown.tryAt (h : walk.Grown built kinds) (hlaid : built.WellLaid sound) {owner : NodeId}
    {above : Record} (habove : walk.tree.record? owner = some above) (index : Nat)
    {child : NodeId} (hchild : child ∈ above.children) :
    ∃ next, walk.tryAt owner above index child = .ok next ∧ next.Grown built kinds := by
  obtain ⟨record, hrecord⟩ := h.exists_child hlaid habove hchild
  obtain ⟨found, hfound, hkinds⟩ := h.find walk.tree owner index
  have hpassed : Grown built kinds { walk with level := some (owner, index + 1) } :=
    { h with
      level := fun other reached hlevel => by
        obtain ⟨rfl, rfl⟩ : owner = other ∧ index + 1 = reached := by simpa using hlevel
        exact ⟨above, habove⟩ }
  cases hkind : record.kind.isSignificant with
  | false => exact ⟨_, tryAt_of_not_isSignificant index hrecord hkind, hpassed⟩
  | true =>
      rw [tryAt_of_isSignificant hrecord hkind hfound]
      split
      · rename_i run hrun
        obtain ⟨hsome, haccepted⟩ := Option.filter_eq_some_iff.1 hrun
        simp only [Match.isAccepted, Bool.and_eq_true, decide_eq_true_eq] at haccepted
        exact h.wrap hlaid habove haccepted.1.1.2 haccepted.1.2 (hkinds run hsome)
      · exact ⟨_, rfl, hpassed⟩

/-- A step never breaks, and only adds parents. -/
theorem Grown.step (h : walk.Grown built kinds) (hlaid : built.WellLaid sound) :
    ∃ next, walk.step = .ok next ∧ ∀ after, next = some after → after.Grown built kinds := by
  cases hlevel : walk.level with
  | some place =>
      obtain ⟨owner, index⟩ := place
      obtain ⟨above, habove⟩ := h.level owner index hlevel
      cases hchild : above.children[index]? with
      | some child =>
          obtain ⟨next, htry, hnext⟩ :=
            h.tryAt hlaid habove index (List.mem_of_getElem? hchild)
          refine ⟨some next, ?_, fun after hafter => Option.some.inj hafter ▸ hnext⟩
          rw [step_try hlevel habove hchild, htry]
          rfl
      | none =>
          refine ⟨_, step_leave hlevel habove hchild, fun after hafter => ?_⟩
          rw [← Option.some.inj hafter]
          exact { h with level := nofun }
  | none =>
      cases hstack : walk.stack with
      | cons id stack =>
          refine ⟨_, step_visit hlevel hstack, fun after hafter => ?_⟩
          rw [← Option.some.inj hafter, visit]
          cases hrecord : walk.tree.record? id with
          | none => exact { h with level := by simp [hlevel] }
          | some record =>
              dsimp only
              split
              · refine { h with level := fun owner index hplace => ?_ }
                obtain ⟨rfl, rfl⟩ : id = owner ∧ 0 = index := by simpa using hplace
                exact ⟨record, hrecord⟩
              · exact { h with level := by simp [hlevel] }
      | nil =>
          cases htodo : walk.todo with
          | nil => exact ⟨none, step_done hlevel hstack htodo, nofun⟩
          | cons find todo =>
              refine ⟨_, step_pass hlevel hstack htodo, fun after hafter => ?_⟩
              rw [← Option.some.inj hafter]
              have hfinds := h.todo
              rw [htodo, List.forall_mem_cons] at hfinds
              exact { h with find := hfinds.1, todo := hfinds.2, level := by simp [hlevel] }

/-- At every point of a walk only parents have been added. -/
theorem Grown.reaches (h : walk.Grown built kinds) (hlaid : built.WellLaid sound) {after : Walk}
    (hreaches : walk.Reaches after) : after.Grown built kinds := by
  induction hreaches with
  | refl => exact h
  | step _ hstep ih =>
      obtain ⟨next, hnext, hgrown⟩ := ih.step hlaid
      rw [hstep] at hnext
      exact hgrown _ (Except.ok.inj hnext).symm

theorem Grown.mono (h : walk.Grown built kinds) {kinds' : Kind → Prop}
    (hkinds : ∀ kind, kinds kind → kinds' kind) : walk.Grown built kinds' := by
  obtain ⟨parse, hrepresents, hlines, hgrows⟩ := h.represents
  have hanswers : ∀ find : Finder, find.Answers kinds → find.Answers kinds' := by
    intro find hfind tree owner index
    obtain ⟨found, hfound, hkind⟩ := hfind tree owner index
    exact ⟨found, hfound, fun run hrun => hkinds _ (hkind run hrun)⟩
  exact ⟨⟨parse, hrepresents, hlines, hgrows.mono hkinds⟩, hanswers _ h.find,
    fun find hfind => hanswers find (h.todo find hfind), h.level⟩

theorem exists_run_of_wrap {owner : NodeId} {found : Match} {next : Walk}
    (h : walk.wrap owner found = .ok next) :
    ∃ id tree, (Edit.wrapRun owner found.start found.stop found.kind).run walk.tree =
      .ok id tree := by
  unfold Walk.wrap at h
  split at h
  · exact ⟨_, _, ‹_›⟩
  · simp at h

/-- The kinds that the rules of a walk find. -/
def Makes (rules : List (Tree → NodeId → Nat → Option Match)) (kind : Kind) : Prop :=
  ∃ rule ∈ rules, ∃ tree owner index found,
    rule tree owner index = some found ∧ found.kind = kind

theorem answers_ofFunction {rules : List (Tree → NodeId → Nat → Option Match)} :
    ∀ find ∈ rules.map Finder.ofFunction, find.Answers (Makes rules) := by
  intro find hfind tree owner index
  obtain ⟨rule, hrule, rfl⟩ := List.mem_map.1 hfind
  exact ⟨_, rfl, fun found hfound => ⟨rule, hrule, tree, owner, index, found, hfound, rfl⟩⟩

/-- Whatever rules find, at every point of a walk over a paired text the nodes make one tree,
without the nodes added so far it is the tree that the walk began with, and no accepted run
breaks it.  Where kinds are those of containers, the tree is laid out without gaps. -/
theorem adds_parents_only (grammar : Grammar) (text : List Char)
    (rules : List (Tree → NodeId → Nat → Option Match)) {walk : Walk}
    (hreaches : (start (.ofParse (.build grammar text)) (rules.map .ofFunction)).Reaches walk) :
    walk.tree.Linked
      ∧ walk.tree.rootNode.erase (fun id => decide ((Parse.build grammar text).next ≤ id.index)) =
        [(Parse.build grammar text).root]
      ∧ (∀ owner above anchor found, walk.tree.record? owner = some above →
        Match.isAccepted found above.kind anchor above.children.length = true →
        ∃ id tree, (Edit.wrapRun owner found.start found.stop found.kind).run walk.tree =
          .ok id tree)
      ∧ (∃ next, walk.step = .ok next)
      ∧ (grammar.IsSound → (∀ kind, Makes rules kind → kind.isAtomic = false) →
        walk.tree.WellFormed ∧ walk.tree.Spells text) := by
  have hlaid : (Parse.build grammar text).WellLaid grammar.IsSound := Parse.wellLaid_build id text
  have hgrown : walk.Grown (.build grammar text) (Makes rules) :=
    (grown_start hlaid.numbered answers_ofFunction).reaches hlaid hreaches
  refine ⟨hgrown.linked hlaid, hgrown.erase_eq hlaid, ?_, ?_, hgrown.wellFormed hlaid⟩
  · intro owner above anchor found habove haccepted
    simp only [Match.isAccepted, Bool.and_eq_true, decide_eq_true_eq] at haccepted
    have hany : walk.Grown (.build grammar text) fun _ => True := hgrown.mono fun _ _ => trivial
    obtain ⟨next, hwrap, _⟩ :=
      hany.wrap hlaid habove haccepted.1.1.2 haccepted.1.2 trivial
    exact exists_run_of_wrap hwrap
  · obtain ⟨next, hnext, _⟩ := hgrown.step hlaid
    exact ⟨next, hnext⟩

/-- The rule that wraps each child on its own. -/
def wrapEach (kind : Kind) : Tree → NodeId → Nat → Option Match :=
  fun _ _ index => some ⟨kind, index, index⟩

theorem build_letter : Parse.build CFamily.cGrammar ['a'] =
    { lines := .ofText ['a']
      root := ⟨⟨.fresh 0, .root, .ofLength 0 1, ⟨1, 1⟩, 0, none⟩,
        [⟨⟨.fresh 1, .text, .ofLength 0 1, ⟨1, 1⟩, 0, some ['a']⟩, []⟩]⟩
      next := 2
      notes := [] } := by
  have hscan : CFamily.cGrammar.table.scanRange ['a'] (.ofLength 0 1) none =
      [.leaf .text ⟨0, ['a']⟩] := by decide +kernel
  rw [Parse.build, Grammar.pair_of_scan hscan]
  rfl

/-- A walk that has wrapped the only leaf of a text in a container. -/
theorem adds_parents_only_letter :
    ∃ walk, (start (.ofParse (.build CFamily.cGrammar ['a']))
        ([wrapEach .flowReturn].map .ofFunction)).Reaches walk
      ∧ walk.tree.size = 3
      ∧ walk.tree.rootNode.erase
          (fun id => decide ((Parse.build CFamily.cGrammar ['a']).next ≤ id.index)) =
        [(Parse.build CFamily.cGrammar ['a']).root]
      ∧ walk.tree.WellFormed ∧ walk.tree.Spells ['a'] := by
  obtain ⟨walk, hreaches, hsize⟩ : ∃ walk, (start (.ofParse (.build CFamily.cGrammar ['a']))
      ([wrapEach .flowReturn].map .ofFunction)).Reaches walk ∧ walk.tree.size = 3 := by
    rw [build_letter]
    exact ⟨_, .step (.step (.step .refl rfl) rfl) rfl, rfl⟩
  obtain ⟨_, herase, _, _, hformed⟩ :=
    adds_parents_only CFamily.cGrammar ['a'] [wrapEach .flowReturn] hreaches
  refine ⟨walk, hreaches, hsize, herase, hformed CFamily.isSound_cGrammar ?_⟩
  rintro kind ⟨rule, hrule, tree, owner, index, found, hfound, rfl⟩
  obtain rfl := List.mem_singleton.1 hrule
  obtain rfl := Option.some.inj hfound
  exact (by decide : Kind.flowReturn.isAtomic = false)

end Walk

end ConcreteSyntax
