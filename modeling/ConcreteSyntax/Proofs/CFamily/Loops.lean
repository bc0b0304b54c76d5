import ConcreteSyntax.Proofs.Analysis.Reach
import ConcreteSyntax.Proofs.CFamily.Bodies
import ConcreteSyntax.Proofs.CFamily.Conditionals

/-!
# Bodies of loops

In a block the flow pass takes one statement after the other.  A loop or a switch becomes one node
over all that it is made of exactly if it is counted out to its end
(`Language.wraps_loop`).
-/

namespace ConcreteSyntax

namespace CFamily

variable {lines : LineIndex} {isNew : NodeId → Bool} {statement : Statement} {kind : Kind}
  {scene : Scene} {behind : List Kind}

/-! ## Loops from their first word on -/

theorem flowPlan_loop (hloop : statement.loopKind? = some kind) (hparent : scene.parent = .braces)
    (hkinds : scene.kinds = statement.kinds ++ behind) :
    flowPlan scene = (statementLength scene.kinds).map fun n => (kind, n) := by
  have hword : scene.kinds.head? ≠ some .newKw ∧ flowKindOf scene = some kind := by
    cases statement with
    | block | plain _ | branch _ | choice _ _ => cases hloop
    | led leader body =>
        obtain rfl := Option.some.inj hloop
        cases leader <;>
          simp [flowKindOf, hkinds, hparent, Statement.kinds, Leader.word, Leader.kind]
    | doLoop body =>
        obtain rfl := Option.some.inj hloop
        simp [flowKindOf, hkinds, Statement.kinds]
  rw [flowPlan_eq, if_neg hword.1, flowStatementPlan, hword.2]
  rfl

theorem two_le_length (hloop : statement.loopKind? = some kind) : 2 ≤ statement.kinds.length := by
  cases statement with
  | block | plain _ | branch _ | choice _ _ => cases hloop
  | led leader body | doLoop body => simp [Statement.kinds]

theorem ne_braces_of_loopKind? (hloop : statement.loopKind? = some kind) : kind ≠ .braces := by
  cases statement with
  | block | plain _ | branch _ | choice _ _ => cases hloop
  | led leader body =>
      obtain rfl := Option.some.inj hloop
      cases leader <;> decide
  | doLoop body =>
      obtain rfl := Option.some.inj hloop
      decide

/-- Whether siblings are those of a statement, from its first to its last. -/
structure Statement.IsRun (statement : Statement) (run : List Node) : Prop where
  kinds : significantKinds run = statement.kinds
  first : run.head?.any (·.kind.isSignificant) = true
  last : run.getLast?.any (·.kind.isSignificant) = true

variable {next next' : Nat} {before run rest out : List Node}

theorem Statement.IsRun.closes (h : statement.IsRun run) : Closes statement.kinds.length run := by
  have hlength := congrArg List.length h.kinds
  rw [significantKinds, List.length_map] at hlength
  exact hlength ▸ Closes.of_getLast h.last

/-- What the flow pass counts out from the first sibling of a loop. -/
theorem flowPlan_run {first : Node} {others : List Node} (hloop : statement.loopKind? = some kind)
    (hrun : statement.IsRun (first :: others)) (before rest : List Node) :
    flowPlan (Lookahead.atAnchor .braces before (first :: (others ++ rest))).scene =
      (statementLength (statement.kinds ++ significantKinds rest)).map fun n => (kind, n) := by
  have hfirst : first.kind.isSignificant = true := by simpa using hrun.first
  have hkinds : (Lookahead.atAnchor .braces before (first :: (others ++ rest))).scene.kinds =
      statement.kinds ++ significantKinds rest := by
    rw [← hrun.kinds, ← significantKinds_append, List.cons_append, significantKinds_cons hfirst,
      Plan.scene_atAnchor hfirst]
    rfl
  rw [flowPlan_loop hloop rfl hkinds, hkinds]

/-- What a level of the flow pass makes of the siblings of a loop: a node that begins with the first
of them, and takes them all exactly if the loop is counted out to its end. -/
theorem levels_loop (hloop : statement.loopKind? = some kind) (hrun : statement.IsRun run)
    (h : Levels lines flowPlan .braces next before (run ++ rest) next' out)
    (hnew : ∀ index, next ≤ index → isNew (.fresh index) = true) :
    ∃ node out' taken left, out = node :: out' ∧ run = taken ++ left ∧ taken ≠ []
      ∧ node.erase isNew = taken.flatMap (Node.erase isNew)
      ∧ out'.flatMap (Node.erase isNew) = (left ++ rest).flatMap (Node.erase isNew)
      ∧ (left = [] ↔ statement.isWhole = true)
      ∧ (left = [] → node = Node.wrap lines (.fresh next) kind run) := by
  obtain ⟨first, hhead, hfirst⟩ := (Option.any_eq_true _ _).1 hrun.first
  obtain ⟨others, rfl⟩ := List.head?_eq_some_iff.1 hhead
  have hplan := flowPlan_run hloop hrun before rest
  have hcloses := hrun.closes
  generalize hahead : first :: others ++ rest = ahead at h
  cases h with
  | done => cases hahead
  | pass hnode hrest =>
      obtain ⟨rfl, rfl⟩ := List.cons.inj hahead
      rw [hfirst] at hnode
      cases hnode
  | @keep _ _ _ _ out' node hnode hkept hrest =>
      obtain ⟨rfl, rfl⟩ := List.cons.inj hahead
      -- what is counted out is wrapped, for the loop is no block
      have hnone : statement.isWhole = false := by
        by_contra hwhole
        rw [Statement.length_of_isWhole (Bool.not_eq_false _ ▸ hwhole), Option.map_some] at hplan
        exact ne_braces_of_loopKind? hloop (hkept _ _ hplan).2.2.symm
      have hothers : others ≠ [] := by
        rintro rfl
        have htwo := two_le_length hloop
        rw [← hcloses.length_filter] at htwo
        have hone := List.length_filter_le (·.kind.isSignificant) [first]
        simp only [List.length_singleton] at hone
        omega
      exact ⟨first, out', [first], others, rfl, rfl, by simp, by simp,
        hrest.erase_eq hnew, by simp [hothers, hnone], fun hleft => absurd hleft hothers⟩
  | @wrap _ _ n _ inner beyond out' node found hnode hinner hfound hproper hrest =>
      rw [List.cons_append, List.cons_append] at hahead
      obtain ⟨rfl, hbeyond⟩ := List.cons.inj hahead
      rw [List.cons_append, ← hbeyond, hplan, Option.map_eq_some_iff] at hfound
      obtain ⟨m, hm, hfound⟩ := hfound
      obtain ⟨rfl, rfl⟩ := Prod.mk.inj hfound
      obtain ⟨hle, hwhole⟩ := statement.length_spec hm
      rw [← hcloses.length_filter] at hle
      obtain ⟨left, hleft, rfl⟩ := hinner.exists_left hahead.symm hle
      rw [hleft] at hcloses ⊢
      refine ⟨_, out', first :: inner, left, rfl, rfl, by simp,
        Node.erase_wrap (hnew next (Nat.le_refl next)) _ _,
        hrest.erase_eq fun index hindex => hnew index (Nat.le_of_succ_le hindex),
        (hinner.eq_nil_iff hcloses).trans hwhole, ?_⟩
      rintro rfl
      rw [List.append_nil]

/-! ## Loops in blocks -/

/-- What a block is made of: statements, and siblings that begin no run of the flow pass. -/
inductive Piece where
  | statement (body : Statement)
  | other (kind : Kind) (h : flowWords.contains kind = false)

/-- The kinds of the significant siblings of a piece. -/
def Piece.kinds : Piece → List Kind
  | .statement body => body.kinds
  | .other kind _ => [kind]

theorem Piece.staysWithin (piece : Piece) : flowPlan.StaysWithin piece.kinds := by
  cases piece with
  | statement body => exact body.staysWithin
  | other kind h => exact staysWithin_other h trivial

/-- Whether a run among the children of a block is a statement of the block. -/
structure Statement.StandsIn (statement : Statement) (block : Node) (front run back : List Node) :
    Prop where
  kind : block.kind = .braces
  children : block.children = front ++ (run ++ back)
  front : ∃ pieces : List Piece, significantKinds front = pieces.flatMap Piece.kinds
  run : statement.IsRun run

/-- Whether a node is new, of a kind, and holds a run of old siblings. -/
structure IsNodeOf (isNew : NodeId → Bool) (kind : Kind) (run : List Node) (node : Node) :
    Prop where
  kind : node.kind = kind
  new : isNew node.id = true
  erase : node.erase isNew = run

theorem IsNodeOf.resembles {node node' : Node} (h : node.Resembles isNew node') :
    IsNodeOf isNew kind run node ↔ IsNodeOf isNew kind run node' := by
  have hkind : node'.kind = node.kind := congrArg Label.kind h.label
  have hid : node'.id = node.id := congrArg Label.id h.label
  constructor
  · rintro ⟨hsame, hnew, herase⟩
    exact ⟨hkind.trans hsame, hid ▸ hnew, h.erase.trans herase⟩
  · rintro ⟨hsame, hnew, herase⟩
    exact ⟨hkind.symm.trans hsame, hid ▸ hnew, h.erase.symm.trans herase⟩

theorem flatMap_erase_eq_self {nodes : List Node}
    (h : ∀ node ∈ nodes, ∀ id ∈ node.ids, isNew id = false) :
    nodes.flatMap (Node.erase isNew) = nodes := by
  rw [List.flatMap_congr fun node hnode => Node.erase_eq_self (h node hnode)]
  simp

variable {block : Node} {front back : List Node}

/-- Among what a level makes of the children of a block is a node of a loop exactly if the loop is
counted out to its end. -/
theorem exists_isNodeOf_iff (hloop : statement.loopKind? = some kind)
    (hstands : statement.StandsIn block front run back)
    (hold : ∀ node ∈ block.children, ∀ id ∈ node.ids, isNew id = false)
    (hnodup : block.children.Nodup)
    (hlevels : Levels lines flowPlan .braces next [] block.children next' out)
    (hnew : ∀ index, next ≤ index → isNew (.fresh index) = true) :
    (∃ node ∈ out, IsNodeOf isNew kind run node) ↔ statement.isWhole = true := by
  obtain ⟨pieces, hpieces⟩ := hstands.front
  have hstays : flowPlan.StaysWithin (significantKinds front) :=
    hpieces ▸ Plan.staysWithin_flatMap fun piece _ => piece.staysWithin
  rw [hstands.children] at hold hnodup hlevels
  simp only [List.forall_mem_append] at hold
  obtain ⟨holdFront, holdRun, holdBack⟩ := hold
  obtain ⟨done, mid, before, out, rfl, hmid, hdone, hlevels⟩ :=
    hlevels.exists_behind hstays hnew
  obtain ⟨node, later, taken, left, rfl, rfl, htaken, hnode, hlater, hwhole, hwrap⟩ :=
    levels_loop hloop hstands.run hlevels fun index hindex => hnew index (Nat.le_trans hmid hindex)
  rw [List.forall_mem_append] at holdRun
  rw [flatMap_erase_eq_self holdFront] at hdone
  rw [flatMap_erase_eq_self holdRun.1] at hnode
  rw [flatMap_erase_eq_self (List.forall_mem_append.2 ⟨holdRun.2, holdBack⟩)] at hlater
  rw [← hwhole]
  obtain ⟨first, rest, rfl⟩ := List.exists_cons_of_ne_nil htaken
  -- the first sibling of the loop stands nowhere else
  have hfront : first ∉ front := fun hmem =>
    List.disjoint_of_nodup_append hnodup hmem (by simp)
  have hbehind : first ∉ left ++ back := by
    have hrest := hnodup.of_append_right
    rw [List.append_assoc] at hrest
    exact fun hmem => List.disjoint_of_nodup_append hrest (List.mem_cons_self ..) hmem
  constructor
  · rintro ⟨other, hother, hof⟩
    have hfirst : first ∈ other.erase isNew := by simp [hof.erase]
    rcases List.mem_append.1 hother with hother | hother
    · refine absurd ?_ hfront
      rw [← hdone]
      exact List.mem_flatMap.2 ⟨other, hother, hfirst⟩
    rcases List.mem_cons.1 hother with rfl | hother
    · have hsame := hof.erase
      rw [hnode] at hsame
      simpa using hsame
    · refine absurd ?_ hbehind
      rw [← hlater]
      exact List.mem_flatMap.2 ⟨other, hother, hfirst⟩
  · intro hleft
    refine ⟨node, by simp, ?_⟩
    obtain rfl := hwrap hleft
    refine ⟨rfl, hnew mid hmid, ?_⟩
    rw [hnode, hleft, List.append_nil]

end CFamily

namespace Language

variable {language : Language}

/-- Kinds of brackets that no directive holds. -/
def outsideDirectives : KindSet := .ofList [.braces, .brackets]

/-- Before analysis no braces or brackets stand in a node that passes do not look into. -/
theorem hidesNone_build (h : language ∈ cFamily) (text : List Char) {kind : Kind}
    (hkind : outsideDirectives.contains kind = true) :
    (Parse.build language.grammar text).root.All (Pass.HidesNone kind) := by
  have hlaid : (Parse.build language.grammar text).WellLaid True :=
    Parse.wellLaid_build (fun _ => language.isSound_grammar) text
  have hconfines : (Parse.build language.grammar text).root.All
      (Node.Confines fun kind => kind.IsPlain ∧ outsideDirectives.contains kind = false) :=
    confines_build h text (fun _ hallowed => hallowed.1) (by decide) (by decide)
      (by decide +kernel)
  have hopen : Pass.isOpen kind = true := by
    have hall : outsideDirectives.toList.all Pass.isOpen = true := by decide +kernel
    exact List.all_eq_true.1 hall kind (KindSet.mem_toList.2 hkind)
  intro node hnode hclosed below hbelow
  rcases Node.mem_descendants_iff.1 hbelow with rfl | hbelow
  · rintro rfl
    cases hopen.symm.trans hclosed
  rw [Pass.isOpen, Bool.and_eq_false_iff, Bool.not_eq_false', Bool.not_eq_false'] at hclosed
  rcases hclosed with hatomic | hdirective
  · rw [(hlaid.fits node hnode).leaf trivial hatomic] at hbelow
    cases hbelow
  · rintro rfl
    rw [(hconfines node hnode hdirective below hbelow).2] at hkind
    cases hkind

theorem hidesNone_of_outside (h : language ∈ cFamily) (count : Nat) (text : List Char) {kind : Kind}
    (hkind : outsideDirectives.contains kind = true) :
    (language.stage count text).root.All (Pass.HidesNone kind) := by
  have hgrows : Grows _ (fun kind => KindSet.synthesized.contains kind = true) _ _ _
      (language.stage count text).root :=
    Pass.grows_runAll (fun pass hpass look found hfound =>
      (language.planned_passes pass (List.mem_of_mem_take hpass)).synthesized hfound) _ _
  have hold : KindSet.synthesized.contains kind = false := by
    have hall : outsideDirectives.toList.all (!KindSet.synthesized.contains ·) = true := by
      decide +kernel
    simpa using List.all_eq_true.1 hall kind (KindSet.mem_toList.2 hkind)
  refine Pass.hidesNone_of_grows (fun other hother => ?_) hgrows (hidesNone_build h _ hkind)
  refine ⟨Pass.isOpen_of_synthesized hother, ?_⟩
  rintro rfl
  cases hold.symm.trans hother

theorem hidesNone_stage (h : language ∈ cFamily) (count : Nat) (text : List Char) :
    (language.stage count text).root.All (Pass.HidesNone .braces) :=
  hidesNone_of_outside h count text (by decide)

theorem eq_flow (h : language ∈ cFamily) {pass : Pass} (hpass : pass ∈ language.grammar.passes)
    (hname : pass.name = "flow") : pass = ⟨"flow", CFamily.flow⟩ := by
  refine eq_of_name hpass ?_ hname
  cases language with
  | c | cpp | objc | objcpp =>
      simp [grammar, CFamily.cGrammar, CFamily.cppGrammar, CFamily.objcGrammar,
        CFamily.objcppGrammar, CFamily.passes, CFamily.objcPasses]
  | html | xml | feed | propertyList => exact absurd h (by decide)

/-- Bodies of loops.  In the tree of a text of a C-family language, whichever passes came before,
let a loop or a `switch` be a statement of a block.  The flow pass puts exactly what it is made of
into one node of the kind that its first word asks for, beside the other statements of the block, if
and only if no `if` with an `else` stands for an unbraced body in it. -/
theorem wraps_loop (hlanguage : language ∈ cFamily) {pass : Pass}
    (hpass : pass ∈ language.grammar.passes) (hname : pass.name = "flow") (count : Nat)
    (text : List Char) {block : Node}
    (hblock : block ∈ (language.stage count text).root.descendants)
    {front run back : List Node} {statement : CFamily.Statement} {kind : Kind}
    (hstands : statement.StandsIn block front run back) (hloop : statement.loopKind? = some kind) :
    (∃ place ∈ ((language.stage count text).analyse [pass]).root.descendants,
      place.label = block.label ∧ ∃ node ∈ place.children,
        CFamily.IsNodeOf (NodeId.isFrom (language.stage count text).next) kind run node)
    ↔ statement.isWhole = true := by
  obtain rfl := eq_flow hlanguage hpass hname
  have hlaid := language.wellLaid_stage count text
  have hnone := hidesNone_stage hlanguage count text
  generalize language.stage count text = before at hblock hlaid hnone ⊢
  have hafter : (before.analyse [⟨"flow", CFamily.flow⟩]).WellLaid False :=
    hlaid.weaken.analyse False.elim
  have hopen : Pass.isOpen block.kind = true := by
    rw [hstands.kind]
    decide
  have hnew : ∀ index, before.next ≤ index → NodeId.isFrom before.next (.fresh index) = true :=
    fun index hindex => decide_eq_true hindex
  have hold : ∀ node ∈ block.children, ∀ id ∈ node.ids, NodeId.isFrom before.next id = false := by
    intro node hnode id hid
    have hbelow : node ∈ block.descendants := Node.mem_descendants_iff.2
      (.inr (List.mem_flatMap.2 ⟨node, hnode, node.self_mem_descendants⟩))
    have hids := Node.ids_sublist (Node.mem_descendants_trans hblock hbelow)
    obtain ⟨index, hindex, rfl⟩ := hlaid.numbered.mem_iff.1 (hids.subset hid)
    exact decide_eq_false (Nat.not_le.2 hindex)
  have hnodup : block.children.Nodup :=
    (Node.nodup_children (hlaid.numbered.nodup.sublist (Node.ids_sublist hblock))).of_map
  have henough : Pass.Enough before.lines CFamily.flow (Pass.depthBound before.root) before.next
      before.root := Pass.enough_depthBound CFamily.reads_flow CFamily.sound_flow _ _
  obtain ⟨index, index', out, children, hindex, hlevels, hchildren, hmem⟩ :=
    (Pass.reaches_of_mem hblock (hstands.kind ▸ hnone)).exists_level CFamily.reads_flow
      CFamily.sound_flow hopen henough hnew
  rw [hstands.kind] at hlevels
  have hiff := CFamily.exists_isNodeOf_iff hloop hstands hold hnodup hlevels fun index' hindex' =>
    hnew index' (Nat.le_trans hindex hindex')
  rw [← hiff, Node.exists_iff_of_resembles CFamily.IsNodeOf.resembles hchildren]
  constructor
  · rintro ⟨place, hplace, hlabel, hfound⟩
    -- no other node has the name of the block
    obtain rfl : place = ⟨block.label, children⟩ :=
      List.inj_on_of_nodup_map hafter.numbered.nodup hplace hmem (congrArg Label.id hlabel)
    exact hfound
  · exact fun hfound => ⟨_, hmem, rfl, hfound⟩

/-- A loop with an `if` without an `else` for its body, behind another statement. -/
theorem wraps_loop_branch :
    Language.c ∈ cFamily
      ∧ (⟨"flow", CFamily.flow⟩ : Pass) ∈ Language.c.grammar.passes
      ∧ ∃ block ∈ (Language.c.stage 3 "void f(){a;for(;;)if(b)c;}".toList).root.descendants,
        ∃ front run back, (CFamily.Statement.led .forLoop (.branch (.plain
            ⟨[.text], by decide, by decide⟩))).StandsIn block front run back
          ∧ ∃ place ∈ ((Language.c.stage 3 "void f(){a;for(;;)if(b)c;}".toList).analyse
              [⟨"flow", CFamily.flow⟩]).root.descendants,
            place.label = block.label ∧ ∃ node ∈ place.children, CFamily.IsNodeOf
              (NodeId.isFrom (Language.c.stage 3 "void f(){a;for(;;)if(b)c;}".toList).next)
              .flowFor run node := by
  have hlanguage : Language.c ∈ cFamily := by decide
  have hpass : (⟨"flow", CFamily.flow⟩ : Pass) ∈ Language.c.grammar.passes := by
    simp [grammar, CFamily.cGrammar, CFamily.passes]
  obtain ⟨block, hblock, hkind, hfront, hrun, hfirst, hlast⟩ :
      ∃ block ∈ (Language.c.stage 3 "void f(){a;for(;;)if(b)c;}".toList).root.descendants,
        block.kind = .braces
        ∧ CFamily.significantKinds (block.children.take 3) = [.delimiter, .text, .semicolon]
        ∧ CFamily.significantKinds ((block.children.drop 3).take 6) =
          [.forKw, .parenthesis, .ifKw, .parenthesis, .text, .semicolon]
        ∧ ((block.children.drop 3).take 6).head?.any (·.kind.isSignificant) = true
        ∧ ((block.children.drop 3).take 6).getLast?.any (·.kind.isSignificant) = true := by
    decide +kernel
  have hstands : (CFamily.Statement.led .forLoop (.branch (.plain
      ⟨[.text], by decide, by decide⟩))).StandsIn block (block.children.take 3)
        ((block.children.drop 3).take 6) ((block.children.drop 3).drop 6) :=
    ⟨hkind, by simp only [List.take_append_drop],
      ⟨[.other .delimiter (by decide), .other .text (by decide), .other .semicolon (by decide)],
        hfront⟩, hrun, hfirst, hlast⟩
  exact ⟨hlanguage, hpass, block, hblock, _, _, _, hstands,
    (wraps_loop hlanguage hpass rfl 3 _ hblock hstands rfl).2 rfl⟩

/-- A loop with an `if` and its `else` for its body: the `else` is left beside the loop. -/
theorem wraps_loop_else :
    ∃ block ∈ (Language.c.stage 3 "void f(){for(;;)if(a)b;else c;}".toList).root.descendants,
      ∃ front run back, (CFamily.Statement.led .forLoop (.choice
          (.plain ⟨[.text], by decide, by decide⟩)
          (.plain ⟨[.text], by decide, by decide⟩))).StandsIn block front run back
        ∧ ¬∃ place ∈ ((Language.c.stage 3 "void f(){for(;;)if(a)b;else c;}".toList).analyse
            [⟨"flow", CFamily.flow⟩]).root.descendants,
          place.label = block.label ∧ ∃ node ∈ place.children, CFamily.IsNodeOf
            (NodeId.isFrom (Language.c.stage 3 "void f(){for(;;)if(a)b;else c;}".toList).next)
            .flowFor run node := by
  obtain ⟨block, hblock, hkind, hfront, hrun, hfirst, hlast⟩ :
      ∃ block ∈ (Language.c.stage 3 "void f(){for(;;)if(a)b;else c;}".toList).root.descendants,
        block.kind = .braces
        ∧ CFamily.significantKinds (block.children.take 1) = [.delimiter]
        ∧ CFamily.significantKinds ((block.children.drop 1).take 10) =
          [.forKw, .parenthesis, .ifKw, .parenthesis, .text, .semicolon, .elseKw, .text,
            .semicolon]
        ∧ ((block.children.drop 1).take 10).head?.any (·.kind.isSignificant) = true
        ∧ ((block.children.drop 1).take 10).getLast?.any (·.kind.isSignificant) = true := by
    decide +kernel
  refine ⟨block, hblock, block.children.take 1, (block.children.drop 1).take 10,
    (block.children.drop 1).drop 10, ⟨hkind, by simp only [List.take_append_drop],
      ⟨[.other .delimiter (by decide)], hfront⟩, hrun, hfirst, hlast⟩, ?_⟩
  rintro ⟨place, hplace, -, node, hnode, hof⟩
  have hbelow : node ∈ ((Language.c.stage 3 "void f(){for(;;)if(a)b;else c;}".toList).analyse
      [⟨"flow", CFamily.flow⟩]).root.descendants :=
    Node.mem_descendants_trans hplace (Node.mem_descendants_iff.2
      (.inr (List.mem_flatMap.2 ⟨node, hnode, node.self_mem_descendants⟩)))
  -- the only node of a `for` loop ends in front of the `else`
  have hshort : ∀ node ∈ ((Language.c.stage 3 "void f(){for(;;)if(a)b;else c;}".toList).analyse
      [⟨"flow", CFamily.flow⟩]).root.descendants, node.kind = .flowFor →
      CFamily.significantKinds (node.erase (NodeId.isFrom
        (Language.c.stage 3 "void f(){for(;;)if(a)b;else c;}".toList).next)) =
          [.forKw, .parenthesis, .ifKw, .parenthesis, .text, .semicolon] := by
    decide +kernel
  have hkinds := hshort node hbelow hof.kind
  rw [hof.erase, hrun] at hkinds
  cases hkinds

end Language

end ConcreteSyntax
