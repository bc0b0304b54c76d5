import ConcreteSyntax.Proofs.Analysis.Cutout
import ConcreteSyntax.Proofs.CFamily.Directives
import ConcreteSyntax.Proofs.Language
import ConcreteSyntax.Proofs.Pairing.Account
import ConcreteSyntax.Proofs.Pairing.Cutout

/-!
# Interiors of directives

What stands behind the name of a directive on its line is not seen outside the node of the
directive, whatever brackets, quotes or comments begin there.  The tree and the problems of a text
are the same for each such interior, apart from the places behind it, and so is the tree that
analysis makes of it (`Language.outside_directive`).
-/

namespace ConcreteSyntax

/-! ## Passes -/

namespace CFamily

open Plan

theorem blind_conditional : Blind conditionalPlan := fun _ _ _ => rfl

theorem blind_types : Blind typesPlan := by
  refine blind_dispatch fun head _ => ?_
  unfold typeAtPlan
  split <;> exact fun _ _ _ => rfl

theorem blind_function : Blind functionPlan := fun _ _ _ => rfl

theorem blind_flow : Blind flowPlan := by
  refine blind_dispatch fun head _ => ?_
  split <;> exact fun _ _ _ => rfl

theorem blind_call : Blind callPlan := fun _ _ _ => rfl

theorem blind_labels : Blind labelsPlan := by
  refine blind_guarded (fun _ _ => rfl) (blind_dispatch fun head _ => ?_)
  unfold labelAtPlan
  split <;> exact fun _ _ _ => rfl

theorem blind_classes : Blind classesPlan := by
  refine blind_dispatch fun head _ => ?_
  unfold classAtPlan
  split <;> exact fun _ _ _ => rfl

/-- Messages look into brackets, and brackets are no directives. -/
theorem blind_messages : Blind messagesPlan := by
  refine blind_dispatch fun head hhead => ?_
  unfold callAtPlan
  split
  case h_4 => cases hhead
  all_goals exact fun _ _ _ => rfl

theorem isBlind_passes : ∀ pass ∈ passes, pass.IsBlind := by
  simp only [passes, List.forall_mem_cons]
  exact ⟨⟨_, reads_conditional, sound_conditional, blind_conditional⟩,
    ⟨_, reads_types, sound_types, blind_types⟩,
    ⟨_, reads_function, sound_function, blind_function⟩,
    ⟨_, reads_flow, sound_flow, blind_flow⟩, ⟨_, reads_labels, sound_labels, blind_labels⟩,
    ⟨_, reads_call, sound_call, blind_call⟩, by simp⟩

theorem isBlind_objcPasses : ∀ pass ∈ objcPasses, pass.IsBlind := by
  simp only [objcPasses, List.forall_mem_cons]
  exact ⟨⟨_, reads_conditional, sound_conditional, blind_conditional⟩,
    ⟨_, reads_classes, sound_classes, blind_classes⟩,
    ⟨_, reads_types, sound_types, blind_types⟩,
    ⟨_, reads_function, sound_function, blind_function⟩,
    ⟨_, reads_flow, sound_flow, blind_flow⟩, ⟨_, reads_labels, sound_labels, blind_labels⟩,
    ⟨_, reads_messages, sound_messages, blind_messages⟩, by simp⟩

end CFamily

namespace Language

variable {language : Language}

theorem isBlind_passes (language : Language) :
    ∀ pass ∈ language.grammar.passes, pass.IsBlind := by
  cases language with
  | c | cpp => exact CFamily.isBlind_passes
  | objc | objcpp => exact CFamily.isBlind_objcPasses
  | html | xml | feed | propertyList => exact fun _ hpass => absurd hpass List.not_mem_nil

theorem markup_of_cFamily (h : language ∈ cFamily) : language.grammar.markup = none := by
  cases language with
  | c | cpp | objc | objcpp => rfl
  | html | xml | feed | propertyList => exact absurd h (by decide)

theorem prepare_of_cFamily (h : language ∈ cFamily) (text : List Char) :
    language.prepare text = LineEndings.unify text := by
  cases language with
  | c | cpp | objc | objcpp => rfl
  | html | xml | feed | propertyList => exact absurd h (by decide)

end Language

/-! ## Directives in a tree -/

/-- Whether a tree has a directive whose name ends at a place. -/
def Node.hasDirectiveAt (node : Node) (place : Nat) : Bool :=
  node.descendants.any fun below =>
    KindSet.directives.contains below.kind && below.children.head?.any (·.range.stop == place)

/-- Each sequence of spans of a text is a scan. -/
theorem Table.Scans.exists_scanFrom {table : Table} {text : List Char} {spans : List Span}
    (h : table.Scans text spans) :
    ∃ restrict offset left rest, spans = table.scanFrom restrict offset left rest := by
  cases h with
  | whole => exact ⟨_, _, _, _, rfl⟩
  | interior => exact ⟨_, _, _, _, rfl⟩

/-- No directives are looked for in the interiors of delimited containers. -/
theorem Table.IsolatesDirectives.mem_scan {table : Table} (h : table.IsolatesDirectives)
    {text : List Char} {spans : List Span} (hspans : table.Scans text spans) {span : Span}
    (hspan : span ∈ spans) (hkind : KindSet.directives.contains span.kind = true) :
    span ∈ table.scan text := by
  cases hspans with
  | whole => exact hspan
  | interior houter hdelimited =>
      obtain ⟨_, _, _, _, rfl⟩ := houter.exists_scanFrom
      obtain ⟨kinds, hkinds, hnone⟩ := h.of_delimited hdelimited
      have hother := @kind_scanFrom table
        (fun kind => KindSet.directives.contains kind = false) (some kinds) (by decide)
        (fun spec _ hallowed => by
          by_contra hdirective
          rw [Bool.not_eq_false] at hdirective
          rw [Option.all_some, hnone _ hdirective] at hallowed
          cases hallowed)
      rw [scanInterior, hkinds] at hspan
      rw [hother _ _ _ span hspan] at hkind
      cases hkind

/-- A directive of the tree is one of the scan. -/
theorem Parse.exists_delimited {grammar : Grammar} (hmarkup : grammar.markup = none)
    (hspares : grammar.table.SparesDirectives) (hisolates : grammar.table.IsolatesDirectives)
    {text : List Char} {node : Node} (hnode : node ∈ (build grammar text).root.descendants)
    (hkind : KindSet.directives.contains node.kind = true) (hchildren : node.children ≠ []) :
    ∃ opening interior closing,
      .delimited node.kind opening interior closing ∈ grammar.table.scan text
        ∧ node.IsDelimited node.kind opening closing := by
  obtain ⟨group, hcovers⟩ := Grouping.exists_covers grammar hmarkup text
  have hbelow := (Node.mem_descendants_iff.1 hnode).resolve_left fun hroot => by
    rw [hroot] at hkind
    change KindSet.directives.contains .root = true at hkind
    cases hkind
  obtain ⟨spans, hspans, kind, opening, hcontainer⟩ := hcovers.isContainerOf hbelow hchildren
  rcases hcontainer with ⟨hopener, hopens⟩ | ⟨interior, closing, hdelimited, hnode⟩
  · obtain ⟨_, _, _, _, rfl⟩ := hspans.exists_scanFrom
    rw [hopens.kind, hspares.kind_opener hopener] at hkind
    cases hkind
  · obtain rfl := hnode.opens.kind
    exact ⟨opening, interior, closing, hisolates.mem_scan hspans hdelimited hkind, hnode⟩

/-- Where the name of a directive ends in the tree, it ends in the scan. -/
theorem Parse.exists_directive {grammar : Grammar} (hmarkup : grammar.markup = none)
    (hspares : grammar.table.SparesDirectives) (hisolates : grammar.table.IsolatesDirectives)
    {text : List Char} {place : Nat} (h : (build grammar text).root.hasDirectiveAt place = true) :
    ∃ kind opening interior closing,
      .delimited kind opening interior closing ∈ grammar.table.scan text
        ∧ KindSet.directives.contains kind = true ∧ opening.stop = place := by
  obtain ⟨node, hnode, hdirective⟩ := List.any_eq_true.1 h
  rw [Bool.and_eq_true, Option.any_eq_true] at hdirective
  obtain ⟨hkind, first, hfirst, hplace⟩ := hdirective
  have hchildren : node.children ≠ [] := fun hnil => by
    rw [hnil] at hfirst
    cases hfirst
  obtain ⟨opening, interior, closing, hdelimited, hnode⟩ :=
    exists_delimited hmarkup hspares hisolates hnode hkind hchildren
  refine ⟨node.kind, opening, interior, closing, hdelimited, hkind, ?_⟩
  obtain ⟨marker, rest, hmarkers, hmarker⟩ := hnode.opens.marker
  rw [hmarkers, List.head?_cons, Option.some.injEq] at hfirst
  rw [← eq_of_beq hplace, ← hfirst, hmarker.range]
  rfl

/-! ## Texts that differ in the interior of a directive -/

/-- The spans in front of a directive lie in the text in front of it. -/
theorem Table.liesIn_front {table : Table} {text behind : List Char} {spans rest : List Span}
    {kind : Kind} {opening interior closing : Fragment}
    (hscan : table.scan text = spans ++ .delimited kind opening interior closing :: rest)
    (hstart : opening.start = Text.byteLength (spans.flatMap Span.chars))
    (htext : text = spans.flatMap Span.chars ++ behind) :
    ∀ span ∈ spans, span.LiesIn (spans.flatMap Span.chars) := by
  have hchain := table.chain_scanFrom none 0 .atStart text
    ⟨[], [], (List.append_nil text).symm, rfl⟩
  rw [scan_eq_scanFrom] at hscan
  rw [hscan, List.flatMap_append, chain_append] at hchain
  obtain ⟨middle, hspans, hmiddle⟩ := hchain
  have hopening : opening.start = middle := hmiddle.1
  rw [← hopening, hstart] at hspans
  exact liesIn_of_chain hspans htext (hscan ▸ List.subset_append_left _ _)

namespace Grammar

variable {grammar : Grammar} {gap gap' : Gap} {lines lines' : LineIndex}

/-- Spans of a stretch that two texts share are the same outside gaps. -/
theorem spans_alike (hmarkup : grammar.markup = none) (hgaps : gap.Alike gap' lines lines')
    {start start' : Nat} {chars : List Char}
    (h : Aligned gap gap' lines.text lines'.text start start' chars) {spans : List Span}
    (hspans : ∀ span ∈ spans, span.LiesIn chars) :
    List.Forall₂ (Span.Alike gap gap' grammar.table
        (grammar.pairRange lines (Text.byteLength lines.text))
        (grammar.pairRange lines' (Text.byteLength lines'.text)))
      (spans.map (Span.behind start)) (spans.map (Span.behind start')) := by
  obtain ⟨before, before', after, after', htext, htext', -⟩ := h.parts
  have hlength := congrArg Text.byteLength htext
  have hlength' := congrArg Text.byteLength htext'
  simp only [Text.byteLength_append] at hlength hlength'
  exact h.forall₂_alike grammar.table (fun restrict next next' fragment hpart hshorter =>
    grammar.pairRange_alike hmarkup hgaps restrict hpart (by omega) (by omega) next next') hspans

/-- What is scanned behind a directive does not depend on it. -/
theorem rest_alike (hmarkup : grammar.markup = none) (hgaps : gap.Alike gap' lines lines')
    (hspares : grammar.table.SparesDirectives) {before before' after : List Char}
    (hafter : CFamily.EndsLine after) (htext : lines.text = before ++ after)
    (htext' : lines'.text = before' ++ after)
    (hplaces : ∀ n, gap.place? (Text.byteLength before + n) =
      gap'.place? (Text.byteLength before' + n)) (left left' : LeftContext) :
    List.Forall₂ (Span.Alike gap gap' grammar.table
        (grammar.pairRange lines (Text.byteLength lines.text))
        (grammar.pairRange lines' (Text.byteLength lines'.text)))
      (grammar.table.scanFrom none (Text.byteLength before) left after)
      (grammar.table.scanFrom none (Text.byteLength before') left' after) := by
  obtain rfl | ⟨rest, rfl⟩ := hafter
  · rw [Table.scanFrom, Table.scanFrom]
    exact .nil
  -- the line feed is a leaf, and all that a matcher sees behind it
  obtain ⟨kind, hfeed⟩ := hspares.exists_feed
  have hscan : ∀ offset left, grammar.table.scanFrom none offset left ('\n' :: rest) =
      .leaf kind ⟨offset, ['\n']⟩ ::
        (grammar.table.scanFrom none 0 ⟨'\n', true⟩ rest).map (Span.behind (offset + 1)) := by
    intro offset left
    rw [← Table.scanFrom_add]
    exact Table.scanFrom_of_found ⟨left, '\n' :: rest⟩ (List.cons_ne_nil _ _) (hfeed left rest)
      offset
  have haligned : Aligned gap gap' lines.text lines'.text (Text.byteLength before + 1)
      (Text.byteLength before' + 1) rest := by
    refine ⟨⟨before ++ ['\n'], before' ++ ['\n'], [], [], ?_, ?_, ?_, ?_, ?_⟩, fun n _ => ?_⟩
    · rw [htext, List.append_nil, List.append_assoc, List.singleton_append]
    · rw [htext', List.append_nil, List.append_assoc, List.singleton_append]
    · rw [Text.byteLength_append]
      rfl
    · rw [Text.byteLength_append]
      rfl
    · rw [LeftContext.ofText_concat, LeftContext.ofText_concat]
      rfl
    · rw [Nat.add_assoc, Nat.add_assoc]
      exact hplaces (1 + n)
  rw [hscan, hscan]
  exact .cons (.leaf kind ⟨rfl, hplaces 0, hplaces 1⟩)
    (spans_alike hmarkup hgaps haligned (grammar.table.liesIn_scanFrom none ⟨'\n', true⟩ rest))

end Grammar

/-- What is seen of a parsed text outside a gap. -/
def Parse.outside (parse : Parse) (gap : Gap) : Cutout × List Sighting :=
  (parse.root.cut gap, parse.notes.filterMap (·.cut? gap))

variable {grammar : Grammar} {kind : Kind} {opening inner closing : Fragment}
  {before behind interior interior' after : List Char}

/-- What is seen outside the interior of a directive does not depend on the interior. -/
theorem Parse.outside_build (hmarkup : grammar.markup = none)
    (hspares : grammar.table.SparesDirectives) (hbefore : '\r' ∉ before)
    (hspan : .delimited kind opening inner closing ∈ grammar.table.scan (before ++ behind))
    (hkind : KindSet.directives.contains kind = true)
    (hstop : opening.stop = Text.byteLength before) (hinterior : CFamily.IsInterior interior)
    (hinterior' : CFamily.IsInterior interior') (hafter : CFamily.EndsLine after) :
    (build grammar (before ++ (interior ++ after))).outside
        (Fragment.gap ⟨Text.byteLength before, interior⟩) =
      (build grammar (before ++ (interior' ++ after))).outside
        (Fragment.gap ⟨Text.byteLength before, interior'⟩) := by
  obtain ⟨spans, haround⟩ := hspares.exists_scansAround hspan hkind hstop
  obtain ⟨left, hscan⟩ := haround.scan hinterior hafter
  obtain ⟨left', hscan'⟩ := haround.scan hinterior' hafter
  have hgaps := Gap.alike_ofText hbefore (fun c hc => (hinterior.plain c hc).1)
    (fun c hc => (hinterior'.plain c hc).1) after
  have hopening : opening.start < Text.byteLength before :=
    hstop ▸ Fragment.start_lt_stop haround.ne_nil
  -- what stands in front of the directive
  have hfront : ∀ behind, before ++ behind =
      spans.flatMap Span.chars ++ (opening.chars ++ behind) := fun behind => by
    rw [haround.text, List.append_assoc]
  have hspans := Grammar.spans_alike hmarkup hgaps
    (.ofPrefix (hfront _) (hfront _) (haround.start ▸ hopening) (haround.start ▸ hopening))
    (Table.liesIn_front hscan haround.start (hfront _))
  rw [Span.behind_zero, List.map_id] at hspans
  -- what stands behind it
  have hrest := Grammar.rest_alike hmarkup hgaps hspares hafter
    (List.append_assoc before interior after).symm (List.append_assoc before interior' after).symm
    (Gap.place?_behind before interior interior') left left'
  rw [Text.byteLength_append, Text.byteLength_append] at hrest
  have hlength := Gap.place?_behind before interior interior' (Text.byteLength after)
  rw [← Text.byteLength_append, ← Text.byteLength_append, List.append_assoc, List.append_assoc]
    at hlength
  obtain ⟨hroot, hnotes⟩ := grammar.pair_alike hgaps hmarkup hkind hopening
    ⟨before, after, rfl, rfl⟩ ⟨before, after, rfl, rfl⟩ hscan hscan' hspans hrest hlength
  exact Prod.ext hroot hnotes

/-! ## Texts as written -/

namespace LineEndings

open Text (SplitsPair)

/-- The last line ending of a text stays the last character of it. -/
theorem getLast?_unify {before : List Char} (h : before.getLast? = some '\r') :
    (unify before).getLast? = some '\n' := by
  obtain ⟨front, rfl⟩ := List.getLast?_eq_some_iff.1 h
  have hwhole : ¬SplitsPair front ['\r'] := fun hsplit => by cases hsplit.2
  rw [unify_append hwhole]
  exact List.getLast?_concat

/-- Line endings around a text without any are unified on their own. -/
theorem unify_around (hbefore : before.getLast? ≠ some '\r')
    (hinterior : ∀ c ∈ interior, Text.isLineBreak c = false) (after : List Char) :
    unify (before ++ (interior ++ after)) = unify before ++ (interior ++ unify after) := by
  have hplain : '\r' ∉ interior := fun hmem => by cases hinterior _ hmem
  have hbehind : ¬SplitsPair interior after := fun hsplit =>
    hplain (List.mem_of_getLast? hsplit.1)
  rw [unify_append fun hsplit => hbefore hsplit.1, unify_append hbehind, unify_eq_self hplain]

/-- A text that begins with a line ending begins with a line feed when it is unified. -/
theorem endsLine_unify (h : after.head?.all Text.isLineBreak = true) :
    CFamily.EndsLine (unify after) := by
  obtain _ | ⟨c, rest⟩ := after
  · exact .inl rfl
  · have hbreak : c = '\n' ∨ c = '\r' := by simpa [Text.isLineBreak] using h
    by_cases hpair : c = '\r' ∧ rest.head? = some '\n'
    · obtain ⟨rfl, hnext⟩ := hpair
      obtain ⟨rest, rfl⟩ := List.head?_eq_some_iff.1 hnext
      exact .inr ⟨unify rest, rfl⟩
    · rw [unify_cons fun hc hnext => hpair ⟨hc, hnext⟩]
      rcases hbreak with rfl | rfl <;> exact .inr ⟨unify rest, rfl⟩

end LineEndings

namespace Language

variable {language : Language}

/-- Passes of analysis see nothing of the interior of a directive. -/
theorem outside_analyse {parse parse' : Parse} {gap gap' : Gap}
    (hgaps : gap.Alike gap' parse.lines parse'.lines) (h : parse.outside gap = parse'.outside gap')
    (language : Language) :
    (parse.analyse language.grammar.passes).outside gap =
      (parse'.analyse language.grammar.passes).outside gap' := by
  obtain ⟨hroot, hnotes⟩ := Prod.mk.inj h
  exact Prod.ext (Pass.cut_runAll language.isBlind_passes hgaps parse.next parse'.next hroot) hnotes

/-- The interior of a directive cannot disturb the rest of a text.  In a text of a C-family
language in which a directive has its name end at a place, what stands from there to the end of
the line may be any text without line breaks and backslashes that does not go on the name: outside
of the directive there are the same nodes with the same texts, and the same problems are reported
of the same markers, with and without analysis. -/
theorem outside_directive (hlanguage : language ∈ cFamily) (analysis : Bool)
    (hinterior : CFamily.IsInterior interior) (hinterior' : CFamily.IsInterior interior')
    (hafter : after.head?.all Text.isLineBreak = true)
    (hdirective : (language.parse false (before ++ (interior ++ after))).root.hasDirectiveAt
      (Text.byteLength (language.prepare before)) = true) :
    (language.parse analysis (before ++ (interior ++ after))).outside
        (Fragment.gap ⟨Text.byteLength (language.prepare before), interior⟩) =
      (language.parse analysis (before ++ (interior' ++ after))).outside
        (Fragment.gap ⟨Text.byteLength (language.prepare before), interior'⟩) := by
  have hmarkup := markup_of_cFamily hlanguage
  have hspares := sparesDirectives_table hlanguage
  have hisolates := isolatesDirectives_table hlanguage
  obtain ⟨kind, opening, inner, closing, hspan, hkind, hstop⟩ :=
    Parse.exists_directive hmarkup hspares hisolates hdirective
  obtain ⟨behind, hbehind⟩ := LineEndings.exists_unify_append before (interior ++ after)
  rw [prepare_of_cFamily hlanguage, hbehind] at hspan
  rw [prepare_of_cFamily hlanguage] at hstop
  -- the name of the directive stands at the end of a line as written as well
  have hlast : before.getLast? ≠ some '\r' := by
    intro hlast
    obtain ⟨spans, haround⟩ := hspares.exists_scansAround hspan hkind hstop
    have hfeed := LineEndings.getLast?_unify hlast
    rw [haround.text, List.getLast?_append_of_ne_nil _ haround.ne_nil] at hfeed
    exact haround.notMem (List.mem_of_getLast? hfeed)
  have hprepare : ∀ interior, CFamily.IsInterior interior →
      language.prepare (before ++ (interior ++ after)) =
        LineEndings.unify before ++ (interior ++ LineEndings.unify after) := by
    intro interior hinterior
    rw [prepare_of_cFamily hlanguage]
    exact LineEndings.unify_around hlast (fun c hc => (hinterior.plain c hc).1) after
  have hbuild := Parse.outside_build hmarkup hspares (LineEndings.notMem_unify before) hspan hkind
    hstop hinterior hinterior' (LineEndings.endsLine_unify hafter)
  have hgaps := Gap.alike_ofText (LineEndings.notMem_unify before)
    (fun c hc => (hinterior.plain c hc).1) (fun c hc => (hinterior'.plain c hc).1)
    (LineEndings.unify after)
  unfold parse
  rw [hprepare interior hinterior, hprepare interior' hinterior', prepare_of_cFamily hlanguage]
  cases analysis with
  | false => exact hbuild
  | true => exact outside_analyse hgaps hbuild language

/-- A parenthesis and a comment that begin in a directive hide nothing of the next line. -/
theorem outside_directive_comment :
    Language.c ∈ cFamily ∧ CFamily.IsInterior " (/*".toList ∧ CFamily.IsInterior []
      ∧ (Language.c.parse false
            ("#define".toList ++ (" (/*".toList ++ "\n)".toList))).root.hasDirectiveAt
          (Text.byteLength (Language.c.prepare "#define".toList)) = true
      ∧ (Language.c.parse true ("#define".toList ++ (" (/*".toList ++ "\n)".toList))).outside
          (Fragment.gap ⟨Text.byteLength (Language.c.prepare "#define".toList), " (/*".toList⟩) =
        (Language.c.parse true ("#define".toList ++ ([] ++ "\n)".toList))).outside
          (Fragment.gap ⟨Text.byteLength (Language.c.prepare "#define".toList), []⟩) := by
  have hlanguage : Language.c ∈ cFamily := by decide
  have hinterior : CFamily.IsInterior " (/*".toList := by decide
  have hempty : CFamily.IsInterior [] := by decide
  have hdirective : (Language.c.parse false
      ("#define".toList ++ (" (/*".toList ++ "\n)".toList))).root.hasDirectiveAt
        (Text.byteLength (Language.c.prepare "#define".toList)) = true := by decide +kernel
  exact ⟨hlanguage, hinterior, hempty, hdirective,
    outside_directive hlanguage true hinterior hempty (by decide) hdirective⟩

end Language

end ConcreteSyntax
