import ConcreteSyntax.Proofs.CFamily.Pound

/-!
# Directives in a scan

A directive is found by its name, and ends at the end of its line.  What is scanned up to its name
does not depend on its interior, and neither does what is scanned behind it, apart from what the
line break shows of the interior (`Table.SparesDirectives.exists_scansAround`).
-/

namespace ConcreteSyntax

/-! ## The interior of a directive -/

namespace CFamily

/-- Whether a text may stand behind the name of a directive on its line. -/
structure IsInterior (interior : List Char) : Prop where
  plain : ∀ c ∈ interior, Text.isLineBreak c = false ∧ c ≠ '\\'
  start : interior.head?.any Text.isIdentifier = false

instance (interior : List Char) : Decidable (IsInterior interior) :=
  decidable_of_iff (interior.all (fun c => !Text.isLineBreak c && c != '\\') = true
      ∧ interior.head?.any Text.isIdentifier = false)
    ⟨fun h => ⟨by simpa using h.1, h.2⟩, fun h => ⟨by simpa using h.plain, h.start⟩⟩

/-- A directive ends at the end of its line. -/
theorem seek_lineEnd {interior behind : List Char}
    (hinterior : ∀ c ∈ interior, Text.isLineBreak c = false ∧ c ≠ '\\')
    (hbehind : behind = [] ∨ ∃ rest, behind = '\n' :: rest) (left : LeftContext) :
    (Pattern.custom lineEnd).seek (some '\\') left (interior ++ behind) = (interior.length, 0) := by
  induction interior generalizing left with
  | nil =>
      rcases hbehind with rfl | ⟨_ | ⟨c, rest⟩, rfl⟩ <;> rfl
  | cons c interior ih =>
      rw [List.forall_mem_cons] at hinterior
      obtain ⟨⟨hbreak, hescape⟩, hrest⟩ := hinterior
      have hnone : (Pattern.custom lineEnd).length? ⟨left, c :: (interior ++ behind)⟩ = none := by
        refine if_neg fun heq => ?_
        obtain rfl := Option.some.inj heq
        cases hbreak
      by_cases hnil : interior ++ behind = []
      · rw [List.cons_append]
        rw [hnil] at hnone ⊢
        obtain ⟨rfl, -⟩ := List.append_eq_nil_iff.1 hnil
        simp only [Pattern.seek, hnone]
        rfl
      · rw [List.cons_append, Pattern.seek_cons _ _ _ _ hnil, hnone]
        dsimp only
        rw [if_neg fun heq => hescape (Option.some.inj heq), ih hrest]
        rfl

/-- What stands between the pound sign and the end of the name are blanks and the name. -/
theorem front_of_directive {name : String} (hname : IsWord name.toList) {left : LeftContext}
    {front behind : List Char}
    (h : directive name ⟨left, '#' :: (front ++ behind)⟩ = some (front.length + 1)) :
    ∃ blanks, (∀ c ∈ blanks, Text.isBlank c = true) ∧ front = blanks ++ name.toList := by
  obtain ⟨-, _, hrest, hword, hlength⟩ := (directive_eq_some_iff hname).1 h
  obtain rfl := (List.cons.inj hrest).2
  refine ⟨(front ++ behind).takeWhile Text.isBlank, fun c hc => List.mem_takeWhile_imp hc, ?_⟩
  have hsplit : front ++ behind = (front ++ behind).takeWhile Text.isBlank ++ (name.toList
      ++ ((front ++ behind).dropWhile Text.isBlank).dropWhile Text.isIdentifier) := by
    rw [← hword, directiveWord, List.takeWhile_append_dropWhile, List.takeWhile_append_dropWhile]
  rw [← List.append_assoc] at hsplit
  exact (List.append_inj hsplit (by rw [List.length_append]; omega)).1

/-- The name of a directive stands in the line of its pound sign. -/
theorem notMem_of_directive {name : String} (hname : IsWord name.toList) {left : LeftContext}
    {front behind : List Char}
    (h : directive name ⟨left, '#' :: (front ++ behind)⟩ = some (front.length + 1)) :
    '\n' ∉ '#' :: front := by
  obtain ⟨blanks, hblanks, rfl⟩ := front_of_directive hname h
  rw [List.mem_cons, List.mem_append, not_or, not_or]
  refine ⟨by decide, fun hmem => ?_, fun hmem => ?_⟩
  · cases hblanks _ hmem
  · cases hname.2 _ hmem

/-- Where a directive is found, the same word behind the pound sign is found whatever follows it,
and no other is. -/
theorem directive_behind {name other : String} (hname : IsWord name.toList)
    (hother : IsWord other.toList) {left : LeftContext} {front behind : List Char}
    (h : directive name ⟨left, '#' :: (front ++ behind)⟩ = some (front.length + 1))
    {behind' : List Char} (hbehind' : behind'.head?.any Text.isIdentifier = false) {n : Nat} :
    directive other ⟨left, '#' :: (front ++ behind')⟩ = some n ↔
      other.toList = name.toList ∧ n = front.length + 1 := by
  obtain ⟨hblank, -, -, -, -⟩ := (directive_eq_some_iff hname).1 h
  obtain ⟨blanks, hblanks, rfl⟩ := front_of_directive hname h
  have hhead : ∀ behind, (name.toList ++ behind).head?.any Text.isBlank = false := by
    intro behind
    obtain ⟨c, rest, hc⟩ := List.exists_cons_of_ne_nil hname.1
    have hidentifier := hname.2 c (by rw [hc]; exact List.mem_cons_self ..)
    rw [hc]
    change Text.isBlank c = false
    rw [Text.isBlank, Bool.or_eq_false_iff, beq_eq_false_iff_ne, beq_eq_false_iff_ne]
    constructor <;> rintro rfl <;> cases hidentifier
  have hblanks' : ((blanks ++ name.toList) ++ behind').takeWhile Text.isBlank = blanks := by
    rw [List.append_assoc]
    exact takeWhile_of_all hblanks (hhead behind')
  have hword' : directiveWord ((blanks ++ name.toList) ++ behind') = name.toList := by
    have hdrop := List.takeWhile_append_dropWhile (p := Text.isBlank)
      (l := (blanks ++ name.toList) ++ behind')
    rw [hblanks', List.append_assoc, List.append_cancel_left_eq] at hdrop
    rw [directiveWord, List.append_assoc, hdrop]
    exact takeWhile_of_all hname.2 hbehind'
  rw [directive_eq_some_iff hother]
  constructor
  · rintro ⟨_, _, heq, hother', rfl⟩
    obtain rfl := (List.cons.inj heq).2
    rw [hword'] at hother'
    refine ⟨hother'.symm, ?_⟩
    rw [hblanks', ← hother', List.length_append]
    omega
  · rintro ⟨heq, rfl⟩
    refine ⟨hblank, _, rfl, by rw [hword', heq], ?_⟩
    rw [hblanks', heq, List.length_append]
    omega

/-- Whether a text is empty or begins with a line feed. -/
def EndsLine (text : List Char) : Prop := text = [] ∨ ∃ rest, text = '\n' :: rest

theorem IsInterior.head?_append {interior behind : List Char} (h : IsInterior interior)
    (hbehind : EndsLine behind) : (interior ++ behind).head?.any Text.isIdentifier = false := by
  cases interior with
  | nil => rcases hbehind with rfl | ⟨rest, rfl⟩ <;> rfl
  | cons c interior => exact h.start

end CFamily

open CFamily (IsInterior EndsLine directive)

/-- What the spec of a directive recognises. -/
theorem Spec.IsDirective.recognise?_eq {spec : Spec} {name : String} (h : spec.IsDirective name)
    (cx : Context) :
    spec.recognise? cx = (directive name cx).map fun n =>
      .delimited spec.kind n (spec.seekClosing (cx.advance n)).1
        (spec.seekClosing (cx.advance n)).2 := by
  have hshape : spec.shape = .delimitedContainer := by
    rw [h.eq]
    exact CFamily.shape_directiveSpec h.kind name
  have hlength : spec.opening.length? cx = directive name cx := by
    rw [h.eq]
    rfl
  unfold recognise?
  rw [hlength]
  cases hfound : directive name cx with
  | none => simp [hshape]
  | some n =>
      obtain ⟨m, rfl⟩ := Nat.exists_eq_succ_of_ne_zero
        (Nat.pos_iff_ne_zero.1 (CFamily.measures_directive name cx n hfound).1)
      simp [hshape]

namespace Table

variable {table : Table} {kind : Kind} {left : LeftContext} {front behind : List Char}

/-- A directive is recognised by a spec of its own, and begins with a pound sign. -/
theorem SparesDirectives.exists_of_directive (h : table.SparesDirectives) {tail : List Char}
    {length inner closing : Nat}
    (hfound : table.recognise? none ⟨left, tail⟩ = some (.delimited kind length inner closing))
    (hkind : KindSet.directives.contains kind = true) :
    ∃ before spec after name, table.candidates = before ++ spec :: after
      ∧ spec.IsDirective name ∧ spec.kind = kind ∧ directive name ⟨left, tail⟩ = some length
      ∧ (∀ other ∈ before, other.recognise? ⟨left, tail⟩ = none)
      ∧ ∃ word behind, tail = '#' :: (word ++ behind) ∧ length = word.length + 1 := by
  obtain ⟨before, spec, after, hcandidates, _, hspec, hnone⟩ := exists_of_recognise? hfound
  have hmem : spec ∈ table.candidates := by simp [hcandidates]
  obtain rfl : kind = spec.kind := Spec.kind_of_recognise? hspec 0 []
  obtain ⟨name, hdirective⟩ := (h.specs spec hmem).pound.resolve_right fun hother => by
    rw [hother.1] at hkind
    cases hkind
  rw [hdirective.recognise?_eq, Option.map_eq_some_iff] at hspec
  obtain ⟨n, hname, hn⟩ := hspec
  obtain rfl : n = length := by injection hn
  refine ⟨before, spec, after, name, hcandidates, hdirective, rfl, hname,
    fun other hother => hnone other hother rfl, ?_⟩
  obtain ⟨hpos, hle⟩ := CFamily.measures_directive name _ n hname
  obtain ⟨-, rest, rfl, -⟩ := (CFamily.directive_eq_some_iff hdirective.word).1 hname
  simp only [List.length_cons] at hle
  refine ⟨rest.take (n - 1), rest.drop (n - 1), by rw [List.take_append_drop], ?_⟩
  rw [List.length_take]
  omega

/-- A directive that is recognised somewhere is recognised there whatever its interior is. -/
theorem SparesDirectives.recognise?_behind (h : table.SparesDirectives) {inner closing : Nat}
    (hfound : table.recognise? none ⟨left, '#' :: (front ++ behind)⟩ =
      some (.delimited kind (front.length + 1) inner closing))
    (hkind : KindSet.directives.contains kind = true) {interior after : List Char}
    (hinterior : IsInterior interior) (hafter : EndsLine after) :
    table.recognise? none ⟨left, '#' :: (front ++ (interior ++ after))⟩ =
      some (.delimited kind (front.length + 1) interior.length 0) := by
  obtain ⟨before, spec, behindSpec, name, hcandidates, hdirective, rfl, hname, hnone, -⟩ :=
    h.exists_of_directive hfound hkind
  have hspecs := h.specs
  rw [hcandidates] at hspecs
  have hhead := hinterior.head?_append hafter
  refine List.findSome?_eq_some_iff.2
    ⟨before, spec, behindSpec, hcandidates, ?_, fun other hother => ?_⟩
  · have hname' := (CFamily.directive_behind hdirective.word hdirective.word hname hhead).2 ⟨rfl, rfl⟩
    have hseek : spec.seekClosing (Context.advance ⟨left, '#' :: (front ++ (interior ++ after))⟩
        (front.length + 1)) = (interior.length, 0) := by
      rw [hdirective.eq]
      unfold Context.advance
      rw [List.drop_succ_cons, List.drop_left]
      exact CFamily.seek_lineEnd hinterior.plain hafter _
    change spec.recognise? _ = _
    rw [hdirective.recognise?_eq, hname', Option.map_some, hseek]
  · have hmisses := hnone other hother
    change other.recognise? _ = none
    rcases (hspecs other (by simp [hother])).pound with ⟨otherName, hother⟩ | ⟨_, hsame⟩
    · rw [hother.recognise?_eq, Option.map_eq_none_iff] at hmisses ⊢
      refine Option.eq_none_iff_forall_ne_some.2 fun n hn => ?_
      obtain ⟨heq, -⟩ := (CFamily.directive_behind hdirective.word hother.word hname hhead).1 hn
      rw [String.toList_inj.1 heq, hname] at hmisses
      cases hmisses
    · rw [← hmisses]
      exact hsame _ _ _

theorem scan_eq_scanFrom (table : Table) (text : List Char) :
    table.scan text = table.scanFrom none 0 .atStart text := by
  rw [scan, scanRange, Text.slice_whole]
  simp only [Range.ofLength, Text.takeBytes_zero, LeftContext.ofText_nil]

/-- What a scan makes of a delimited container that has no closing marker. -/
theorem scanFrom_of_delimited {restrict : Option KindSet} {opening interior : List Char}
    (h : table.recognise? restrict ⟨left, opening ++ (interior ++ behind)⟩ =
      some (.delimited kind opening.length interior.length 0))
    (hne : opening ≠ []) (offset : Nat) :
    table.scanFrom restrict offset left (opening ++ (interior ++ behind)) =
      .delimited kind ⟨offset, opening⟩ ⟨offset + Text.byteLength opening, interior⟩
          ⟨offset + Text.byteLength opening + Text.byteLength interior, []⟩ ::
        table.scanFrom restrict (offset + Text.byteLength opening + Text.byteLength interior)
          (left.after (opening ++ interior)) behind := by
  have hscan := scanFrom_of_found ⟨left, opening ++ (interior ++ behind)⟩
    (by simp [hne]) h offset
  have hlength : (opening ++ interior).length = opening.length + (interior.length + 0) := by
    rw [List.length_append, Nat.add_zero]
  simp only [Context.advance, Found.length, Found.toSpan, Fragment.stop, List.take_left,
    List.drop_left, List.take_zero] at hscan
  rw [← List.append_assoc, ← hlength, List.take_left, List.drop_left, Text.byteLength_append,
    ← Nat.add_assoc, List.append_assoc] at hscan
  exact hscan

/-- A delimited span of a scan is recognised behind the spans before it. -/
theorem exists_of_mem_scan {text : List Char} {opening inner closing : Fragment}
    (hspan : .delimited kind opening inner closing ∈ table.scan text) :
    ∃ spans rest tail length innerLength closingLength,
      table.scan text = spans ++ rest ∧ text = spans.flatMap Span.chars ++ tail
        ∧ table.recognise? none ⟨LeftContext.atStart.after (spans.flatMap Span.chars), tail⟩ =
          some (.delimited kind length innerLength closingLength)
        ∧ opening = ⟨Text.byteLength (spans.flatMap Span.chars), tail.take length⟩ := by
  obtain ⟨spans, rest, hscan⟩ := List.append_of_mem hspan
  have hplace : table.scanFrom none 0 (Context.mk .atStart text).toLeftContext
    (Context.mk .atStart text).rest = spans ++ _ := (table.scan_eq_scanFrom text).symm.trans hscan
  obtain ⟨tail, htext, hafter⟩ := scanFrom_eq_append hplace
  have hthere : table.scanFrom none (0 + Text.byteLength (spans.flatMap Span.chars))
    (Context.mk (LeftContext.atStart.after (spans.flatMap Span.chars)) tail).toLeftContext
    (Context.mk (LeftContext.atStart.after (spans.flatMap Span.chars)) tail).rest = _ :=
      hafter.symm
  obtain ⟨n, -, -, -, ⟨found, hfound, -, heq⟩ | ⟨-, -, heq⟩⟩ := scanFrom_cases hthere
  · obtain ⟨⟩ | ⟨⟩ | ⟨⟩ | ⟨kind', length, innerLength, closingLength⟩ := found <;> try cases heq
    refine ⟨spans, _, tail, length, innerLength, closingLength, hscan, htext, hfound, ?_⟩
    rw [Nat.zero_add]
  · cases heq

/-- How texts are scanned around a directive whose name ends where `before` does.  They begin with
the same spans whatever the interior of the directive is, and the directive ends at the end of its
line. -/
structure ScansAround (table : Table) (kind : Kind) (opening : Fragment) (before : List Char)
    (spans : List Span) : Prop where
  text : before = spans.flatMap Span.chars ++ opening.chars
  start : opening.start = Text.byteLength (spans.flatMap Span.chars)
  ne_nil : opening.chars ≠ []
  notMem : '\n' ∉ opening.chars
  scan : ∀ {interior after}, IsInterior interior → EndsLine after → ∃ left,
    table.scan (before ++ (interior ++ after)) =
      spans ++ .delimited kind opening ⟨Text.byteLength before, interior⟩
          ⟨Text.byteLength before + Text.byteLength interior, []⟩ ::
        table.scanFrom none (Text.byteLength before + Text.byteLength interior) left after

/-- Wherever a directive is scanned, it is scanned with any other interior. -/
theorem SparesDirectives.exists_scansAround (h : table.SparesDirectives) {before : List Char}
    {opening inner closing : Fragment}
    (hspan : .delimited kind opening inner closing ∈ table.scan (before ++ behind))
    (hkind : KindSet.directives.contains kind = true)
    (hstop : opening.stop = Text.byteLength before) :
    ∃ spans, table.ScansAround kind opening before spans := by
  obtain ⟨spans, rest, tail, length, _, _, hscan, htext, hfound, rfl⟩ := exists_of_mem_scan hspan
  generalize hchars : spans.flatMap Span.chars = front at *
  obtain ⟨_, _, _, _, -, hdirective, -, hname, -, word, behind', rfl, rfl⟩ :=
    h.exists_of_directive hfound hkind
  have hopening : ('#' :: (word ++ behind')).take (word.length + 1) = '#' :: word := by
    rw [List.take_succ_cons, List.take_left]
  rw [hopening] at hstop ⊢
  -- the name ends where the text in front does
  obtain ⟨rfl, rfl⟩ : before = front ++ '#' :: word ∧ behind = behind' := by
    refine Text.append_inj_of_byteLength (htext.trans (by simp)) ?_
    rw [← hstop, Fragment.stop, Text.byteLength_append]
  refine ⟨spans, by rw [hchars], by rw [hchars], List.cons_ne_nil _ _,
    CFamily.notMem_of_directive hdirective.word hname, fun {interior after} hinterior hafter => ?_⟩
  have hfound' : table.recognise? none ⟨LeftContext.atStart.after front,
      ('#' :: word) ++ (interior ++ after)⟩ =
        some (.delimited kind ('#' :: word).length interior.length 0) :=
    h.recognise?_behind hfound hkind hinterior hafter
  have hrest := scanFrom_of_delimited hfound' (List.cons_ne_nil _ _) (Text.byteLength front)
  refine ⟨(LeftContext.atStart.after front).after (('#' :: word) ++ interior), ?_⟩
  rw [scan_eq_scanFrom, List.append_assoc, List.cons_append] at hscan ⊢
  rw [scanFrom_before h.stopsAt hchars hscan, Nat.zero_add, Text.byteLength_append, ← hrest]
  rfl

end Table

/-! ## Where directives stand -/

/-- Whether a span is what specs of a shape recognise. -/
def Span.IsOf (shape : Shape) : Span → Prop
  | .opener _ _ => shape = .paired
  | .delimited _ _ _ _ => shape = .delimitedContainer
  | .leaf _ _ | .closer _ _ => True

theorem Spec.isOf_toSpan {spec : Spec} {cx : Context} {found : Found}
    (h : spec.recognise? cx = some found) (offset : Nat) (rest : List Char) :
    (found.toSpan offset rest).IsOf spec.shape := by
  unfold recognise? at h
  split at h
  · cases h
  · split at h <;> rename_i hshape <;> obtain rfl := Option.some.inj h
    · trivial
    · trivial
    · exact hshape
    · exact hshape
  · split at h
    · split at h
      · obtain rfl := Option.some.inj h
        trivial
      · cases h
    · cases h

namespace Table

variable {table : Table} {kind : Kind} {restrict : Option KindSet} {offset : Nat}
  {left : LeftContext} {rest : List Char}

/-- A span is text, or of the kind of a spec and as its shape says. -/
theorem exists_spec_of_mem_scanFrom {span : Span}
    (h : span ∈ table.scanFrom restrict offset left rest) :
    (∃ text, span = .leaf .text text)
      ∨ ∃ spec ∈ table.candidates, span.kind = spec.kind ∧ span.IsOf spec.shape := by
  fun_induction scanFrom table restrict offset left rest with
  | case1 => cases h
  | case2 offset left c tail found hfound taken ih =>
      rcases List.mem_cons.1 h with rfl | h
      · obtain ⟨before, spec, after, hcandidates, -, hspec, -⟩ := exists_of_recognise? hfound
        exact .inr ⟨spec, by simp [hcandidates], Spec.kind_of_recognise? hspec _ _,
          Spec.isOf_toSpan hspec _ _⟩
      · exact ih h
  | case3 offset left c tail hfound taken ih =>
      rcases List.mem_cons.1 h with rfl | h
      · exact .inl ⟨_, rfl⟩
      · exact ih h

/-- Whether directives are the only delimited containers of a table, and are not looked for inside
of each other. -/
def IsolatesDirectives (table : Table) : Prop :=
  ∀ spec ∈ table.candidates, spec.shape = .delimitedContainer →
    KindSet.directives.contains spec.kind = true
      ∧ ∃ kinds, (table.spec? spec.kind).bind (·.interior) = some kinds
        ∧ ∀ other, KindSet.directives.contains other = true → kinds.contains other = false

theorem isolatesDirectives_ofCatalogue {specs : List Spec}
    (h : specs.all (fun spec => spec.shape != .delimitedContainer
      || (KindSet.directives.contains spec.kind
        && ((specs.find? (·.kind == spec.kind)).bind (·.interior)).any fun kinds =>
          KindSet.directives.toList.all fun other => !kinds.contains other)) = true) :
    (ofCatalogue specs).IsolatesDirectives := by
  intro spec hspec hshape
  have hall := List.all_eq_true.1 h spec (mem_of_mem_candidates hspec)
  rw [hshape, Bool.or_eq_true, Bool.and_eq_true, Option.any_eq_true] at hall
  obtain ⟨hkind, kinds, hkinds, hothers⟩ := hall.resolve_left (by decide)
  refine ⟨hkind, kinds, by rwa [spec?, specs_ofCatalogue], fun other hother => ?_⟩
  have hnot := List.all_eq_true.1 hothers other (KindSet.mem_toList.2 hother)
  rwa [Bool.not_eq_true'] at hnot

/-- No opener is of a kind of directives. -/
theorem SparesDirectives.kind_opener (h : table.SparesDirectives) {text : Fragment}
    (hspan : .opener kind text ∈ table.scanFrom restrict offset left rest) :
    KindSet.directives.contains kind = false := by
  obtain ⟨_, hleaf⟩ | ⟨spec, hspec, rfl, hshape⟩ := exists_spec_of_mem_scanFrom hspan
  · cases hleaf
  refine ((h.specs spec hspec).pound.resolve_left ?_).1
  rintro ⟨name, hdirective⟩
  have hshape' := CFamily.shape_directiveSpec hdirective.kind name
  rw [← hdirective.eq, show spec.shape = .paired from hshape] at hshape'
  cases hshape'

/-- All delimited containers are directives, and no directives are looked for in them. -/
theorem IsolatesDirectives.of_delimited (h : table.IsolatesDirectives)
    {opening inner closing : Fragment}
    (hspan : .delimited kind opening inner closing ∈ table.scanFrom restrict offset left rest) :
    ∃ kinds, (table.spec? kind).bind (·.interior) = some kinds
      ∧ ∀ other, KindSet.directives.contains other = true → kinds.contains other = false := by
  obtain ⟨_, hleaf⟩ | ⟨spec, hspec, rfl, hshape⟩ := exists_spec_of_mem_scanFrom hspan
  · cases hleaf
  · exact (h spec hspec hshape).2

end Table

theorem Language.isolatesDirectives_table {language : Language} (h : language ∈ cFamily) :
    language.grammar.table.IsolatesDirectives := by
  cases language with
  | c | cpp | objc | objcpp =>
      exact Table.isolatesDirectives_ofCatalogue (by decide +kernel)
  | html | xml | feed | propertyList => exact absurd h (by decide)

end ConcreteSyntax
