import ConcreteSyntax.Node.Cleaned
import ConcreteSyntax.Proofs.CFamily.Rules
import ConcreteSyntax.Proofs.Tokens

/-!
# Quoted literals

A string can be written between quotes, with a backslash in front of what would end the literal
or break its line.  The scanner and the decoder of literals read escapes on their own, and both
agree with the writer: a literal that is scanned for is one leaf whatever follows it, and the leaf
is cleaned to the string that was written (`Language.scan_literal`).
-/

namespace ConcreteSyntax

/-- A way to write a string: what begins the literal, and the quote that ends it. -/
structure QuotedForm where
  kind : Kind
  opening : List Char
  quote : Char
  isQuote : quote = '"' ∨ quote = '\'' := by decide

/-- A string between double quotes. -/
def QuotedForm.double : QuotedForm := ⟨.stringDoubleQuote, ['"'], '"', by decide⟩

/-- A string between single quotes. -/
def QuotedForm.single : QuotedForm := ⟨.stringSingleQuote, ['\''], '\'', by decide⟩

/-- A string object of Objective-C. -/
def QuotedForm.object : QuotedForm := ⟨.objcString, ['@', '"'], '"', by decide⟩

/-- The ways to write a string in a language. -/
def Language.quotedForms : Language → List QuotedForm
  | .c | .cpp => [.double, .single]
  | .objc | .objcpp => [.double, .single, .object]
  | .html | .xml | .feed | .propertyList => []

namespace QuotedForm

/-- How a character is written in a literal. -/
def escapeChar (form : QuotedForm) (c : Char) : List Char :=
  if c = '\\' ∨ c = form.quote then ['\\', c]
  else if c = '\n' then ['\\', 'n']
  else if c = '\r' then ['\\', 'r']
  else if c = '\t' then ['\\', 't']
  else if c = '\x00' then ['\\', '0']
  else [c]

/-- What stands between the quotes of a literal. -/
def body (form : QuotedForm) (s : List Char) : List Char := s.flatMap form.escapeChar

/-- The literal for a string. -/
def write (form : QuotedForm) (s : List Char) : List Char :=
  form.opening ++ (form.body s ++ [form.quote])

variable {form : QuotedForm}

theorem quote_ne (form : QuotedForm) : form.quote ≠ '\\' := by
  rcases form.isQuote with h | h <;> rw [h] <;> decide

/-- A character stands behind a backslash, or for itself. -/
theorem escapeChar_cases (form : QuotedForm) (c : Char) :
    (∃ d, form.escapeChar c = ['\\', d]) ∨
      form.escapeChar c = [c] ∧ c ≠ '\\' ∧ c ≠ form.quote := by
  unfold escapeChar
  split
  · exact .inl ⟨c, rfl⟩
  · rename_i hplain
    rw [not_or] at hplain
    repeat' split
    all_goals first
      | exact .inl ⟨_, rfl⟩
      | exact .inr ⟨rfl, hplain⟩

/-! ## Scanning a literal -/

/-- The search for the closing quote passes over all that is written. -/
theorem seek_body (form : QuotedForm) (s : List Char) (left : LeftContext) (behind : List Char) :
    (Pattern.literal [form.quote]).seek (some '\\') left (form.body s ++ form.quote :: behind) =
      ((form.body s).length, 1) := by
  have hmiss : ∀ {c : Char}, c ≠ form.quote → ∀ left rest,
      (Pattern.literal [form.quote]).length? ⟨left, c :: rest⟩ = none := by
    intro c hc left rest
    simp [Pattern.length?, List.isPrefixOf_cons_cons, Ne.symm hc]
  induction s generalizing left with
  | nil =>
      have hfound : ∀ left, (Pattern.literal [form.quote]).length?
          ⟨left, form.quote :: behind⟩ = some 1 := by simp [Pattern.length?]
      cases behind with
      | nil => simp [body, Pattern.seek, hfound]
      | cons d behind => simp [body, Pattern.seek, hfound]
  | cons c s ih =>
      have hne : form.body s ++ form.quote :: behind ≠ [] := by simp
      rw [body, List.flatMap_cons, ← body]
      rcases form.escapeChar_cases c with ⟨d, hwritten⟩ | ⟨hwritten, hbackslash, hquote⟩
      · -- the character behind a backslash is never looked at
        rw [hwritten, List.append_assoc, List.cons_append, List.singleton_append,
          Pattern.seek_cons _ _ _ _ (List.cons_ne_nil _ _), hmiss form.quote_ne.symm]
        simp only [if_true, List.head_cons, List.tail_cons, ih]
        rfl
      · have hescape : some c ≠ some '\\' := fun h => hbackslash (Option.some.inj h)
        rw [hwritten, List.append_assoc, List.singleton_append,
          Pattern.seek_cons _ _ _ _ hne, hmiss hquote]
        simp only [if_neg hescape, ih]
        rfl

end QuotedForm

/-! ## Reading a literal -/

theorem Text.unescape_cons {c : Char} (hc : c ≠ '\\') (rest : List Char) :
    unescape (c :: rest) = c :: unescape rest := by
  rw [unescape] <;> simp [hc]

namespace QuotedForm

variable (form : QuotedForm)

theorem unescape_escapeChar (c : Char) (rest : List Char) :
    Text.unescape (form.escapeChar c ++ rest) = c :: Text.unescape rest := by
  unfold escapeChar
  split
  · rename_i hc
    rcases hc with rfl | rfl
    · simp [Text.unescape]
    · rcases form.isQuote with h | h <;> simp [h, Text.unescape]
  · rename_i hplain
    rw [not_or] at hplain
    -- each of the other escapes names its character
    repeat' split
    iterate 4 subst c; simp [Text.unescape]
    exact Text.unescape_cons hplain.1 rest

/-- Reading the escapes of what is written gives the string. -/
theorem unescape_body (s : List Char) : Text.unescape (form.body s) = s := by
  induction s with
  | nil => simp [body, Text.unescape]
  | cons c s ih =>
      rw [body, List.flatMap_cons, unescape_escapeChar, ← body, ih]

end QuotedForm

/-! ## Recognising a literal -/

/-- Whether no marker that is a fixed text can stand where a text stands. -/
def Pattern.partsFrom (text : List Char) : Pattern → Bool
  | .literal other | .keyword other => !(other.isPrefixOf text || text.isPrefixOf other)
  | .custom _ => true

/-- Whether a pattern is a fixed text. -/
def Pattern.isText (text : List Char) : Pattern → Bool
  | .literal other => other == text
  | _ => false

theorem Pattern.eq_of_isText {text : List Char} {pattern : Pattern}
    (h : pattern.isText text = true) : pattern = .literal text := by
  cases pattern with
  | literal other => rw [eq_of_beq h]
  | keyword | custom => cases h

/-- Whether no marker of a spec that is a fixed text can stand where a text stands. -/
def Spec.partsFrom (text : List Char) (spec : Spec) : Bool :=
  spec.opening.partsFrom text
    && (spec.shape != .paired || spec.closing.all (Pattern.partsFrom text))

section

variable {text : List Char}

theorem isPrefixOf_append_of_parts {other : List Char}
    (h : (!(other.isPrefixOf text || text.isPrefixOf other)) = true) (behind : List Char) :
    other.isPrefixOf (text ++ behind) = false := by
  rw [Bool.not_eq_true', Bool.or_eq_false_iff] at h
  rw [Bool.eq_false_iff]
  intro hprefix
  rcases List.prefix_or_prefix_of_prefix (List.isPrefixOf_iff_prefix.1 hprefix)
    (List.prefix_append text behind) with hshort | hlong
  · rw [List.isPrefixOf_iff_prefix.2 hshort] at h
    cases h.1
  · rw [List.isPrefixOf_iff_prefix.2 hlong] at h
    cases h.2

theorem Pattern.length?_of_partsFrom {pattern : Pattern} (h : pattern.partsFrom text = true)
    (hrule : ∀ rule, pattern = .custom rule → ∀ left behind, rule ⟨left, text ++ behind⟩ = none)
    (left : LeftContext) (behind : List Char) :
    pattern.length? ⟨left, text ++ behind⟩ = none := by
  cases pattern with
  | literal other => simp [length?, isPrefixOf_append_of_parts h]
  | keyword word => simp [length?, isPrefixOf_append_of_parts h]
  | custom rule => exact hrule rule rfl left behind

/-- Nothing of the C family begins where a text stands that its markers part from. -/
theorem Spec.recognise?_of_partsFrom {spec : Spec} (hruled : spec.IsRuled)
    (hparts : spec.partsFrom text = true) (hne : text ≠ [])
    (hhead : text.head?.any (fun c => CFamily.beginsRule c || c == '\n') = false)
    (left : LeftContext) (behind : List Char) :
    spec.recognise? ⟨left, text ++ behind⟩ = none := by
  obtain ⟨c, tail, rfl⟩ := List.exists_cons_of_ne_nil hne
  simp only [List.head?_cons, Option.any_some, Bool.or_eq_false_iff] at hhead
  rw [partsFrom, Bool.and_eq_true, Bool.or_eq_true] at hparts
  have hopening := Pattern.length?_of_partsFrom hparts.1 (fun rule hrule left behind => by
    refine Option.eq_none_iff_forall_ne_some.2 fun n hn => ?_
    have hbegins := (hruled.opening rule hrule).head? hn
    rw [List.cons_append, List.head?_cons, Option.any_some, hhead.1] at hbegins
    cases hbegins) left behind
  unfold recognise?
  rw [hopening]
  dsimp only
  split
  · rename_i closing hshape hclosing
    rw [hshape, hclosing] at hparts
    have hclosing := Pattern.length?_of_partsFrom (hparts.2.resolve_left (by decide))
      (fun rule hrule left behind => by
        obtain rfl := hruled.closing rule (hclosing.trans (congrArg some hrule))
        have hc : c ≠ '\n' := by simpa using hhead.2
        simp [CFamily.lineEnd, hc]) left behind
    rw [hclosing]
  · rfl

end

namespace QuotedForm

/-- Whether a spec is that of a form. -/
def describes (form : QuotedForm) (spec : Spec) : Bool :=
  spec.kind == form.kind && spec.opening.isText form.opening
    && spec.closing.any (Pattern.isText [form.quote]) && spec.escape == some '\\'

theorem kind_of_describes {form : QuotedForm} {spec : Spec} (h : form.describes spec = true) :
    spec.kind = form.kind := by
  simp only [describes, Bool.and_eq_true, beq_iff_eq] at h
  exact h.1.1.1

/-- What the scanner and the decoder know of a form. -/
structure IsKnown (form : QuotedForm) : Prop where
  atomic : form.kind.isAtomic = true
  opening : form.opening ≠ []
  head : form.opening.head?.any (fun c => CFamily.beginsRule c || c == '\n') = false
  apart : (CFamily.allSpecs.all fun spec =>
    form.describes spec || spec.partsFrom form.opening) = true
  clean : ∀ text, Node.cleanText form.kind text =
    Text.unescape (Text.dropClosing [form.quote] (Text.dropOpening form.opening text))

theorem isKnown_double : double.IsKnown :=
  ⟨by decide, by decide, by decide, by decide +kernel, fun _ => rfl⟩

theorem isKnown_single : single.IsKnown :=
  ⟨by decide, by decide, by decide, by decide +kernel, fun _ => rfl⟩

theorem isKnown_object : object.IsKnown :=
  ⟨by decide, by decide, by decide, by decide +kernel, fun _ => rfl⟩

variable {form : QuotedForm}

/-- A literal without its quotes and escapes is the string that was written. -/
theorem IsKnown.cleanText_write (h : form.IsKnown) (s : List Char) :
    Node.cleanText form.kind (form.write s) = s := by
  have hopening : Text.dropOpening form.opening (form.write s) = form.body s ++ [form.quote] := by
    rw [Text.dropOpening, write, List.isPrefixOf?_eq_some_iff_append_eq.2 rfl]
    rfl
  have hclosing : Text.dropClosing [form.quote] (form.body s ++ [form.quote]) = form.body s := by
    rw [Text.dropClosing, List.isSuffixOf?_eq_some_iff_append_eq.2 rfl]
    rfl
  rw [h.clean, hopening, hclosing, unescape_body]

theorem recognise?_of_describes {spec : Spec} (h : form.describes spec = true)
    (hform : form.IsKnown) (s : List Char) (left : LeftContext) (behind : List Char) :
    spec.recognise? ⟨left, form.write s ++ behind⟩ =
      some (.leaf form.kind (form.write s).length) := by
  obtain ⟨c, tail, htail⟩ := List.exists_cons_of_ne_nil hform.opening
  simp only [describes, Bool.and_eq_true, beq_iff_eq] at h
  obtain ⟨⟨⟨hkind, hopening⟩, hclosing⟩, hescape⟩ := h
  obtain ⟨closing, hclosing, htext⟩ := (Option.any_eq_true _ _).1 hclosing
  rw [Pattern.eq_of_isText htext] at hclosing
  have hshape : spec.shape = .delimitedLeaf := by
    simp only [Spec.shape, hclosing, hkind, hform.atomic]
  have hrest : form.write s ++ behind = form.opening ++ (form.body s ++ form.quote :: behind) := by
    simp [write]
  have hlength : spec.opening.length? ⟨left, form.write s ++ behind⟩ = some (tail.length + 1) := by
    rw [Pattern.eq_of_isText hopening, hrest]
    simp [Pattern.length?, htail]
  have hdrop : (form.write s ++ behind).drop (tail.length + 1) =
      form.body s ++ form.quote :: behind := by
    rw [hrest, htail]
    exact List.drop_left
  have hseek : spec.seekClosing (Context.advance ⟨left, form.write s ++ behind⟩ (tail.length + 1)) =
      ((form.body s).length, 1) := by
    unfold Spec.seekClosing Context.advance
    rw [hclosing]
    dsimp only
    rw [hescape, hdrop]
    exact form.seek_body s _ behind
  unfold Spec.recognise?
  rw [hlength, hshape]
  dsimp only
  rw [hseek, hkind]
  congr 2
  simp only [write, htail, List.length_append, List.length_cons, List.length_nil]

end QuotedForm

/-- The candidates that recognise something at a place decide what is recognised, if they agree. -/
theorem Table.recognise?_of_forall {table : Table} {restrict : Option KindSet} {cx : Context}
    {found : Found} {spec : Spec} (hspec : spec ∈ table.candidates)
    (hallowed : restrict.all (·.contains spec.kind) = true)
    (hfound : spec.recognise? cx = some found)
    (hall : ∀ other ∈ table.candidates,
      other.recognise? cx = none ∨ other.recognise? cx = some found) :
    table.recognise? restrict cx = some found := by
  cases h : table.recognise? restrict cx with
  | none =>
      rw [recognise?_eq_none_iff.1 h spec hspec hallowed] at hfound
      cases hfound
  | some first =>
      obtain ⟨before, other, after, hcandidates, _, hother, _⟩ := exists_of_recognise? h
      rcases hall other (by simp [hcandidates]) with hnone | hsome
      · rw [hnone] at hother
        cases hother
      · exact hother.symm.trans hsome

/-- A scan to a place where a span starts, and on from there. -/
theorem Table.exists_scanFrom_of_start {table : Table} {restrict : Option KindSet} {offset : Nat}
    {place : Context} {front rest : List Char} (hrest : place.rest = front ++ rest) {span : Span}
    (hspan : span ∈ table.scanFrom restrict offset place.toLeftContext place.rest)
    (hstart : span.range.start = offset + Text.byteLength front) :
    ∃ before, table.scanFrom restrict offset place.toLeftContext place.rest =
        before ++ table.scanFrom restrict (offset + Text.byteLength front) (place.after front) rest
      ∧ before.flatMap Span.chars = front := by
  obtain ⟨before, after, hscan⟩ := List.append_of_mem hspan
  obtain ⟨behind, hbehind, hafter⟩ := scanFrom_eq_append hscan
  obtain ⟨n, -, hrange, -⟩ := @scanFrom_cases table restrict _
    ⟨place.after (before.flatMap Span.chars), behind⟩ span after hafter.symm
  rw [hrange, Range.ofLength] at hstart
  obtain ⟨hfront, rfl⟩ :=
    Text.append_inj_of_byteLength (hbehind.symm.trans hrest) (Nat.add_left_cancel hstart)
  refine ⟨before, ?_, hfront⟩
  rw [hscan, hafter, hfront]

/-- A scan that comes to a text which is recognised whatever stands before it makes it one leaf. -/
theorem Table.scanRange_of_recognise? {table : Table} {kind : Kind} {written : List Char}
    (hne : written ≠ []) {text : List Char} {range : Range} {restrict : Option KindSet}
    {front back : List Char}
    (hfound : ∀ left, table.recognise? restrict ⟨left, written ++ back⟩ =
      some (.leaf kind written.length))
    (hslice : Text.slice text range = front ++ (written ++ back))
    (hspan : ∃ span ∈ table.scanRange text range restrict,
      span.range.start = range.start + Text.byteLength front) :
    ∃ spans rest, table.scanRange text range restrict =
        spans ++ .leaf kind ⟨range.start + Text.byteLength front, written⟩ :: rest
      ∧ spans.flatMap Span.chars = front ∧ rest.flatMap Span.chars = back := by
  obtain ⟨span, hspan, hstart⟩ := hspan
  let place : Context := ⟨.ofText (Text.takeBytes range.start text), Text.slice text range⟩
  obtain ⟨spans, hscan, hspans⟩ :=
    @exists_scanFrom_of_start _ restrict _ place _ _ hslice _ hspan hstart
  have hthere := scanFrom_of_found ⟨place.after front, written ++ back⟩
    (List.append_ne_nil_of_left_ne_nil hne back) (hfound _) (range.start + Text.byteLength front)
  simp only [Found.toSpan, Found.length, List.take_left, Context.advance, List.drop_left] at hthere
  refine ⟨spans, _, hscan.trans (congrArg (spans ++ ·) hthere), hspans, ?_⟩
  exact flatMap_chars_scanFrom ..

namespace Language

variable {language : Language} {form : QuotedForm}

theorem mem_cFamily_of_quotedForms (h : form ∈ language.quotedForms) : language ∈ cFamily := by
  cases language with
  | c | cpp | objc | objcpp => decide
  | html | xml | feed | propertyList => cases h

theorem isKnown_of_mem (h : form ∈ language.quotedForms) : form.IsKnown := by
  cases language <;> simp only [quotedForms, List.mem_cons, List.not_mem_nil, or_false] at h
  case c | cpp =>
    rcases h with rfl | rfl
    exacts [QuotedForm.isKnown_double, QuotedForm.isKnown_single]
  case objc | objcpp =>
    rcases h with rfl | rfl | rfl
    exacts [QuotedForm.isKnown_double, QuotedForm.isKnown_single, QuotedForm.isKnown_object]

theorem exists_describes (h : form ∈ language.quotedForms) :
    ∃ spec ∈ language.grammar.table.candidates, form.describes spec = true := by
  have hmem : ∀ {specs : List Spec}, (∀ form ∈ language.quotedForms,
      specs.any form.describes = true) →
        ∃ spec ∈ (Table.ofCatalogue specs).candidates, form.describes spec = true := by
    intro specs hall
    obtain ⟨spec, hspec, hdescribes⟩ := List.any_eq_true.1 (hall form h)
    exact ⟨spec, Table.mem_candidates_ofCatalogue.2 hspec, hdescribes⟩
  cases language with
  | c | cpp | objc | objcpp => exact hmem (by decide +kernel)
  | html | xml | feed | propertyList => cases h

/-- A literal is recognised wherever its kind is scanned for. -/
theorem recognise?_literal (hform : form ∈ language.quotedForms) {restrict : Option KindSet}
    (hallowed : restrict.all (·.contains form.kind) = true) (s : List Char) (left : LeftContext)
    (behind : List Char) :
    language.grammar.table.recognise? restrict ⟨left, form.write s ++ behind⟩ =
      some (.leaf form.kind (form.write s).length) := by
  have hknown := isKnown_of_mem hform
  have hfamily := mem_cFamily_of_quotedForms hform
  obtain ⟨spec, hspec, hdescribes⟩ := exists_describes hform
  refine Table.recognise?_of_forall hspec ?_ ?_ fun other hother => ?_
  · rw [QuotedForm.kind_of_describes hdescribes]
    exact hallowed
  · exact QuotedForm.recognise?_of_describes hdescribes hknown s left behind
  · have happart := List.all_eq_true.1 hknown.apart other (mem_allSpecs hfamily hother)
    rw [Bool.or_eq_true] at happart
    rcases happart with hsame | hparts
    · exact .inr (QuotedForm.recognise?_of_describes hsame hknown s left behind)
    · rw [QuotedForm.write, List.append_assoc]
      exact .inl (Spec.recognise?_of_partsFrom (isRuled_table hfamily other hother) hparts
        hknown.opening hknown.head left _)

/-- A scan that comes to a literal makes it one leaf. -/
theorem scanRange_literal (hform : form ∈ language.quotedForms) (s : List Char) {text : List Char}
    {range : Range} {restrict : Option KindSet} {front back : List Char}
    (hallowed : restrict.all (·.contains form.kind) = true)
    (hslice : Text.slice text range = front ++ (form.write s ++ back))
    (hspan : ∃ span ∈ language.grammar.table.scanRange text range restrict,
      span.range.start = range.start + Text.byteLength front) :
    ∃ spans rest, language.grammar.table.scanRange text range restrict =
        spans ++ .leaf form.kind ⟨range.start + Text.byteLength front, form.write s⟩ :: rest
      ∧ spans.flatMap Span.chars = front ∧ rest.flatMap Span.chars = back :=
  Table.scanRange_of_recognise? (by simp [QuotedForm.write])
    (fun left => recognise?_literal hform hallowed s left back) hslice hspan

/-- The leaf of a literal is cleaned to the string. -/
theorem exists_literal_leaf (hform : form ∈ language.quotedForms) (s : List Char) {place : Nat}
    {text : List Char}
    (hspan : .leaf form.kind ⟨place, form.write s⟩ ∈ language.grammar.table.scan text)
    {source : List Char} (hsource : language.prepare source = text) (analysis : Bool) :
    ∃ leaf ∈ (language.parse analysis source).root.leaves, leaf.kind = form.kind
      ∧ leaf.range = .ofLength place (Text.byteLength (form.write s))
      ∧ leaf.text? = some (form.write s) ∧ leaf.cleaned = s := by
  have hknown := isKnown_of_mem hform
  have htoken : ⟨form.kind, ⟨place, form.write s⟩⟩ ∈
      language.grammar.tokens (language.prepare source) := by
    rw [hsource]
    exact List.mem_flatMap.2 ⟨_, hspan, List.mem_singleton.2 rfl⟩
  obtain ⟨leaf, hleaf, hkind, hrange, htext, hchildren⟩ :=
    language.exists_leaf analysis source htoken
  refine ⟨leaf, hleaf, hkind, hrange, htext, ?_⟩
  rw [Node.cleaned_leaf (hkind ▸ hknown.atomic) hchildren, hkind, htext]
  exact hknown.cleanText_write s

/-- A literal that stands where a span starts is scanned as one leaf, whatever follows it, in the
text and in every part of it that is scanned for its kind; and the leaf is cleaned to the string
that was written. -/
theorem scan_literal (hform : form ∈ language.quotedForms) (s before behind : List Char)
    (hspan : ∃ span ∈ language.grammar.table.scan (before ++ (form.write s ++ behind)),
      span.range.start = Text.byteLength before) :
    (∃ spans rest, language.grammar.table.scan (before ++ (form.write s ++ behind)) =
        spans ++ .leaf form.kind ⟨Text.byteLength before, form.write s⟩ :: rest
      ∧ spans.flatMap Span.chars = before ∧ rest.flatMap Span.chars = behind)
    ∧ Node.cleanText form.kind (form.write s) = s
    ∧ (∀ source analysis, language.prepare source = before ++ (form.write s ++ behind) →
        ∃ leaf ∈ (language.parse analysis source).root.leaves, leaf.kind = form.kind
          ∧ leaf.range = .ofLength (Text.byteLength before) (Text.byteLength (form.write s))
          ∧ leaf.text? = some (form.write s) ∧ leaf.cleaned = s)
    ∧ ∀ text range restrict front back, restrict.all (·.contains form.kind) = true →
        Text.slice text range = front ++ (form.write s ++ back) →
        (∃ span ∈ language.grammar.table.scanRange text range restrict,
          span.range.start = range.start + Text.byteLength front) →
        ∃ spans rest, language.grammar.table.scanRange text range restrict =
            spans ++ .leaf form.kind ⟨range.start + Text.byteLength front, form.write s⟩ :: rest
          ∧ spans.flatMap Span.chars = front ∧ rest.flatMap Span.chars = back := by
  have hwhole : ∃ spans rest, language.grammar.table.scan (before ++ (form.write s ++ behind)) =
        spans ++ .leaf form.kind ⟨Text.byteLength before, form.write s⟩ :: rest
      ∧ spans.flatMap Span.chars = before ∧ rest.flatMap Span.chars = behind := by
    have hstart : 0 + Text.byteLength before = Text.byteLength before := Nat.zero_add _
    rw [← hstart] at hspan ⊢
    exact scanRange_literal hform s rfl (Text.slice_whole _) hspan
  obtain ⟨spans, rest, hscan, hspans, hrest⟩ := hwhole
  refine ⟨⟨spans, rest, hscan, hspans, hrest⟩, (isKnown_of_mem hform).cleanText_write s,
    fun source analysis hsource => ?_, fun text range restrict front back hallowed hslice hspan =>
      scanRange_literal hform s hallowed hslice hspan⟩
  refine exists_literal_leaf hform s ?_ hsource analysis
  rw [hscan]
  exact List.mem_append_right _ (List.mem_cons_self ..)

/-- A string object with a quote, a backslash and a line feed in it, in front of another quote. -/
theorem scan_literal_object :
    QuotedForm.object ∈ objc.quotedForms
      ∧ (∃ span ∈ objc.grammar.table.scan
            ("x=".toList ++ (QuotedForm.object.write ['a', '"', '\\', '\n'] ++ ['"'])),
          span.range.start = Text.byteLength "x=".toList)
      ∧ (∃ spans rest, objc.grammar.table.scan
            ("x=".toList ++ (QuotedForm.object.write ['a', '"', '\\', '\n'] ++ ['"'])) =
          spans ++ .leaf .objcString ⟨2, "@\"a\\\"\\\\\\n\"".toList⟩ :: rest
        ∧ spans.flatMap Span.chars = "x=".toList ∧ rest.flatMap Span.chars = ['"'])
      ∧ Node.cleanText .objcString "@\"a\\\"\\\\\\n\"".toList = ['a', '"', '\\', '\n'] := by
  have hform : QuotedForm.object ∈ objc.quotedForms := by simp [quotedForms]
  have hspan : ∃ span ∈ objc.grammar.table.scan
        ("x=".toList ++ (QuotedForm.object.write ['a', '"', '\\', '\n'] ++ ['"'])),
      span.range.start = Text.byteLength "x=".toList := by decide +kernel
  obtain ⟨hscan, hclean, _⟩ := scan_literal hform ['a', '"', '\\', '\n'] "x=".toList ['"'] hspan
  exact ⟨hform, hspan, hscan, hclean⟩

end Language

end ConcreteSyntax
