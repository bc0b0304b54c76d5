import ConcreteSyntax.Proofs.CFamily.Literals
import ConcreteSyntax.Proofs.Origin
import ConcreteSyntax.Proofs.Scan.Closing

/-!
# Cleaned literals

A literal is scanned to its closing marker, and cleaned by what its text begins and ends with.
Both agree on a literal that is closed, and on a comment or character data in any case.  They do not
agree on a string that is not closed and ends with a quote: the quote stands behind a backslash, so
that the scan passes over it, and cleaning takes it off (`Language.cleaned_delimited`).
-/

namespace ConcreteSyntax

/-! ## Escapes -/

namespace Text

theorem hexValue?_backslash : hexValue? '\\' = none := by decide

/-- The digits after `\x` do not go on behind a backslash. -/
theorem hexEscape?_append (digits rest : List Char) :
    hexEscape? (digits ++ '\\' :: rest) =
      (hexEscape? digits).map fun found => (found.1, found.2 ++ '\\' :: rest) := by
  match digits with
  | [] => rfl
  | [a] => cases ha : hexValue? a <;> simp [hexEscape?, ha, hexValue?_backslash]
  | a :: b :: digits =>
      cases ha : hexValue? a <;> cases hb : hexValue? b <;> simp [hexEscape?, ha, hb]

theorem escapeRun_hexEscape? {digits rest : List Char} {c : Char}
    (h : hexEscape? digits = some (c, rest)) :
    escapeRun (some '\\') digits = escapeRun (some '\\') rest := by
  have hdigit : ∀ {a : Char}, hexValue? a ≠ none → some a ≠ some '\\' := by
    rintro a ha ⟨⟩
    exact ha hexValue?_backslash
  match digits with
  | [] => cases h
  | [a] =>
      cases ha : hexValue? a with
      | none => simp [hexEscape?, ha] at h
      | some n =>
        simp only [hexEscape?, ha, Option.some.injEq, Prod.mk.injEq] at h
        rw [← h.2, escapeRun_cons (hdigit (by simp [ha]))]
  | a :: b :: digits =>
      cases ha : hexValue? a with
      | none => simp [hexEscape?, ha] at h
      | some n =>
          have hfirst := escapeRun_cons (hdigit (a := a) (by simp [ha])) (b :: digits)
          cases hb : hexValue? b with
          | none =>
              simp only [hexEscape?, ha, hb, Option.some.injEq, Prod.mk.injEq] at h
              rw [hfirst, h.2]
          | some m =>
              simp only [hexEscape?, ha, hb, Option.some.injEq, Prod.mk.injEq] at h
              rw [hfirst, escapeRun_cons (hdigit (by simp [hb])), h.2]

theorem unescape_hex {digits rest : List Char} {c : Char}
    (h : hexEscape? digits = some (c, rest)) :
    unescape ('\\' :: 'x' :: digits) = c :: unescape rest := by
  rw [unescape]
  split
  · rename_i d after hfound
    obtain ⟨rfl, rfl⟩ := Prod.mk.inj (Option.some.inj (h.symm.trans hfound))
    rfl
  · rename_i hnone
    rw [h] at hnone
    cases hnone

theorem unescape_of_not_hex {digits : List Char} (h : hexEscape? digits = none) :
    unescape ('\\' :: 'x' :: digits) = '\\' :: 'x' :: unescape digits := by
  rw [unescape]
  split
  · rename_i d after hfound
    rw [h] at hfound
    cases hfound
  · rfl

/-- A text is read apart from what follows it, if the backslashes at its end protect each other. -/
theorem unescape_append (text rest : List Char) (h : Even (escapeRun (some '\\') text)) :
    unescape (text ++ '\\' :: rest) = unescape text ++ unescape ('\\' :: rest) := by
  fun_induction unescape text with
  | case1 => rfl
  | case2 => exact absurd h (by rw [escapeRun_singleton rfl]; decide)
  | case3 text ih | case4 text ih | case5 text ih | case6 text ih =>
      rw [even_escapeRun_cons_cons rfl] at h
      simp [unescape, ih h]
  | case7 digits c text hdigits ih =>
      rw [even_escapeRun_cons_cons rfl, escapeRun_hexEscape? hdigits] at h
      have happend := hexEscape?_append digits rest
      rw [hdigits] at happend
      rw [List.cons_append, List.cons_append, unescape_hex happend, ih h, List.cons_append]
  | case8 digits hdigits ih =>
      rw [even_escapeRun_cons_cons rfl] at h
      have happend := hexEscape?_append digits rest
      rw [hdigits] at happend
      rw [List.cons_append, List.cons_append, unescape_of_not_hex happend, ih h, List.cons_append,
        List.cons_append]
  | case9 c text hn ht hr h0 hx ih =>
      rw [even_escapeRun_cons_cons rfl] at h
      simp [unescape.eq_8 _ _ hn ht hr h0 hx, ih h]
  | case10 c text hlast _ _ _ _ _ hbackslash ih =>
      have hc : c ≠ '\\' := by
        rintro rfl
        cases text with
        | nil => exact hlast rfl rfl
        | cons d text => exact hbackslash d text rfl rfl
      rw [escapeRun_cons fun hsame => hc (Option.some.inj hsame)] at h
      rw [List.cons_append, unescape_cons hc, ih h, List.cons_append]

/-- A quote behind a backslash that protects it is read as the quote, and a backslash at the end
as itself. -/
theorem unescape_concat_ne {text : List Char} {quote : Char} (hquote : quote = '"' ∨ quote = '\'')
    (h : ¬ Even (escapeRun (some '\\') text)) : unescape text ≠ unescape (text ++ [quote]) := by
  induction text using List.reverseRecOn with
  | nil => exact absurd Even.zero h
  | append_singleton text c _ =>
      rw [escapeRun_concat] at h
      split at h
      · rename_i hc
        obtain rfl := Option.some.inj hc
        rw [Nat.even_add_one, not_not] at h
        rw [List.append_assoc, List.singleton_append, unescape_append text [] h,
          unescape_append text [quote] h]
        rcases hquote with rfl | rfl <;> simp [unescape]
      · exact absurd Even.zero h

end Text

/-! ## Markers -/

/-- A kind of leaf between two markers. -/
structure Delimited where
  kind : Kind
  opening : List Char
  closing : List Char
  /-- What protects a character from being read as the closing marker. -/
  escape : Option Char

namespace Delimited

/-- Strings, block comments and character data. -/
def all : List Delimited :=
  [⟨.stringDoubleQuote, "\"".toList, "\"".toList, some '\\'⟩,
   ⟨.stringSingleQuote, "'".toList, "'".toList, some '\\'⟩,
   ⟨.objcString, "@\"".toList, "\"".toList, some '\\'⟩,
   ⟨.cComment, "/*".toList, "*/".toList, none⟩,
   ⟨.markupComment, "<!--".toList, "-->".toList, none⟩,
   ⟨.cdata, "<![CDATA[".toList, "]]>".toList, none⟩]

/-- What a text between the markers stands for. -/
def decode (form : Delimited) (text : List Char) : List Char :=
  if form.escape.isSome then Text.unescape text else text

/-- Whether a spec is that of a kind of leaf between two markers. -/
def describes (form : Delimited) (spec : Spec) : Bool :=
  spec.opening.isText form.opening && spec.closing.any (Pattern.isText form.closing)
    && spec.escape == form.escape && spec.shape == .delimitedLeaf

variable {form : Delimited}

theorem closing_ne (h : form ∈ all) : form.closing ≠ [] := by
  revert form
  decide

/-- Strings end with a quote, and only they have an escape. -/
theorem escape_cases (h : form ∈ all) : form.escape = none ∨
    form.escape = some '\\' ∧ ∃ quote, form.closing = [quote] ∧ (quote = '"' ∨ quote = '\'') := by
  simp only [all, List.mem_cons, List.not_mem_nil, or_false] at h
  rcases h with rfl | rfl | rfl | rfl | rfl | rfl
  · exact .inr ⟨rfl, '"', rfl, .inl rfl⟩
  · exact .inr ⟨rfl, '\'', rfl, .inr rfl⟩
  · exact .inr ⟨rfl, '"', rfl, .inl rfl⟩
  all_goals exact .inl rfl

theorem cleanText_eq (h : form ∈ all) (text : List Char) : Node.cleanText form.kind text =
    form.decode (Text.dropClosing form.closing (Text.dropOpening form.opening text)) := by
  simp only [all, List.mem_cons, List.not_mem_nil, or_false] at h
  rcases h with rfl | rfl | rfl | rfl | rfl | rfl <;> rfl

theorem kind_ne (h : form ∈ all) : form.kind ≠ .text ∧ form.kind ≠ .delimiter := by
  revert form
  decide

/-- In all languages, these kinds are scanned for by their markers. -/
theorem describes_of_kind (h : form ∈ all) {language : Language} {spec : Spec}
    (hspec : spec ∈ language.grammar.table.candidates) (hkind : spec.kind = form.kind) :
    form.describes spec = true := by
  have hfamily : (CFamily.allSpecs.all fun spec =>
      all.all fun form => spec.kind != form.kind || form.describes spec) = true := by decide +kernel
  have hmarkup : (Markup.specs.all fun spec =>
      all.all fun form => spec.kind != form.kind || form.describes spec) = true := by decide +kernel
  rw [List.all_eq_true] at hfamily hmarkup
  have hboth := (Language.mem_catalogues hspec).elim (hfamily spec) (hmarkup spec)
  simpa [hkind] using List.all_eq_true.1 hboth form h

end Delimited

/-! ## The end of a literal -/

/-- How a scan comes to the end of a leaf between two markers.  Where the leaf begins in a range
that is scanned, the opening marker of the spec that is recognised there matches, and the search for
its closing marker ends behind `interior`, at the marker `closing`.  When there is no marker, the
search ends with the range, and `closing` is empty. -/
def Table.Delimits (table : Table) (text : List Char) (token : Token)
    (opening interior closing : List Char) : Prop :=
  ∃ range restrict spec, table.Origin text token range restrict spec
    ∧ spec.opening.length? (.ofText text range.stop token.text.start) = some opening.length
    ∧ spec.seekClosing ((Context.ofText text range.stop token.text.start).advance opening.length) =
      (interior.length, closing.length)
    ∧ token.text.chars = opening ++ (interior ++ closing)

namespace Delimited

variable {form : Delimited}

/-- A text that nothing closes ends with the closing marker only behind an escape. -/
theorem not_even_of_unclosed {first : Context} {body : List Char} (hclosing : form.closing ≠ [])
    (hnever : ∀ p n, ¬ (Pattern.literal form.closing).ClosesAt form.escape first p n)
    (hrest : first.rest = body ++ form.closing) :
    ¬ Even (Text.escapeRun form.escape body) := by
  intro heven
  have hlt : body.length < first.rest.length := by
    rw [hrest, List.length_append]
    exact Nat.lt_add_of_pos_right (List.length_pos_iff.2 hclosing)
  refine hnever body.length form.closing.length ⟨hlt, ?_, ?_⟩
  · simp [Pattern.length?, Context.advance, hrest]
  · rwa [hrest, List.take_left]

/-- What a spec of a leaf between two markers recognises. -/
theorem recognise?_of_describes {spec : Spec} (hspec : form.describes spec = true) {place : Context}
    {kind : Kind} {n : Nat} (h : spec.recognise? place = some (.leaf kind n)) :
    form.opening <+: place.rest ∧ spec.opening.length? place = some form.opening.length
      ∧ n = form.opening.length + ((spec.seekClosing (place.advance form.opening.length)).1
        + (spec.seekClosing (place.advance form.opening.length)).2) := by
  simp only [describes, Bool.and_eq_true, beq_iff_eq] at hspec
  obtain ⟨⟨⟨hopening, -⟩, -⟩, hshape⟩ := hspec
  rw [Pattern.eq_of_isText hopening]
  unfold Spec.recognise? at h
  rw [hshape, Pattern.eq_of_isText hopening] at h
  split at h
  · cases h
  · rename_i m hlength
    rw [Pattern.length?, Option.ite_none_right_eq_some] at hlength
    obtain ⟨hbegins, hm⟩ := hlength
    have hn := (Found.leaf.inj (Option.some.inj h)).2
    rw [show m + 1 = form.opening.length from (Option.some.inj hm).symm] at hn
    exact ⟨List.isPrefixOf_iff_prefix.1 hbegins, by rw [Pattern.length?, if_pos hbegins], hn.symm⟩
  · cases h

/-- A leaf between two markers is its opening marker, what the search for the closing marker passes
over, and that marker. -/
theorem exists_delimits (hform : form ∈ all) {table : Table} {text : List Char} {token : Token}
    {range : Range} {restrict : Option KindSet} {spec : Spec}
    (horigin : table.Origin text token range restrict spec) (hspec : form.describes spec = true) :
    ∃ interior closing, table.Delimits text token form.opening interior closing
      ∧ (closing = form.closing ∨ closing = [] ∧ ∀ body, interior = body ++ form.closing →
          ¬ Even (Text.escapeRun form.escape body)) := by
  obtain ⟨hopening, hlength, hn⟩ := recognise?_of_describes hspec horigin.recognised
  generalize hplace : Context.ofText text range.stop token.text.start = place at hopening hlength hn
  obtain ⟨behind, hrest⟩ := hplace ▸ horigin.chars
  -- the text behind the opening marker, which the search is made in
  obtain ⟨tail, htail⟩ : form.opening <+: token.text.chars :=
    List.prefix_of_prefix_length_le hopening ⟨behind, hrest⟩ (by omega)
  have hfirst : (place.advance form.opening.length).rest = tail ++ behind := by
    rw [Context.advance, ← hrest, ← htail, List.append_assoc, List.drop_left]
  rw [← htail, List.length_append, Nat.add_left_cancel_iff] at hn
  simp only [describes, Bool.and_eq_true, beq_iff_eq] at hspec
  obtain ⟨⟨⟨-, hclosing⟩, hescape⟩, -⟩ := hspec
  obtain ⟨closing, hclosing, htext⟩ := (Option.any_eq_true _ _).1 hclosing
  rw [Pattern.eq_of_isText htext] at hclosing
  obtain ⟨q, n, hseek, hends, -, -⟩ :=
    Spec.seekClosing_first_unescaped hclosing (place.advance form.opening.length)
  rw [hseek] at hn
  rw [hescape] at hends
  have hq : (tail.take q).length = q := by rw [List.length_take]; omega
  have hn : (tail.drop q).length = n := by rw [List.length_drop]; omega
  have hsplit : tail.take q ++ tail.drop q = tail := List.take_append_drop q tail
  refine ⟨tail.take q, tail.drop q, ⟨range, restrict, spec, horigin, hplace ▸ hlength, ?_, ?_⟩, ?_⟩
  · rw [hplace, hseek, hq, hn]
  · rw [hsplit, htail]
  rcases hends with ⟨hcloses, -⟩ | ⟨hend, rfl, hnever⟩
  · left
    have hfound := hcloses.found
    rw [Pattern.length?, Option.ite_none_right_eq_some, Option.some.injEq] at hfound
    obtain ⟨hbegins, hlength⟩ := hfound
    have hthere : form.closing <+: tail.drop q ++ behind := by
      have hrest : ((place.advance form.opening.length).advance q).rest =
          tail.drop q ++ behind := by
        rw [Context.advance, hfirst, List.drop_append_of_le_length (by omega)]
      exact hrest ▸ List.isPrefixOf_iff_prefix.1 hbegins
    have hle : form.closing <+: tail.drop q :=
      List.prefix_of_prefix_length_le hthere (List.prefix_append _ _) (by omega)
    exact (hle.eq_of_length (hlength.trans hn.symm)).symm
  · right
    rw [hfirst, List.length_append] at hend
    obtain rfl : behind = [] := List.length_eq_zero_iff.1 (by omega)
    have hall : tail.take q = tail := List.take_of_length_le (by omega)
    refine ⟨List.length_eq_zero_iff.1 hn, fun body hbody => ?_⟩
    refine not_even_of_unclosed (closing_ne hform) hnever ?_
    rw [hfirst, List.append_nil, ← hall, hbody]

/-- A text without its markers, when it has a closing marker or not. -/
theorem unwrap_closed (interior : List Char) :
    Text.dropClosing form.closing (Text.dropOpening form.opening
      (form.opening ++ (interior ++ form.closing))) = interior := by
  rw [Text.dropOpening, List.isPrefixOf?_eq_some_iff_append_eq.2 rfl, Option.getD_some,
    Text.dropClosing, List.isSuffixOf?_eq_some_iff_append_eq.2 rfl, Option.getD_some]

theorem unwrap_unclosed (interior : List Char) :
    Text.dropClosing form.closing (Text.dropOpening form.opening (form.opening ++ interior)) =
      Text.dropClosing form.closing interior := by
  rw [Text.dropOpening, List.isPrefixOf?_eq_some_iff_append_eq.2 rfl, Option.getD_some]

/-- Only in a string an escape stands before a closing marker. -/
theorem escape_of_not_even (hform : form ∈ all) {body : List Char}
    (hodd : ¬ Even (Text.escapeRun form.escape body)) : form.escape = some '\\'
      ∧ ∃ quote, form.closing = [quote] ∧ (quote = '"' ∨ quote = '\'') := by
  refine (escape_cases hform).resolve_left fun hescape => hodd ?_
  rw [hescape, Text.escapeRun_none]
  exact Even.zero

/-- What is taken off the end of a string that is not closed is a quote that was written. -/
theorem decode_dropClosing (hform : form ∈ all) {interior : List Char}
    (hunclosed : ∀ body, interior = body ++ form.closing →
      ¬ Even (Text.escapeRun form.escape body)) :
    form.decode (Text.dropClosing form.closing interior) = form.decode interior ↔
      ¬ form.closing <:+ interior := by
  by_cases hsuffix : form.closing <:+ interior
  · obtain ⟨body, rfl⟩ := hsuffix
    have hodd := hunclosed body rfl
    obtain ⟨hescape, quote, hquote, hcases⟩ := escape_of_not_even hform hodd
    rw [hescape] at hodd
    have hne := Text.unescape_concat_ne hcases hodd
    rw [Text.dropClosing, List.isSuffixOf?_eq_some_iff_append_eq.2 rfl, Option.getD_some]
    simpa [decode, hescape, hquote] using hne
  · have hnone : form.closing.isSuffixOf? interior = none := by
      refine Option.eq_none_iff_forall_ne_some.2 fun body hbody => hsuffix ⟨body, ?_⟩
      exact List.isSuffixOf?_eq_some_iff_append_eq.1 hbody
    rw [Text.dropClosing, hnone]
    exact iff_of_true rfl hsuffix

end Delimited

namespace Language

/-- A leaf between two markers is cleaned to what stands between them, if the scan found a closing
marker.  If it found none, the leaf is cleaned to what stands behind the opening marker, unless this
ends as a closing marker would: such a quote is one that a backslash protects, in a string. -/
theorem cleaned_delimited (language : Language) (analysis : Bool) (source : List Char)
    {leaf : Node} (hleaf : leaf ∈ (language.parse analysis source).root.leaves)
    {form : Delimited} (hform : form ∈ Delimited.all) (hkind : leaf.kind = form.kind) :
    ∃ interior closing,
      language.grammar.table.Delimits (language.prepare source) leaf.token form.opening interior
        closing
      ∧ leaf.text? = some (form.opening ++ (interior ++ closing))
      ∧ (closing = form.closing ∨ closing = [])
      ∧ (closing = form.closing → leaf.cleaned = form.decode interior)
      ∧ (closing = [] → (leaf.cleaned = form.decode interior ↔ ¬ form.closing <:+ interior))
      ∧ (closing = [] → form.closing <:+ interior →
          form.escape = some '\\'
            ∧ leaf.cleaned = form.decode (Text.dropClosing form.closing interior)) := by
  obtain ⟨hatomic, -, htext, hchildren⟩ := language.of_mem_leaves analysis source hleaf
  obtain ⟨htextNe, hdelimiterNe⟩ := Delimited.kind_ne hform
  obtain ⟨range, restrict, spec, horigin⟩ := language.exists_origin analysis source hleaf
    (hkind ▸ htextNe) (hkind ▸ hdelimiterNe)
  obtain ⟨interior, closing, hdelimits, hends⟩ := Delimited.exists_delimits hform horigin
    (Delimited.describes_of_kind hform horigin.candidate (horigin.kind.trans hkind))
  have hchars : leaf.token.text.chars = form.opening ++ (interior ++ closing) := by
    obtain ⟨-, -, -, -, -, -, hchars⟩ := hdelimits
    exact hchars
  rw [hchars] at htext
  have hcleaned : leaf.cleaned = form.decode (Text.dropClosing form.closing
      (Text.dropOpening form.opening (form.opening ++ (interior ++ closing)))) := by
    rw [Node.cleaned_leaf hatomic hchildren, htext, hkind, Option.getD_some,
      Delimited.cleanText_eq hform]
  refine ⟨interior, closing, hdelimits, htext, hends.imp_right (·.1), ?_, ?_, ?_⟩
  · rintro rfl
    rw [hcleaned, Delimited.unwrap_closed]
  all_goals
    rintro rfl
    obtain ⟨-, hunclosed⟩ := hends.resolve_left (Delimited.closing_ne hform).symm
    rw [List.append_nil, Delimited.unwrap_unclosed] at hcleaned
    rw [hcleaned]
  · exact Delimited.decode_dropClosing hform hunclosed
  · rintro ⟨body, hbody⟩
    exact ⟨(Delimited.escape_of_not_even hform (hunclosed body hbody.symm)).1, rfl⟩

/-- A comment of three characters: its slash does not close it. -/
theorem cleaned_delimited_comment :
    let form : Delimited := ⟨.cComment, "/*".toList, "*/".toList, none⟩
    form ∈ Delimited.all
      ∧ ∃ leaf ∈ (c.parse true "/*/".toList).root.leaves, leaf.kind = form.kind
        ∧ leaf.cleaned = ['/']
        ∧ ∃ interior closing, c.grammar.table.Delimits (c.prepare "/*/".toList) leaf.token
            form.opening interior closing
          ∧ (closing = form.closing → leaf.cleaned = form.decode interior)
          ∧ (closing = [] →
            (leaf.cleaned = form.decode interior ↔ ¬ form.closing <:+ interior)) := by
  intro form
  have hform : form ∈ Delimited.all := by simp [Delimited.all, form]
  obtain ⟨leaf, hleaf, hkind, hcleaned⟩ : ∃ leaf ∈ (c.parse true "/*/".toList).root.leaves,
      leaf.kind = form.kind ∧ leaf.cleaned = ['/'] := by decide +kernel
  obtain ⟨interior, closing, hdelimits, -, -, hclosed, hunclosed, -⟩ :=
    cleaned_delimited c true "/*/".toList hleaf hform hkind
  exact ⟨hform, leaf, hleaf, hkind, hcleaned, interior, closing, hdelimits, hclosed, hunclosed⟩

/-- A quote behind a backslash, in a string that is not closed: the scan passes over the quote, and
cleaning takes it off. -/
theorem cleaned_delimited_quote :
    ∃ leaf ∈ (c.parse false "\"\\\"".toList).root.leaves, leaf.kind = .stringDoubleQuote
      ∧ c.grammar.table.Delimits (c.prepare "\"\\\"".toList) leaf.token ['"'] ['\\', '"'] []
      ∧ leaf.cleaned = ['\\'] ∧ Text.unescape ['\\', '"'] = ['"'] := by
  let text := "\"\\\"".toList
  obtain ⟨leaf, hleaf, htoken, hcleaned⟩ : ∃ leaf ∈ (c.parse false text).root.leaves,
      leaf.token = ⟨.stringDoubleQuote, 0, text⟩ ∧ leaf.cleaned = ['\\'] := by decide +kernel
  obtain ⟨spec, hspec, hkind, hfound, hlength, hseek⟩ : ∃ spec ∈ c.grammar.table.candidates,
      spec.kind = .stringDoubleQuote
        ∧ spec.recognise? (.ofText text 3 0) = some (.leaf .stringDoubleQuote 3)
        ∧ spec.opening.length? (.ofText text 3 0) = some 1
        ∧ spec.seekClosing ((Context.ofText text 3 0).advance 1) = (2, 0) := by decide +kernel
  have horigin : c.grammar.table.Origin text leaf.token (.ofLength 0 3) none spec := by
    rw [htoken]
    exact
      { scanned := .whole
        yielded := by decide +kernel
        candidate := hspec
        kind := hkind
        first := by
          change c.grammar.table.recognise? none (.ofText text 3 0) =
            spec.recognise? (.ofText text 3 0)
          rw [hfound]
          decide +kernel
        recognised := hfound
        chars := by decide +kernel }
  have hdelimits : c.grammar.table.Delimits text leaf.token ['"'] ['\\', '"'] [] := by
    refine ⟨_, _, spec, horigin, ?_, ?_, ?_⟩ <;> rw [htoken]
    · exact hlength
    · exact hseek
    · rfl
  exact ⟨leaf, hleaf, congrArg Token.kind htoken, hdelimits, hcleaned, by decide +kernel⟩

end Language

end ConcreteSyntax
