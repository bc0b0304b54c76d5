import ConcreteSyntax.Proofs.Pairing.Markers
import ConcreteSyntax.Proofs.Scan.Catalogues
import ConcreteSyntax.Proofs.Scan.Precedence
import ConcreteSyntax.Proofs.Words

/-!
# Where leaves come from

Apart from markers and from text that nothing recognises, each leaf of a parsed text was recognised
as a whole: some range is scanned, be it the whole text or an interior, and where the leaf begins in
it the first spec to recognise anything is that of the kind of the leaf (`Language.exists_origin`).
-/

namespace ConcreteSyntax

open Text

/-- A leaf that a rule measures is as long as the rule says. -/
theorem Spec.length_of_recognise?_custom {kind kind' : Kind} {rule : Context → Option Nat}
    {cx : Context} {n : Nat} (h : (custom kind rule).recognise? cx = some (.leaf kind' n)) :
    rule cx = some n := by
  unfold recognise? at h
  split at h
  · cases h
  · rename_i m hopening
    obtain ⟨-, rfl⟩ := Found.leaf.inj (Option.some.inj h)
    exact hopening
  · cases h

/-- How a scan comes to a leaf: a range of the text is scanned, and at the place where the leaf
begins in this range, the first spec to recognise anything recognises it. -/
structure Table.Origin (table : Table) (text : List Char) (token : Token) (range : Range)
    (restrict : Option KindSet) (spec : Spec) : Prop where
  scanned : table.Scans text (table.scanRange text range restrict)
  yielded : .leaf token.kind token.text ∈ table.scanRange text range restrict
  candidate : spec ∈ table.candidates
  kind : spec.kind = token.kind
  first : table.recognise? restrict (.ofText text range.stop token.text.start) =
    spec.recognise? (.ofText text range.stop token.text.start)
  recognised : spec.recognise? (.ofText text range.stop token.text.start) =
    some (.leaf token.kind token.text.chars.length)
  chars : token.text.chars <+: (Context.ofText text range.stop token.text.start).rest

namespace Grammar

variable {grammar : Grammar} {text : List Char}

/-- A token that is no marker and no text is a leaf of a range that is scanned. -/
theorem exists_scanRange {fuel : Nat} {restrict : Option KindSet} {range : Range}
    (hscans : grammar.table.Scans text (grammar.table.scanRange text range restrict))
    (hstart : isBoundary text range.start = true) (hstop : isBoundary text range.stop = true)
    {token : Token} (htoken : token ∈ grammar.tokensIn text fuel restrict range)
    (htext : token.kind ≠ .text) (hdelimiter : token.kind ≠ .delimiter) :
    ∃ range restrict, grammar.table.Scans text (grammar.table.scanRange text range restrict)
      ∧ isBoundary text range.start = true ∧ isBoundary text range.stop = true
      ∧ .leaf token.kind token.text ∈ grammar.table.scanRange text range restrict := by
  induction fuel generalizing restrict range with
  | zero =>
      obtain rfl := List.mem_singleton.1 htoken
      exact absurd rfl htext
  | succ fuel ih =>
      have hchains := Span.exists_chain (grammar.table.chain_scanRange restrict hstart hstop)
      obtain ⟨span, hspan, htoken⟩ := List.mem_flatMap.1 htoken
      cases span with
      | leaf kind fragment =>
          obtain rfl := List.mem_singleton.1 htoken
          exact ⟨range, restrict, hscans, hstart, hstop, hspan⟩
      | opener kind fragment | closer kind fragment =>
          obtain rfl := List.mem_singleton.1 htoken
          exact absurd rfl hdelimiter
      | delimited kind opening interior closing =>
          obtain ⟨first, last, hchain⟩ := hchains _ hspan
          obtain ⟨-, -, -, hinterior, -⟩ := hchain
          rcases List.mem_cons.1 htoken with rfl | htoken
          · exact absurd rfl hdelimiter
          rcases List.mem_append.1 htoken with htoken | htoken
          · split at htoken
            · cases htoken
            · exact ih (hscans.interior hspan) hinterior.isBoundary_start
                hinterior.isBoundary_stop htoken
          · split at htoken
            · cases htoken
            · obtain rfl := List.mem_singleton.1 htoken
              exact absurd rfl hdelimiter

end Grammar

/-- A leaf of a range that is scanned was recognised where it begins. -/
theorem Table.exists_origin {table : Table} (hmeasured : table.IsMeasured) {text : List Char}
    {range : Range} {restrict : Option KindSet}
    (hscans : table.Scans text (table.scanRange text range restrict))
    (hstart : isBoundary text range.start = true) (hstop : isBoundary text range.stop = true)
    {token : Token} (htoken : .leaf token.kind token.text ∈ table.scanRange text range restrict)
    (htext : token.kind ≠ .text) : ∃ spec, table.Origin text token range restrict spec := by
  obtain ⟨-, -, -, ⟨found, hfound, hspan⟩ | ⟨hkind, -⟩⟩ := scanRange_cases hstart hstop htoken
  · obtain ⟨before, spec, after, hcandidates, -, hspec, -⟩ := exists_of_recognise? hfound
    have hcandidate : spec ∈ table.candidates := by simp [hcandidates]
    have hkind := Spec.kind_of_recognise? hspec token.text.start []
    have hlength := Spec.length_le_of_recognise? (hmeasured spec hcandidate) hspec
    generalize hplace : Context.ofText text range.stop _ = place at hfound hspec hlength hspan
    obtain rfl : Context.ofText text range.stop token.text.start = place := hplace
    cases found with
    | leaf kind n =>
        obtain ⟨rfl, htext⟩ := Span.leaf.inj hspan
        have hchars := congrArg Fragment.chars htext
        have hn : n = token.text.chars.length := by
          rw [hchars, List.length_take]
          exact (Nat.min_eq_left hlength).symm
        refine ⟨spec, hscans, htoken, hcandidate, hkind.symm, hfound.trans hspec.symm,
          hn ▸ hspec, ?_⟩
        rw [hchars]
        exact List.take_prefix _ _
    | opener | closer | delimited => cases hspan
  · exact absurd hkind htext

namespace Language

/-- All specs of languages are in the catalogues of the C family and of the markup languages. -/
theorem mem_catalogues {language : Language} {spec : Spec}
    (h : spec ∈ language.grammar.table.candidates) :
    spec ∈ CFamily.allSpecs ∨ spec ∈ Markup.specs := by
  cases language with
  | c | cpp | objc | objcpp => exact .inl (mem_allSpecs (by decide) h)
  | html | xml | feed | propertyList => exact .inr (Table.mem_of_mem_candidates h)

/-- Where a leaf of a parsed text comes from. -/
theorem exists_origin (language : Language) (analysis : Bool) (source : List Char) {leaf : Node}
    (hleaf : leaf ∈ (language.parse analysis source).root.leaves) (htext : leaf.kind ≠ .text)
    (hdelimiter : leaf.kind ≠ .delimiter) :
    ∃ range restrict spec,
      language.grammar.table.Origin (language.prepare source) leaf.token range restrict spec := by
  have htoken : leaf.token ∈ language.grammar.tokens (language.prepare source) := by
    rw [← language.tokens_parse analysis]
    exact List.mem_map_of_mem hleaf
  have hstop : isBoundary (language.prepare source)
      (Range.ofLength 0 (byteLength (language.prepare source))).stop = true := by
    simp [Range.ofLength, isBoundary_byteLength]
  obtain ⟨range, restrict, hscans, hstart, hstop, hspan⟩ :=
    Grammar.exists_scanRange .whole (isBoundary_zero _) hstop htoken htext hdelimiter
  obtain ⟨spec, horigin⟩ :=
    Table.exists_origin language.isMeasured_table hscans hstart hstop hspan htext
  exact ⟨range, restrict, spec, horigin⟩

end Language

end ConcreteSyntax
