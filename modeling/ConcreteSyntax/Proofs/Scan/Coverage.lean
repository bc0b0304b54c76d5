import ConcreteSyntax.Proofs.Scan
import ConcreteSyntax.Proofs.Scan.Attempt
import Mathlib.Data.List.Chain

/-!
# Coverage of a range

The spans of a range cover it (`Table.scan_covers`): they follow one another without gaps from
its start to its end, none of them is empty, texts are as long as they can be, and the kinds of
all other spans are declared and asked for.
-/

namespace ConcreteSyntax

namespace Pattern

/-- Whether a pattern gives no characters that are not there. -/
def Fits : Pattern → Prop
  | .literal _ | .keyword _ => True
  | .custom rule => ∀ cx n, rule cx = some n → n ≤ cx.rest.length

/-- Whether all matches of a pattern have characters. -/
def IsProper : Pattern → Prop
  | .literal text | .keyword text => text ≠ []
  | .custom rule => ∀ cx, rule cx ≠ some 0

variable {pattern : Pattern}

theorem Fits.isMeasured (h : pattern.Fits) : pattern.IsMeasured :=
  match pattern, h with
  | .literal _, _ => isMeasured_literal _
  | .keyword _, _ => isMeasured_keyword _
  | .custom _, h => h

theorem IsProper.length?_ne_zero (h : pattern.IsProper) (cx : Context) :
    pattern.length? cx ≠ some 0 := by
  cases pattern with
  | literal text =>
      have hproper : text ≠ [] := h
      simp [length?, hproper]
  | keyword word =>
      have hproper : word ≠ [] := h
      simp [length?, hproper]
  | custom rule => exact h cx

end Pattern

/-- Whether the patterns of a spec are fit for a scanner: opening markers have characters, and
rules give no characters that are not there. -/
structure Spec.IsRegular (spec : Spec) : Prop where
  proper : spec.opening.IsProper
  opening : spec.opening.Fits
  closing : ∀ closing, spec.closing = some closing → closing.Fits

theorem Spec.IsRegular.isMeasured {spec : Spec} (h : spec.IsRegular) : spec.IsMeasured where
  proper := h.proper.length?_ne_zero
  opening := h.opening.isMeasured
  closing closing hclosing := (h.closing closing hclosing).isMeasured

/-- Spans that follow one another from `start` to `stop`, none of them empty. -/
def Span.Tile (start : Nat) : List Span → Nat → Prop
  | [], stop => start = stop
  | span :: rest, stop =>
      span.range.start = start ∧ start < span.range.stop ∧ Tile span.range.stop rest stop

namespace Table

variable {table : Table} {restrict : Option KindSet}

theorem tile_scanFrom (offset : Nat) (place : Context) :
    Span.Tile offset (table.scanFrom restrict offset place.toLeftContext place.rest)
      (offset + Text.byteLength place.rest) := by
  generalize h : table.scanFrom restrict offset place.toLeftContext place.rest = spans
  induction spans generalizing offset place with
  | nil =>
      have hrest := table.flatMap_chars_scanFrom restrict offset place.toLeftContext place.rest
      rw [h] at hrest
      simp [Span.Tile, ← hrest]
  | cons span after ih =>
      obtain ⟨n, htake, hrange, hafter, -⟩ := scanFrom_cases h
      have hpos : Text.byteLength (place.rest.take n) ≠ 0 := mt Text.byteLength_eq_zero_iff.1 htake
      have hrest : Text.byteLength (place.rest.take n) + Text.byteLength (place.rest.drop n) =
          Text.byteLength place.rest := by
        rw [← Text.byteLength_append, List.take_append_drop]
      have htail := ih _ _ hafter
      rw [Span.Tile, hrange]
      refine ⟨rfl, by simp only [Range.ofLength]; omega, ?_⟩
      rw [← hrest, ← Nat.add_assoc]
      exact htail

/-- A run of characters that nothing recognises ends at the end of the text, or where something
is recognised. -/
theorem recognise?_textRun (place : Context)
    (h : (place.advance (table.textRun restrict place.toLeftContext place.rest)).rest ≠ []) :
    table.recognise? restrict
      (place.advance (table.textRun restrict place.toLeftContext place.rest)) ≠ none := by
  obtain ⟨left, rest⟩ := place
  induction rest generalizing left with
  | nil => exact absurd rfl h
  | cons c tail ih =>
      cases hfound : table.recognise? restrict ⟨left, c :: tail⟩ with
      | some found =>
          simp [textRun_of_some hfound, Context.advance, hfound]
      | none =>
          simp only [textRun_of_none hfound] at h ⊢
          exact ih _ h

theorem kind_ne_text_of_recognise? (htext : ∀ spec ∈ table.candidates, spec.kind ≠ .text)
    {place : Context} {found : Found} (h : table.recognise? restrict place = some found) (offset : Nat)
    (rest : List Char) : (found.toSpan offset rest).kind ≠ .text := by
  obtain ⟨before, spec, after, hcandidates, -, hrecognised, -⟩ := exists_of_recognise? h
  rw [Spec.kind_of_recognise? hrecognised]
  exact htext spec (by simp [hcandidates])

/-- Behind a text stands something that is recognised. -/
theorem isChain_scanFrom (htext : ∀ spec ∈ table.candidates, spec.kind ≠ .text) (offset : Nat)
    (place : Context) :
    (table.scanFrom restrict offset place.toLeftContext place.rest).IsChain fun span next =>
      span.kind = .text → next.kind ≠ .text := by
  generalize h : table.scanFrom restrict offset place.toLeftContext place.rest = spans
  induction spans generalizing offset place with
  | nil => exact .nil
  | cons span after ih =>
      obtain ⟨n, -, -, hafter, hspan⟩ := scanFrom_cases h
      refine List.isChain_cons.2 ⟨fun next hnext hkind => ?_, ih _ _ hafter⟩
      obtain ⟨found, hfound, -, rfl⟩ | ⟨-, rfl, -⟩ := hspan
      · exact absurd hkind (kind_ne_text_of_recognise? htext hfound _ _)
      obtain ⟨others, rfl⟩ : ∃ others, after = next :: others := by
        cases after with
        | nil => cases hnext
        | cons head others => exact ⟨others, by rw [Option.some.inj hnext]⟩
      obtain ⟨m, htake, -, -, ⟨found, hfound, -, rfl⟩ | ⟨hnone, -, -⟩⟩ := scanFrom_cases hafter
      · exact kind_ne_text_of_recognise? htext hfound _ _
      · refine absurd hnone (recognise?_textRun place fun hnil => ?_)
        rw [hnil] at htake
        exact htake List.take_nil

/-- How spans cover a range of a text. -/
structure Covers (table : Table) (text : List Char) (range : Range) (restrict : Option KindSet)
    (spans : List Span) : Prop where
  /-- Spans follow one another over the whole range, and none is empty. -/
  tile : Span.Tile range.start spans range.stop
  /-- The parts of spans follow one another as well, and hold what the text holds there. -/
  parts : Chain text range.start (spans.flatMap Span.fragments) range.stop
  /-- No text stands behind a text. -/
  texts : spans.IsChain fun span next => span.kind = .text → next.kind ≠ .text
  /-- All other spans are of kinds that the table declares and that are asked for. -/
  kinds : ∀ span ∈ spans, span.kind = .text
    ∨ table.kinds.contains span.kind = true ∧ restrict.all (·.contains span.kind) = true

/-- A scan of a range does not break, and its spans cover the range. -/
theorem scan_covers {specs : List Spec} {table : Table} (hbuild : build specs = .ok table)
    (htext : table.kinds.contains .text = false) (hregular : ∀ spec ∈ specs, spec.IsRegular)
    (text : List Char) (range : Range) (restrict : Option KindSet)
    (hstart : Text.isBoundary text range.start = true)
    (hstop : Text.isBoundary text range.stop = true) :
    table.attemptRange text range restrict = .ok (table.scanRange text range restrict)
      ∧ table.Covers text range restrict (table.scanRange text range restrict) := by
  obtain ⟨rfl, hordered⟩ := build_eq_ok hbuild
  have hdeclared : ∀ spec ∈ table.candidates, spec ∈ table.specs := fun spec =>
    hordered.perm.mem_iff.1
  refine ⟨attemptRange_eq (fun spec hspec => ?_) restrict hstart hstop, ?_, ?_, ?_, ?_⟩
  · exact (hregular spec (hdeclared spec hspec)).isMeasured
  · have hlength := Text.byteLength_slice hstart hstop
    rw [Range.length] at hlength
    have hstop : range.start + Text.byteLength (Text.slice text range) = range.stop := by
      have := range.start_le_stop
      omega
    exact hstop ▸ tile_scanFrom range.start ⟨_, Text.slice text range⟩
  · exact chain_scanRange table restrict hstart hstop
  · exact isChain_scanFrom (fun spec hspec => kind_ne_of_notMem (hdeclared spec hspec) htext)
      range.start ⟨_, Text.slice text range⟩
  · exact @kind_scanFrom table (fun kind => kind = .text
        ∨ table.kinds.contains kind = true ∧ restrict.all (·.contains kind) = true) restrict
      (.inl rfl)
      (fun spec hspec hallowed => .inr ⟨contains_kinds (hdeclared spec hspec), hallowed⟩) _ _ _

/-- A string that does not end, with an escape at the end of the range. -/
theorem scan_covers_open_string :
    let specs := [.literal .colon ":", (Spec.pair .stringDoubleQuote "\"" "\"").escapedBy '\\']
    let text := ['é', ':', '"', 'a', '\\', '"']
    build specs = .ok ⟨specs, specs⟩ ∧ (∀ spec ∈ specs, spec.IsRegular)
      ∧ Table.Covers ⟨specs, specs⟩ text (.upTo 2 6) none
        (Table.scanRange ⟨specs, specs⟩ text (.upTo 2 6) none) := by
  intro specs text
  have horder : Backlog.settle specs specs.length (.start specs) = [0, 1] := by decide +kernel
  have hbuild : build specs = .ok ⟨specs, specs⟩ := build_of_settle (by decide) horder rfl
  have hregular : ∀ spec ∈ specs, spec.IsRegular := by
    rw [List.forall_mem_cons, List.forall_mem_singleton]
    refine ⟨⟨List.cons_ne_nil _ _, True.intro, nofun⟩, ⟨List.cons_ne_nil _ _, True.intro, ?_⟩⟩
    intro closing hclosing
    obtain rfl := Option.some.inj hclosing
    exact True.intro
  have htext : (Table.mk specs specs).kinds.contains .text = false := by decide
  exact ⟨hbuild, hregular, (scan_covers hbuild htext hregular text (.upTo 2 6) none (by decide)
    (by decide)).2⟩

end Table

end ConcreteSyntax
