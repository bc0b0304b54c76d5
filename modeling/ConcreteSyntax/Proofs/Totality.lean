import ConcreteSyntax.Proofs.Analysis.Course
import ConcreteSyntax.Proofs.Lossless
import ConcreteSyntax.Proofs.Pairing.Builder
import ConcreteSyntax.Proofs.Scan.Catalogues

/-!
# Parsing always ends well

A text with offsets of 32 bits is scanned, paired and analysed in an arena without breaking,
in every language (`Language.parse_total`).  Where the walk over it ends, the arena holds the
tree that the text is parsed into as a value.
-/

namespace ConcreteSyntax

theorem LineEndings.byteLength_joinPairs_le (text : List Char) :
    Text.byteLength (joinPairs text) ≤ Text.byteLength text := by
  fun_induction joinPairs text with
  | case1 => exact Nat.le_refl _
  | case2 rest ih =>
      simp only [Text.byteLength_cons]
      omega
  | case3 c rest hpair ih =>
      simp only [Text.byteLength_cons]
      omega

theorem LineEndings.byteLength_map_feed (text : List Char) :
    Text.byteLength (text.map feed) = Text.byteLength text := by
  induction text with
  | nil => rfl
  | cons c rest ih =>
      have hfeed : (feed c).utf8Size = c.utf8Size := by
        unfold feed
        split
        · rename_i hc
          rw [hc]
          rfl
        · rfl
      rw [List.map_cons, Text.byteLength_cons, Text.byteLength_cons, ih, hfeed]

theorem LineEndings.byteLength_unify_le (text : List Char) :
    Text.byteLength (unify text) ≤ Text.byteLength text := by
  rw [unify, byteLength_map_feed]
  exact byteLength_joinPairs_le text

/-- Preparing a text never makes it longer. -/
theorem Language.byteLength_prepare_le (language : Language) (text : List Char) :
    Text.byteLength (language.prepare text) ≤ Text.byteLength text := by
  unfold Language.prepare LineEndings.apply
  cases language.lineEndings with
  | normalize => exact LineEndings.byteLength_unify_le text
  | preserve => exact Nat.le_refl _

namespace Walk

variable {built : Parse} {sound : Prop}

/-- A walk over a parsed text begins with an arena that keeps its tree. -/
theorem at_start (h : built.WellLaid sound) (passes : List Finder) :
    (start (.ofParse built) passes).At built.lines built.next built.next built.root where
  keeps := h.represents.keeps h.numbered
  fits := h.weaken.fits
  made := rfl
  sparse node hnode hnew := by
    obtain ⟨index, hlt, hid⟩ := h.numbered.mem_iff.1 (List.mem_map_of_mem hnode)
    rw [hid] at hnew
    exact absurd (of_decide_eq_true hnew) (Nat.not_le.2 hlt)

/-- A walk over a parsed text whose rules follow sound plans goes its way without breaking, and
ends with what the passes make of the text. -/
theorem through_ofParse (h : built.WellLaid sound) {passes : List Pass}
    (hplanned : ∀ pass ∈ passes, pass.Planned) :
    ∃ last, last.step = .ok none ∧ last.tree = .ofParse (built.analyse passes)
      ∧ Good built.lines last
      ∧ Through (Good built.lines) (start (.ofParse built) (passes.map (·.rule.finder))) last := by
  obtain ⟨last, hthrough, hend, hgood, hkeeps⟩ :=
    (at_start h (passes.map (·.rule.finder))).through_passes hplanned ⟨rfl, rfl, rfl, rfl⟩
  exact ⟨last, hend, (hkeeps.represents built.notes).eq_ofParse hkeeps.numbered, hgood, hthrough⟩

end Walk

namespace Language

/-- Parsing a text shorter than 2^32 bytes never breaks and always ends, with the tree and the
problems that the text is parsed into as a value.  On the way no pass wraps all children of a
node that it has made, and it makes fewer than two nodes for each of the siblings in a list. -/
theorem parse_total (language : Language) (analysis : Bool) (text : List Char)
    (hlength : Text.byteLength text < UInt32.size) :
    ∃ builder last, language.grammar.build (language.prepare text) = .ok builder
      ∧ builder.notes.reverse = (language.parse analysis text).notes
      ∧ last.step = .ok none
      ∧ last.tree = .ofParse (language.parse analysis text)
      ∧ ∀ walk, (Walk.start builder.tree (language.finders analysis)).Reaches walk →
        walk.Reaches last ∧ (∃ next, walk.step = .ok next) ∧ walk.Spares ∧ walk.IsBounded := by
  have hprepared : Text.byteLength (language.prepare text) < UInt32.size :=
    Nat.lt_of_le_of_lt (language.byteLength_prepare_le text) hlength
  obtain ⟨builder, hbuild, htree, hnotes⟩ :=
    Grammar.build_eq language.isSound_grammar language.isMeasured_table hprepared
  let count := if analysis then language.grammar.passes.length else 0
  have hfinders : language.finders analysis =
      (language.grammar.passes.take count).map (·.rule.finder) := by
    cases analysis <;> simp [count, finders]
  have hlaid : (Parse.build language.grammar (language.prepare text)).WellLaid True :=
    Parse.wellLaid_build (fun _ => language.isSound_grammar) _
  obtain ⟨last, hend, hlast, hgood, hthrough⟩ := Walk.through_ofParse hlaid
    fun pass hpass => language.planned_passes pass (List.mem_of_mem_take hpass)
  rw [← hfinders, ← htree] at hthrough
  refine ⟨builder, last, hbuild, ?_, hend, ?_, fun walk hreaches => ?_⟩
  · rw [hnotes, parse_eq_stage]
    rfl
  · rw [hlast, parse_eq_stage]
    rfl
  · have hrest := hthrough.of_reaches hend hreaches
    obtain ⟨⟨first, next, root, hat⟩, hspares⟩ := hrest.good_first hgood
    exact ⟨hrest.reaches, hrest.exists_step hend, hspares, hat.isBounded⟩

/-- The text of a call is parsed to its end. -/
theorem parse_total_call : Text.byteLength "f(x);".toList < UInt32.size
    ∧ ∃ builder last,
      Language.c.grammar.build (Language.c.prepare "f(x);".toList) = .ok builder
      ∧ builder.notes.reverse = (Language.c.parse true "f(x);".toList).notes
      ∧ last.step = .ok none
      ∧ last.tree = .ofParse (Language.c.parse true "f(x);".toList)
      ∧ ∀ walk, (Walk.start builder.tree (Language.c.finders true)).Reaches walk →
        walk.Reaches last ∧ (∃ next, walk.step = .ok next) ∧ walk.Spares ∧ walk.IsBounded :=
  ⟨by decide, parse_total .c true "f(x);".toList (by decide)⟩

end Language

end ConcreteSyntax
