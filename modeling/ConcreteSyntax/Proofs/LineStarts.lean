import ConcreteSyntax.Proofs.CFamily.Inclusions
import ConcreteSyntax.Proofs.Layout
import ConcreteSyntax.Proofs.Origin

/-!
# Starts of lines

A matcher knows the character before its place, and whether its line holds only blanks so far.  So
what has to begin a line does so: a directive has only blanks before it, and indentation stands
behind a line break or at the beginning of a text (`Language.starts_lines`).  There is one
exception: the NUL character stands for the beginning, so blanks behind a NUL that a text holds are
taken for indentation (`Language.starts_lines_nul`).
-/

namespace ConcreteSyntax

open Text

/-- Whether a line begins right behind a text. -/
def Text.LeadsLine (text : List Char) : Prop := text.getLast?.all isLineBreak = true

instance : DecidablePred Text.LeadsLine := fun _ => inferInstanceAs (Decidable (_ = true))

namespace LeftContext

/-- A line that holds only blanks so far began behind a line break or at the beginning. -/
theorem exists_of_blank {before : List Char} (h : (ofText before).blank = true) :
    ∃ front blanks, before = front ++ blanks ∧ LeadsLine front
      ∧ ∀ c ∈ blanks, isBlank c = true := by
  refine ⟨(before.reverse.dropWhile isBlank).reverse, (before.reverse.takeWhile isBlank).reverse,
    ?_, ?_, fun c hc => List.mem_takeWhile_imp (List.mem_reverse.1 hc)⟩
  · rw [← List.reverse_append, List.takeWhile_append_dropWhile, List.reverse_reverse]
  · rw [LeadsLine, List.getLast?_reverse]
    exact h

/-- What seems to begin a line does so, if it does not stand behind a NUL. -/
theorem leadsLine_of_atLineStart {before rest : List Char}
    (h : Context.atLineStart ⟨.ofText before, rest⟩ = true) :
    LeadsLine before ∨ before.getLast? = some '\x00' := by
  rw [Context.atLineStart, ofText, Bool.or_eq_true, beq_iff_eq] at h
  cases hlast : before.getLast? with
  | none => exact .inl (by rw [LeadsLine, hlast]; rfl)
  | some c =>
      rw [hlast, Option.getD_some] at h
      rcases h with rfl | hbreak
      · exact .inr rfl
      · exact .inl (by rw [LeadsLine, hlast]; exact hbreak)

end LeftContext

/-- Whether what has to begin a line does so in the tree of a text, but for indentation that stands
behind a NUL. -/
structure Node.StartsLines (text : List Char) (root : Node) : Prop where
  /-- Indentation stands behind a line break, at the beginning, or behind a NUL. -/
  indenting : ∀ leaf ∈ root.leaves, leaf.kind = .indenting →
    ∃ front behind, text = front ++ behind ∧ leaf.range.start = byteLength front
      ∧ (LeadsLine front ∨ front.getLast? = some '\x00')
  /-- Only blanks stand before the pound sign of a directive on its line. -/
  directive : ∀ node ∈ root.descendants, KindSet.directives.contains node.kind = true →
    ∃ front blanks behind, text = front ++ (blanks ++ '#' :: behind)
      ∧ node.range.start = byteLength (front ++ blanks)
      ∧ LeadsLine front ∧ ∀ c ∈ blanks, isBlank c = true

theorem Context.atLineStart_of_whitespace {cx : Context} {whitespace : Option Nat} {n : Nat}
    (h : (if cx.atLineStart then whitespace else none) = some n) : cx.atLineStart = true :=
  (Option.ite_none_right_eq_some.1 h).1

namespace Language

variable {language : Language}

/-- Indentation is looked for at starts of lines only. -/
theorem atLineStart_of_recognise? {spec : Spec}
    (hspec : spec ∈ language.grammar.table.candidates) (hkind : spec.kind = .indenting)
    {cx : Context} {n : Nat} (h : spec.recognise? cx = some (.leaf .indenting n)) :
    cx.atLineStart = true := by
  rcases mem_catalogues hspec with hspec | hspec
  · have hspecs : CFamily.allSpecs.filter (·.kind == .indenting) =
        [(Spec.custom .indenting CFamily.indenting).patching [.whitespace]] := rfl
    have hmem : spec ∈ CFamily.allSpecs.filter (·.kind == .indenting) :=
      List.mem_filter.2 ⟨hspec, by rw [hkind]; rfl⟩
    rw [hspecs, List.mem_singleton] at hmem
    subst hmem
    exact Context.atLineStart_of_whitespace (Spec.length_of_recognise?_custom h)
  · obtain rfl : spec = (Spec.custom .indenting Markup.indenting).patching [.whitespace] :=
      Markup.eq_of_kind hspec (by simp [Markup.specs]) hkind
    exact Context.atLineStart_of_whitespace (Spec.length_of_recognise?_custom h)

/-- What a leaf of indentation stands behind. -/
theorem exists_of_indenting (analysis : Bool) (text : List Char) {leaf : Node}
    (hleaf : leaf ∈ (language.parse analysis text).root.leaves) (hkind : leaf.kind = .indenting) :
    ∃ front behind, language.prepare text = front ++ behind
      ∧ leaf.range.start = byteLength front
      ∧ (LeadsLine front ∨ front.getLast? = some '\x00') := by
  obtain ⟨range, _, spec, horigin⟩ := language.exists_origin analysis text hleaf
    (by rw [hkind]; decide) (by rw [hkind]; decide)
  have hfound := horigin.recognised
  rw [show leaf.token.kind = .indenting from hkind] at hfound
  have hstarts := atLineStart_of_recognise? horigin.candidate (horigin.kind.trans hkind) hfound
  rw [parse_eq_stage] at hleaf
  have hlaid := language.wellLaid_stage (if analysis then language.grammar.passes.length else 0) text
  obtain ⟨front, behind, htext, hfront⟩ :=
    isBoundary_iff.1 (hlaid.fits.below (List.mem_of_mem_filter hleaf)).self.start
  have hbefore : takeBytes leaf.range.start (language.prepare text) = front := by
    rw [← hfront, show language.prepare text = front ++ behind from htext,
      takeBytes_byteLength_append]
  have hplace : Context.ofText (language.prepare text) range.stop leaf.token.text.start =
      ⟨.ofText front, slice (language.prepare text) (.upTo leaf.range.start range.stop)⟩ := by
    rw [← hbefore]
    rfl
  rw [hplace] at hstarts
  exact ⟨front, behind, htext, hfront.symm, LeftContext.leadsLine_of_atLineStart hstarts⟩

/-- Markup has no directives. -/
theorem directives_markup (h : language ∉ cFamily) (text : List Char) :
    (Parse.build language.grammar text).root.All fun node =>
      KindSet.directives.contains node.kind = false := by
  have hkeeps : language.grammar.Keeps fun kind => KindSet.directives.contains kind = false := by
    cases language with
    | c | cpp | objc | objcpp => exact absurd (by decide) h
    | html | xml | feed | propertyList =>
        exact Markup.keeps_grammar (by decide) (by decide +kernel) (by decide +kernel)
  exact Grammar.keeps_pair hkeeps _

/-- What has to begin a line does so.  In the tree of a text, indentation stands behind a line break
or at the beginning, or behind a NUL, and only blanks stand before the pound sign of a directive on
its line. -/
theorem starts_lines (language : Language) (analysis : Bool) (text : List Char) :
    (language.parse analysis text).root.StartsLines (language.prepare text) where
  indenting leaf := exists_of_indenting analysis text
  directive := by
    refine directives_parse analysis text fun node hnode hkind => ?_
    by_cases hfamily : language ∈ cFamily
    · obtain ⟨before, name, front, behind, _, _, hword, htext, hname, hplace, -⟩ :=
        exists_directive hfamily _ hnode hkind
      obtain ⟨hblank, -⟩ := (CFamily.directive_eq_some_iff hword).1 hname
      obtain ⟨line, blanks, rfl, hline, hblanks⟩ := LeftContext.exists_of_blank hblank
      exact ⟨line, blanks, front ++ behind, by rw [htext, List.append_assoc], hplace, hline,
        hblanks⟩
    · rw [directives_markup hfamily _ node hnode] at hkind
      cases hkind

/-- A directive behind indentation on the second line of a text. -/
theorem starts_lines_define :
    (∃ leaf ∈ (c.parse true "a\n #define b".toList).root.leaves,
        leaf.kind = .indenting ∧ leaf.range.start = 2)
      ∧ (∃ node ∈ (c.parse true "a\n #define b".toList).root.descendants,
        node.kind = .preprocessorDefine ∧ node.range.start = 3)
      ∧ (c.parse true "a\n #define b".toList).root.StartsLines (c.prepare "a\n #define b".toList) :=
  ⟨by decide +kernel, by decide +kernel, starts_lines c true _⟩

/-- Blanks behind a NUL are taken for indentation, though no line begins there. -/
theorem starts_lines_nul :
    ¬ ∀ (language : Language) (text : List Char),
      ∀ leaf ∈ (language.parse true text).root.leaves, leaf.kind = .indenting →
        ∃ front behind, language.prepare text = front ++ behind
          ∧ leaf.range.start = byteLength front ∧ LeadsLine front := by
  intro h
  have hprepare : c.prepare ['\x00', ' ', 'a'] = ['\x00', ' ', 'a'] := by decide +kernel
  obtain ⟨leaf, hleaf, hkind, hstart⟩ :
      ∃ leaf ∈ (c.parse true ['\x00', ' ', 'a']).root.leaves,
        leaf.kind = .indenting ∧ leaf.range.start = byteLength ['\x00'] := by decide +kernel
  obtain ⟨front, behind, htext, hfront, hline⟩ := h c _ leaf hleaf hkind
  rw [hprepare] at htext
  obtain ⟨rfl, -⟩ := append_inj_of_byteLength (htext.symm.trans
    (List.singleton_append (x := '\x00') (l := [' ', 'a'])).symm) (hfront.symm.trans hstart)
  revert hline
  decide

end Language

end ConcreteSyntax
