import ConcreteSyntax.Parse
import ConcreteSyntax.Proofs.Analysis.Tidy
import ConcreteSyntax.Proofs.Language
import ConcreteSyntax.Proofs.Pairing.Kinds

/-!
# Layout does not matter to analysis

A text is paired into a tidy tree, and every pass keeps it tidy.  So where two texts are
paired into trees with the same skeleton, their trees have the same skeleton after analysis.
-/

namespace ConcreteSyntax

namespace Pass

variable {node node' : Node}

/-- A pass runs on a tidy tree as it does on its skeleton, to every depth that suffices. -/
theorem commutes_run {pass : Pass} {plan : Plan} (hreads : pass.rule.Reads plan)
    (hplan : plan.Sound) (lines : LineIndex) (next : Nat) (h : node.All Node.Tidy) {fuel : Nat}
    (hfuel : depthBound node ≤ fuel) :
    Commutes (Skeleton.visit plan fuel) node (pass.run lines next node).node := by
  have hbound : Enough lines pass.rule (depthBound node) next node :=
    enough_depthBound hreads hplan next node
  have henough : Enough lines pass.rule fuel next node := by
    refine enough_of_suffices hreads hplan (.inl ?_) next
    unfold depthBound at hfuel
    omega
  rw [run, visit_eq_visit hbound henough]
  exact commutes_visit hreads hplan fuel next h

theorem skeleton_runAll {passes : List Pass} (hpasses : ∀ pass ∈ passes, pass.Planned)
    (lines lines' : LineIndex) (next next' : Nat) (h : node.All Node.Tidy) (h' : node'.All Node.Tidy)
    (hskeleton : node.skeleton = node'.skeleton) :
    (runAll passes lines next node).1.skeleton = (runAll passes lines' next' node').1.skeleton := by
  induction passes generalizing next next' node node' with
  | nil => exact hskeleton
  | cons pass rest ih =>
      rw [List.forall_mem_cons] at hpasses
      obtain ⟨⟨plan, hreads, hplan⟩, hrest⟩ := hpasses
      -- The depths differ where the trees do, so both passes are run to the greater one.
      let fuel := max (depthBound node) (depthBound node')
      have hrun := commutes_run hreads hplan lines next h (Nat.le_max_left _ _ : _ ≤ fuel)
      have hrun' := commutes_run hreads hplan lines' next' h' (Nat.le_max_right _ _ : _ ≤ fuel)
      refine ih hrest _ _ hrun.tidy hrun'.tidy ?_
      rw [hrun.skeleton, hrun'.skeleton, hskeleton]

end Pass

namespace CFamily

theorem keeps_ofCatalogue {specs : List Spec} (passes : List Pass)
    (h : specs.all (fun spec => !KindSet.synthesized.contains spec.kind) = true) :
    Grammar.Keeps (fun kind => KindSet.synthesized.contains kind = false)
      ⟨.ofCatalogue specs, passes, none⟩ where
  root := by decide
  text := by decide
  delimiter := by decide
  specs spec hspec := by
    simpa using List.all_eq_true.1 h spec (Table.mem_of_mem_candidates hspec)
  elements := nofun

end CFamily

namespace Markup

/-- Kinds that neither the catalogue nor the names of elements lead to are in no markup. -/
theorem keeps_grammar {rules : Rules} {kinds : KindSet}
    (hplain : [Kind.root, .text, .delimiter, .element].all (!kinds.contains ·) = true)
    (hspecs : specs.all (fun spec => !kinds.contains spec.kind) = true)
    (helements : rules.elementKinds.all (fun entry => !kinds.contains entry.2) = true) :
    (grammar rules).Keeps fun kind => kinds.contains kind = false := by
  simp only [List.all_cons, List.all_nil, Bool.and_true, Bool.and_eq_true, Bool.not_eq_true']
    at hplain
  obtain ⟨hroot, htext, hdelimiter, helement⟩ := hplain
  refine ⟨hroot, htext, hdelimiter, fun spec hspec => ?_, ?_⟩
  · simpa using List.all_eq_true.1 hspecs spec (Table.mem_of_mem_candidates hspec)
  · rintro _ ⟨⟩ name
    exact Rules.elementKind_of_all helement helements name

end Markup

namespace Language

/-- No kind of analysis is among the kinds that a language names. -/
theorem keeps_grammar (language : Language) :
    language.grammar.Keeps fun kind => KindSet.synthesized.contains kind = false := by
  cases language with
  | c => exact CFamily.keeps_ofCatalogue _ (by decide +kernel)
  | cpp => exact CFamily.keeps_ofCatalogue _ (by decide +kernel)
  | objc => exact CFamily.keeps_ofCatalogue _ (by decide +kernel)
  | objcpp => exact CFamily.keeps_ofCatalogue _ (by decide +kernel)
  | html | xml | feed | propertyList =>
      exact Markup.keeps_grammar (by decide) (by decide +kernel) (by decide +kernel)

theorem tidy_build (language : Language) (text : List Char) :
    (Parse.build language.grammar text).root.All Node.Tidy := by
  intro below hbelow hsynthesized
  have hplain := Grammar.keeps_pair language.keeps_grammar (LineIndex.ofText text) below hbelow
  rw [hplain] at hsynthesized
  cases hsynthesized

/-- Texts that differ only in trivia and comments are analysed in the same way. -/
theorem analysis_ignores_layout (language : Language) {text text' : List Char}
    (h : (Parse.build language.grammar text).root.skeleton =
      (Parse.build language.grammar text').root.skeleton) :
    ((Parse.build language.grammar text).analyse language.grammar.passes).root.skeleton =
      ((Parse.build language.grammar text').analyse language.grammar.passes).root.skeleton :=
  Pass.skeleton_runAll language.planned_passes _ _ _ _ (language.tidy_build text)
    (language.tidy_build text') h

/-- A comment before the end of a statement does not keep it from being one. -/
theorem analysis_ignores_layout_return :
    (Parse.build Language.c.grammar "return/**/;".toList).root.skeleton =
        ⟨.root, none, [⟨.returnKw, some "return".toList, []⟩, ⟨.semicolon, some [';'], []⟩]⟩
      ∧ ((Parse.build Language.c.grammar "return/**/;".toList).analyse
          Language.c.grammar.passes).root.skeleton =
        ((Parse.build Language.c.grammar "return;".toList).analyse
          Language.c.grammar.passes).root.skeleton := by
  have hscan : Language.c.grammar.table.scanRange "return;".toList (.ofLength 0 7) none =
      [.leaf .returnKw ⟨0, "return".toList⟩, .leaf .semicolon ⟨6, [';']⟩] := by decide +kernel
  have hscan' : Language.c.grammar.table.scanRange "return/**/;".toList (.ofLength 0 11) none =
      [.leaf .returnKw ⟨0, "return".toList⟩, .leaf .cComment ⟨6, "/**/".toList⟩,
        .leaf .semicolon ⟨10, [';']⟩] := by decide +kernel
  have hskeleton : (Parse.build Language.c.grammar "return;".toList).root.skeleton =
      ⟨.root, none, [⟨.returnKw, some "return".toList, []⟩, ⟨.semicolon, some [';'], []⟩]⟩ := by
    rw [Parse.build, Grammar.pair_of_scan hscan]
    rfl
  have hskeleton' : (Parse.build Language.c.grammar "return/**/;".toList).root.skeleton =
      ⟨.root, none, [⟨.returnKw, some "return".toList, []⟩, ⟨.semicolon, some [';'], []⟩]⟩ := by
    rw [Parse.build, Grammar.pair_of_scan hscan']
    rfl
  exact ⟨hskeleton', analysis_ignores_layout .c (hskeleton'.trans hskeleton.symm)⟩

end Language

end ConcreteSyntax
