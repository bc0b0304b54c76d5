import ConcreteSyntax.Language
import ConcreteSyntax.Proofs.CFamily.Calls
import ConcreteSyntax.Proofs.CFamily.Statements
import ConcreteSyntax.Proofs.Pairing

/-!
# What all languages have in common

The grammars of all languages are sound, each of their passes reads its siblings by a sound
plan, and a text is prepared once and for all.
-/

namespace ConcreteSyntax

namespace Markup.Rules

/-- What holds of all kinds of elements holds of the kind of each. -/
theorem elementKind_of_all {rules : Rules} {test : Kind → Bool} (helement : test .element = false)
    (h : rules.elementKinds.all (fun entry => !test entry.2) = true) (name : List Char) :
    test (rules.elementKind name) = false := by
  unfold elementKind
  cases hfind : rules.elementKinds.find? (rules.sameName ·.1 name) with
  | none => exact helement
  | some entry => simpa using List.all_eq_true.1 h entry (List.mem_of_find?_eq_some hfind)

end Markup.Rules

namespace Markup

theorem isSound_grammar {rules : Rules}
    (h : rules.elementKinds.all (fun entry => !entry.2.isAtomic) = true) :
    (grammar rules).IsSound where
  table := Table.isSound_ofCatalogue (by decide +kernel)
  elements := by
    rintro _ ⟨⟩ name
    exact Rules.elementKind_of_all (by decide) h name

end Markup

/-- Whether a pass reads its siblings by a sound plan. -/
def Pass.Planned (pass : Pass) : Prop := ∃ plan, pass.rule.Reads plan ∧ plan.Sound

theorem Pass.Planned.synthesized {pass : Pass} (h : pass.Planned) {look : Lookahead}
    {found : Match} (hfound : pass.rule.found? look = some found) :
    KindSet.synthesized.contains found.kind = true := by
  obtain ⟨plan, hreads, hsound⟩ := h
  exact hreads.synthesized hsound hfound

namespace CFamily

theorem isSound_ofCatalogue {specs : List Spec} (passes : List Pass)
    (h : specs.all (fun spec => spec.closing.isSome || spec.kind.isAtomic) = true) :
    Grammar.IsSound ⟨.ofCatalogue specs, passes, none⟩ :=
  ⟨Table.isSound_ofCatalogue h, nofun⟩

theorem isSound_cGrammar : cGrammar.IsSound := isSound_ofCatalogue _ (by decide +kernel)

theorem isSound_cppGrammar : cppGrammar.IsSound := isSound_ofCatalogue _ (by decide +kernel)

theorem isSound_objcGrammar : objcGrammar.IsSound := isSound_ofCatalogue _ (by decide +kernel)

theorem isSound_objcppGrammar : objcppGrammar.IsSound :=
  isSound_ofCatalogue _ (by decide +kernel)

theorem planned_passes : ∀ pass ∈ passes, pass.Planned := by
  simp only [passes, List.forall_mem_cons]
  exact ⟨⟨_, reads_conditional, sound_conditional⟩, ⟨_, reads_types, sound_types⟩,
    ⟨_, reads_function, sound_function⟩, ⟨_, reads_flow, sound_flow⟩,
    ⟨_, reads_labels, sound_labels⟩, ⟨_, reads_call, sound_call⟩, by simp⟩

theorem planned_objcPasses : ∀ pass ∈ objcPasses, pass.Planned := by
  simp only [objcPasses, List.forall_mem_cons]
  exact ⟨⟨_, reads_conditional, sound_conditional⟩, ⟨_, reads_classes, sound_classes⟩,
    ⟨_, reads_types, sound_types⟩, ⟨_, reads_function, sound_function⟩,
    ⟨_, reads_flow, sound_flow⟩, ⟨_, reads_labels, sound_labels⟩,
    ⟨_, reads_messages, sound_messages⟩, by simp⟩

end CFamily

namespace Language

/-- Leaves are of kinds of leaves in every language, and elements of kinds of containers. -/
theorem isSound_grammar (language : Language) : language.grammar.IsSound := by
  cases language with
  | c => exact CFamily.isSound_cGrammar
  | cpp => exact CFamily.isSound_cppGrammar
  | objc => exact CFamily.isSound_objcGrammar
  | objcpp => exact CFamily.isSound_objcppGrammar
  | html => exact Markup.isSound_grammar (by decide +kernel)
  | xml => exact Markup.isSound_grammar (by decide +kernel)
  | feed => exact Markup.isSound_grammar (by decide +kernel)
  | propertyList => exact Markup.isSound_grammar (by decide +kernel)

/-- All passes of all languages follow sound plans. -/
theorem planned_passes (language : Language) :
    ∀ pass ∈ language.grammar.passes, pass.Planned := by
  cases language with
  | c => exact CFamily.planned_passes
  | cpp => exact CFamily.planned_passes
  | objc => exact CFamily.planned_objcPasses
  | objcpp => exact CFamily.planned_objcPasses
  | html | xml | feed | propertyList => simp [grammar, Markup.grammar]

theorem nodup_passes (language : Language) : (language.grammar.passes.map (·.name)).Nodup := by
  cases language <;> decide

/-- The name of a pass tells which of the passes of a language it is. -/
theorem eq_of_name {language : Language} {pass pass' : Pass}
    (hpass : pass ∈ language.grammar.passes) (hpass' : pass' ∈ language.grammar.passes)
    (hname : pass.name = pass'.name) : pass = pass' :=
  List.inj_on_of_nodup_map language.nodup_passes hpass hpass' hname

end Language

namespace LineEndings

theorem notMem_unify (text : List Char) : '\r' ∉ unify text := by
  rw [unify, List.mem_map]
  rintro ⟨c, -, hc⟩
  unfold feed at hc
  split at hc
  · cases hc
  · contradiction

theorem joinPairs_eq_self {text : List Char} (h : '\r' ∉ text) : joinPairs text = text := by
  fun_induction joinPairs text with
  | case1 => rfl
  | case2 rest ih => simp at h
  | case3 c rest hpair ih =>
      rw [List.mem_cons, not_or] at h
      rw [ih h.2]

theorem unify_eq_self {text : List Char} (h : '\r' ∉ text) : unify text = text := by
  rw [unify, joinPairs_eq_self h]
  refine (List.map_congr_left fun c hc => if_neg ?_).trans (List.map_id text)
  rintro rfl
  exact h hc

end LineEndings

theorem Language.prepare_nil (language : Language) : language.prepare [] = [] := by
  unfold Language.prepare LineEndings.apply
  cases language.lineEndings <;> rfl

/-- A prepared text needs no more preparation. -/
theorem Language.prepare_prepare (language : Language) (text : List Char) :
    language.prepare (language.prepare text) = language.prepare text := by
  unfold Language.prepare LineEndings.apply
  cases language.lineEndings with
  | normalize => exact LineEndings.unify_eq_self (LineEndings.notMem_unify text)
  | preserve => rfl

end ConcreteSyntax
