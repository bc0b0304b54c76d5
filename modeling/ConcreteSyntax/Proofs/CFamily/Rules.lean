import ConcreteSyntax.Proofs.CFamily.Pound

/-!
# Rules of the C family

The markers of the C family are fixed texts, but for those that a few rules measure
(`Language.isRuled_table`).  What is to be said of all markers is checked for the texts, and proved
for the rules.
-/

namespace ConcreteSyntax

namespace CFamily

/-- Whether a rule measures an opening marker of the C family. -/
inductive IsRule : (Context → Option Nat) → Prop
  | whitespace : IsRule whitespace
  | indenting : IsRule indenting
  | number : IsRule number
  | operator : IsRule operator
  | directive (name : String) : IsRule (directive name)

/-- The characters that what a rule measures may begin with. -/
def beginsRule (c : Char) : Bool := isBlank c || c.isDigit || isOperator c || c == '#'

theorem head?_of_whitespace {cx : Context} {n : Nat} (h : whitespace cx = some n) :
    cx.rest.head?.any isBlank = true := by
  unfold whitespace at h
  cases hrest : cx.rest with
  | nil => simp [hrest] at h
  | cons c rest =>
      cases hc : isBlank c with
      | true => simp [hc]
      | false => simp [hrest, hc] at h

theorem head?_of_operator {cx : Context} {n : Nat} (h : operator cx = some n) :
    cx.rest.head?.any isOperator = true := by
  unfold operator at h
  split at h
  · cases h
  · rename_i c rest hrest
    rw [hrest]
    exact (Option.ite_none_right_eq_some.1 h).1

theorem head?_of_directive {name : String} {cx : Context} {n : Nat}
    (h : directive name cx = some n) : cx.rest.head? = some '#' := by
  unfold directive at h
  split at h
  · rename_i rest _ hrest
    rw [hrest]
    rfl
  · cases h

theorem IsRule.head? {rule : Context → Option Nat} (h : IsRule rule) {cx : Context} {n : Nat}
    (hlength : rule cx = some n) : cx.rest.head?.any beginsRule = true := by
  have hmono : ∀ {test : Char → Bool}, (∀ c, test c = true → beginsRule c = true) →
      cx.rest.head?.any test = true → cx.rest.head?.any beginsRule = true := by
    intro test htest hany
    obtain ⟨c, hc, hhead⟩ := Option.any_eq_true _ _ |>.1 hany
    exact Option.any_eq_true _ _ |>.2 ⟨c, hc, htest c hhead⟩
  cases h with
  | whitespace =>
      refine hmono (fun c hc => ?_) (head?_of_whitespace hlength)
      simp [beginsRule, hc]
  | indenting =>
      refine hmono (fun c hc => ?_)
        (head?_of_whitespace (Option.ite_none_right_eq_some.1 hlength).2)
      simp [beginsRule, hc]
  | number =>
      have hdigit := (Option.ite_none_right_eq_some.1 hlength).1
      rw [Bool.and_eq_true] at hdigit
      refine hmono (fun c hc => ?_) hdigit.2
      simp [beginsRule, hc]
  | operator =>
      refine hmono (fun c hc => ?_) (head?_of_operator hlength)
      simp [beginsRule, hc]
  | directive name =>
      rw [head?_of_directive hlength]
      rfl

end CFamily

open CFamily

/-- Whether a pattern is a rule. -/
def Pattern.isCustom : Pattern → Bool
  | .custom _ => true
  | _ => false

namespace Spec

/-- Whether the markers of a spec that are not fixed texts are measured by the rules of the C
family. -/
structure IsRuled (spec : Spec) : Prop where
  opening : ∀ rule, spec.opening = .custom rule → IsRule rule
  closing : ∀ rule, spec.closing = some (.custom rule) → rule = lineEnd

variable {spec : Spec} {kind : Kind}

theorem isRuled_of_texts
    (h : (spec.opening.isCustom || spec.closing.any Pattern.isCustom) = false) : spec.IsRuled := by
  rw [Bool.or_eq_false_iff] at h
  constructor
  · intro rule hrule
    rw [hrule] at h
    cases h.1
  · intro rule hrule
    rw [hrule] at h
    cases h.2

theorem isRuled_custom {rule : Context → Option Nat} (h : IsRule rule) :
    (custom kind rule).IsRuled where
  opening := by
    rintro _ ⟨⟩
    exact h
  closing := nofun

theorem IsRuled.closedBy_lineEnd (h : spec.IsRuled) :
    (spec.closedBy (.custom lineEnd)).IsRuled where
  opening := h.opening
  closing := by
    rintro _ ⟨⟩
    rfl

theorem IsRuled.escapedBy (h : spec.IsRuled) (escape : Char) : (spec.escapedBy escape).IsRuled :=
  ⟨h.opening, h.closing⟩

theorem IsRuled.holding (h : spec.IsRuled) (kinds : KindSet) : (spec.holding kinds).IsRuled :=
  ⟨h.opening, h.closing⟩

theorem IsRuled.patching (h : spec.IsRuled) (kinds : List Kind) : (spec.patching kinds).IsRuled :=
  ⟨h.opening, h.closing⟩

end Spec

namespace CFamily

open Spec

theorem isRuled_directiveSpec (kind : Kind) (name : String) : (directiveSpec kind name).IsRuled :=
  (((isRuled_custom (.directive name)).closedBy_lineEnd.escapedBy _).holding _).patching _

theorem isRuled_literalSpecs (entries : List (Kind × String)) :
    ∀ spec ∈ literalSpecs entries, spec.IsRuled := by
  intro spec hspec
  obtain ⟨entry, _, rfl⟩ := List.mem_map.1 hspec
  exact isRuled_of_texts rfl

theorem isRuled_keywordSpecs (entries : List (Kind × String)) :
    ∀ spec ∈ keywordSpecs entries, spec.IsRuled := by
  intro spec hspec
  obtain ⟨entry, _, rfl⟩ := List.mem_map.1 hspec
  exact isRuled_of_texts rfl

theorem isRuled_basicSpecs : ∀ spec ∈ basicSpecs, spec.IsRuled := by
  simp only [basicSpecs, List.forall_mem_cons, List.not_mem_nil, false_imp_iff, implies_true,
    and_true]
  exact ⟨isRuled_custom .whitespace, (isRuled_custom .indenting).patching _, isRuled_of_texts rfl,
    isRuled_custom .number, isRuled_custom .operator, isRuled_of_texts rfl, isRuled_of_texts rfl,
    isRuled_of_texts rfl⟩

theorem isRuled_literalAndCommentSpecs : ∀ spec ∈ literalAndCommentSpecs, spec.IsRuled := by
  simp only [literalAndCommentSpecs, List.forall_mem_cons, List.not_mem_nil, false_imp_iff,
    implies_true, and_true]
  exact ⟨isRuled_of_texts rfl, isRuled_of_texts rfl,
    (isRuled_of_texts rfl).closedBy_lineEnd.patching _, isRuled_of_texts rfl, isRuled_of_texts rfl⟩

theorem isRuled_cSpecs : ∀ spec ∈ cSpecs, spec.IsRuled := by
  intro spec hspec
  simp only [cSpecs, List.mem_append] at hspec
  rcases hspec with (((hspec | hspec) | hspec) | hspec) | hspec
  · exact isRuled_basicSpecs spec hspec
  · exact isRuled_literalSpecs _ spec hspec
  · exact isRuled_literalAndCommentSpecs spec hspec
  · revert spec
    simp only [directiveSpecs, List.forall_mem_cons, List.not_mem_nil, false_imp_iff,
      implies_true, and_true, isRuled_directiveSpec]
  · exact isRuled_keywordSpecs _ spec hspec

theorem isRuled_cppAdditions : ∀ spec ∈ cppAdditions, spec.IsRuled := by
  rw [cppAdditions, List.forall_mem_cons]
  exact ⟨isRuled_of_texts rfl, isRuled_keywordSpecs _⟩

theorem isRuled_objcAdditions : ∀ spec ∈ objcAdditions, spec.IsRuled := by
  rw [objcAdditions, List.forall_mem_cons, List.forall_mem_cons]
  exact ⟨isRuled_directiveSpec _ _, isRuled_of_texts rfl, isRuled_keywordSpecs _⟩

/-- All specs of the C family. -/
def allSpecs : List Spec := cSpecs ++ (cppAdditions ++ objcAdditions)

end CFamily

namespace Language

variable {language : Language} {spec : Spec}

theorem mem_allSpecs (h : language ∈ cFamily) (hspec : spec ∈ language.grammar.table.candidates) :
    spec ∈ allSpecs := by
  simp only [allSpecs, List.mem_append]
  cases language with
  | c => exact .inl (Table.mem_of_mem_candidates hspec)
  | cpp => exact (Spec.mem_compose (Table.mem_of_mem_candidates hspec)).imp_right .inl
  | objc => exact (Spec.mem_compose (Table.mem_of_mem_candidates hspec)).imp_right .inr
  | objcpp =>
      rcases Spec.mem_compose (Table.mem_of_mem_candidates hspec) with hbase | hspec
      · exact (Spec.mem_compose hbase).imp_right .inl
      · exact .inr (.inr hspec)
  | html | xml | feed | propertyList => exact absurd h (by decide)

theorem isRuled_table (h : language ∈ cFamily) :
    ∀ spec ∈ language.grammar.table.candidates, spec.IsRuled := by
  intro spec hspec
  rcases List.mem_append.1 (mem_allSpecs h hspec) with hspec | hspec
  · exact isRuled_cSpecs spec hspec
  rcases List.mem_append.1 hspec with hspec | hspec
  · exact isRuled_cppAdditions spec hspec
  · exact isRuled_objcAdditions spec hspec

end Language

end ConcreteSyntax
