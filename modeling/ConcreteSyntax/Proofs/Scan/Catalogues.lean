import ConcreteSyntax.Language
import ConcreteSyntax.Proofs.Scan
import ConcreteSyntax.Proofs.Scan.Attempt
import Mathlib.Data.List.Basic

/-!
# Catalogues of measured specs

Every spec of every catalogue has an opening marker, and its markers are there where they
match.  What matches is a beginning of the rest of the text: fixed characters, or characters of
a class.
-/

namespace ConcreteSyntax

/-- Whether a rule measures a beginning of the rest that is not empty. -/
def Measures (rule : Context → Option Nat) : Prop :=
  ∀ cx n, rule cx = some n → 0 < n ∧ n ≤ cx.rest.length

theorem length_takeWhile_le (test : Char → Bool) (text : List Char) :
    (text.takeWhile test).length ≤ text.length := (List.takeWhile_prefix test).length_le

namespace Spec

variable {kind : Kind} {spec : Spec}

theorem isMeasured_literal {text : String} (h : text.toList ≠ []) :
    (literal kind text).IsMeasured where
  proper cx hzero := by
    simp only [literal, Pattern.length?, Option.ite_none_right_eq_some, Option.some.injEq] at hzero
    exact h (List.length_eq_zero_iff.1 hzero.2)
  opening := Pattern.isMeasured_literal _
  closing := nofun

theorem isMeasured_keyword {word : String} (h : word.toList ≠ []) :
    (keyword kind word).IsMeasured where
  proper cx hzero := by
    simp only [keyword, Pattern.length?, Option.ite_none_right_eq_some, Option.some.injEq] at hzero
    exact h (List.length_eq_zero_iff.1 hzero.2)
  opening := Pattern.isMeasured_keyword _
  closing := nofun

theorem isMeasured_custom {rule : Context → Option Nat} (h : Measures rule) :
    (custom kind rule).IsMeasured where
  proper cx hzero := Nat.lt_irrefl 0 (h cx 0 hzero).1
  opening cx n hlength := (h cx n hlength).2
  closing := nofun

theorem IsMeasured.closedBy (h : spec.IsMeasured) {closing : Pattern}
    (hclosing : closing.IsMeasured) : (spec.closedBy closing).IsMeasured where
  proper := h.proper
  opening := h.opening
  closing := by
    rintro _ ⟨⟩
    exact hclosing

theorem IsMeasured.escapedBy (h : spec.IsMeasured) (escape : Char) :
    (spec.escapedBy escape).IsMeasured := ⟨h.proper, h.opening, h.closing⟩

theorem IsMeasured.holding (h : spec.IsMeasured) (kinds : KindSet) :
    (spec.holding kinds).IsMeasured := ⟨h.proper, h.opening, h.closing⟩

theorem IsMeasured.patching (h : spec.IsMeasured) (kinds : List Kind) :
    (spec.patching kinds).IsMeasured := ⟨h.proper, h.opening, h.closing⟩

theorem isMeasured_pair {opening closing : String} (h : opening.toList ≠ []) :
    (pair kind opening closing).IsMeasured :=
  (isMeasured_literal h).closedBy (Pattern.isMeasured_literal _)

theorem mem_declare {addition : Spec} {specs : List Spec} (h : spec ∈ declare addition specs) :
    spec = addition ∨ spec ∈ specs := by
  induction specs with
  | nil => simpa [declare] using h
  | cons head rest ih =>
      unfold declare at h
      split at h
      · rcases List.mem_cons.1 h with rfl | h
        · exact .inl rfl
        · exact .inr (List.mem_cons_of_mem _ h)
      · rcases List.mem_cons.1 h with rfl | h
        · exact .inr (List.mem_cons_self ..)
        · rcases ih h with rfl | h
          · exact .inl rfl
          · exact .inr (List.mem_cons_of_mem _ h)

/-- An extended catalogue has only specs of the catalogue and of the extension. -/
theorem mem_compose {base additions : List Spec} (h : spec ∈ compose base additions) :
    spec ∈ base ∨ spec ∈ additions := by
  unfold compose at h
  induction additions generalizing base with
  | nil => exact .inl h
  | cons addition rest ih =>
      rcases ih h with h | h
      · rcases mem_declare h with rfl | h
        · exact .inr (List.mem_cons_self ..)
        · exact .inl h
      · exact .inr (List.mem_cons_of_mem _ h)

theorem isMeasured_compose {base additions : List Spec} (hbase : ∀ spec ∈ base, spec.IsMeasured)
    (hadditions : ∀ spec ∈ additions, spec.IsMeasured) :
    ∀ spec ∈ compose base additions, spec.IsMeasured := by
  intro spec hspec
  rcases mem_compose hspec with h | h
  · exact hbase spec h
  · exact hadditions spec h

end Spec

theorem Table.isMeasured_ofCatalogue {specs : List Spec} (h : ∀ spec ∈ specs, spec.IsMeasured) :
    (Table.ofCatalogue specs).IsMeasured := fun spec hspec => h spec (mem_of_mem_candidates hspec)

/-- A run of characters of a class is a beginning of the rest. -/
theorem measures_run (test : Char → Bool) :
    Measures fun cx =>
      if (cx.rest.takeWhile test).isEmpty then none else some (cx.rest.takeWhile test).length := by
  intro cx n h
  simp only [Option.ite_none_left_eq_some, Option.some.injEq] at h
  obtain ⟨hne, rfl⟩ := h
  refine ⟨List.length_pos_iff.2 fun hnil => hne (by simp [hnil]), length_takeWhile_le _ _⟩

namespace CFamily

theorem measures_whitespace : Measures whitespace := measures_run isBlank

theorem measures_indenting : Measures indenting := by
  intro cx n h
  simp only [indenting, Option.ite_none_right_eq_some] at h
  exact measures_whitespace cx n h.2

theorem measures_number : Measures number := by
  intro cx n h
  simp only [number, Option.ite_none_right_eq_some, Option.some.injEq, Bool.and_eq_true] at h
  obtain ⟨⟨_, hdigit⟩, rfl⟩ := h
  refine ⟨?_, length_takeWhile_le _ _⟩
  cases hrest : cx.rest with
  | nil => simp [hrest] at hdigit
  | cons c rest =>
      have hc : c.isDigit = true := by simpa [hrest] using hdigit
      simp [Text.isIdentifier, Char.isAlphanum, hc]

theorem operatorTail_le (rest : List Char) : operatorTail rest ≤ rest.length := by
  induction rest with
  | nil => simp [operatorTail]
  | cons c rest ih =>
      unfold operatorTail
      split
      · simpa using ih
      · simp

theorem measures_operator : Measures operator := by
  intro cx n h
  unfold operator at h
  split at h
  · simp at h
  · rename_i c rest hrest
    simp only [Option.ite_none_right_eq_some, Option.some.injEq] at h
    obtain ⟨_, rfl⟩ := h
    have hle := operatorTail_le rest
    rw [hrest, List.length_cons]
    omega

theorem measures_directive (name : String) : Measures (directive name) := by
  intro cx n h
  unfold directive at h
  split at h
  · rename_i rest hblank hrest
    split at h
    · rename_i after hafter
      simp only [Option.ite_none_left_eq_some, Option.some.injEq] at h
      obtain ⟨_, rfl⟩ := h
      have hstarts := List.isPrefixOf?_eq_some_iff_append_eq.1 hafter
      have hlength := congrArg List.length hstarts
      have hle := Text.length_dropWhile_le Text.isBlank rest
      simp only [List.length_append] at hlength
      rw [hrest, List.length_cons]
      omega
    · simp at h
  · simp at h

theorem isMeasured_lineEnd : (Pattern.custom lineEnd).IsMeasured := by
  intro cx n h
  simp only [Pattern.length?, lineEnd, Option.ite_none_right_eq_some, Option.some.injEq] at h
  omega

theorem isMeasured_directiveSpec (kind : Kind) (name : String) :
    (directiveSpec kind name).IsMeasured :=
  ((((Spec.isMeasured_custom (measures_directive name)).closedBy isMeasured_lineEnd).escapedBy
    _).holding _).patching _

theorem isMeasured_quotedSpec (kind : Kind) {opening : String} (closing : String)
    (h : opening.toList ≠ []) : (quotedSpec kind opening closing).IsMeasured :=
  (Spec.isMeasured_pair h).escapedBy _

theorem isMeasured_literalSpecs {entries : List (Kind × String)}
    (h : ∀ entry ∈ entries, entry.2.toList ≠ []) :
    ∀ spec ∈ literalSpecs entries, spec.IsMeasured := by
  intro spec hspec
  simp only [literalSpecs, List.mem_map] at hspec
  obtain ⟨entry, hentry, rfl⟩ := hspec
  exact Spec.isMeasured_literal (h entry hentry)

theorem isMeasured_keywordSpecs {entries : List (Kind × String)}
    (h : ∀ entry ∈ entries, entry.2.toList ≠ []) :
    ∀ spec ∈ keywordSpecs entries, spec.IsMeasured := by
  intro spec hspec
  simp only [keywordSpecs, List.mem_map] at hspec
  obtain ⟨entry, hentry, rfl⟩ := hspec
  exact Spec.isMeasured_keyword (h entry hentry)

theorem isMeasured_basicSpecs : ∀ spec ∈ basicSpecs, spec.IsMeasured := by
  simp only [basicSpecs, List.forall_mem_cons, List.not_mem_nil, false_imp_iff, implies_true,
    and_true]
  exact ⟨Spec.isMeasured_custom measures_whitespace,
    (Spec.isMeasured_custom measures_indenting).patching _,
    Spec.isMeasured_literal (by decide), Spec.isMeasured_custom measures_number,
    Spec.isMeasured_custom measures_operator, Spec.isMeasured_pair (by decide),
    Spec.isMeasured_pair (by decide), Spec.isMeasured_pair (by decide)⟩

theorem isMeasured_literalAndCommentSpecs :
    ∀ spec ∈ literalAndCommentSpecs, spec.IsMeasured := by
  simp only [literalAndCommentSpecs, List.forall_mem_cons, List.not_mem_nil, false_imp_iff,
    implies_true, and_true]
  exact ⟨(Spec.isMeasured_literal (by decide)).patching _,
    (Spec.isMeasured_pair (by decide)).patching _,
    ((Spec.isMeasured_literal (by decide)).closedBy isMeasured_lineEnd).patching _,
    isMeasured_quotedSpec _ _ (by decide), isMeasured_quotedSpec _ _ (by decide)⟩

theorem isMeasured_directiveSpecs : ∀ spec ∈ directiveSpecs, spec.IsMeasured := by
  simp only [directiveSpecs, List.forall_mem_cons, List.not_mem_nil, false_imp_iff,
    implies_true, and_true, isMeasured_directiveSpec]

theorem isMeasured_cSpecs : ∀ spec ∈ cSpecs, spec.IsMeasured := by
  intro spec hspec
  simp only [cSpecs, List.mem_append] at hspec
  rcases hspec with (((hspec | hspec) | hspec) | hspec) | hspec
  · exact isMeasured_basicSpecs spec hspec
  · exact isMeasured_literalSpecs (by decide) spec hspec
  · exact isMeasured_literalAndCommentSpecs spec hspec
  · exact isMeasured_directiveSpecs spec hspec
  · exact isMeasured_keywordSpecs (by decide) spec hspec

theorem isMeasured_cppAdditions : ∀ spec ∈ cppAdditions, spec.IsMeasured := by
  rw [cppAdditions, List.forall_mem_cons]
  exact ⟨(Spec.isMeasured_literal (by decide)).patching _, isMeasured_keywordSpecs (by decide)⟩

theorem isMeasured_objcAdditions : ∀ spec ∈ objcAdditions, spec.IsMeasured := by
  rw [objcAdditions, List.forall_mem_cons, List.forall_mem_cons]
  exact ⟨isMeasured_directiveSpec _ _, isMeasured_quotedSpec _ _ (by decide),
    isMeasured_keywordSpecs (by decide)⟩

theorem isMeasured_cppSpecs : ∀ spec ∈ cppSpecs, spec.IsMeasured :=
  Spec.isMeasured_compose isMeasured_cSpecs isMeasured_cppAdditions

theorem isMeasured_objcSpecs : ∀ spec ∈ objcSpecs, spec.IsMeasured :=
  Spec.isMeasured_compose isMeasured_cSpecs isMeasured_objcAdditions

theorem isMeasured_objcppSpecs : ∀ spec ∈ objcppSpecs, spec.IsMeasured :=
  Spec.isMeasured_compose isMeasured_cppSpecs isMeasured_objcAdditions

end CFamily

namespace Markup

theorem measures_whitespace : Measures whitespace := measures_run Text.isBlank

theorem measures_indenting : Measures indenting := by
  intro cx n h
  simp only [indenting, Option.ite_none_right_eq_some] at h
  exact measures_whitespace cx n h.2

theorem measures_newline : Measures newline := by
  intro cx n h
  unfold newline at h
  split at h
  · rename_i rest hrest
    cases h
    simp [hrest]
  · rename_i c rest _ hrest
    simp only [Option.ite_none_right_eq_some, Option.some.injEq] at h
    rw [hrest, List.length_cons]
    omega
  · cases h

theorem tagTail_le (quote : Option Char) (rest : List Char) : tagTail quote rest ≤ rest.length := by
  induction rest generalizing quote with
  | nil => simp [tagTail]
  | cons c rest ih =>
      unfold tagTail
      cases quote with
      | some mark => simpa using ih _
      | none =>
          dsimp only
          split
          · simp
          · split
            · simp
            · simpa using ih _

theorem measures_tag : Measures tag := by
  intro cx n h
  unfold tag at h
  split at h
  · rename_i rest hrest
    simp only [Option.ite_none_right_eq_some, Option.some.injEq] at h
    have hle := tagTail_le none rest
    rw [hrest, List.length_cons]
    omega
  · cases h

theorem measures_doctype : Measures doctype := by
  intro cx n h
  simp only [doctype, Option.ite_none_right_eq_some, Option.some.injEq] at h
  have hmap := eq_of_beq h.1
  have hlength := congrArg List.length hmap
  simp only [List.length_map, List.length_take] at hlength
  have hopening : ("<!doctype".toList).length = 9 := rfl
  omega

theorem measures_xmlDeclaration : Measures xmlDeclaration := by
  intro cx n h
  unfold xmlDeclaration at h
  dsimp only at h
  split at h
  · rename_i rest hrest
    simp only [Option.ite_none_right_eq_some, Option.some.injEq] at h
    have hstarts := List.isPrefixOf?_eq_some_iff_append_eq.1 hrest
    have hlength := congrArg List.length hstarts
    have hopening : ("<?xml".toList).length = 5 := rfl
    rw [List.length_append] at hlength
    omega
  · cases h

theorem measures_entity : Measures entity := by
  intro cx n h
  unfold entity at h
  split at h
  · rename_i rest hrest
    simp only [Option.ite_none_right_eq_some, Option.some.injEq, Bool.and_eq_true,
      decide_eq_true_eq] at h
    rw [hrest, List.length_cons]
    omega
  · cases h

theorem isMeasured_specs : ∀ spec ∈ specs, spec.IsMeasured := by
  simp only [specs, List.forall_mem_cons, List.not_mem_nil, false_imp_iff, implies_true,
    and_true]
  exact ⟨Spec.isMeasured_custom measures_whitespace,
    (Spec.isMeasured_custom measures_indenting).patching _,
    Spec.isMeasured_custom measures_newline, Spec.isMeasured_custom measures_tag,
    (Spec.isMeasured_pair (by decide)).patching _, (Spec.isMeasured_pair (by decide)).patching _,
    ((Spec.isMeasured_custom measures_doctype).closedBy
      (Pattern.isMeasured_literal _)).patching _,
    (Spec.isMeasured_pair (by decide)).patching _,
    ((Spec.isMeasured_custom measures_xmlDeclaration).closedBy
      (Pattern.isMeasured_literal _)).patching _,
    Spec.isMeasured_custom measures_entity⟩

/-- The kind of a spec tells which of the catalogue it is. -/
theorem eq_of_kind {spec spec' : Spec} (h : spec ∈ specs) (h' : spec' ∈ specs)
    (hkind : spec.kind = spec'.kind) : spec = spec' :=
  List.inj_on_of_nodup_map (by decide) h h' hkind

end Markup

theorem Language.isMeasured_table (language : Language) : language.grammar.table.IsMeasured := by
  cases language with
  | c => exact Table.isMeasured_ofCatalogue CFamily.isMeasured_cSpecs
  | cpp => exact Table.isMeasured_ofCatalogue CFamily.isMeasured_cppSpecs
  | objc => exact Table.isMeasured_ofCatalogue CFamily.isMeasured_objcSpecs
  | objcpp => exact Table.isMeasured_ofCatalogue CFamily.isMeasured_objcppSpecs
  | html | xml | feed | propertyList => exact Table.isMeasured_ofCatalogue Markup.isMeasured_specs

end ConcreteSyntax
