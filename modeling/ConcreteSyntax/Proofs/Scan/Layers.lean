import ConcreteSyntax.CFamily.Catalogue
import Mathlib.Data.List.Nodup

/-!
# Layers of catalogues

What the specs of a layer make of a catalogue: they take the places of those of their kinds, and
the other ones follow in the order in which their kinds first appear.  Where two layers declare no
kind twice, it does not matter whether a third is laid over the second before or after both are
laid over the first (`Spec.compose_assoc`).
-/

namespace ConcreteSyntax

namespace CFamily

theorem nodup_cSpecs : (cSpecs.map (·.kind)).Nodup := by decide +kernel

theorem nodup_cppAdditions : (cppAdditions.map (·.kind)).Nodup := by decide +kernel

end CFamily

namespace Spec

variable {spec other : Spec} {specs base additions : List Spec}

/-! ## One spec -/

/-- A spec of a new kind comes last, and another has the place of the one it replaces. -/
theorem map_kind_declare (spec : Spec) (specs : List Spec) :
    (declare spec specs).map (·.kind) =
      if spec.kind ∈ specs.map (·.kind) then specs.map (·.kind)
      else specs.map (·.kind) ++ [spec.kind] := by
  induction specs with
  | nil => rfl
  | cons first rest ih =>
      rw [declare]
      by_cases hsame : first.kind = spec.kind
      · simp [hsame]
      · have hmem : spec.kind ∈ (first :: rest).map (·.kind) ↔ spec.kind ∈ rest.map (·.kind) := by
          rw [List.map_cons, List.mem_cons, or_iff_right (Ne.symm hsame)]
        simp only [if_neg hsame, List.map_cons, ih, List.cons_append] at hmem ⊢
        simp only [hmem]
        split <;> rfl

theorem mem_map_kind_declare {kind : Kind} :
    kind ∈ (declare spec specs).map (·.kind) ↔ kind = spec.kind ∨ kind ∈ specs.map (·.kind) := by
  rw [map_kind_declare]
  split
  · rename_i hmem
    exact ⟨.inr, fun h => h.elim (fun heq => heq ▸ hmem) id⟩
  · rw [List.mem_append, List.mem_singleton, or_comm]

theorem nodup_declare (hdistinct : (specs.map (·.kind)).Nodup) (spec : Spec) :
    ((declare spec specs).map (·.kind)).Nodup := by
  rw [map_kind_declare]
  split
  · exact hdistinct
  · rename_i hnotMem
    exact List.concat_eq_append ▸ hdistinct.concat hnotMem

theorem find?_declare (spec : Spec) (specs : List Spec) (kind : Kind) :
    (declare spec specs).find? (·.kind == kind) =
      if spec.kind = kind then some spec else specs.find? (·.kind == kind) := by
  induction specs with
  | nil => by_cases hkind : spec.kind = kind <;> simp [declare, hkind]
  | cons first rest ih =>
      rw [declare]
      by_cases hsame : first.kind = spec.kind
      · by_cases hkind : spec.kind = kind <;> simp [hsame, hkind]
      · rw [if_neg hsame, List.find?_cons, ih, List.find?_cons]
        by_cases hfirst : first.kind = kind
        · have hkind : ¬spec.kind = kind := fun hkind => hsame (hfirst.trans hkind.symm)
          simp [hfirst, hkind]
        · rw [beq_false_of_ne hfirst]

/-- The later of two specs of one kind counts. -/
theorem declare_declare_of_eq (hkind : spec.kind = other.kind) (specs : List Spec) :
    declare spec (declare other specs) = declare spec specs := by
  induction specs with
  | nil => simp [declare, hkind]
  | cons first rest ih =>
      by_cases hfirst : first.kind = other.kind
      · simp [declare, hfirst, hkind]
      · simp [declare, hfirst, hkind, ih]

/-- Where a spec replaces another in its place, it may do so before or after a spec of another
kind is declared. -/
theorem declare_comm (hkind : spec.kind ≠ other.kind) (hmem : spec.kind ∈ specs.map (·.kind)) :
    declare spec (declare other specs) = declare other (declare spec specs) := by
  induction specs with
  | nil => cases hmem
  | cons first rest ih =>
      by_cases hfirst : first.kind = spec.kind
      · have hother : first.kind ≠ other.kind := fun h => hkind (hfirst.symm.trans h)
        simp [declare, hfirst, hkind]
      · have hrest : spec.kind ∈ rest.map (·.kind) :=
          (List.mem_cons.1 hmem).resolve_left (Ne.symm hfirst)
        by_cases hother : first.kind = other.kind
        · simp [declare, hother, hkind.symm]
        · simp [declare, hfirst, hother, ih hrest]

/-! ## Layers -/

theorem nodup_compose (hdistinct : (base.map (·.kind)).Nodup) (additions : List Spec) :
    ((compose base additions).map (·.kind)).Nodup := by
  induction additions generalizing base with
  | nil => exact hdistinct
  | cons addition rest ih => exact ih (nodup_declare hdistinct addition)

/-- The kinds of a layer that a catalogue does not have follow in the order in which they first
appear. -/
theorem map_kind_compose (base additions : List Spec) :
    (compose base additions).map (·.kind) =
      base.map (·.kind)
        ++ ((additions.map (·.kind)).filter (· ∉ base.map (·.kind))).eraseDups := by
  induction additions generalizing base with
  | nil => simp [compose]
  | cons addition rest ih =>
      have hcompose : compose base (addition :: rest) = compose (declare addition base) rest := rfl
      rw [hcompose, ih, map_kind_declare, List.map_cons, List.filter_cons]
      by_cases hmem : addition.kind ∈ base.map (·.kind)
      · rw [if_pos hmem, if_neg (by simpa using hmem)]
      · have hnew : ∀ kind, decide (kind ∉ base.map (·.kind) ++ [addition.kind]) =
            (!kind == addition.kind && decide (kind ∉ base.map (·.kind))) := by
          intro kind
          by_cases hkind : kind = addition.kind <;> simp [hkind]
        rw [if_neg hmem, if_pos (decide_eq_true hmem), List.eraseDups_cons, List.filter_filter,
          List.append_assoc, List.singleton_append]
        simp only [hnew]

/-- The spec of a kind is the last that a layer has for it, or else that of the catalogue. -/
theorem find?_compose (base additions : List Spec) (kind : Kind) :
    (compose base additions).find? (·.kind == kind) =
      (additions.reverse.find? (·.kind == kind)).or (base.find? (·.kind == kind)) := by
  induction additions generalizing base with
  | nil => rfl
  | cons addition rest ih =>
      have hcompose : compose base (addition :: rest) = compose (declare addition base) rest := rfl
      rw [hcompose, ih, find?_declare, List.reverse_cons, List.find?_append, Option.or_assoc]
      congr 1
      by_cases hkind : addition.kind = kind <;> simp [hkind]

/-- A spec that replaces another in its place may do so before or after a layer without its
kind. -/
theorem compose_declare_of_mem (hmem : spec.kind ∈ base.map (·.kind))
    (hnotMem : spec.kind ∉ additions.map (·.kind)) :
    compose (declare spec base) additions = declare spec (compose base additions) := by
  induction additions generalizing base with
  | nil => rfl
  | cons addition rest ih =>
      rw [List.map_cons, List.mem_cons, not_or] at hnotMem
      change compose (declare addition (declare spec base)) rest =
        declare spec (compose (declare addition base) rest)
      rw [← declare_comm hnotMem.1 hmem]
      exact ih (mem_map_kind_declare.2 (.inr hmem)) hnotMem.2

/-- A spec may be declared in a layer that declares no kind twice, or after the layer was laid
over a catalogue. -/
theorem compose_declare (hdistinct : (additions.map (·.kind)).Nodup) (base : List Spec)
    (spec : Spec) :
    compose base (declare spec additions) = declare spec (compose base additions) := by
  induction additions generalizing base with
  | nil => rfl
  | cons addition rest ih =>
      rw [List.map_cons, List.nodup_cons] at hdistinct
      rw [declare]
      by_cases hkind : addition.kind = spec.kind
      · rw [if_pos hkind]
        change compose (declare spec base) rest =
          declare spec (compose (declare addition base) rest)
        rw [← declare_declare_of_eq hkind.symm]
        exact compose_declare_of_mem (mem_map_kind_declare.2 (.inl hkind.symm))
          (hkind ▸ hdistinct.1)
      · rw [if_neg hkind]
        exact ih hdistinct.2 (declare addition base)

theorem compose_assoc (hdistinct : (additions.map (·.kind)).Nodup) (base more : List Spec) :
    compose (compose base additions) more = compose base (compose additions more) := by
  induction more generalizing additions with
  | nil => rfl
  | cons spec rest ih =>
      change compose (declare spec (compose base additions)) rest =
        compose base (compose (declare spec additions) rest)
      rw [← compose_declare hdistinct, ih (nodup_declare hdistinct spec)]

/-- What layers make of a catalogue.  A layer over a catalogue that declares no kind twice gives
another one, with the kinds of the catalogue in their order and behind them those of the layer
that are new, in the order in which they first appear; the spec of a kind is the last that the
layer has for it, or else that of the catalogue.  Layers that declare no kind twice may be laid
over each other in any grouping, whatever the last layer declares, and so the catalogue of
Objective-C++ is that of C under the two others taken together. -/
theorem compose_layers :
    (∀ base additions : List Spec, (base.map (·.kind)).Nodup →
      ((compose base additions).map (·.kind)).Nodup
      ∧ (compose base additions).map (·.kind) =
          base.map (·.kind)
            ++ ((additions.map (·.kind)).filter (· ∉ base.map (·.kind))).eraseDups
      ∧ ∀ kind, (compose base additions).find? (·.kind == kind) =
          (additions.reverse.find? (·.kind == kind)).or (base.find? (·.kind == kind)))
    ∧ (∀ base additions more : List Spec,
      (base.map (·.kind)).Nodup → (additions.map (·.kind)).Nodup →
        compose (compose base additions) more = compose base (compose additions more))
    ∧ CFamily.objcppSpecs =
        compose CFamily.cSpecs (compose CFamily.cppAdditions CFamily.objcAdditions) :=
  ⟨fun base additions hdistinct => ⟨nodup_compose hdistinct additions,
      map_kind_compose base additions, find?_compose base additions⟩,
    fun base _ more _ hdistinct => compose_assoc hdistinct base more,
    compose_assoc CFamily.nodup_cppAdditions CFamily.cSpecs CFamily.objcAdditions⟩

/-- The catalogues of C and of C++ declare no kind twice, so both laws hold of them. -/
theorem compose_layers_cpp :
    (CFamily.cSpecs.map (·.kind)).Nodup ∧ (CFamily.cppAdditions.map (·.kind)).Nodup
      ∧ (CFamily.cppSpecs.map (·.kind)).Nodup
      ∧ ∀ more, compose CFamily.cppSpecs more =
          compose CFamily.cSpecs (compose CFamily.cppAdditions more) :=
  have hbase := CFamily.nodup_cSpecs
  have hadditions := CFamily.nodup_cppAdditions
  ⟨hbase, hadditions, (compose_layers.1 CFamily.cSpecs CFamily.cppAdditions hbase).1,
    fun more => compose_layers.2.1 CFamily.cSpecs CFamily.cppAdditions more hbase hadditions⟩

/-- A layer that overrides a kind twice, with a new kind in between. -/
example :
    compose [literal .colon ":", literal .comma ","]
      [literal .colon "::", literal .dot ".", literal .colon ":::"] =
        [literal .colon ":::", literal .comma ",", literal .dot "."] := rfl

end Spec

end ConcreteSyntax
