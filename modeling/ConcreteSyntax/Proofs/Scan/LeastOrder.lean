import ConcreteSyntax.Proofs.Scan.Order
import Mathlib.Data.Fintype.EquivFin
import Mathlib.Logic.Relation
import Mathlib.Order.WellFounded

/-!
# The least order of candidates

A catalogue makes a table unless it declares a kind twice or its patches form a cycle.  Of all
orders that its patches allow, the table then tries its specs in the one that comes first when
orders are compared by the places at which their specs are declared
(`Table.build_finds_least_order`).
-/

namespace ConcreteSyntax

theorem Kind.finite : Finite Kind :=
  Finite.of_injective (fun kind => (⟨kind.index, kind.index_lt_count⟩ : Fin Kind.count))
    fun _ _ h => Kind.index_injective (Fin.mk.inj h)

namespace Table

variable {specs candidates : List Spec} {kind other : Kind}

/-- Whether a declared kind patches another declared kind. -/
structure PatchesKind (specs : List Spec) (kind other : Kind) : Prop where
  ne : kind ≠ other
  declared : other ∈ specs.map (·.kind)
  patches : ∃ spec ∈ specs, spec.kind = kind ∧ spec.patches.contains other = true

/-- Whether the declared kinds that patch each other come back to where they began. -/
def HasCycle (specs : List Spec) : Prop :=
  ∃ kind, Relation.TransGen (PatchesKind specs) kind kind

/-- Whether an order of specs is the least of those that their patches allow: none of them comes
behind one that it patches, and every other such order has a spec that is declared later at the
first place where it differs. -/
structure IsLeastOrder (specs order : List Spec) : Prop where
  perm : order.Perm specs
  ordered : order.Pairwise Spec.MayFollow
  least : ∀ other : List Spec, other.Perm specs → other.Pairwise Spec.MayFollow →
    declarationPlaces specs order = declarationPlaces specs other
      ∨ List.Lex (· < ·) (declarationPlaces specs order) (declarationPlaces specs other)

/-- What goes before the spec at a place is a kind that patches its kind. -/
theorem patchesKind_of_goesBefore (hdistinct : (specs.map (·.kind)).Nodup) {place later : Nat}
    {first second : Spec} (hfirst : specs[place]? = some first)
    (hsecond : specs[later]? = some second) (h : goesBefore specs place later = true) :
    PatchesKind specs first.kind second.kind := by
  have hnot : ¬second.MayFollow first := fun hmay => by
    rw [(goesBefore_iff hdistinct hsecond hfirst).2 hmay] at h
    cases h
  rw [Spec.MayFollow, not_or, Bool.not_eq_false] at hnot
  exact ⟨hnot.1, List.mem_map_of_mem (List.mem_of_getElem? hsecond),
    first, List.mem_of_getElem? hfirst, rfl, hnot.2⟩

/-- Kinds of which each is patched by another of them form a cycle. -/
theorem hasCycle_of_stuck {kinds : List Kind} (hne : kinds ≠ [])
    (h : ∀ later ∈ kinds, ∃ first ∈ kinds, PatchesKind specs first later) : HasCycle specs := by
  by_contra hnone
  have : Finite Kind := Kind.finite
  have : Std.Irrefl (Relation.TransGen (PatchesKind specs)) := ⟨fun kind hcycle =>
    hnone ⟨kind, hcycle⟩⟩
  have hfounded : WellFounded (Relation.TransGen (PatchesKind specs)) :=
    Finite.wellFounded_of_trans_of_irrefl _
  obtain ⟨kind, hkind, hleast⟩ :=
    hfounded.has_min {kind | kind ∈ kinds} (List.exists_mem_of_ne_nil kinds hne)
  obtain ⟨first, hfirst, hpatches⟩ := h kind hkind
  exact hleast first hfirst (.single hpatches)

/-- Where no order is found, patches form a cycle. -/
theorem hasCycle_of_candidateOrder? (hdistinct : (specs.map (·.kind)).Nodup)
    (h : candidateOrder? specs = none) : HasCycle specs := by
  have hshort : (Backlog.settle specs specs.length (.start specs)).length ≠
      (places specs).length := by
    intro hlength
    rw [places, List.length_range] at hlength
    simp [candidateOrder?, hlength] at h
  obtain ⟨stuck, hne, hsub, hwaits⟩ :=
    Backlog.exists_stuck (Backlog.tracks_start specs) (by simp [places]) hshort
  let kinds := stuck.filterMap fun place => (specs[place]?).map (·.kind)
  have hkinds : kinds ≠ [] := by
    obtain ⟨place, hplace⟩ := List.exists_mem_of_ne_nil stuck hne
    have hget := List.getElem?_eq_getElem (mem_places.1 (hsub hplace))
    exact List.ne_nil_of_mem (List.mem_filterMap.2 ⟨place, hplace, by rw [hget]; rfl⟩)
  refine hasCycle_of_stuck hkinds fun later hlater => ?_
  obtain ⟨place, hplace, hkind⟩ := List.mem_filterMap.1 hlater
  obtain ⟨second, hsecond, rfl⟩ := Option.map_eq_some_iff.1 hkind
  obtain ⟨before, hbefore, hgoes⟩ := hwaits place hplace
  have hget := List.getElem?_eq_getElem (mem_places.1 (hsub hbefore))
  exact ⟨_, List.mem_filterMap.2 ⟨before, hbefore, by rw [hget]; rfl⟩,
    patchesKind_of_goesBefore hdistinct hget hsecond hgoes⟩

/-- An order that patches allow has a kind in front of each kind that it patches. -/
theorem idxOf_lt_of_patchesKind (hperm : candidates.Perm specs)
    (hordered : candidates.Pairwise Spec.MayFollow) (hdistinct : (specs.map (·.kind)).Nodup)
    (h : PatchesKind specs kind other) :
    (candidates.map (·.kind)).idxOf kind < (candidates.map (·.kind)).idxOf other := by
  obtain ⟨spec, hspec, rfl, hpatches⟩ := h.patches
  have hkinds := hperm.map (·.kind)
  have hdistinct' : (candidates.map (·.kind)).Nodup := hkinds.nodup_iff.2 hdistinct
  obtain ⟨later, hlater⟩ := List.mem_iff_getElem?.1 (hperm.mem_iff.2 hspec)
  obtain ⟨second, hsecond, hkind⟩ := List.mem_map.1 h.declared
  obtain ⟨place, hplace⟩ := List.mem_iff_getElem?.1 (hperm.mem_iff.2 hsecond)
  rw [← hkind, idxOf_kind hdistinct' hlater, idxOf_kind hdistinct' hplace]
  obtain ⟨hlt, rfl⟩ := List.getElem?_eq_some_iff.1 hlater
  obtain ⟨hlt', rfl⟩ := List.getElem?_eq_some_iff.1 hplace
  by_contra hle
  rcases Nat.lt_or_eq_of_le (Nat.le_of_not_lt hle) with hbefore | heq
  · rcases List.pairwise_iff_getElem.1 hordered place later hlt' hlt hbefore with hsame | hnot
    · exact h.ne (hsame.trans hkind)
    · rw [hkind, hpatches] at hnot
      cases hnot
  · subst heq
    exact h.ne hkind

/-- Patches that allow an order form no cycle. -/
theorem not_hasCycle (hperm : candidates.Perm specs)
    (hordered : candidates.Pairwise Spec.MayFollow) (hdistinct : (specs.map (·.kind)).Nodup) :
    ¬HasCycle specs := by
  rintro ⟨kind, hcycle⟩
  have hrises : ∀ other, Relation.TransGen (PatchesKind specs) kind other →
      (candidates.map (·.kind)).idxOf kind < (candidates.map (·.kind)).idxOf other := by
    intro other hpath
    induction hpath with
    | single hpatches => exact idxOf_lt_of_patchesKind hperm hordered hdistinct hpatches
    | tail _ hpatches ih =>
        exact ih.trans (idxOf_lt_of_patchesKind hperm hordered hdistinct hpatches)
  exact Nat.lt_irrefl _ (hrises kind hcycle)

theorem isLeastOrder_of_candidateOrder? (hdistinct : (specs.map (·.kind)).Nodup)
    (h : candidateOrder? specs = some candidates) : IsLeastOrder specs candidates where
  perm := perm_of_candidateOrder? h
  ordered := pairwise_of_candidateOrder? hdistinct h
  least other hperm hordered := by
    rw [declarationPlaces_of_candidateOrder? hdistinct h]
    exact Backlog.eq_or_lex_settle (Backlog.tracks_start specs) (by simp [places])
      (perm_declarationPlaces hdistinct hperm)
      ((pairwise_declarationPlaces hdistinct hperm.subset).2 hordered)

/-- A catalogue makes no table where it declares a kind twice, or else where its patches form a
cycle.  In all other cases it makes one, whose candidates are in the least order that the patches
allow. -/
theorem build_finds_least_order (specs : List Spec) :
    match build specs with
    | .error .duplicateKind => ¬(specs.map (·.kind)).Nodup
    | .error .patchCycle => (specs.map (·.kind)).Nodup ∧ HasCycle specs
    | .ok table => (specs.map (·.kind)).Nodup ∧ ¬HasCycle specs ∧ table.specs = specs
        ∧ IsLeastOrder specs table.candidates := by
  by_cases hdistinct : (specs.map (·.kind)).Nodup
  · rw [build, if_pos (length_toList_declared.2 hdistinct)]
    cases horder : candidateOrder? specs with
    | none => exact ⟨hdistinct, hasCycle_of_candidateOrder? hdistinct horder⟩
    | some candidates =>
        have hleast := isLeastOrder_of_candidateOrder? hdistinct horder
        exact ⟨hdistinct, not_hasCycle hleast.perm hleast.ordered hdistinct, rfl, hleast⟩
  · rw [build, if_neg (mt length_toList_declared.1 hdistinct)]
    exact hdistinct

end Table

end ConcreteSyntax
