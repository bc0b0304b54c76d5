import ConcreteSyntax.Proofs.KindSet
import ConcreteSyntax.Proofs.Scan.Backlog
import Mathlib.Data.List.Nodup

/-!
# The order of candidates

The candidates of a table are its specs (`Table.perm_of_candidateOrder?`), and none of them comes
behind one that it patches (`Table.pairwise_of_candidateOrder?`).  Specs are ordered by their
places in the catalogue, and as their kinds are distinct, `Table.declarationPlaces` leads back
from specs to places.
-/

namespace ConcreteSyntax

/-- Whether `later` may be tried after `first`.  A spec is never tried before itself, even when
it names its own kind. -/
def Spec.MayFollow (first later : Spec) : Prop :=
  later.kind = first.kind ∨ later.patches.contains first.kind = false

namespace Table

variable {specs candidates : List Spec} {spec first later : Spec} {order : List Nat}

theorem filterMap_places (specs : List Spec) : (places specs).filterMap (specs[·]?) = specs := by
  induction specs with
  | nil => rfl
  | cons spec rest ih =>
      rw [places, List.length_cons, List.range_succ_eq_map, List.filterMap_cons,
        List.filterMap_map]
      exact congrArg (spec :: ·) ih

/-! ## Places and specs -/

/-- The places at which specs of a catalogue are declared. -/
def declarationPlaces (specs order : List Spec) : List Nat :=
  order.map fun spec => (specs.map (·.kind)).idxOf spec.kind

section

variable (hdistinct : (specs.map (·.kind)).Nodup)
include hdistinct

theorem idxOf_kind {place : Nat} (hplace : specs[place]? = some spec) :
    (specs.map (·.kind)).idxOf spec.kind = place := by
  obtain ⟨hlt, rfl⟩ := List.getElem?_eq_some_iff.1 hplace
  have hidx := hdistinct.idxOf_getElem place (by simpa using hlt)
  rwa [List.getElem_map] at hidx

theorem getElem?_idxOf_kind (hspec : spec ∈ specs) :
    specs[(specs.map (·.kind)).idxOf spec.kind]? = some spec := by
  obtain ⟨place, hplace⟩ := List.mem_iff_getElem?.1 hspec
  rwa [idxOf_kind hdistinct hplace]

/-- Specs may follow each other where no place goes before the other. -/
theorem goesBefore_iff {place other : Nat} (hfirst : specs[place]? = some first)
    (hlater : specs[other]? = some later) :
    goesBefore specs other place = false ↔ first.MayFollow later := by
  have hkind : other = place ↔ later.kind = first.kind := by
    constructor
    · rintro rfl
      rw [Option.some.inj (hlater.symm.trans hfirst)]
    · intro hsame
      rw [← idxOf_kind hdistinct hlater, hsame, idxOf_kind hdistinct hfirst]
  simp [goesBefore, hfirst, hlater, Spec.MayFollow, ← hkind]
  tauto

theorem declarationPlaces_filterMap (hwithin : order ⊆ places specs) :
    declarationPlaces specs (order.filterMap (specs[·]?)) = order := by
  induction order with
  | nil => rfl
  | cons place rest ih =>
      obtain ⟨hplace, hrest⟩ := List.cons_subset.1 hwithin
      have hget := List.getElem?_eq_getElem (mem_places.1 hplace)
      rw [List.filterMap_cons, hget, declarationPlaces, List.map_cons, idxOf_kind hdistinct hget]
      exact congrArg (place :: ·) (ih hrest)

theorem declarationPlaces_self : declarationPlaces specs specs = places specs := by
  have h := declarationPlaces_filterMap hdistinct (List.Subset.refl (places specs))
  rwa [filterMap_places] at h

theorem perm_declarationPlaces (hperm : candidates.Perm specs) :
    (declarationPlaces specs candidates).Perm (places specs) := by
  rw [← declarationPlaces_self hdistinct]
  exact hperm.map _

theorem pairwise_declarationPlaces (hsub : candidates ⊆ specs) :
    ((declarationPlaces specs candidates).Pairwise fun first later =>
      goesBefore specs later first = false) ↔ candidates.Pairwise Spec.MayFollow := by
  rw [declarationPlaces, List.pairwise_map]
  refine List.Pairwise.iff_of_mem fun {first later} hfirst hlater => ?_
  exact goesBefore_iff hdistinct (getElem?_idxOf_kind hdistinct (hsub hfirst))
    (getElem?_idxOf_kind hdistinct (hsub hlater))

end

/-! ## Candidates -/

theorem candidateOrder?_eq_some (h : candidateOrder? specs = some candidates) :
    candidates = (Backlog.settle specs specs.length (.start specs)).filterMap (specs[·]?)
      ∧ (Backlog.settle specs specs.length (.start specs)).Perm (places specs) := by
  unfold candidateOrder? at h
  dsimp only at h
  split at h
  · rename_i hlength
    refine ⟨(Option.some.inj h).symm, ?_⟩
    refine List.Subperm.perm_of_length_le
      ((Backlog.nodup_settle (Backlog.tracks_start specs) _).subperm
        (Backlog.settle_subset (Backlog.tracks_start specs) _)) ?_
    simp [places, hlength]
  · cases h

theorem perm_of_candidateOrder? (h : candidateOrder? specs = some candidates) :
    candidates.Perm specs := by
  obtain ⟨rfl, hperm⟩ := candidateOrder?_eq_some h
  have := hperm.filterMap (specs[·]?)
  rwa [filterMap_places] at this

section

variable (hdistinct : (specs.map (·.kind)).Nodup)
include hdistinct

theorem declarationPlaces_of_candidateOrder? (h : candidateOrder? specs = some candidates) :
    declarationPlaces specs candidates = Backlog.settle specs specs.length (.start specs) := by
  obtain ⟨rfl, hperm⟩ := candidateOrder?_eq_some h
  exact declarationPlaces_filterMap hdistinct hperm.subset

theorem pairwise_of_candidateOrder? (h : candidateOrder? specs = some candidates) :
    candidates.Pairwise Spec.MayFollow := by
  rw [← pairwise_declarationPlaces hdistinct (perm_of_candidateOrder? h).subset,
    declarationPlaces_of_candidateOrder? hdistinct h]
  exact Backlog.pairwise_settle (Backlog.tracks_start specs) _

end

/-! ## Tables -/

/-- A table with each kind once, and with its specs tried in an order that their patches allow. -/
structure IsOrdered (table : Table) : Prop where
  distinct : (table.specs.map (·.kind)).Nodup
  perm : table.candidates.Perm table.specs
  ordered : table.candidates.Pairwise Spec.MayFollow

theorem build_of_settle (hdistinct : (specs.map (·.kind)).Nodup)
    (horder : Backlog.settle specs specs.length (.start specs) = order)
    (hlength : order.length = specs.length) :
    build specs = .ok ⟨specs, order.filterMap (specs[·]?)⟩ := by
  rw [build, if_pos (length_toList_declared.2 hdistinct), candidateOrder?, horder, if_pos hlength]

theorem build_eq_ok {table : Table} (h : build specs = .ok table) :
    table.specs = specs ∧ table.IsOrdered := by
  unfold build at h
  split at h
  · rename_i hdistinct
    rw [length_toList_declared] at hdistinct
    split at h
    · rename_i candidates horder
      obtain rfl := Except.ok.inj h
      exact ⟨rfl, hdistinct, perm_of_candidateOrder? horder,
        pairwise_of_candidateOrder? hdistinct horder⟩
    · cases h
  · cases h

theorem contains_kinds {table : Table} (h : spec ∈ table.specs) :
    table.kinds.contains spec.kind = true := by
  simpa [kinds, declared] using ⟨spec, h, rfl⟩

theorem kind_ne_of_notMem {table : Table} {kind : Kind} (h : spec ∈ table.specs)
    (hkind : table.kinds.contains kind = false) : spec.kind ≠ kind := by
  rintro rfl
  rw [contains_kinds h] at hkind
  cases hkind

theorem specs_ofCatalogue (specs : List Spec) : (ofCatalogue specs).specs = specs := by
  unfold ofCatalogue
  split
  · rename_i table hbuild
    exact (build_eq_ok hbuild).1
  · rfl

/-- The candidates of a table are the specs of its catalogue. -/
theorem mem_candidates_ofCatalogue : spec ∈ (ofCatalogue specs).candidates ↔ spec ∈ specs := by
  unfold ofCatalogue
  split
  · rename_i table hbuild
    obtain ⟨rfl, hordered⟩ := build_eq_ok hbuild
    exact hordered.perm.mem_iff
  · rfl

theorem mem_of_mem_candidates (h : spec ∈ (ofCatalogue specs).candidates) : spec ∈ specs :=
  mem_candidates_ofCatalogue.1 h

end Table

end ConcreteSyntax
