import Mathlib.Data.List.Nodup
import Mathlib.Data.List.Perm.Subperm
import ConcreteSyntax.Tree.Arena

/-!
# Arenas that are kept well

What each operation of an arena does to all names at once, and what they all preserve: the
number of values is the number of names that lead to one, and the free slots hold nothing
(`Arena.IsKept`).
-/

namespace ConcreteSyntax.Arena

variable {α : Type} {arena : Arena α} {id other : NodeId} {value : α}

/-- Whether an arena counts its values, and hands out free slots only. -/
structure IsKept (arena : Arena α) : Prop where
  names : ∃ names : List NodeId, names.Nodup ∧ names.length = arena.size
    ∧ ∀ id, id ∈ names ↔ arena.contains id = true
  vacant : ∀ index ∈ arena.free, ∃ slot, arena.slots[index]? = some slot ∧ slot.value = none
  nodup : arena.free.Nodup

theorem contains_iff : arena.contains id = true ↔ ∃ value, arena.get? id = some value := by
  unfold contains
  exact Option.isSome_iff_exists

theorem contains_of_get? (h : arena.get? id = some value) : arena.contains id = true :=
  contains_iff.2 ⟨value, h⟩

theorem get?_eq_some_iff :
    arena.get? id = some value ↔
      arena.slots[id.index]? = some ⟨id.generation, some value⟩ := by
  unfold get?
  cases hslot : arena.slots[id.index]? with
  | none => simp
  | some slot =>
      obtain ⟨generation, held⟩ := slot
      simp only [Option.ite_none_right_eq_some, Option.some.injEq, Slot.mk.injEq]

/-- A vacant slot is the place of no name. -/
theorem get?_eq_none_of_vacant (slot : Slot α) (hslot : arena.slots[id.index]? = some slot)
    (hvacant : slot.value = none) : arena.get? id = none := by
  unfold get?
  rw [hslot]
  simp [hvacant]

/-! ## Allocation -/

theorem get?_alloc (h : arena.IsKept) (value : α) (other : NodeId) :
    (arena.alloc value).2.get? other =
      if other = (arena.alloc value).1 then some value else arena.get? other := by
  obtain ⟨index, generation⟩ := other
  unfold alloc
  cases hfree : arena.free with
  | nil =>
      simp only [NodeId.fresh, get?, Array.getElem?_push, NodeId.mk.injEq]
      by_cases hindex : index = arena.slots.size
      · by_cases hgeneration : generation = 0
        · simp [hindex, hgeneration]
        · have hne : ¬(0 : UInt32) = generation := fun h => hgeneration h.symm
          simp [hindex, hgeneration, hne]
      · simp [hindex]
  | cons first rest =>
      obtain ⟨slot, hslot, hvacant⟩ := h.vacant first (by simp [hfree])
      have hlt := (Array.getElem?_eq_some_iff.1 hslot).1
      have hat : arena.generationAt first = slot.generation := by simp [generationAt, hslot]
      simp only [hat, get?, NodeId.mk.injEq]
      by_cases hindex : index = first
      · subst hindex
        simp only [Array.getElem?_setIfInBounds_self_of_lt hlt, hslot, true_and, hvacant,
          ite_self]
        simp only [eq_comm]
      · have hne : ¬first = index := fun h => hindex h.symm
        simp [Array.getElem?_setIfInBounds_ne hne, hindex]

/-- A new name led nowhere before. -/
theorem get?_alloc_fst (h : arena.IsKept) (value : α) : arena.get? (arena.alloc value).1 = none := by
  unfold alloc
  cases hfree : arena.free with
  | nil => simp [NodeId.fresh, get?]
  | cons first rest =>
      obtain ⟨slot, hslot, hvacant⟩ := h.vacant first (by simp [hfree])
      exact get?_eq_none_of_vacant _ hslot hvacant

theorem IsKept.alloc (h : arena.IsKept) (value : α) : (arena.alloc value).2.IsKept := by
  obtain ⟨names, hnodup, hlength, hnames⟩ := h.names
  have hnew : (arena.alloc value).1 ∉ names := by
    rw [hnames, contains, get?_alloc_fst h]
    simp
  refine ⟨⟨(arena.alloc value).1 :: names, List.nodup_cons.2 ⟨hnew, hnodup⟩, ?_, ?_⟩, ?_, ?_⟩
  · have hsize : (arena.alloc value).2.size = arena.size + 1 := by
      unfold Arena.alloc
      cases arena.free <;> rfl
    rw [hsize, List.length_cons, hlength]
  · intro id
    rw [List.mem_cons, hnames, contains, contains, get?_alloc h]
    by_cases hid : id = (arena.alloc value).1 <;> simp [hid]
  · intro index hindex
    unfold Arena.alloc at hindex ⊢
    cases hfree : arena.free with
    | nil => simp [hfree] at hindex
    | cons first rest =>
        simp only [hfree] at hindex ⊢
        have hne : first ≠ index := by
          have hnotMem := List.nodup_cons.1 (hfree ▸ h.nodup)
          rintro rfl
          exact hnotMem.1 hindex
        rw [Array.getElem?_setIfInBounds_ne hne]
        exact h.vacant index (by simp [hfree, hindex])
  · unfold Arena.alloc
    cases hfree : arena.free with
    | nil => exact List.nodup_nil
    | cons first rest => exact (List.nodup_cons.1 (hfree ▸ h.nodup)).2

/-- Changing a new value is allocating it so. -/
theorem modify_alloc (h : arena.IsKept) (value : α) (change : α → α) :
    (arena.alloc value).2.modify (arena.alloc value).1 change = (arena.alloc (change value)).2 := by
  have hget := get?_alloc h value (arena.alloc value).1
  rw [if_pos rfl] at hget
  simp only [Arena.modify, hget]
  unfold Arena.alloc
  cases arena.free with
  | nil =>
      have hpush : (arena.slots.push ⟨0, some value⟩).setIfInBounds arena.slots.size
          ⟨0, some (change value)⟩ = arena.slots.push ⟨0, some (change value)⟩ := by
        refine Array.ext_getElem? fun index => ?_
        rw [Array.getElem?_setIfInBounds, Array.getElem?_push, Array.getElem?_push,
          Array.size_push]
        by_cases hindex : index = arena.slots.size
        · simp [hindex]
        · simp [hindex, Ne.symm hindex]
      simpa [NodeId.fresh] using hpush
  | cons first rest => simp

/-! ## Removal -/

theorem remove_of_get? (h : arena.get? id = some value) :
    arena.remove id =
      { slots := arena.slots.setIfInBounds id.index ⟨id.generation + 1, none⟩
        free := id.index :: arena.free
        size := arena.size - 1 } := by
  simp only [remove, remove?, h]

theorem remove_of_none (h : arena.get? id = none) : arena.remove id = arena := by
  simp only [remove, remove?, h]

theorem get?_remove_of_ne (arena : Arena α) (h : other ≠ id) :
    (arena.remove id).get? other = arena.get? other := by
  cases hget : arena.get? id with
  | none => rw [remove_of_none hget]
  | some value =>
      have hlt := index_lt_of_get? hget
      rw [remove_of_get? hget]
      by_cases hindex : id.index = other.index
      · have hgeneration : id.generation ≠ other.generation := by
          intro hsame
          apply h
          cases id
          cases other
          simp_all
        have hslot := get?_eq_some_iff.1 hget
        rw [hindex] at hslot hlt
        have hnone : arena.get? other = none := by simp [get?, hslot, hgeneration]
        rw [hnone]
        exact get?_eq_none_of_vacant ⟨id.generation + 1, none⟩ (by simp [hindex, hlt]) rfl
      · simp [get?, Array.getElem?_setIfInBounds_ne hindex]

theorem IsKept.remove (h : arena.IsKept) (id : NodeId) : (arena.remove id).IsKept := by
  cases hget : arena.get? id with
  | none => rwa [remove_of_none hget]
  | some value =>
      obtain ⟨names, hnodup, hlength, hnames⟩ := h.names
      have hmem : id ∈ names := (hnames id).2 (contains_of_get? hget)
      have hlt := index_lt_of_get? hget
      have hslot := get?_eq_some_iff.1 hget
      refine ⟨⟨names.erase id, hnodup.erase id, ?_, ?_⟩, ?_, ?_⟩
      · rw [remove_of_get? hget, List.length_erase_of_mem hmem, hlength]
      · intro other
        rw [hnodup.mem_erase_iff, hnames, contains, contains]
        by_cases hother : other = id
        · subst hother
          simp [get?_remove_self]
        · simp [hother, get?_remove_of_ne arena hother]
      · intro index hindex
        rw [remove_of_get? hget] at hindex ⊢
        rcases List.mem_cons.1 hindex with rfl | hindex
        · exact ⟨_, Array.getElem?_setIfInBounds_self_of_lt hlt, rfl⟩
        · obtain ⟨slot, hother, hvacant⟩ := h.vacant index hindex
          have hne : id.index ≠ index := by
            rintro rfl
            rw [hslot] at hother
            cases hother
            cases hvacant
          exact ⟨slot, by rw [Array.getElem?_setIfInBounds_ne hne, hother], hvacant⟩
      · rw [remove_of_get? hget]
        refine List.nodup_cons.2 ⟨fun hindex => ?_, h.nodup⟩
        obtain ⟨slot, hother, hvacant⟩ := h.vacant _ hindex
        rw [hslot] at hother
        cases hother
        cases hvacant

theorem get?_foldl_remove (arena : Arena α) (ids : List NodeId) (id : NodeId) :
    (ids.foldl Arena.remove arena).get? id = if id ∈ ids then none else arena.get? id := by
  induction ids generalizing arena with
  | nil => simp
  | cons first rest ih =>
      rw [List.foldl_cons, ih]
      by_cases hfirst : id = first
      · subst hfirst
        simp [get?_remove_self]
      · simp [hfirst, get?_remove_of_ne arena hfirst]

theorem IsKept.foldl_remove (h : arena.IsKept) (ids : List NodeId) :
    (ids.foldl Arena.remove arena).IsKept := by
  induction ids generalizing arena with
  | nil => exact h
  | cons first rest ih => exact ih (h.remove first)

/-! ## Changes -/

theorem contains_modify (arena : Arena α) (id : NodeId) (change : α → α) (other : NodeId) :
    (arena.modify id change).contains other = arena.contains other := by
  unfold contains
  by_cases hother : other = id
  · rw [hother, get?_modify_self, Option.isSome_map]
  · rw [get?_modify_of_ne change hother]

theorem IsKept.modify (h : arena.IsKept) (id : NodeId) (change : α → α) :
    (arena.modify id change).IsKept := by
  have hcontains := contains_modify arena id change
  unfold Arena.modify at hcontains ⊢
  cases hget : arena.get? id with
  | none => exact h
  | some value =>
      simp only [hget] at hcontains ⊢
      obtain ⟨names, hnodup, hlength, hnames⟩ := h.names
      refine ⟨⟨names, hnodup, hlength, fun other => ?_⟩, fun index hindex => ?_, h.nodup⟩
      · rw [hcontains, hnames]
      · obtain ⟨slot, hslot, hvacant⟩ := h.vacant index hindex
        have hne : id.index ≠ index := by
          rintro rfl
          rw [get?_eq_some_iff.1 hget] at hslot
          cases hslot
          cases hvacant
        exact ⟨slot, by rw [Array.getElem?_setIfInBounds_ne hne, hslot], hvacant⟩

/-- Names that lead to values are no more than the values. -/
theorem IsKept.length_le_size (h : arena.IsKept) {ids : List NodeId} (hnodup : ids.Nodup)
    (hids : ∀ id ∈ ids, arena.contains id = true) : ids.length ≤ arena.size := by
  obtain ⟨names, _, hlength, hnames⟩ := h.names
  have hsub : ids ⊆ names := fun id hid => (hnames id).2 (hids id hid)
  rw [← hlength]
  exact (hnodup.subperm hsub).length_le

end ConcreteSyntax.Arena
