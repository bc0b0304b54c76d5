import ConcreteSyntax.Node.Basic

/-!
# Arenas

An arena keeps values in slots.  A name of a value holds a slot and a generation,
and the generation of a slot grows whenever its value is removed, so a name never
leads to a value that took the slot later.  Freed slots are taken again before new
ones, the slot freed last first.
-/

namespace ConcreteSyntax

/-- A place for a value, and how often a value has been removed from it. -/
structure Slot (α : Type) where
  generation : UInt32
  value : Option α
deriving Inhabited

/-- Values in slots. -/
structure Arena (α : Type) where
  slots : Array (Slot α)
  /-- The free slots, the one freed last first. -/
  free : List Nat
  /-- The number of values. -/
  size : Nat
deriving Inhabited

namespace Arena

variable {α : Type}

/-- The arena without values. -/
def empty : Arena α := ⟨#[], [], 0⟩

/-- The value that a name leads to. -/
def get? (arena : Arena α) (id : NodeId) : Option α :=
  match arena.slots[id.index]? with
  | some slot => if slot.generation = id.generation then slot.value else none
  | none => none

/-- Whether a name leads to a value. -/
def contains (arena : Arena α) (id : NodeId) : Bool := (arena.get? id).isSome

/-- The generation of a slot. -/
def generationAt (arena : Arena α) (index : Nat) : UInt32 :=
  (arena.slots[index]?.map (·.generation)).getD 0

/-- Puts a value into a slot, and gives its name. -/
def alloc (arena : Arena α) (value : α) : NodeId × Arena α :=
  match arena.free with
  | index :: rest =>
      let generation := arena.generationAt index
      (⟨index, generation⟩,
        { slots := arena.slots.setIfInBounds index ⟨generation, some value⟩
          free := rest
          size := arena.size + 1 })
  | [] =>
      (.fresh arena.slots.size,
        { slots := arena.slots.push ⟨0, some value⟩
          free := []
          size := arena.size + 1 })

/-- Takes out the value that a name leads to, and frees its slot. -/
def remove? (arena : Arena α) (id : NodeId) : Option (α × Arena α) :=
  match arena.get? id with
  | some value =>
      some (value,
        { slots := arena.slots.setIfInBounds id.index ⟨id.generation + 1, none⟩
          free := id.index :: arena.free
          size := arena.size - 1 })
  | none => none

/-- The arena after a removal, which changes nothing for a name that leads nowhere. -/
def remove (arena : Arena α) (id : NodeId) : Arena α :=
  match arena.remove? id with
  | some (_, after) => after
  | none => arena

/-- Changes the value that a name leads to. -/
def modify (arena : Arena α) (id : NodeId) (change : α → α) : Arena α :=
  match arena.get? id with
  | some value =>
      { arena with
        slots := arena.slots.setIfInBounds id.index ⟨id.generation, some (change value)⟩ }
  | none => arena

/-- A name leads to a value only within the slots. -/
theorem index_lt_of_get? {arena : Arena α} {id : NodeId} {value : α}
    (h : arena.get? id = some value) : id.index < arena.slots.size := by
  unfold get? at h
  split at h
  · rename_i slot hslot
    exact (Array.getElem?_eq_some_iff.1 hslot).1
  · simp at h

theorem get?_alloc_nil {arena : Arena α} (value : α) (hfree : arena.free = []) :
    (arena.alloc value).2.get? (arena.alloc value).1 = some value := by
  simp [alloc, hfree, get?, NodeId.fresh]

theorem get?_remove_self (arena : Arena α) (id : NodeId) : (arena.remove id).get? id = none := by
  unfold remove remove?
  cases h : arena.get? id with
  | none => simpa using h
  | some value =>
      have hlt := index_lt_of_get? h
      simp [get?, hlt]

theorem get?_modify_self (arena : Arena α) (id : NodeId) (change : α → α) :
    (arena.modify id change).get? id = (arena.get? id).map change := by
  unfold modify
  cases h : arena.get? id with
  | none => simpa using h
  | some value =>
      have hlt := index_lt_of_get? h
      simp [get?, hlt]

theorem get?_modify_of_ne {arena : Arena α} {id other : NodeId} (change : α → α)
    (h : other ≠ id) : (arena.modify id change).get? other = arena.get? other := by
  unfold modify
  cases hget : arena.get? id with
  | none => rfl
  | some value =>
      by_cases hindex : id.index = other.index
      · have hlt := index_lt_of_get? hget
        have hgeneration : id.generation ≠ other.generation := by
          intro he
          apply h
          cases id
          cases other
          simp_all
        unfold get? at hget ⊢
        rw [hindex] at hget hlt
        simp only [hindex, Array.getElem?_setIfInBounds_self_of_lt hlt, hgeneration,
          if_false]
        split at hget
        · rename_i slot hslot
          split at hget
          · simp_all
          · simp at hget
        · simp at hget
      · simp [get?, Array.getElem?_setIfInBounds_ne hindex]

end Arena

end ConcreteSyntax
