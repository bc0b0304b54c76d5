import ConcreteSyntax.Scan.Table
import Mathlib.Data.Finset.Card
import Mathlib.Data.List.Dedup
import Mathlib.Data.List.Nodup

/-!
# Sets of kinds as finite sets

However a set of kinds is made, it is the finite set of what was put into it
(`KindSet.Recipe.makes_finite_set`).  In particular it lists as many kinds as were put in only
where none was put in twice, by which a table tells that its catalogue declares a kind twice
(`Table.build_eq_duplicateKind_iff`).
-/

namespace ConcreteSyntax

namespace KindSet

/-! ## Members -/

section

variable {set other : KindSet} {kinds : List Kind}

theorem eq_iff_contains : set = other ↔ ∀ kind, set.contains kind = other.contains kind :=
  ⟨fun h _ => h ▸ rfl, ext_contains⟩

/-- All slots are clear exactly where there is no member: behind the last kind no bit is set that
would keep a slot from being clear. -/
theorem isEmpty_iff : set.isEmpty = true ↔ ∀ kind, set.contains kind = false := by
  have hclear : set.isEmpty = true ↔ set = ∅ := by
    rw [isEmpty, List.all_eq_true, KindSet.ext_iff]
    simp only [beq_iff_eq]
    exact ⟨fun h => List.eq_replicate_iff.2 ⟨set.length_slots, h⟩,
      fun h => (List.eq_replicate_iff.1 h).2⟩
  simp only [hclear, eq_iff_contains, contains_empty]

/-- The members are listed in the order in which kinds are declared. -/
theorem pairwise_toList (set : KindSet) : set.toList.Pairwise (·.index < ·.index) := by
  have hall : Kind.all.Pairwise (·.index < ·.index) := by
    refine List.pairwise_iff_getElem.2 fun first later hfirst hlater hlt => ?_
    have hindex : Kind.all[first].index = first := Kind.index_getElem_all ⟨first, hfirst⟩
    have hindex' : Kind.all[later].index = later := Kind.index_getElem_all ⟨later, hlater⟩
    rwa [hindex, hindex']
  exact hall.filter _

theorem nodup_toList (set : KindSet) : set.toList.Nodup :=
  (pairwise_toList set).imp fun hlt heq => Nat.ne_of_lt hlt (congrArg Kind.index heq)

/-- A set lists as many kinds as there are distinct ones among those that it holds. -/
theorem length_toList (h : ∀ kind, set.contains kind = true ↔ kind ∈ kinds) :
    set.toList.length = kinds.toFinset.card := by
  have hmembers : set.toList.toFinset = kinds.toFinset := by
    ext kind
    rw [List.mem_toFinset, List.mem_toFinset, mem_toList, h]
  rw [← hmembers, List.toFinset_card_of_nodup (nodup_toList set)]

/-- A set lists as many kinds as were put into it only where none was put in twice. -/
theorem length_toList_ofList (kinds : List Kind) :
    (ofList kinds).toList.length = kinds.length ↔ kinds.Nodup := by
  have hmembers : ∀ kind, (ofList kinds).contains kind = true ↔ kind ∈ kinds := by simp
  rw [length_toList hmembers, List.card_toFinset, ← List.dedup_eq_self]
  exact ⟨fun h => kinds.dedup_sublist.eq_of_length h, fun h => by rw [h]⟩

end

/-! ## Two sets -/

section

variable {kinds kinds' : KindSet} {kind : Kind}

/-- Whether all kinds of a set are of another one, too. -/
def IsSubset (kinds kinds' : KindSet) : Prop := kinds ∪ kinds' = kinds'

/-- Whether no kind is of both sets. -/
def IsDisjoint (kinds kinds' : KindSet) : Prop :=
  List.zipWith (· &&& ·) kinds.slots kinds'.slots = empty.slots

instance : Decidable (kinds.IsSubset kinds') := inferInstanceAs (Decidable (_ = _))

instance : Decidable (kinds.IsDisjoint kinds') := inferInstanceAs (Decidable (_ = _))

theorem contains_of_subset (hsub : kinds.IsSubset kinds') (hkind : kinds.contains kind = true) :
    kinds'.contains kind = true := by
  rw [← hsub, contains_union, hkind, Bool.true_or]

theorem not_contains_of_disjoint (hdisjoint : kinds.IsDisjoint kinds')
    (hkind : kinds.contains kind = true) : kinds'.contains kind = false := by
  have hlength := kinds.length_slots.trans kinds'.length_slots.symm
  have hempty : bitAt empty.slots kind.index = false := bitAt_replicate _ _
  have hboth : bitAt (List.zipWith (· &&& ·) kinds.slots kinds'.slots) kind.index =
      (bitAt kinds.slots kind.index && bitAt kinds'.slots kind.index) :=
    bitAt_zipWith (fun _ _ _ => BitVec.getLsbD_and) rfl hlength _
  rw [hdisjoint, hempty, ← contains_eq_bitAt, ← contains_eq_bitAt, hkind, Bool.true_and] at hboth
  exact hboth.symm

end

/-! ## Ways to make a set -/

/-- A way to make a set of kinds: of nothing, of a list or of one kind, by putting one more kind in,
or by joining two sets. -/
inductive Recipe where
  | empty
  | ofList (kinds : List Kind)
  | singleton (kind : Kind)
  | insert (recipe : Recipe) (kind : Kind)
  | union (first second : Recipe)

namespace Recipe

/-- The set that is made. -/
def made : Recipe → KindSet
  | .empty => ∅
  | .ofList kinds => KindSet.ofList kinds
  | .singleton kind => KindSet.singleton kind
  | .insert recipe kind => recipe.made.insert kind
  | .union first second => first.made ∪ second.made

/-- The kinds that are put in, in their order and as often as they are. -/
def kinds : Recipe → List Kind
  | .empty => []
  | .ofList kinds => kinds
  | .singleton kind => [kind]
  | .insert recipe kind => recipe.kinds ++ [kind]
  | .union first second => first.kinds ++ second.kinds

/-- The members of a set that is made are the kinds put in, by induction on how it is made. -/
theorem contains_made (recipe : Recipe) (kind : Kind) :
    recipe.made.contains kind = true ↔ kind ∈ recipe.kinds := by
  induction recipe with
  | empty => simp [made, kinds]
  | ofList put => simp [made, kinds]
  | singleton put => simp [made, kinds]
  | insert recipe put ih => simp [made, kinds, ih]
  | union first second ihFirst ihSecond => simp [made, kinds, ihFirst, ihSecond]

end Recipe

end KindSet

namespace Table

variable {specs : List Spec}

theorem length_toList_declared :
    (declared specs).toList.length = specs.length ↔ (specs.map (·.kind)).Nodup := by
  rw [declared, ← KindSet.length_toList_ofList, List.length_map]

/-- Kinds declared twice are told by the size of the set of all. -/
theorem build_eq_duplicateKind_iff :
    build specs = .error .duplicateKind ↔ ¬(specs.map (·.kind)).Nodup := by
  rw [← length_toList_declared, build]
  split
  · rename_i hsize
    split <;> simp [hsize]
  · rename_i hsize
    simp [hsize]

end Table

/-- Sets of kinds are the finite sets of what was put into them, however they are made.  A kind
belongs to a set exactly if it was put in, the bits of its slots are those of these kinds and no
others, and the union of two sets has the members of both.  A set is empty exactly if it has no
member, its members are listed once each in the order of their declaration, and two sets are the
same exactly if they have the same members.  So a set lists as many kinds as there are distinct
ones among those put in, and a catalogue is refused for a kind declared twice exactly if there is
one. -/
theorem KindSet.Recipe.makes_finite_set (recipe other : Recipe) :
    (∀ kind, recipe.made.contains kind = true ↔ kind ∈ recipe.kinds)
    ∧ (∀ place, bitAt recipe.made.slots place = true ↔
      ∃ kind ∈ recipe.kinds, kind.index = place)
    ∧ (∀ kind, (recipe.made ∪ other.made).contains kind = true ↔
      recipe.made.contains kind = true ∨ other.made.contains kind = true)
    ∧ (recipe.made.isEmpty = true ↔ ∀ kind, recipe.made.contains kind = false)
    ∧ (∀ kind, kind ∈ recipe.made.toList ↔ recipe.made.contains kind = true)
    ∧ recipe.made.toList.Nodup
    ∧ recipe.made.toList.Pairwise (·.index < ·.index)
    ∧ (recipe.made = other.made ↔
      ∀ kind, recipe.made.contains kind = other.made.contains kind)
    ∧ recipe.made.toList.length = recipe.kinds.toFinset.card
    ∧ ∀ specs, Table.build specs = .error .duplicateKind ↔ ¬(specs.map (·.kind)).Nodup :=
  ⟨recipe.contains_made,
    fun place => by simp only [bitAt_slots, recipe.contains_made],
    fun kind => by rw [contains_union, Bool.or_eq_true],
    isEmpty_iff,
    fun _ => mem_toList,
    nodup_toList _,
    pairwise_toList _,
    eq_iff_contains,
    length_toList recipe.contains_made,
    fun _ => Table.build_eq_duplicateKind_iff⟩

/-- The members stand in order although they are in different slots and were put in the other way
round, one of them twice. -/
example : (KindSet.ofList [.plistData, .root, .plistData]).toList = [.root, .plistData] := by
  decide +kernel

end ConcreteSyntax
