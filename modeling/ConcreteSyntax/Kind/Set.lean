import ConcreteSyntax.Kind

/-!
# Sets of kinds

A `KindSet` is a finite set of kinds with one bit for each kind.  The bits stand in
slots of 64, in the order of the kinds, and those behind the last kind are never
set, so that the bits set are those of the members (`bitAt_slots`) and two sets are
equal exactly when they have the same members (`ext_contains`).  `toList` lists the
members in declaration order.  The sets that classify kinds for the whole library
stand at the end, with the predicates `Kind.isAtomic`, `Kind.isTrivia`,
`Kind.isComment` and `Kind.isElement` read off them.
-/

namespace ConcreteSyntax

/-- The number of bits in a slot. -/
abbrev slotWidth : Nat := 64

/-- The number of slots that it takes to have one bit for each kind. -/
def slotCount : Nat := (Kind.count + slotWidth - 1) / slotWidth

namespace Kind

/-- The slot in which a kind has its bit. -/
def slot (kind : Kind) : Nat := kind.index / slotWidth

/-- The bit of a kind in its slot. -/
def mask (kind : Kind) : BitVec slotWidth := 1 <<< (kind.index % slotWidth)

theorem slot_lt_slotCount (kind : Kind) : kind.slot < slotCount := by
  have hindex := kind.index_lt_count
  simp only [slot, slotCount, slotWidth, count] at hindex ⊢
  omega

theorem mask_eq_twoPow (kind : Kind) :
    kind.mask = BitVec.twoPow slotWidth (kind.index % slotWidth) :=
  (BitVec.twoPow_eq _ _).symm

theorem getLsbD_mask (kind : Kind) (place : Nat) :
    kind.mask.getLsbD place = decide (kind.index % slotWidth = place) := by
  have hlt : kind.index % slotWidth < slotWidth := Nat.mod_lt _ (by decide)
  rw [mask_eq_twoPow, BitVec.getLsbD_twoPow, decide_eq_true hlt, Bool.true_and]

/-- What a slot has in common with the bit of a kind tells whether the bit is set. -/
theorem toNat_and_mask_bne_zero (bits : BitVec slotWidth) (kind : Kind) :
    ((bits &&& kind.mask).toNat != 0) = bits.getLsbD (kind.index % slotWidth) := by
  have hlt : kind.index % slotWidth < slotWidth := Nat.mod_lt _ (by decide)
  rw [mask_eq_twoPow, BitVec.and_twoPow]
  cases bits.getLsbD (kind.index % slotWidth) with
  | false => rfl
  | true => simp [BitVec.toNat_twoPow_of_lt hlt]

end Kind

/-! ## Rows of slots -/

/-- The bit at a place of a row of slots. -/
def bitAt (slots : List (BitVec slotWidth)) (place : Nat) : Bool :=
  (slots.getD (place / slotWidth) 0).getLsbD (place % slotWidth)

section

variable {slots slots' : List (BitVec slotWidth)}

theorem bitAt_replicate (n place : Nat) : bitAt (List.replicate n 0) place = false := by
  rw [bitAt, List.getD_eq_getElem?_getD, List.getElem?_replicate]
  split <;> simp

/-- Rows are combined bit by bit where slots are. -/
theorem bitAt_zipWith {op : BitVec slotWidth → BitVec slotWidth → BitVec slotWidth}
    {bitOp : Bool → Bool → Bool}
    (hop : ∀ a b place, (op a b).getLsbD place = bitOp (a.getLsbD place) (b.getLsbD place))
    (hfalse : bitOp false false = false) (hlength : slots.length = slots'.length) (place : Nat) :
    bitAt (List.zipWith op slots slots') place =
      bitOp (bitAt slots place) (bitAt slots' place) := by
  simp only [bitAt, List.getD_eq_getElem?_getD, List.getElem?_zipWith]
  rcases Nat.lt_or_ge (place / slotWidth) slots.length with hlt | hge
  · simp [hlt, hlength ▸ hlt, hop]
  · simp [hge, hlength ▸ hge, hfalse]

theorem bitAt_set {slot : Nat} (hlt : slot < slots.length) (bits : BitVec slotWidth)
    (place : Nat) :
    bitAt (slots.set slot bits) place =
      if slot = place / slotWidth then bits.getLsbD (place % slotWidth)
      else bitAt slots place := by
  simp only [bitAt, List.getD_eq_getElem?_getD, List.getElem?_set]
  split
  · simp
  · rfl

/-- Rows of one length are equal when they have the same bits. -/
theorem eq_of_bitAt (hlength : slots.length = slots'.length)
    (h : ∀ place, bitAt slots place = bitAt slots' place) : slots = slots' := by
  refine List.ext_getElem hlength fun slot hslot hslot' => ?_
  refine BitVec.eq_of_getLsbD_eq fun place hplace => ?_
  have hdiv : (slotWidth * slot + place) / slotWidth = slot := by
    rw [Nat.mul_add_div (by decide), Nat.div_eq_of_lt hplace, Nat.add_zero]
  have hmod : (slotWidth * slot + place) % slotWidth = place := by
    rw [Nat.mul_add_mod, Nat.mod_eq_of_lt hplace]
  simpa [bitAt, List.getD_eq_getElem?_getD, hdiv, hmod, hslot, hslot'] using
    h (slotWidth * slot + place)

end

/-! ## Sets -/

/-- A finite set of kinds: the bit at the place `kind.index` tells whether `kind` belongs to it,
and behind the last kind no bit is set. -/
@[ext] structure KindSet where
  slots : List (BitVec slotWidth)
  length_slots : slots.length = slotCount
  spare : ∀ place, Kind.count ≤ place → bitAt slots place = false
deriving DecidableEq

namespace KindSet

/-- The set without members. -/
def empty : KindSet where
  slots := List.replicate slotCount 0
  length_slots := List.length_replicate
  spare := fun place _ => bitAt_replicate _ place

instance : EmptyCollection KindSet := ⟨empty⟩

instance : Inhabited KindSet := ⟨empty⟩

theorem slot_lt_length (set : KindSet) (kind : Kind) : kind.slot < set.slots.length := by
  rw [set.length_slots]
  exact kind.slot_lt_slotCount

/-- Whether `kind` belongs to the set. -/
def contains (set : KindSet) (kind : Kind) : Bool :=
  (set.slots.get ⟨kind.slot, set.slot_lt_length kind⟩ &&& kind.mask).toNat != 0

theorem bitAt_singleton (kind : Kind) (place : Nat) :
    bitAt (empty.slots.set kind.slot kind.mask) place = decide (kind.index = place) := by
  have hempty : bitAt empty.slots place = false := bitAt_replicate _ place
  rw [bitAt_set (empty.slot_lt_length kind), Kind.getLsbD_mask, hempty, Kind.slot]
  grind

/-- The set of one kind. -/
def singleton (kind : Kind) : KindSet where
  slots := empty.slots.set kind.slot kind.mask
  length_slots := List.length_set.trans empty.length_slots
  spare := fun place hplace => by
    rw [bitAt_singleton, decide_eq_false_iff_not]
    exact Nat.ne_of_lt (Nat.lt_of_lt_of_le kind.index_lt_count hplace)

theorem bitAt_union (a b : KindSet) (place : Nat) :
    bitAt (List.zipWith (· ||| ·) a.slots b.slots) place =
      (bitAt a.slots place || bitAt b.slots place) :=
  bitAt_zipWith (fun _ _ _ => BitVec.getLsbD_or) rfl (a.length_slots.trans b.length_slots.symm) _

/-- The members of either set. -/
def union (a b : KindSet) : KindSet where
  slots := List.zipWith (· ||| ·) a.slots b.slots
  length_slots := by rw [List.length_zipWith, a.length_slots, b.length_slots, Nat.min_self]
  spare := fun place hplace => by
    rw [bitAt_union, a.spare place hplace, b.spare place hplace, Bool.or_false]

instance : Union KindSet := ⟨union⟩

/-- The set with `kind` added. -/
def insert (set : KindSet) (kind : Kind) : KindSet := set ∪ singleton kind

/-- The set of the kinds of a list. -/
def ofList (kinds : List Kind) : KindSet := kinds.foldl insert ∅

/-- Whether the set has no members. -/
def isEmpty (set : KindSet) : Bool := set.slots.all (· == 0)

/-- The members in declaration order. -/
def toList (set : KindSet) : List Kind := Kind.all.filter set.contains

/-- The place of the bit of a kind is its index. -/
theorem contains_eq_bitAt (set : KindSet) (kind : Kind) :
    set.contains kind = bitAt set.slots kind.index := by
  rw [contains, Kind.toNat_and_mask_bne_zero, bitAt, ← Kind.slot, List.getD_eq_getElem?_getD,
    List.getElem?_eq_getElem (set.slot_lt_length kind), Option.getD_some, List.get_eq_getElem]

@[simp] theorem contains_empty (kind : Kind) : (∅ : KindSet).contains kind = false := by
  rw [contains_eq_bitAt]
  exact bitAt_replicate _ _

@[simp] theorem contains_singleton (a b : Kind) :
    (singleton a).contains b = decide (b = a) := by
  rw [contains_eq_bitAt]
  refine (bitAt_singleton a b.index).trans (decide_eq_decide.2 ⟨fun h => ?_, fun h => ?_⟩)
  · exact Kind.index_injective h.symm
  · exact congrArg Kind.index h.symm

@[simp] theorem contains_union (a b : KindSet) (kind : Kind) :
    (a ∪ b).contains kind = (a.contains kind || b.contains kind) := by
  simp only [contains_eq_bitAt]
  exact bitAt_union a b _

@[simp] theorem contains_insert (set : KindSet) (a b : Kind) :
    (set.insert a).contains b = (set.contains b || decide (b = a)) := by
  simp [insert]

theorem contains_foldl_insert (kinds : List Kind) (set : KindSet) (kind : Kind) :
    (kinds.foldl insert set).contains kind = (set.contains kind || decide (kind ∈ kinds)) := by
  induction kinds generalizing set with
  | nil => simp
  | cons head rest ih => simp [ih, Bool.or_assoc]

@[simp] theorem contains_ofList (kinds : List Kind) (kind : Kind) :
    (ofList kinds).contains kind = decide (kind ∈ kinds) := by
  simp [ofList, contains_foldl_insert]

/-- The bits that are set are those of the members. -/
theorem bitAt_slots {set : KindSet} {place : Nat} :
    bitAt set.slots place = true ↔ ∃ kind, set.contains kind = true ∧ kind.index = place := by
  constructor
  · intro hbit
    have hlt : place < Kind.all.length := by
      rw [Kind.length_all]
      refine Nat.lt_of_not_le fun hle => ?_
      rw [set.spare place hle] at hbit
      cases hbit
    have hindex : Kind.all[place].index = place := Kind.index_getElem_all ⟨place, hlt⟩
    exact ⟨Kind.all[place], by rw [contains_eq_bitAt, hindex, hbit], hindex⟩
  · rintro ⟨kind, hkind, rfl⟩
    rwa [← contains_eq_bitAt]

/-- Sets with the same members are equal. -/
theorem ext_contains {a b : KindSet} (h : ∀ kind, a.contains kind = b.contains kind) :
    a = b := by
  refine KindSet.ext (eq_of_bitAt (a.length_slots.trans b.length_slots.symm) fun place => ?_)
  rw [Bool.eq_iff_iff, bitAt_slots, bitAt_slots]
  simp only [h]

@[simp] theorem mem_toList {set : KindSet} {kind : Kind} :
    kind ∈ set.toList ↔ set.contains kind = true := by
  simp [toList, Kind.mem_all]

/-- Leaves that only lay text out: blanks, indentation and line breaks. -/
def trivia : KindSet := ofList [.whitespace, .indenting, .newline]

/-- Leaves that hold comments. -/
def comments : KindSet := ofList [.cComment, .cppComment, .markupComment]

/-- Preprocessor directives. -/
def directives : KindSet := ofList [
  .preprocessorIf, .preprocessorIfDefined, .preprocessorIfNotDefined, .preprocessorElif,
  .preprocessorElse, .preprocessorEndif, .preprocessorDefine, .preprocessorUndefine,
  .preprocessorInclude, .preprocessorImport, .preprocessorPragma, .preprocessorWarning,
  .preprocessorError]

/-- Containers that analysis introduces. -/
def synthesized : KindSet := ofList [
  .preprocessorConditional, .conditionIf, .conditionElseIf, .conditionElse, .flowSwitch,
  .flowCase, .flowDefault, .flowFor, .flowWhile, .flowDoWhile, .flowGoto, .flowLabel,
  .flowReturn, .typedefDeclaration, .typeEnum, .typeStruct, .typeUnion, .sizeof, .typeof,
  .functionPrototype, .functionDefinition, .functionCall, .cppNamespace, .cppClass,
  .cppPublic, .cppProtected, .cppPrivate, .cppTry, .cppCatch, .cppThrow, .cppNew,
  .cppDelete, .objcInterface, .objcImplementation, .objcProtocol, .objcProperty,
  .objcSynthesize, .objcTry, .objcCatch, .objcFinally, .objcThrow, .objcSynchronized,
  .objcSelector, .objcEncode, .objcMethodDeclaration, .objcMethodImplementation,
  .objcMethodCall]

/-- Containers of markup elements. -/
def elements : KindSet := ofList [
  .element, .rssChannel, .rssItem, .rssCategory, .rssTitle, .rssLink, .rssDescription,
  .rssLanguage, .rssAuthor, .rssEnclosure, .rssGuid, .rssPublicationDate, .atomFeed,
  .atomEntry, .atomSubtitle, .atomId, .atomSummary, .atomName, .atomEmail, .atomUpdated,
  .plist, .plistDictionary, .plistArray, .plistKey, .plistString, .plistInteger,
  .plistReal, .plistTrue, .plistFalse, .plistDate, .plistData]

/-- Kinds whose nodes have children; all others are leaves. -/
def containers : KindSet :=
  ofList [.root, .braces, .parenthesis, .brackets] ∪ directives ∪ synthesized ∪ elements

end KindSet

namespace Kind

/-- Atomic kinds are leaves: their nodes hold text and never have children. -/
def isAtomic (kind : Kind) : Bool := !KindSet.containers.contains kind

/-- Blanks, indentation and line breaks. -/
def isTrivia (kind : Kind) : Bool := KindSet.trivia.contains kind

/-- Comments of any language. -/
def isComment (kind : Kind) : Bool := KindSet.comments.contains kind

/-- Markup elements, those of feeds and property lists included. -/
def isElement (kind : Kind) : Bool := KindSet.elements.contains kind

/-- Kinds that analysis looks at: neither trivia nor comments. -/
def isSignificant (kind : Kind) : Bool := !kind.isTrivia && !kind.isComment

variable {kind : Kind}

theorem isAtomic_of_synthesized (h : KindSet.synthesized.contains kind = true) :
    kind.isAtomic = false := by
  simp [isAtomic, KindSet.containers, h]

theorem isAtomic_of_directives (h : KindSet.directives.contains kind = true) :
    kind.isAtomic = false := by
  simp [isAtomic, KindSet.containers, h]

theorem isSignificant_of_synthesized (h : KindSet.synthesized.contains kind = true) :
    kind.isSignificant = true := by
  have hall : all.all (fun kind =>
      !KindSet.synthesized.contains kind || kind.isSignificant) = true := by
    decide +kernel
  have hkind := List.all_eq_true.1 hall kind kind.mem_all
  simpa [h] using hkind

theorem notMem_directives_of_synthesized (h : KindSet.synthesized.contains kind = true) :
    KindSet.directives.contains kind = false := by
  have hall : all.all (fun kind =>
      !KindSet.synthesized.contains kind || !KindSet.directives.contains kind) = true := by
    decide +kernel
  have hkind := List.all_eq_true.1 hall kind kind.mem_all
  simpa [h] using hkind

end Kind

end ConcreteSyntax
