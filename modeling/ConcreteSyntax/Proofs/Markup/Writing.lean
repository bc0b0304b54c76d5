import ConcreteSyntax.Node.Attributes
import ConcreteSyntax.Proofs.CFamily.Literals

/-!
# Written tags

A tag can be written from a name, a form and attributes, with white space of any length around what
is in it.  The matcher of tags and the reader of their parts go through the same text by rules of
their own, and both agree with the writer: a written tag is one leaf whatever follows it, and its
parts are those that were written (`Language.scan_tag`).
-/

namespace ConcreteSyntax

/-- The markup languages. -/
def Language.markupFamily : List Language := [.html, .xml, .feed, .propertyList]

/-- A spec recognises nothing where its opening marker does not match, unless its markers pair. -/
theorem Spec.recognise?_of_length? {spec : Spec} {cx : Context}
    (h : spec.opening.length? cx = none) (hshape : spec.shape ≠ .paired) :
    spec.recognise? cx = none := by
  unfold recognise?
  rw [h]
  dsimp only
  split
  · rename_i hpaired _
    exact absurd hpaired hshape
  · rfl

namespace Markup

open Text

/-! ## Writing -/

/-- The characters that mark out the parts of a tag. -/
def marks : List Char := ['=', '/', '<', '>', '"', '\'']

/-- White space of any length. -/
structure Space where
  chars : List Char
  isSpace : chars.all isWhitespace = true

/-- The name of a tag or of an attribute. -/
structure Name where
  chars : List Char
  nonempty : chars ≠ []
  isName : (chars.all fun c => !isWhitespace c && !marks.contains c) = true

/-- A value between quotes, with white space on both sides of the equals sign. -/
structure QuotedValue where
  before : Space
  behind : Space
  quote : Char
  isQuote : quote = '"' ∨ quote = '\''
  chars : List Char
  unquoted : quote ∉ chars

/-- An attribute as it is written, with the white space in front of it. -/
structure WrittenAttribute where
  space : Space
  apart : space.chars ≠ []
  name : Name
  value? : Option QuotedValue

/-- A tag as it is written, with white space at its end. -/
structure WrittenTag where
  name : Name
  begins : name.chars.head?.any Char.isAlpha = true
  form : TagForm
  attributes : List WrittenAttribute
  space : Space

/-- What follows the name of an attribute. -/
def QuotedValue.write (value : QuotedValue) : List Char :=
  value.before.chars ++ '=' :: (value.behind.chars ++ value.quote :: (value.chars ++ [value.quote]))

namespace WrittenAttribute

/-- The text of an attribute. -/
def write (found : WrittenAttribute) : List Char :=
  found.space.chars ++ (found.name.chars ++ found.value?.elim [] QuotedValue.write)

/-- The attribute that is written. -/
def toAttribute (found : WrittenAttribute) : Attribute :=
  ⟨found.name.chars, found.value?.elim [] (·.chars)⟩

end WrittenAttribute

namespace WrittenTag

/-- What follows the name of a tag. -/
def tail (tag : WrittenTag) : List Char :=
  tag.attributes.flatMap WrittenAttribute.write ++ tag.space.chars

/-- What stands between `<` and `>`. -/
def inner (tag : WrittenTag) : List Char :=
  match tag.form with
  | .opening => tag.name.chars ++ tag.tail
  | .empty => tag.name.chars ++ (tag.tail ++ ['/'])
  | .closing => '/' :: (tag.name.chars ++ tag.tail)

/-- The text of a tag. -/
def write (tag : WrittenTag) : List Char := '<' :: (tag.inner ++ ['>'])

end WrittenTag

/-! ## Characters -/

theorem not_mem_marks_of_isWhitespace {c : Char} (h : isWhitespace c = true) : c ∉ marks := by
  have hmarks : (marks.all fun mark => !isWhitespace mark) = true := by decide
  intro hmem
  have hmark := List.all_eq_true.1 hmarks c hmem
  rw [h] at hmark
  cases hmark

theorem Space.forall_mem (space : Space) : ∀ c ∈ space.chars, isWhitespace c = true :=
  List.all_eq_true.1 space.isSpace

theorem Space.forall_not_mem_marks (space : Space) : ∀ c ∈ space.chars, c ∉ marks :=
  fun c hc => not_mem_marks_of_isWhitespace (space.forall_mem c hc)

theorem Name.forall_mem (name : Name) :
    ∀ c ∈ name.chars, isWhitespace c = false ∧ c ∉ marks := by
  simpa using name.isName

/-! ## Matching -/

/-- The matcher passes over what is no quote and no bracket. -/
theorem tagTail_append {text : List Char} (h : ∀ c ∈ text, c ∉ ['<', '>', '"', '\''])
    (rest : List Char) : tagTail none (text ++ rest) = text.length + tagTail none rest := by
  induction text with
  | nil => simp
  | cons c text ih =>
      rw [List.forall_mem_cons] at h
      obtain ⟨hc, htext⟩ := h
      simp only [List.mem_cons, List.not_mem_nil, or_false, not_or] at hc
      obtain ⟨hopen, hclose, hdouble, hsingle⟩ := hc
      simp [tagTail, hopen, hclose, hdouble, hsingle, ih htext]
      omega

theorem tagTail_of_not_mem_marks {text : List Char} (h : ∀ c ∈ text, c ∉ marks)
    (rest : List Char) : tagTail none (text ++ rest) = text.length + tagTail none rest :=
  tagTail_append (fun c hc hmem => h c hc (by simp_all [marks])) rest

/-- The matcher passes over a value up to its quote. -/
theorem tagTail_quoted {quote : Char} {text : List Char} (h : quote ∉ text) (rest : List Char) :
    tagTail (some quote) (text ++ quote :: rest) = text.length + (1 + tagTail none rest) := by
  induction text with
  | nil => simp [tagTail]; omega
  | cons c text ih =>
      rw [List.mem_cons, not_or] at h
      simp [tagTail, Ne.symm h.1, ih h.2]
      omega

theorem tagTail_quote {quote : Char} (h : quote = '"' ∨ quote = '\'') (rest : List Char) :
    tagTail none (quote :: rest) = tagTail (some quote) rest + 1 := by
  rcases h with rfl | rfl <;> rfl

theorem tagTail_value (value : QuotedValue) (rest : List Char) :
    tagTail none (value.write ++ rest) = value.write.length + tagTail none rest := by
  have hequals : ∀ c ∈ ['='], c ∉ ['<', '>', '"', '\''] := by simp
  have hwrite : value.write ++ rest = value.before.chars ++ (['='] ++ (value.behind.chars ++
      value.quote :: (value.chars ++ value.quote :: rest))) := by
    simp [QuotedValue.write]
  rw [hwrite, tagTail_of_not_mem_marks value.before.forall_not_mem_marks, tagTail_append hequals,
    tagTail_of_not_mem_marks value.behind.forall_not_mem_marks, tagTail_quote value.isQuote,
    tagTail_quoted value.unquoted]
  simp [QuotedValue.write]
  omega

theorem tagTail_attribute (found : WrittenAttribute) (rest : List Char) :
    tagTail none (found.write ++ rest) = found.write.length + tagTail none rest := by
  rw [WrittenAttribute.write, List.append_assoc, List.append_assoc,
    tagTail_of_not_mem_marks found.space.forall_not_mem_marks,
    tagTail_of_not_mem_marks fun c hc => (found.name.forall_mem c hc).2]
  cases found.value? with
  | none => simp; omega
  | some value =>
      simp only [Option.elim_some, tagTail_value, List.length_append]
      omega

theorem tagTail_attributes (attributes : List WrittenAttribute) (rest : List Char) :
    tagTail none (attributes.flatMap WrittenAttribute.write ++ rest) =
      (attributes.flatMap WrittenAttribute.write).length + tagTail none rest := by
  induction attributes with
  | nil => simp
  | cons found attributes ih =>
      rw [List.flatMap_cons, List.append_assoc, tagTail_attribute, ih, List.length_append]
      omega

namespace WrittenTag

theorem begins_cons (tag : WrittenTag) :
    ∃ c rest, tag.name.chars = c :: rest ∧ c.isAlpha = true := by
  have hbegins := tag.begins
  cases hname : tag.name.chars with
  | nil => exact absurd hname tag.name.nonempty
  | cons c rest =>
      rw [hname] at hbegins
      exact ⟨c, rest, rfl, hbegins⟩

theorem tagTail_name_tail (tag : WrittenTag) (rest : List Char) :
    tagTail none (tag.name.chars ++ (tag.tail ++ rest)) =
      (tag.name.chars ++ tag.tail).length + tagTail none rest := by
  rw [tail, List.append_assoc, tagTail_of_not_mem_marks fun c hc => (tag.name.forall_mem c hc).2,
    tagTail_attributes, tagTail_of_not_mem_marks tag.space.forall_not_mem_marks]
  simp only [List.length_append]
  omega

/-- A tag goes on with a letter, or with a slash in front of one. -/
theorem inner_cases (tag : WrittenTag) (behind : List Char) :
    ∃ c rest, c.isAlpha = true
      ∧ (tag.inner ++ behind = c :: rest ∨ tag.inner ++ behind = '/' :: c :: rest) := by
  obtain ⟨c, rest, hname, hc⟩ := tag.begins_cons
  unfold inner
  split
  · exact ⟨c, rest ++ tag.tail ++ behind, hc, .inl (by simp [hname])⟩
  · exact ⟨c, rest ++ (tag.tail ++ ['/']) ++ behind, hc, .inl (by simp [hname])⟩
  · exact ⟨c, rest ++ tag.tail ++ behind, hc, .inr (by simp [hname])⟩

theorem begins_inner (tag : WrittenTag) (behind : List Char) :
    (dropOpening ['/'] (tag.inner ++ behind)).head?.any Char.isAlpha = true := by
  obtain ⟨c, rest, hc, hinner | hinner⟩ := tag.inner_cases behind <;>
    rw [hinner, dropOpening, List.isPrefixOf?]
  · have hslash : c ≠ '/' := by
      rintro rfl
      exact absurd hc (by decide)
    simpa [hslash.symm] using hc
  · simpa [List.isPrefixOf?] using hc

theorem tagTail_inner (tag : WrittenTag) (behind : List Char) :
    tagTail none (tag.inner ++ '>' :: behind) = tag.inner.length + 1 := by
  have hslash : ∀ c ∈ ['/'], c ∉ ['<', '>', '"', '\''] := by simp
  have hend : tagTail none ('>' :: behind) = 1 := rfl
  unfold inner
  split
  · rw [List.append_assoc, tagTail_name_tail, hend]
  · rw [List.append_assoc, List.append_assoc, tagTail_name_tail, tagTail_append hslash, hend]
    simp only [List.length_append, List.length_singleton]
    omega
  · rw [← List.singleton_append, List.append_assoc, List.append_assoc, tagTail_append hslash,
      tagTail_name_tail, hend]
    simp only [List.length_append]
    omega

/-- The matcher of tags takes a written tag, and nothing of what follows it. -/
theorem tag_write (tag : WrittenTag) (left : LeftContext) (behind : List Char) :
    Markup.tag ⟨left, tag.write ++ behind⟩ = some tag.write.length := by
  have hrest : tag.write ++ behind = '<' :: (tag.inner ++ '>' :: behind) := by simp [write]
  rw [Markup.tag, hrest]
  simp only [tag.begins_inner, if_true, tagTail_inner]
  simp [write]

end WrittenTag

/-! ## Recognising -/

theorem toLower_ne_of_isAlpha {c : Char} (h : c.isAlpha = true) : c.toLower ≠ '!' := by
  intro hc
  unfold Char.toLower at hc
  split at hc
  · rename_i hupper
    have hge : 65 ≤ c.val.toNat := UInt32.le_iff_toNat_le.1 hupper.1
    have hle : c.val.toNat ≤ 90 := UInt32.le_iff_toNat_le.1 hupper.2
    have hval := congrArg (fun d : Char => d.val.toNat) hc
    simp only [UInt32.toNat_add] at hval
    rw [show ('a'.val - 'A'.val).toNat = 32 from rfl, show '!'.val.toNat = 33 from rfl] at hval
    omega
  · subst hc
    revert h
    decide

/-- Where a bracket is followed by a letter or a slash, only a tag can begin. -/
theorem length?_opening_of_bracket {c : Char} (h : c.isAlpha = true ∨ c = '/') (left : LeftContext)
    (rest : List Char) :
    ∀ spec ∈ specs, spec.kind ≠ .tag → spec.opening.length? ⟨left, '<' :: c :: rest⟩ = none := by
  have hc : c ≠ '!' ∧ c ≠ '?' ∧ c.toLower ≠ '!' := by
    rcases h with h | rfl
    · refine ⟨?_, ?_, toLower_ne_of_isAlpha h⟩ <;> rintro rfl <;> revert h <;> decide
    · decide
  simp only [specs, List.forall_mem_cons, List.not_mem_nil, false_imp_iff, implies_true, and_true]
  refine ⟨?_, ?_, ?_, ?_, ?_, ?_, ?_, ?_, ?_, ?_⟩ <;> intro hkind
  case refine_4 => exact absurd rfl hkind
  all_goals
    simp [Pattern.length?, Spec.custom, Spec.patching, Spec.pair, Spec.literal, Spec.closedBy,
      whitespace, indenting, newline, isLineBreak, isBlank, doctype, xmlDeclaration, entity,
      equalIgnoringCase, List.isPrefixOf?, hc.1.symm, hc.2.1.symm, hc.2.2]

theorem WrittenTag.recognise?_custom (tag : WrittenTag) (left : LeftContext)
    (behind : List Char) : (Spec.custom .tag Markup.tag).recognise? ⟨left, tag.write ++ behind⟩ =
      some (.leaf .tag tag.write.length) := by
  have hlength : (Spec.custom .tag Markup.tag).opening.length? ⟨left, tag.write ++ behind⟩ =
      some ((tag.inner ++ ['>']).length + 1) := tag.tag_write left behind
  rw [Spec.recognise?, hlength]
  rfl

/-- Where a written tag stands, only the tag is recognised. -/
theorem WrittenTag.recognise?_write (tag : WrittenTag) (left : LeftContext) (behind : List Char) :
    ∀ spec ∈ specs, spec.recognise? ⟨left, tag.write ++ behind⟩ = none
      ∨ spec.recognise? ⟨left, tag.write ++ behind⟩ = some (.leaf .tag tag.write.length) := by
  intro spec hspec
  by_cases hkind : spec.kind = .tag
  · right
    obtain rfl : spec = .custom .tag Markup.tag := eq_of_kind hspec (by simp [specs]) hkind
    exact tag.recognise?_custom left behind
  · left
    have hshapes : specs.all (fun spec => spec.shape != .paired) = true := by decide +kernel
    refine Spec.recognise?_of_length? ?_ (by simpa using List.all_eq_true.1 hshapes spec hspec)
    obtain ⟨c, rest, hc, hinner⟩ : ∃ c rest, (c.isAlpha = true ∨ c = '/')
        ∧ tag.write ++ behind = '<' :: c :: rest := by
      obtain ⟨c, rest, hc, hinner | hinner⟩ := tag.inner_cases ('>' :: behind)
      · exact ⟨c, rest, .inl hc, by simpa [write] using hinner⟩
      · exact ⟨'/', c :: rest, .inr rfl, by simpa [write] using hinner⟩
    rw [hinner]
    exact length?_opening_of_bracket hc left rest spec hspec hkind

/-! ## Reading attributes -/

theorem dropWhile_of_all {test : Char → Bool} {front behind : List Char}
    (hfront : ∀ c ∈ front, test c = true) (hbehind : behind.head?.any test = false) :
    (front ++ behind).dropWhile test = behind := by
  rw [List.dropWhile_append_of_pos hfront]
  cases behind with
  | nil => rfl
  | cons c behind => simpa using hbehind

theorem trimStart_space (space : Space) {rest : List Char}
    (h : rest.head?.any isWhitespace = false) : trimStart (space.chars ++ rest) = rest :=
  dropWhile_of_all space.forall_mem h

theorem head?_trimStart (text : List Char) : (trimStart text).head?.any isWhitespace = false := by
  have hstop := List.head?_dropWhile_not isWhitespace text
  rw [trimStart]
  cases hhead : (text.dropWhile isWhitespace).head? with
  | none => rfl
  | some c =>
      rw [hhead] at hstop
      simpa using hstop

theorem trimStart_trimStart (text : List Char) : trimStart (trimStart text) = trimStart text :=
  @dropWhile_of_all _ [] _ nofun (head?_trimStart text)

theorem readAttributes_eq (text : List Char) :
    readAttributes text = match trimStart text with
      | [] => []
      | c :: rest =>
          let found := readAttribute (c :: rest)
          if found.1.name.isEmpty then readAttributes found.2
          else found.1 :: readAttributes found.2 := by
  rw [readAttributes]
  split <;> rename_i h <;> rw [h]

/-- White space in front of attributes does not matter. -/
theorem readAttributes_congr {text other : List Char} (h : trimStart text = trimStart other) :
    readAttributes text = readAttributes other := by
  rw [readAttributes_eq text, readAttributes_eq other, h]

/-- What may follow an attribute: nothing or white space, with no equals sign behind it. -/
structure Apart (rest : List Char) : Prop where
  space : rest.head?.all isWhitespace = true
  equals : (trimStart rest).head? ≠ some '='

theorem apart_space (space : Space) : Apart space.chars := by
  have hnothing : trimStart space.chars = [] := by
    have htrim : trimStart (space.chars ++ []) = [] := trimStart_space space rfl
    rwa [List.append_nil] at htrim
  refine ⟨?_, by simp [hnothing]⟩
  have hspace := space.forall_mem
  cases hchars : space.chars with
  | nil => rfl
  | cons c chars => simpa using hspace c (by simp [hchars])

theorem Name.head?_append (name : Name) (rest : List Char) :
    ∃ c tail, name.chars ++ rest = c :: tail ∧ isWhitespace c = false ∧ c ≠ '=' := by
  obtain ⟨c, tail, hname⟩ := List.exists_cons_of_ne_nil name.nonempty
  obtain ⟨hspace, hmark⟩ := name.forall_mem c (by simp [hname])
  refine ⟨c, tail ++ rest, by simp [hname], hspace, ?_⟩
  rintro rfl
  exact hmark (by decide)

theorem trimStart_write (found : WrittenAttribute) (rest : List Char) :
    trimStart (found.write ++ rest) =
      found.name.chars ++ (found.value?.elim [] QuotedValue.write ++ rest) := by
  obtain ⟨c, tail, hname, hspace, -⟩ :=
    found.name.head?_append (found.value?.elim [] QuotedValue.write ++ rest)
  rw [WrittenAttribute.write, List.append_assoc, List.append_assoc]
  refine trimStart_space found.space ?_
  rw [hname]
  simpa using hspace

theorem apart_write (found : WrittenAttribute) (rest : List Char) :
    Apart (found.write ++ rest) := by
  constructor
  · obtain ⟨c, tail, hspace⟩ := List.exists_cons_of_ne_nil found.apart
    have hc := found.space.forall_mem c (by simp [hspace])
    simp [WrittenAttribute.write, hspace, hc]
  · obtain ⟨c, tail, hname, -, hequals⟩ :=
      found.name.head?_append (found.value?.elim [] QuotedValue.write ++ rest)
    rw [trimStart_write, hname]
    simpa using hequals

theorem apart_attributes (attributes : List WrittenAttribute) (space : Space) :
    Apart (attributes.flatMap WrittenAttribute.write ++ space.chars) := by
  cases attributes with
  | nil => exact apart_space space
  | cons found attributes =>
      rw [List.flatMap_cons, List.append_assoc]
      exact apart_write found _

/-- A quoted value is read up to its quote. -/
theorem readValue_quoted (value : QuotedValue) (rest : List Char) :
    readValue (value.behind.chars ++ value.quote :: (value.chars ++ value.quote :: rest)) =
      (value.chars, rest) := by
  obtain ⟨before, behind, quote, hquote, chars, hunquoted⟩ := value
  have hinside : ∀ c ∈ chars, (c != quote) = true := fun c hc =>
    bne_iff_ne.2 fun hsame => hunquoted (hsame ▸ hc)
  have htake : (chars ++ quote :: rest).takeWhile (· != quote) = chars :=
    CFamily.takeWhile_of_all hinside (by simp)
  have hdrop : (chars ++ quote :: rest).dropWhile (· != quote) = quote :: rest :=
    dropWhile_of_all hinside (by simp)
  have htrim : trimStart (behind.chars ++ quote :: (chars ++ quote :: rest)) =
      quote :: (chars ++ quote :: rest) := by
    refine trimStart_space behind (show isWhitespace quote = false from ?_)
    rcases hquote with rfl | rfl <;> decide
  rw [readValue, htrim]
  rcases hquote with rfl | rfl <;> simp only [htake, hdrop, List.drop_one, List.tail_cons]

theorem isAttributeChar_of_mem (name : Name) : ∀ c ∈ name.chars, isAttributeChar c = true := by
  intro c hc
  obtain ⟨hspace, hmark⟩ := name.forall_mem c hc
  have hequals : c ≠ '=' := by
    rintro rfl
    exact hmark (by decide)
  simp [isAttributeChar, hspace, hequals]

/-- An attribute is read up to what follows it. -/
theorem readAttribute_write (found : WrittenAttribute) {rest : List Char} (h : Apart rest) :
    ∃ behind, readAttribute (found.name.chars ++ (found.value?.elim [] QuotedValue.write ++ rest)) =
      (found.toAttribute, behind) ∧ trimStart behind = trimStart rest := by
  have hname := isAttributeChar_of_mem found.name
  unfold readAttribute WrittenAttribute.toAttribute
  cases found.value? with
  | none =>
      have hend : rest.head?.any isAttributeChar = false := by
        have hspace := h.space
        cases rest with
        | nil => rfl
        | cons c rest => simp_all [isAttributeChar]
      simp only [Option.elim_none, List.nil_append, CFamily.takeWhile_of_all hname hend,
        dropWhile_of_all hname hend]
      refine ⟨trimStart rest, ?_, trimStart_trimStart rest⟩
      split
      · rename_i after hequals
        exact absurd (by rw [hequals]; rfl) h.equals
      · rfl
  | some value =>
      have hwrite : value.write ++ rest = value.before.chars ++ '=' ::
          (value.behind.chars ++ value.quote :: (value.chars ++ value.quote :: rest)) := by
        simp [QuotedValue.write]
      have hend : (value.write ++ rest).head?.any isAttributeChar = false := by
        have hspace := value.before.forall_mem
        rw [hwrite]
        cases hbefore : value.before.chars with
        | nil => rfl
        | cons c before => simp [isAttributeChar, hspace c (by simp [hbefore])]
      simp only [Option.elim_some, CFamily.takeWhile_of_all hname hend,
        dropWhile_of_all hname hend]
      have htrim : ∀ behind, trimStart (value.before.chars ++ '=' :: behind) = '=' :: behind :=
        fun behind => trimStart_space value.before (show isWhitespace '=' = false by decide)
      rw [hwrite, htrim]
      simp only [readValue_quoted]
      exact ⟨rest, rfl, rfl⟩

/-- The attributes of a tag are read in the order in which they are written. -/
theorem readAttributes_write (attributes : List WrittenAttribute) (space : Space) :
    readAttributes (attributes.flatMap WrittenAttribute.write ++ space.chars) =
      attributes.map WrittenAttribute.toAttribute := by
  induction attributes with
  | nil =>
      have htrim : trimStart (space.chars ++ []) = [] := trimStart_space space rfl
      rw [List.append_nil] at htrim
      rw [List.flatMap_nil, List.nil_append, readAttributes_eq, htrim]
      rfl
  | cons found attributes ih =>
      obtain ⟨behind, hread, hbehind⟩ :=
        readAttribute_write found (apart_attributes attributes space)
      obtain ⟨c, tail, hname, -, -⟩ := found.name.head?_append
        (found.value?.elim [] QuotedValue.write ++
          (attributes.flatMap WrittenAttribute.write ++ space.chars))
      have hnonempty : found.toAttribute.name.isEmpty = false := by
        simpa [WrittenAttribute.toAttribute] using found.name.nonempty
      rw [List.flatMap_cons, List.append_assoc, readAttributes_eq, trimStart_write, hname]
      dsimp only
      rw [← hname, hread]
      simp only [hnonempty, Bool.false_eq_true, if_false]
      rw [readAttributes_congr hbehind, ih, List.map_cons]

/-! ## Reading tags -/

/-- Whether a text does not end with a slash. -/
def Unslashed (text : List Char) : Prop := ∀ c ∈ text.getLast?, c ≠ '/'

theorem Unslashed.append {front back : List Char} (hfront : Unslashed front)
    (hback : Unslashed back) : Unslashed (front ++ back) := by
  intro c hc
  rw [List.getLast?_append, Option.mem_def, Option.or_eq_some_iff] at hc
  rcases hc with hc | ⟨-, hc⟩
  · exact hback c hc
  · exact hfront c hc

theorem unslashed_of_not_mem_marks {text : List Char} (h : ∀ c ∈ text, c ∉ marks) :
    Unslashed text := by
  rintro c hc rfl
  exact h _ (List.mem_of_getLast? hc) (by decide)

theorem Name.unslashed (name : Name) : Unslashed name.chars :=
  unslashed_of_not_mem_marks fun c hc => (name.forall_mem c hc).2

theorem QuotedValue.unslashed (value : QuotedValue) : Unslashed value.write := by
  have hlast : value.write.getLast? = some value.quote := by
    simp [write, List.getLast?_append, List.getLast?_cons]
  intro c hc
  rw [hlast] at hc
  obtain rfl := Option.some.inj hc
  rcases value.isQuote with h | h <;> rw [h] <;> decide

theorem WrittenAttribute.unslashed (found : WrittenAttribute) : Unslashed found.write := by
  refine (unslashed_of_not_mem_marks found.space.forall_not_mem_marks).append
    (found.name.unslashed.append ?_)
  cases found.value? with
  | none => nofun
  | some value => exact value.unslashed

theorem unslashed_attributes (attributes : List WrittenAttribute) :
    Unslashed (attributes.flatMap WrittenAttribute.write) := by
  induction attributes with
  | nil => nofun
  | cons found attributes ih => exact found.unslashed.append ih

namespace WrittenTag

/-- What is written between the marks of a tag does not end with a slash. -/
theorem unslashed_name_tail (tag : WrittenTag) : Unslashed (tag.name.chars ++ tag.tail) :=
  tag.name.unslashed.append <| (unslashed_attributes tag.attributes).append <|
    unslashed_of_not_mem_marks tag.space.forall_not_mem_marks

theorem span_name_tail (tag : WrittenTag) :
    (tag.name.chars ++ tag.tail).takeWhile Tag.isNameChar = tag.name.chars
      ∧ (tag.name.chars ++ tag.tail).dropWhile Tag.isNameChar = tag.tail := by
  have hname : ∀ c ∈ tag.name.chars, Tag.isNameChar c = true := by
    intro c hc
    obtain ⟨hspace, hmark⟩ := tag.name.forall_mem c hc
    have hslash : c ≠ '/' := by
      rintro rfl
      exact hmark (by decide)
    simp [Tag.isNameChar, hspace, hslash]
  have hend : tag.tail.head?.any Tag.isNameChar = false := by
    have hspace := (apart_attributes tag.attributes tag.space).space
    rw [← tail] at hspace
    cases htail : tag.tail with
    | nil => rfl
    | cons c rest => simp_all [Tag.isNameChar]
  exact ⟨CFamily.takeWhile_of_all hname hend, dropWhile_of_all hname hend⟩

/-- A written tag is read as its name, its form, and all that is written behind the name. -/
theorem parse_write (tag : WrittenTag) :
    Tag.parse tag.write = ⟨tag.name.chars, tag.form, tag.tail⟩ := by
  obtain ⟨htake, hdrop⟩ := tag.span_name_tail
  have hinner : dropClosing ['>'] (dropOpening ['<'] tag.write) = tag.inner := by
    have hopening : ['<'].isPrefixOf? tag.write = some (tag.inner ++ ['>']) :=
      List.isPrefixOf?_eq_some_iff_append_eq.2 rfl
    rw [dropOpening, hopening, Option.getD_some, dropClosing,
      List.isSuffixOf?_eq_some_iff_append_eq.2 rfl, Option.getD_some]
  have hopening : ∀ rest, ['/'].isPrefixOf? (tag.name.chars ++ rest) = none := by
    intro rest
    obtain ⟨c, name, hname, hc⟩ := tag.begins_cons
    have hslash : '/' ≠ c := by
      rintro rfl
      exact absurd hc (by decide)
    simp [hname, List.isPrefixOf?, hslash]
  have hclosing : ['/'].isSuffixOf? (tag.name.chars ++ tag.tail) = none := by
    refine Option.eq_none_iff_forall_ne_some.2 fun body hbody => ?_
    refine tag.unslashed_name_tail '/' ?_ rfl
    rw [← List.isSuffixOf?_eq_some_iff_append_eq.1 hbody]
    exact List.getLast?_concat
  have hempty : ['/'].isSuffixOf? (tag.name.chars ++ (tag.tail ++ ['/'])) =
      some (tag.name.chars ++ tag.tail) :=
    List.isSuffixOf?_eq_some_iff_append_eq.2 (List.append_assoc ..)
  have hslash : ∀ rest, ['/'].isPrefixOf? ('/' :: rest) = some rest := fun rest => by
    simp [List.isPrefixOf?]
  rw [Tag.parse, hinner, inner]
  cases tag.form with
  | opening => simp only [hopening, hclosing, htake, hdrop]
  | empty => simp only [hopening, hempty, htake, hdrop]
  | closing => simp only [hslash, htake, hdrop]

end WrittenTag

end Markup

namespace Language

variable {language : Language}

theorem candidates_of_markup (h : language ∈ markupFamily) :
    (∀ spec ∈ language.grammar.table.candidates, spec ∈ Markup.specs)
      ∧ .custom .tag Markup.tag ∈ language.grammar.table.candidates := by
  have htag : Spec.custom .tag Markup.tag ∈ Markup.specs := by simp [Markup.specs]
  cases language with
  | c | cpp | objc | objcpp => exact absurd h (by decide)
  | html | xml | feed | propertyList =>
      exact ⟨fun spec hspec => Table.mem_of_mem_candidates hspec,
        Table.mem_candidates_ofCatalogue.2 htag⟩

theorem recognise?_tag (h : language ∈ markupFamily) (tag : Markup.WrittenTag)
    (left : LeftContext) (behind : List Char) :
    language.grammar.table.recognise? none ⟨left, tag.write ++ behind⟩ =
      some (.leaf .tag tag.write.length) := by
  obtain ⟨hspecs, htag⟩ := candidates_of_markup h
  refine Table.recognise?_of_forall htag rfl ?_ fun other hother =>
    tag.recognise?_write left behind other (hspecs other hother)
  exact tag.recognise?_custom left behind

/-- The leaf of a tag in a parsed text. -/
theorem exists_tag_leaf (tag : Markup.WrittenTag) {place : Nat} {text : List Char}
    (hspan : .leaf .tag ⟨place, tag.write⟩ ∈ language.grammar.table.scan text)
    {source : List Char} (hsource : language.prepare source = text) (analysis : Bool) :
    ∃ leaf ∈ (language.parse analysis source).root.leaves, leaf.kind = .tag
      ∧ leaf.range = .ofLength place (Text.byteLength tag.write)
      ∧ leaf.text? = some tag.write ∧ leaf.tag? = some (Markup.Tag.parse tag.write) := by
  have htoken : ⟨.tag, ⟨place, tag.write⟩⟩ ∈ language.grammar.tokens (language.prepare source) := by
    rw [hsource]
    exact List.mem_flatMap.2 ⟨_, hspan, List.mem_singleton.2 rfl⟩
  obtain ⟨leaf, hleaf, hkind, hrange, htext, -⟩ := language.exists_leaf analysis source htoken
  have htag : leaf.tag? = some (Markup.Tag.parse tag.write) := by
    simp [Node.tag?, show leaf.kind = .tag from hkind, show leaf.text? = some tag.write from htext]
  exact ⟨leaf, hleaf, hkind, hrange, htext, htag⟩

/-- A tag that stands where a span starts is scanned as one leaf, whatever follows it, and is read
as the name, the form and the attributes that were written. -/
theorem scan_tag (h : language ∈ markupFamily) (tag : Markup.WrittenTag) (before behind : List Char)
    (hspan : ∃ span ∈ language.grammar.table.scan (before ++ (tag.write ++ behind)),
      span.range.start = Text.byteLength before) :
    (∃ spans rest, language.grammar.table.scan (before ++ (tag.write ++ behind)) =
        spans ++ .leaf .tag ⟨Text.byteLength before, tag.write⟩ :: rest
      ∧ spans.flatMap Span.chars = before ∧ rest.flatMap Span.chars = behind)
    ∧ (Markup.Tag.parse tag.write).name = tag.name.chars
    ∧ (Markup.Tag.parse tag.write).form = tag.form
    ∧ (Markup.Tag.parse tag.write).attributes =
        tag.attributes.map Markup.WrittenAttribute.toAttribute
    ∧ ∀ source analysis, language.prepare source = before ++ (tag.write ++ behind) →
        ∃ leaf ∈ (language.parse analysis source).root.leaves, leaf.kind = .tag
          ∧ leaf.range = .ofLength (Text.byteLength before) (Text.byteLength tag.write)
          ∧ leaf.text? = some tag.write ∧ leaf.tag? = some (Markup.Tag.parse tag.write) := by
  have hstart : 0 + Text.byteLength before = Text.byteLength before := Nat.zero_add _
  have hwhole : ∃ spans rest, language.grammar.table.scan (before ++ (tag.write ++ behind)) =
        spans ++ .leaf .tag ⟨Text.byteLength before, tag.write⟩ :: rest
      ∧ spans.flatMap Span.chars = before ∧ rest.flatMap Span.chars = behind := by
    rw [← hstart] at hspan ⊢
    exact Table.scanRange_of_recognise? (List.cons_ne_nil _ _)
      (fun left => recognise?_tag h tag left behind) (Text.slice_whole _) hspan
  refine ⟨hwhole, ?_, ?_, ?_, fun source analysis hsource => ?_⟩
  · rw [tag.parse_write]
  · rw [tag.parse_write]
  · rw [tag.parse_write]
    exact Markup.readAttributes_write tag.attributes tag.space
  · obtain ⟨spans, rest, hscan, -, -⟩ := hwhole
    refine exists_tag_leaf tag ?_ hsource analysis
    rw [hscan]
    exact List.mem_append_right _ (List.mem_cons_self ..)

/-- An empty tag with brackets, a slash and the other quote in a value, in front of a closing
tag. -/
theorem scan_tag_empty :
    ∃ tag : Markup.WrittenTag, tag.write = "<a x =\"</'>\" b/>".toList ∧ html ∈ markupFamily
      ∧ (∃ span ∈ html.grammar.table.scan ("é ".toList ++ (tag.write ++ "</a>".toList)),
          span.range.start = Text.byteLength "é ".toList)
      ∧ (∃ spans rest, html.grammar.table.scan ("é ".toList ++ (tag.write ++ "</a>".toList)) =
          spans ++ .leaf .tag ⟨3, tag.write⟩ :: rest
        ∧ spans.flatMap Span.chars = "é ".toList ∧ rest.flatMap Span.chars = "</a>".toList)
      ∧ (Markup.Tag.parse tag.write).name = ['a'] ∧ (Markup.Tag.parse tag.write).form = .empty
      ∧ (Markup.Tag.parse tag.write).attributes = [⟨['x'], "</'>".toList⟩, ⟨['b'], []⟩] := by
  let nothing : Markup.Space := ⟨[], rfl⟩
  let blank : Markup.Space := ⟨[' '], by decide⟩
  let value : Markup.QuotedValue :=
    ⟨blank, nothing, '"', .inl rfl, "</'>".toList, by decide⟩
  let tag : Markup.WrittenTag :=
    { name := ⟨['a'], by decide, by decide⟩
      begins := by decide
      form := .empty
      attributes :=
        [⟨blank, by decide, ⟨['x'], by decide, by decide⟩, some value⟩,
         ⟨blank, by decide, ⟨['b'], by decide, by decide⟩, none⟩]
      space := nothing }
  have hlanguage : html ∈ markupFamily := by decide
  have hspan : ∃ span ∈ html.grammar.table.scan ("é ".toList ++ (tag.write ++ "</a>".toList)),
      span.range.start = Text.byteLength "é ".toList := by decide +kernel
  obtain ⟨hscan, hname, hform, hattributes, -⟩ :=
    scan_tag hlanguage tag "é ".toList "</a>".toList hspan
  exact ⟨tag, by decide, hlanguage, hspan, hscan, hname, hform, hattributes⟩

end Language

end ConcreteSyntax
