import Mathlib.Data.Nat.Digits.Defs
import ConcreteSyntax.Proofs.Origin

/-!
# Entity references

An entity reference goes by one of six names, or it gives the number of a character in decimal or
hexadecimal digits (`Refers`).  Whether a text is a reference is read twice, by the matcher
`Markup.entity` and when the text is cleaned, and the two agree but for a plus sign before the
digits: no reference has one, and cleaning reads over it (`cleaned_entity`).
-/

namespace ConcreteSyntax.Markup

open Text

/-! ## References -/

/-- A way to write the number of a character: what introduces the digits, the base, and which
characters are digits. -/
structure Numbering where
  mark : List Char
  base : Nat
  isDigit : Char → Bool

/-- The ways to write the number of a character. -/
def numberings : List Numbering :=
  [⟨['#'], 10, Char.isDigit⟩, ⟨['#', 'x'], 16, isHexDigit⟩, ⟨['#', 'X'], 16, isHexDigit⟩]

/-- The number that digits of a base give, the highest first. -/
def numeral (base : Nat) (digits : List Char) : Nat :=
  Nat.ofDigits base (digits.reverse.map fun digit => (hexValue? digit).getD 0)

/-- The digits that give a number.  Any number of zeros may lead them. -/
structure Numbering.Spells (numbering : Numbering) (digits : List Char) (n : Nat) : Prop where
  nonempty : digits ≠ []
  all_isDigit : ∀ digit ∈ digits, numbering.isDigit digit = true
  numeral_eq : numeral numbering.base digits = n

/-- A text between the marks of a reference. -/
def reference (body : List Char) : List Char := '&' :: (body ++ [';'])

/-- The references to a character: by name, or by number. -/
inductive Refers : List Char → Char → Prop
  | named {name : String} {c : Char} (h : (name, c) ∈ namedEntities) :
      Refers (reference name.toList) c
  | numeric {numbering : Numbering} {digits : List Char} {c : Char} (h : numbering ∈ numberings)
      (hdigits : numbering.Spells digits c.toNat) :
      Refers (reference (numbering.mark ++ digits)) c

/-- What would refer to a character by number, were it not for a plus sign before the digits. -/
inductive RefersSigned : List Char → Char → Prop
  | numeric {numbering : Numbering} {digits : List Char} {c : Char} (h : numbering ∈ numberings)
      (hdigits : numbering.Spells digits c.toNat) :
      RefersSigned (reference (numbering.mark ++ '+' :: digits)) c

/-! ## Numbers -/

theorem numeral_concat (base : Nat) (digits : List Char) (digit : Char) :
    numeral base (digits ++ [digit]) = numeral base digits * base + (hexValue? digit).getD 0 := by
  simp [numeral, Nat.ofDigits_cons, Nat.add_comm, Nat.mul_comm]

theorem isHexDigit_iff (c : Char) : isHexDigit c = true ↔ ∃ n, hexValue? c = some n := by
  unfold isHexDigit hexValue?
  split_ifs <;> simp_all

theorem lt_of_hexValue? {c : Char} {n : Nat} (h : hexValue? c = some n) :
    n < 16 ∧ (n < 10 ↔ c.isDigit = true) := by
  simp only [hexValue?, Char.isDigit, Char.le_def, UInt32.le_iff_toNat_le, Char.toNat] at h ⊢
  split_ifs at h <;> grind

/-- The digits of a base are the characters with a value below it. -/
theorem Numbering.isDigit_iff {numbering : Numbering} (h : numbering ∈ numberings) (c : Char) :
    numbering.isDigit c = true ↔ ∃ n, hexValue? c = some n ∧ n < numbering.base := by
  have hhex : isHexDigit c = true ↔ ∃ n, hexValue? c = some n ∧ n < 16 :=
    (isHexDigit_iff c).trans
      (exists_congr fun n => ⟨fun h => ⟨h, (lt_of_hexValue? h).1⟩, fun h => h.1⟩)
  have hdecimal : c.isDigit = true ↔ ∃ n, hexValue? c = some n ∧ n < 10 := by
    constructor
    · intro hc
      obtain ⟨n, hn⟩ := (isHexDigit_iff c).1 (by simp [isHexDigit, hc])
      exact ⟨n, hn, (lt_of_hexValue? hn).2.2 hc⟩
    · rintro ⟨n, hn, hlt⟩
      exact (lt_of_hexValue? hn).2.1 hlt
  simp only [numberings, List.mem_cons, List.not_mem_nil, or_false] at h
  rcases h with rfl | rfl | rfl
  · exact hdecimal
  · exact hhex
  · exact hhex

/-- What reading digits one after another comes to. -/
theorem foldl_digits {numbering : Numbering} (h : numbering ∈ numberings) (digits : List Char) :
    (digits.foldl (fun value c => do
      let value ← value
      let digit ← hexValue? c
      if digit < numbering.base then some (value * numbering.base + digit) else none) (some 0)) =
      if digits.all numbering.isDigit then some (numeral numbering.base digits) else none := by
  induction digits using List.reverseRecOn with
  | nil => rfl
  | append_singleton digits c ih =>
      rw [List.foldl_concat, ih, List.all_append, List.all_cons, List.all_nil, Bool.and_true,
        numeral_concat]
      by_cases hc : numbering.isDigit c
      · obtain ⟨n, hn, hlt⟩ := (Numbering.isDigit_iff h c).1 hc
        cases digits.all numbering.isDigit <;> simp [hc, hn, hlt]
      · have hnone : ∀ n, hexValue? c = some n → ¬ n < numbering.base :=
          fun n hn hlt => hc ((Numbering.isDigit_iff h c).2 ⟨n, hn, hlt⟩)
        cases hn : hexValue? c with
        | none => cases digits.all numbering.isDigit <;> simp [hc]
        | some n => cases digits.all numbering.isDigit <;> simp [hc, hnone n hn]

/-- The numbers that are read: those that digits give, with a plus sign in front or none. -/
theorem number?_eq_some {numbering : Numbering} (h : numbering ∈ numberings)
    {text : List Char} {n : Nat} :
    number? numbering.base text = some n ↔ numbering.Spells (dropOpening ['+'] text) n := by
  rw [number?, foldl_digits h]
  constructor
  · intro hn
    split_ifs at hn with hempty hall
    exact ⟨by simpa using hempty, List.all_eq_true.1 hall, Option.some.inj hn⟩
  · rintro ⟨hne, hall, rfl⟩
    rw [if_neg (by simpa using hne), if_pos (List.all_eq_true.2 hall)]

theorem scalar?_eq_some {n : Nat} {c : Char} : scalar? n = some c ↔ n = c.toNat := by
  unfold scalar?
  constructor
  · intro h
    obtain ⟨hvalid, hc⟩ := Option.ite_none_right_eq_some.1 h
    obtain rfl := Option.some.inj hc
    have hchar : Char.ofNat n = Char.ofNatAux n hvalid := dif_pos hvalid
    rw [hchar]
    rfl
  · rintro rfl
    rw [if_pos (show c.toNat.isValidChar from c.valid), Char.ofNat_toNat]

theorem Numbering.Spells.head?_ne {numbering : Numbering} (h : numbering ∈ numberings)
    {digits : List Char} {n : Nat} (hdigits : numbering.Spells digits n) :
    ∀ digit ∈ digits.head?, digit ≠ '+' ∧ digit ≠ 'x' ∧ digit ≠ 'X' := by
  intro digit hdigit
  have hvalue := (isDigit_iff h digit).1 (hdigits.all_isDigit digit (List.mem_of_mem_head? hdigit))
  refine ⟨?_, ?_, ?_⟩ <;> rintro rfl <;> exact absurd hvalue (by simp [hexValue?])

/-- A number is read off digits, and off digits behind a plus sign. -/
theorem number?_bind_scalar? {numbering : Numbering} (h : numbering ∈ numberings)
    {text : List Char} {c : Char} :
    (number? numbering.base text).bind scalar? = some c ↔
      numbering.Spells text c.toNat ∨
        ∃ digits, text = '+' :: digits ∧ numbering.Spells digits c.toNat := by
  simp only [Option.bind_eq_some_iff, scalar?_eq_some, number?_eq_some h, exists_eq_right]
  have hsign : ∀ digits, dropOpening ['+'] ('+' :: digits) = digits := fun digits => by
    simp [dropOpening, List.isPrefixOf?]
  have hplain : ∀ digits, (∀ digit ∈ digits.head?, digit ≠ '+') →
      dropOpening ['+'] digits = digits := by
    intro digits hne
    cases digits with
    | nil => rfl
    | cons digit digits => simp [dropOpening, List.isPrefixOf?, (hne digit rfl).symm]
  constructor
  · intro hspells
    by_cases hplus : ∀ digit ∈ text.head?, digit ≠ '+'
    · exact .inl (hplain text hplus ▸ hspells)
    · obtain ⟨digits, rfl⟩ : ∃ digits, text = '+' :: digits := by
        cases text with
        | nil => simp at hplus
        | cons digit digits => exact ⟨digits, by simpa using hplus⟩
      exact .inr ⟨digits, rfl, hsign digits ▸ hspells⟩
  · rintro (hspells | ⟨digits, rfl, hspells⟩)
    · rwa [hplain text fun digit hdigit => (hspells.head?_ne h digit hdigit).1]
    · rwa [hsign]

/-! ## Reading references -/

theorem entity?_reference (body : List Char) :
    entity? (reference body) = match body with
      | '#' :: 'x' :: digits => (number? 16 digits).bind scalar?
      | '#' :: 'X' :: digits => (number? 16 digits).bind scalar?
      | '#' :: digits => (number? 10 digits).bind scalar?
      | name => (namedEntities.find? (·.1.toList == name)).map (·.2) := by
  have hopening : ['&'].isPrefixOf? (reference body) = some (body ++ [';']) :=
    List.isPrefixOf?_eq_some_iff_append_eq.2 rfl
  have hclosing : [';'].isSuffixOf? (body ++ [';']) = some body :=
    List.isSuffixOf?_eq_some_iff_append_eq.2 rfl
  unfold entity?
  exact (congrArg (Option.bind · _) hopening).trans (congrArg (Option.bind · _) hclosing)

theorem exists_reference {text : List Char} {c : Char} (h : entity? text = some c) :
    ∃ body, text = reference body := by
  unfold entity? at h
  obtain ⟨rest, hopening, h⟩ := Option.bind_eq_some_iff.1 h
  obtain ⟨body, hclosing, -⟩ := Option.bind_eq_some_iff.1 h
  refine ⟨body, ?_⟩
  rw [reference, List.isSuffixOf?_eq_some_iff_append_eq.1 hclosing]
  exact (List.isPrefixOf?_eq_some_iff_append_eq.1 hopening).symm

/-- A reference by number is read by its digits. -/
theorem entity?_numeric {numbering : Numbering} (h : numbering ∈ numberings) {digits : List Char}
    (hdigits : ∀ digit ∈ digits.head?, digit ≠ 'x' ∧ digit ≠ 'X') :
    entity? (reference (numbering.mark ++ digits)) =
      (number? numbering.base digits).bind scalar? := by
  rw [entity?_reference]
  simp only [numberings, List.mem_cons, List.not_mem_nil, or_false] at h
  rcases h with rfl | rfl | rfl
  · cases digits with
    | nil => rfl
    | cons digit digits =>
        have hne := hdigits digit rfl
        simp only [List.cons_append, List.nil_append]
        split <;> simp_all
  · rfl
  · rfl

theorem entity?_named : ∀ entry ∈ namedEntities,
    entity? (reference entry.1.toList) = some entry.2 := by
  decide +kernel

/-- What cleaning reads as a reference: all that are, and those with a plus sign before the
digits. -/
theorem entity?_eq_some {text : List Char} {c : Char} :
    entity? text = some c ↔ Refers text c ∨ RefersSigned text c := by
  have hplus : ∀ {digits : List Char}, ∀ digit ∈ ('+' :: digits).head?,
      digit ≠ 'x' ∧ digit ≠ 'X' := fun digit hdigit => by
    obtain rfl := Option.some.inj hdigit
    decide
  constructor
  · intro htext
    obtain ⟨body, rfl⟩ := exists_reference htext
    have hnumeric : ∀ numbering ∈ numberings, ∀ digits, body = numbering.mark ++ digits →
        (number? numbering.base digits).bind scalar? = some c →
          Refers (reference body) c ∨ RefersSigned (reference body) c := by
      rintro numbering h digits rfl hdigits
      rcases (number?_bind_scalar? h).1 hdigits with hspells | ⟨digits, rfl, hspells⟩
      · exact .inl (.numeric h hspells)
      · exact .inr (.numeric h hspells)
    rw [entity?_reference] at htext
    split at htext
    · rename_i digits
      exact hnumeric ⟨['#', 'x'], 16, isHexDigit⟩ (by simp [numberings]) digits rfl htext
    · rename_i digits
      exact hnumeric ⟨['#', 'X'], 16, isHexDigit⟩ (by simp [numberings]) digits rfl htext
    · rename_i digits _ _
      exact hnumeric ⟨['#'], 10, Char.isDigit⟩ (by simp [numberings]) digits rfl htext
    · obtain ⟨⟨name, d⟩, hfind, rfl⟩ := Option.map_eq_some_iff.1 htext
      have hname : name.toList = body := by simpa using List.find?_some hfind
      exact .inl (hname ▸ .named (List.mem_of_find?_eq_some hfind))
  · rintro (hrefers | hrefers)
    · cases hrefers with
      | @named name c h => exact entity?_named (name, c) h
      | numeric h hdigits =>
          rw [entity?_numeric h fun digit hdigit => (hdigits.head?_ne h digit hdigit).2]
          exact (number?_bind_scalar? h).2 (.inl hdigits)
    · cases hrefers with
      | numeric h hdigits =>
          rw [entity?_numeric h hplus]
          exact (number?_bind_scalar? h).2 (.inr ⟨_, rfl, hdigits⟩)

/-! ## Matching references -/

/-- The matcher takes the whole of a text just if it is a body between the marks. -/
theorem entity_eq_length {cx : Context} {body : List Char} (h : cx.rest = reference body)
    (hbody : ';' ∉ body) :
    entity cx = if isEntityBody body then some cx.rest.length else none := by
  have hspan : (body ++ [';']).takeWhile (· != ';') = body := by
    rw [List.takeWhile_append_of_pos]
    · simp
    · rintro c hc
      exact bne_iff_ne.2 fun hsemicolon => hbody (hsemicolon ▸ hc)
  simp [entity, h, reference, hspan]

theorem Numbering.not_semicolon {numbering : Numbering} (h : numbering ∈ numberings) :
    ';' ∉ numbering.mark ∧ numbering.isDigit ';' = false ∧ numbering.isDigit '+' = false := by
  revert numbering
  decide

theorem isEntityBody_numeric {numbering : Numbering} (h : numbering ∈ numberings)
    {digits : List Char} (hhead : ∀ digit ∈ digits.head?, digit ≠ 'x' ∧ digit ≠ 'X') :
    isEntityBody (numbering.mark ++ digits) =
      (!digits.isEmpty && digits.all numbering.isDigit) := by
  simp only [numberings, List.mem_cons, List.not_mem_nil, or_false] at h
  rcases h with rfl | rfl | rfl
  · cases digits with
    | nil => rfl
    | cons digit digits =>
        have hne := hhead digit rfl
        simp only [List.cons_append, List.nil_append]
        unfold isEntityBody
        split <;> simp_all
  · rfl
  · rfl

theorem isEntityBody_named : ∀ entry ∈ namedEntities,
    ';' ∉ entry.1.toList ∧ isEntityBody entry.1.toList = true := by
  decide +kernel

/-- The matcher takes the whole of a reference. -/
theorem Refers.entity_eq {text : List Char} {c : Char} (h : Refers text c) {cx : Context}
    (hrest : cx.rest = text) : entity cx = some text.length := by
  cases h with
  | @named name c h =>
      obtain ⟨hsemicolon, hbody⟩ := isEntityBody_named (name, c) h
      rw [entity_eq_length hrest hsemicolon, if_pos hbody, hrest]
  | @numeric numbering digits c h hdigits =>
      obtain ⟨hmark, hdigit, -⟩ := Numbering.not_semicolon h
      have hsemicolon : ';' ∉ numbering.mark ++ digits := fun hmem =>
        (List.mem_append.1 hmem).elim hmark fun hmem => by
          simp [hdigits.all_isDigit _ hmem] at hdigit
      have hbody : isEntityBody (numbering.mark ++ digits) = true := by
        rw [isEntityBody_numeric h fun digit hdigit => (hdigits.head?_ne h digit hdigit).2]
        simpa [hdigits.nonempty] using hdigits.all_isDigit
      rw [entity_eq_length hrest hsemicolon, if_pos hbody, hrest]

/-- The matcher takes nothing where there is a plus sign before the digits. -/
theorem RefersSigned.entity_eq {text : List Char} {c : Char} (h : RefersSigned text c)
    {cx : Context} (hrest : cx.rest = text) : entity cx = none := by
  cases h with
  | @numeric numbering digits c h hdigits =>
      obtain ⟨hmark, hdigit, hplus⟩ := Numbering.not_semicolon h
      have hsemicolon : ';' ∉ numbering.mark ++ '+' :: digits := fun hmem =>
        (List.mem_append.1 hmem).elim hmark fun hmem => by
          have hmem := (List.mem_cons.1 hmem).resolve_left (by decide)
          simp [hdigits.all_isDigit _ hmem] at hdigit
      have hbody : isEntityBody (numbering.mark ++ '+' :: digits) = false := by
        rw [isEntityBody_numeric h (by simp)]
        simp [hplus]
      rw [entity_eq_length hrest hsemicolon, hbody]
      rfl

/-! ## Cleaned references -/

theorem RefersSigned.ne_singleton {text : List Char} {c : Char} (h : RefersSigned text c)
    (d : Char) : [d] ≠ text := by
  cases h with
  | numeric h hdigits => simp [reference]

/-- A text that gives a number which is none of a character is no reference. -/
theorem entity?_eq_none {numbering : Numbering} (h : numbering ∈ numberings) {digits : List Char}
    {n : Nat} (hdigits : numbering.Spells digits n) (hn : ¬ n.isValidChar) :
    entity? (reference (numbering.mark ++ digits)) = none := by
  rw [entity?_numeric h fun digit hdigit => (hdigits.head?_ne h digit hdigit).2,
    Option.eq_none_iff_forall_ne_some]
  intro c hc
  rcases (number?_bind_scalar? h).1 hc with hspells | ⟨rest, rfl, -⟩
  · rw [← hdigits.numeral_eq, hspells.numeral_eq] at hn
    exact hn c.valid
  · exact (hdigits.head?_ne h '+' rfl).1 rfl

/-- An entity leaf is cleaned to the character that its text refers to, and the matcher takes all
of such a text.  Any other text is left as it is, be its number none of a character, unless there
is a plus sign before the digits: then the matcher takes nothing, and cleaning the leaf still gives
the character. -/
theorem cleaned_entity {leaf : Node} {text : List Char} (hkind : leaf.kind = .entity)
    (hchildren : leaf.children = []) (htext : leaf.text? = some text) :
    (∀ c, Refers text c → leaf.cleaned = [c]
      ∧ ∀ cx : Context, cx.rest = text → entity cx = some text.length)
    ∧ ((∀ c, ¬ Refers text c) → (leaf.cleaned = text ↔ ∀ c, ¬ RefersSigned text c))
    ∧ (∀ c, RefersSigned text c → leaf.cleaned = [c]
      ∧ ∀ cx : Context, cx.rest = text → entity cx = none)
    ∧ ∀ numbering ∈ numberings, ∀ digits n, numbering.Spells digits n → ¬ n.isValidChar →
        text = reference (numbering.mark ++ digits) → leaf.cleaned = text := by
  have hatomic : leaf.kind.isAtomic = true := by
    rw [hkind]
    decide
  rw [Node.cleaned_leaf hatomic hchildren, hkind, htext, Node.cleanText,
    Option.getD_some]
  have hread : ∀ c, entity? text = some c → ((entity? text).map ([·])).getD text = [c] :=
    fun c hc => by rw [hc]; rfl
  refine ⟨fun c hc => ⟨hread c (entity?_eq_some.2 (.inl hc)), fun cx => hc.entity_eq⟩,
    fun hplain => ?_, fun c hc => ⟨hread c (entity?_eq_some.2 (.inr hc)), fun cx => hc.entity_eq⟩,
    ?_⟩
  · cases hc : entity? text with
    | none =>
        exact iff_of_true rfl fun c hsigned =>
          absurd (entity?_eq_some.2 (.inr hsigned)) (by simp [hc])
    | some c =>
        have hsigned := (entity?_eq_some.1 hc).resolve_left (hplain c)
        exact iff_of_false (hsigned.ne_singleton c) fun h => h c hsigned
  · rintro numbering h digits n hdigits hn rfl
    rw [entity?_eq_none h hdigits hn]
    rfl

/-- The number of the euro sign, with a leading zero and digits of either case. -/
theorem cleaned_entity_euro :
    let text := "&#x020aC;".toList
    let leaf : Node := ⟨.ofFragment (.ofText text) (.fresh 0) .entity ⟨0, text⟩, []⟩
    leaf.kind = .entity ∧ leaf.children = [] ∧ leaf.text? = some text ∧ Refers text '€'
      ∧ leaf.cleaned = ['€'] := by
  intro text leaf
  let hexadecimal : Numbering := ⟨['#', 'x'], 16, isHexDigit⟩
  have hknown : hexadecimal ∈ numberings := .tail _ (.head _)
  have hdigits : hexadecimal.Spells "020aC".toList '€'.toNat :=
    ⟨by decide, List.all_eq_true.1 (by decide), by decide⟩
  have hrefers : Refers text '€' := .numeric hknown hdigits
  have htext : leaf.text? = some text := by decide +kernel
  exact ⟨rfl, rfl, htext, hrefers, ((cleaned_entity rfl rfl htext).1 '€' hrefers).1⟩

/-- A plus sign before the digits: the matcher takes nothing, and the leaf is cleaned as if the
sign was not there. -/
theorem cleaned_entity_sign :
    let text := "&#+38;".toList
    let leaf : Node := ⟨.ofFragment (.ofText text) (.fresh 0) .entity ⟨0, text⟩, []⟩
    leaf.kind = .entity ∧ leaf.text? = some text
      ∧ (∀ cx : Context, cx.rest = text → entity cx = none) ∧ (∀ c, ¬ Refers text c)
      ∧ leaf.cleaned = ['&'] := by
  intro text leaf
  have hmissed : ∀ cx : Context, cx.rest = text → entity cx = none := fun cx hcx => by
    rw [entity, hcx]
    decide
  refine ⟨rfl, by decide +kernel, hmissed, fun c hc => ?_, by decide +kernel⟩
  have hfound : entity ⟨.atStart, text⟩ = some text.length := hc.entity_eq rfl
  rw [hmissed _ rfl] at hfound
  cases hfound

/-! ## Scanned references -/

theorem eq_of_entity_spec {language : Language} {spec : Spec}
    (hspec : spec ∈ language.grammar.table.candidates) (hkind : spec.kind = .entity) :
    spec = .custom .entity entity := by
  rcases Language.mem_catalogues hspec with hspec | hspec
  · have hnone : (CFamily.allSpecs.all fun spec => spec.kind != .entity) = true := by
      decide +kernel
    simpa [hkind] using List.all_eq_true.1 hnone spec hspec
  · exact eq_of_kind hspec (by simp [specs]) hkind

/-- What is scanned as an entity is cleaned to a character if it refers to one, and is left as it is
otherwise: a sign before the digits is never scanned. -/
theorem cleaned_scanned_entity (language : Language) (analysis : Bool) (source : List Char)
    {leaf : Node} (hleaf : leaf ∈ (language.parse analysis source).root.leaves)
    (hkind : leaf.kind = .entity) :
    ∃ text, leaf.text? = some text
      ∧ (∀ cx : Context, cx.rest = text → entity cx = some text.length)
      ∧ (∀ c, Refers text c → leaf.cleaned = [c])
      ∧ ((∀ c, ¬ Refers text c) → leaf.cleaned = text) := by
  obtain ⟨-, -, htext, hchildren⟩ := language.of_mem_leaves analysis source hleaf
  obtain ⟨range, restrict, spec, horigin⟩ := language.exists_origin analysis source hleaf
    (by rw [hkind]; decide) (by rw [hkind]; decide)
  obtain rfl := eq_of_entity_spec horigin.candidate (horigin.kind.trans hkind)
  obtain ⟨behind, hrest⟩ := horigin.chars
  have hmatch : entity (.ofText (language.prepare source) range.stop leaf.token.text.start) =
      some leaf.token.text.chars.length :=
    Spec.length_of_recognise?_custom horigin.recognised
  obtain ⟨body, rest, hsplit, hlength, hsemicolon, hbody⟩ := exists_of_entity hmatch
  obtain ⟨hchars, -⟩ := List.append_inj (hrest.trans hsplit) hlength
  have hall : ∀ cx : Context, cx.rest = leaf.token.text.chars →
      entity cx = some leaf.token.text.chars.length := by
    intro cx hcx
    rw [entity_eq_length (hcx.trans hchars) hsemicolon, if_pos hbody, hcx]
  obtain ⟨hrefers, hplain, hsigned, -⟩ := cleaned_entity hkind hchildren htext
  refine ⟨_, htext, hall, fun c hc => (hrefers c hc).1, fun hnone => (hplain hnone).2 ?_⟩
  intro c hc
  have hmissed := (hsigned c hc).2 ⟨.atStart, leaf.token.text.chars⟩ rfl
  rw [hall _ rfl] at hmissed
  cases hmissed

end ConcreteSyntax.Markup
