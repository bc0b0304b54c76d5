import ConcreteSyntax.Attribute
import ConcreteSyntax.Text.Character

/-!
# Tags

The name, the form and the attributes of a markup tag, read from its text.
-/

namespace ConcreteSyntax.Markup

/-- Whether a tag opens an element, closes one, or is an element of its own. -/
inductive TagForm where
  | opening
  | closing
  | empty
deriving DecidableEq, Inhabited

/-- The name of a form. -/
def TagForm.name : TagForm → String
  | .opening => "open"
  | .closing => "close"
  | .empty => "empty"

/-! ## Attributes -/

/-- Reads a value and gives what follows it.  A value runs to the quote that it
begins with, or to white space when it begins with none. -/
def readValue (text : List Char) : List Char × List Char :=
  match Text.trimStart text with
  | '"' :: body => (body.takeWhile (· != '"'), (body.dropWhile (· != '"')).drop 1)
  | '\'' :: body => (body.takeWhile (· != '\''), (body.dropWhile (· != '\'')).drop 1)
  | value =>
      (value.takeWhile fun c => !Text.isWhitespace c,
        value.dropWhile fun c => !Text.isWhitespace c)

/-- Whether a character belongs to the name of an attribute. -/
def isAttributeChar (c : Char) : Bool := !Text.isWhitespace c && c != '='

/-- Reads an attribute, whose name may be missing, and gives what follows it. -/
def readAttribute (text : List Char) : Attribute × List Char :=
  let name := text.takeWhile isAttributeChar
  match Text.trimStart (text.dropWhile isAttributeChar) with
  | '=' :: after =>
      let (value, rest) := readValue after
      (⟨name, value⟩, rest)
  | rest => (⟨name, []⟩, rest)

theorem length_readValue_le (text : List Char) : (readValue text).2.length ≤ text.length := by
  have htrim := Text.length_trimStart_le text
  unfold readValue
  split
  · rename_i body h
    have := Text.length_dropWhile_le (· != '"') body
    rw [h] at htrim
    simp only [List.length_cons, List.length_drop] at *
    omega
  · rename_i body h
    have := Text.length_dropWhile_le (· != '\'') body
    rw [h] at htrim
    simp only [List.length_cons, List.length_drop] at *
    omega
  · have := Text.length_dropWhile_le (fun c => !Text.isWhitespace c) (Text.trimStart text)
    simp only at *
    omega

/-- Reading an attribute leaves less to read, unless white space comes first. -/
theorem length_readAttribute_lt {c : Char} {text : List Char} (h : Text.isWhitespace c = false) :
    (readAttribute (c :: text)).2.length < (c :: text).length := by
  have hdrop : ((c :: text).dropWhile isAttributeChar).length ≤ (c :: text).length :=
    Text.length_dropWhile_le _ _
  have htrim := Text.length_trimStart_le ((c :: text).dropWhile isAttributeChar)
  unfold readAttribute
  simp only
  split
  · rename_i after hafter
    have hvalue := length_readValue_le after
    rw [hafter] at htrim
    simp only [List.length_cons] at *
    omega
  · rename_i hne
    by_cases hc : c = '='
    · subst hc
      have heq : ('=' :: text).dropWhile isAttributeChar = '=' :: text := by
        simp [isAttributeChar]
      exfalso
      apply hne text
      rw [heq, Text.trimStart, List.dropWhile_cons, h]
      simp
    · have hname : isAttributeChar c = true := by simp [isAttributeChar, h, hc]
      have hstep : ((c :: text).dropWhile isAttributeChar).length ≤ text.length := by
        rw [List.dropWhile_cons, hname]
        exact Text.length_dropWhile_le _ _
      simp only [List.length_cons] at *
      omega

/-- The attributes of a text, those without a name left out.  An attribute without a
value has the empty value. -/
def readAttributes (text : List Char) : List Attribute :=
  match _h : Text.trimStart text with
  | [] => []
  | c :: rest =>
      let found := readAttribute (c :: rest)
      if found.1.name.isEmpty then readAttributes found.2 else found.1 :: readAttributes found.2
termination_by text.length
decreasing_by
  all_goals
    have hspace : Text.isWhitespace c = false := by
      have := List.head?_dropWhile_not Text.isWhitespace text
      rw [Text.trimStart] at _h
      rw [_h] at this
      simpa using this
    have hread : (readAttribute (c :: rest)).2.length < (c :: rest).length :=
      length_readAttribute_lt hspace
    have htrim := Text.length_trimStart_le text
    rw [_h] at htrim
    omega

/-! ## Tags -/

/-- The parts of a tag. -/
structure Tag where
  name : List Char
  form : TagForm
  /-- All that follows the name. -/
  attributeText : List Char
deriving DecidableEq, Inhabited

namespace Tag

/-- Whether a character belongs to the name of a tag. -/
def isNameChar (c : Char) : Bool := !Text.isWhitespace c && c != '/'

/-- The parts of the text of a tag, which may lack its closing `>`. -/
def parse (text : List Char) : Tag :=
  let inner := Text.dropClosing ['>'] (Text.dropOpening ['<'] text)
  let (inner, form) : List Char × TagForm :=
    match ['/'].isPrefixOf? inner with
    | some rest => (rest, .closing)
    | none =>
        match ['/'].isSuffixOf? inner with
        | some rest => (rest, .empty)
        | none => (inner, .opening)
  { name := inner.takeWhile isNameChar
    form
    attributeText := inner.dropWhile isNameChar }

/-- The attributes of a tag in the order in which they are written. -/
def attributes (tag : Tag) : List Attribute := readAttributes tag.attributeText

end Tag

end ConcreteSyntax.Markup
