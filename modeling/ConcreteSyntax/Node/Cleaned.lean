import ConcreteSyntax.Node.Basic

/-!
# Cleaned text

The text of a node without literal syntax: strings lose their quotes and escapes,
comments and character data their markers, and entity references become the
characters that they name.  Tags have no text of their own, so an element yields
what is written in it.
-/

namespace ConcreteSyntax

namespace Text

/-- A text without the markers around it.  A literal that was never closed only has an
opening marker to lose. -/
def unwrap (opening closing : String) (text : List Char) : List Char :=
  dropClosing closing.toList (dropOpening opening.toList text)

/-- Reads the digits after `\x`: the character of at most two of them, and the rest. -/
def hexEscape? : List Char → Option (Char × List Char)
  | [] => none
  | a :: rest =>
      match hexValue? a with
      | none => none
      | some high =>
          match rest with
          | [] => some (Char.ofNat high, [])
          | b :: after =>
              match hexValue? b with
              | some low => some (Char.ofNat (16 * high + low), after)
              | none => some (Char.ofNat high, b :: after)

theorem length_hexEscape?_lt {text rest : List Char} {c : Char}
    (h : hexEscape? text = some (c, rest)) : rest.length < text.length := by
  unfold hexEscape? at h
  split at h
  · simp at h
  · split at h
    · simp at h
    · split at h
      · simp only [Option.some.injEq, Prod.mk.injEq] at h
        simp [← h.2]
      · split at h <;> simp only [Option.some.injEq, Prod.mk.injEq] at h <;>
          simp only [← h.2, List.length_cons] <;> omega

/-- A text with its escapes read: `\n`, `\t`, `\r`, `\0` and `\x` with hexadecimal digits
stand for a character, and a backslash before any other character falls away. -/
def unescape (text : List Char) : List Char :=
  match text with
  | [] => []
  | ['\\'] => ['\\']
  | '\\' :: 'n' :: rest => '\n' :: unescape rest
  | '\\' :: 't' :: rest => '\t' :: unescape rest
  | '\\' :: 'r' :: rest => '\r' :: unescape rest
  | '\\' :: '0' :: rest => '\x00' :: unescape rest
  | '\\' :: 'x' :: digits =>
      match _h : hexEscape? digits with
      | some (c, rest) => c :: unescape rest
      | none => '\\' :: 'x' :: unescape digits
  | '\\' :: c :: rest => c :: unescape rest
  | c :: rest => c :: unescape rest
termination_by text.length
decreasing_by
  all_goals
    simp only [List.length_cons]
    try have := length_hexEscape?_lt _h
    omega

/-- The number that digits of a base spell, with a plus sign in front or none. -/
def number? (base : Nat) (digits : List Char) : Option Nat :=
  let digits := dropOpening ['+'] digits
  if digits.isEmpty then none
  else digits.foldl (fun value c => do
    let value ← value
    let digit ← hexValue? c
    if digit < base then some (value * base + digit) else none) (some 0)

/-- The character with a code point. -/
def scalar? (n : Nat) : Option Char :=
  if n.isValidChar then some (Char.ofNat n) else none

/-- The entities that go by a name. -/
def namedEntities : List (String × Char) :=
  [("amp", '&'), ("lt", '<'), ("gt", '>'), ("quot", '"'), ("apos", '\''),
   ("nbsp", '\u00a0')]

/-- The character that an entity reference names. -/
def entity? (text : List Char) : Option Char := do
  let rest ← ['&'].isPrefixOf? text
  let name ← [';'].isSuffixOf? rest
  match name with
  | '#' :: 'x' :: digits => (number? 16 digits).bind scalar?
  | '#' :: 'X' :: digits => (number? 16 digits).bind scalar?
  | '#' :: digits => (number? 10 digits).bind scalar?
  | name => (namedEntities.find? (·.1.toList == name)).map (·.2)

end Text

namespace Node

/-- The text of a leaf without literal syntax. -/
def cleanText (kind : Kind) (text : List Char) : List Char :=
  match kind with
  | .stringDoubleQuote => Text.unescape (Text.unwrap "\"" "\"" text)
  | .stringSingleQuote => Text.unescape (Text.unwrap "'" "'" text)
  | .objcString => Text.unescape (Text.unwrap "@\"" "\"" text)
  | .cComment => Text.unwrap "/*" "*/" text
  | .cppComment => Text.unwrap "//" "" text
  | .markupComment => Text.unwrap "<!--" "-->" text
  | .cdata => Text.unwrap "<![CDATA[" "]]>" text
  | .entity => ((Text.entity? text).map ([·])).getD text
  | .tag => []
  | _ => text

/-- The text of a node without literal syntax. -/
def cleaned (node : Node) : List Char :=
  node.leaves.flatMap fun leaf => cleanText leaf.kind (leaf.text?.getD [])

end Node

end ConcreteSyntax
