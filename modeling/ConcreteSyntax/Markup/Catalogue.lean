import ConcreteSyntax.Scan.Table

/-!
# Kinds of the markup languages

All markup languages share one catalogue: tags, comments, character data,
declarations, processing instructions and entity references.
-/

namespace ConcreteSyntax.Markup

/-- A run of blanks. -/
def whitespace (cx : Context) : Option Nat :=
  let blanks := cx.rest.takeWhile Text.isBlank
  if blanks.isEmpty then none else some blanks.length

/-- A run of blanks that begins a line. -/
def indenting (cx : Context) : Option Nat :=
  if cx.atLineStart then whitespace cx else none

/-- A line ending of any form: `\r\n`, `\n`, or `\r` alone. -/
def newline (cx : Context) : Option Nat :=
  match cx.rest with
  | '\r' :: '\n' :: _ => some 2
  | c :: _ => if Text.isLineBreak c then some 1 else none
  | [] => none

/-- The number of characters up to the end of a tag, with `quote` the quote that an
attribute value stands in.  A tag ends with its `>`, or before the next `<`. -/
def tagTail (quote : Option Char) : List Char → Nat
  | [] => 0
  | c :: rest =>
      match quote with
      | some mark => tagTail (if c = mark then none else some mark) rest + 1
      | none =>
          if c = '>' then 1
          else if c = '<' then 0
          else tagTail (if c = '"' ∨ c = '\'' then some c else none) rest + 1

/-- An opening or closing tag, whose name begins with an ASCII letter. -/
def tag (cx : Context) : Option Nat :=
  match cx.rest with
  | '<' :: rest =>
      if (Text.dropOpening ['/'] rest).head?.any Char.isAlpha then
        some (tagTail none rest + 1)
      else none
  | _ => none

/-- The beginning of a document type declaration, in any case. -/
def doctype (cx : Context) : Option Nat :=
  let opening := "<!doctype".toList
  if Text.equalIgnoringCase (cx.rest.take opening.length) opening then some opening.length
  else none

/-- The beginning of an XML declaration, which white space follows. -/
def xmlDeclaration (cx : Context) : Option Nat :=
  let opening := "<?xml".toList
  match opening.isPrefixOf? cx.rest with
  | some rest => if rest.head?.any Text.isWhitespace then some opening.length else none
  | none => none

/-- Whether a text stands between `&` and `;` in an entity reference: a name of ASCII
letters and digits, `#` and a decimal number, or `#x` and a hexadecimal number. -/
def isEntityBody : List Char → Bool
  | '#' :: 'x' :: digits => !digits.isEmpty && digits.all Text.isHexDigit
  | '#' :: 'X' :: digits => !digits.isEmpty && digits.all Text.isHexDigit
  | '#' :: digits => !digits.isEmpty && digits.all Char.isDigit
  | name => !name.isEmpty && name.all Char.isAlphanum

/-- An entity reference. -/
def entity (cx : Context) : Option Nat :=
  match cx.rest with
  | '&' :: rest =>
      let body := rest.takeWhile (· != ';')
      if body.length < rest.length && isEntityBody body then some (body.length + 2) else none
  | _ => none

/-- The catalogue of the markup languages. -/
def specs : List Spec := [
  .custom .whitespace whitespace,
  (Spec.custom .indenting indenting).patching [.whitespace],
  .custom .newline newline,
  .custom .tag tag,
  (Spec.pair .markupComment "<!--" "-->").patching [.tag],
  (Spec.pair .cdata "<![CDATA[" "]]>").patching [.tag],
  ((Spec.custom .doctype doctype).closedBy (.literal [ '>' ])).patching [.tag],
  (Spec.pair .processingInstruction "<?" "?>").patching [.tag],
  ((Spec.custom .xmlDeclaration xmlDeclaration).closedBy (.literal "?>".toList)).patching
    [.processingInstruction],
  .custom .entity entity]

end ConcreteSyntax.Markup
