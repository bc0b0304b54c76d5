/-!
# Quoted text

Dumps show the text of a leaf between double quotes.  Double quotes, backslashes
and control characters are escaped, so that a dump has one line for each node;
all other characters stand for themselves.
-/

namespace ConcreteSyntax.Text

/-- A number in hexadecimal, in lower case and without leading zeros. -/
def hexadecimal (n : Nat) : String := String.ofList (Nat.toDigits 16 n)

/-- How one character stands inside quotes. -/
def escapeQuoted (c : Char) : String :=
  match c with
  | '\t' => "\\t"
  | '\r' => "\\r"
  | '\n' => "\\n"
  | '"' => "\\\""
  | '\\' => "\\\\"
  | '\x00' => "\\0"
  | _ =>
      if c.toNat < 0x20 || c.toNat = 0x7f then "\\u\x7b" ++ hexadecimal c.toNat ++ "\x7d"
      else c.toString

/-- A text between double quotes, with what needs it escaped. -/
def quoted (text : List Char) : String :=
  "\"" ++ String.join (text.map escapeQuoted) ++ "\""

end ConcreteSyntax.Text
