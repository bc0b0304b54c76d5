import ConcreteSyntax.Text.Quoted

/-!
# JSON

The values that views are written as, and their layout with two spaces for each
level.  Members of an object keep their order.
-/

namespace ConcreteSyntax

/-- A JSON value without fractions, booleans and null. -/
inductive JsonValue where
  | string (text : List Char)
  | number (value : Nat)
  | array (values : List JsonValue)
  | object (members : List (String × JsonValue))

namespace JsonValue

instance : Inhabited JsonValue := ⟨.number 0⟩

/-- How one character stands in a JSON string. -/
def escape (c : Char) : String :=
  match c with
  | '"' => "\\\""
  | '\\' => "\\\\"
  | '\n' => "\\n"
  | '\r' => "\\r"
  | '\t' => "\\t"
  | '\x08' => "\\b"
  | '\x0c' => "\\f"
  | _ =>
      if c.toNat < 0x10 then "\\u000" ++ Text.hexadecimal c.toNat
      else if c.toNat < 0x20 then "\\u00" ++ Text.hexadecimal c.toNat
      else c.toString

/-- A JSON string. -/
def quote (text : List Char) : String :=
  "\"" ++ String.join (text.map escape) ++ "\""

/-- A new line at a level. -/
def newLine (level : Nat) : String := "\n" ++ String.ofList (List.replicate (2 * level) ' ')

mutual

/-- A value at a level, laid out over several lines. -/
def pretty (level : Nat) : JsonValue → String
  | .string text => quote text
  | .number value => toString value
  | .array [] => "[]"
  | .array (value :: rest) =>
      "[" ++ newLine (level + 1) ++ pretty (level + 1) value ++ prettyValues (level + 1) rest
        ++ newLine level ++ "]"
  | .object [] => "\x7b\x7d"
  | .object ((name, value) :: rest) =>
      "\x7b" ++ newLine (level + 1) ++ quote name.toList ++ ": " ++ pretty (level + 1) value
        ++ prettyMembers (level + 1) rest ++ newLine level ++ "\x7d"

/-- The further values of an array. -/
def prettyValues (level : Nat) : List JsonValue → String
  | [] => ""
  | value :: rest => "," ++ newLine level ++ pretty level value ++ prettyValues level rest

/-- The further members of an object. -/
def prettyMembers (level : Nat) : List (String × JsonValue) → String
  | [] => ""
  | (name, value) :: rest =>
      "," ++ newLine level ++ quote name.toList ++ ": " ++ pretty level value
        ++ prettyMembers level rest

end

end JsonValue

end ConcreteSyntax
