import ConcreteSyntax.Text.Character

/-!
# Arguments

Reading the arguments of a command, one after the other, by the options that it has.
What an argument does, it does when it is read: an option that asks for a description
or for the version ends the reading before anything behind it is looked at, and the
first argument that cannot be read ends it too.
-/

namespace ConcreteSyntax

/-- Why reading arguments ends before all of them are read. -/
inductive Interruption where
  | misuse
  | help
  | version
deriving DecidableEq, Inhabited

/-- What an option is for. -/
inductive OptionRole where
  /-- It is noted as often as it is given. -/
  | repeated
  /-- It is noted, and may be given once. -/
  | single
  /-- It has a value that passes a test, and may be given once. -/
  | valued (allows : String → Bool)
  /-- It ends the reading. -/
  | interrupting (interruption : Interruption)

/-- An option that arguments can hold. -/
structure OptionRule where
  long : String
  short : Option Char
  role : OptionRole

/-- What the arguments of a command can hold. -/
structure ArgumentForm where
  options : List OptionRule
  /-- How many words there may be beside the options. -/
  words : Nat

/-- What was read from arguments. -/
structure Reading where
  words : List String := []
  /-- The options by their long names, with their values. -/
  options : List (String × String) := []
  /-- The option whose value is the next argument, and the test of that value. -/
  awaited : Option (String × (String → Bool)) := none
  /-- Whether only words follow. -/
  wordsOnly : Bool := false

namespace Reading

/-- Whether an option was read. -/
def has (reading : Reading) (long : String) : Bool := reading.options.any (·.1 == long)

/-- How often an option was read. -/
def count (reading : Reading) (long : String) : Nat := reading.options.countP (·.1 == long)

/-- The value that was read for an option. -/
def value? (reading : Reading) (long : String) : Option String :=
  (reading.options.find? (·.1 == long)).map (·.2)

/-- Notes an option. -/
def note (reading : Reading) (long value : String) : Reading :=
  { reading with options := reading.options ++ [(long, value)], awaited := none }

/-- Notes an option that may be given once. -/
def noteOnce (reading : Reading) (long value : String) : Except Interruption Reading :=
  if reading.has long then .error .misuse else .ok (reading.note long value)

/-- Notes an option with a value. -/
def noteValue (reading : Reading) (long : String) (allows : String → Bool) (value : String) :
    Except Interruption Reading :=
  if allows value then reading.noteOnce long value else .error .misuse

/-- Reads an option without a value. -/
def readSwitch (reading : Reading) (rule : OptionRule) : Except Interruption Reading :=
  match rule.role with
  | .repeated => .ok (reading.note rule.long "")
  | .single => reading.noteOnce rule.long ""
  | .valued allows => .ok { reading with awaited := some (rule.long, allows) }
  | .interrupting interruption => .error interruption

end Reading

namespace ArgumentForm

/-- Whether an argument is no option.  A hyphen alone is a word. -/
def isWord (argument : List Char) : Bool := argument.head? != some '-' || argument == ['-']

/-- Reads a word. -/
def readWord (form : ArgumentForm) (reading : Reading) (word : String) :
    Except Interruption Reading :=
  if reading.words.length < form.words then
    .ok { reading with words := reading.words ++ [word] }
  else .error .misuse

/-- Reads the short options of one argument from left to right.  What follows an option
with a value is its value, with or without an equals sign in front. -/
def readShort (form : ArgumentForm) (reading : Reading) :
    List Char → Except Interruption Reading
  | [] => .ok reading
  | c :: letters =>
      match form.options.find? (·.short == some c) with
      | none => .error .misuse
      | some rule =>
          match rule.role, letters with
          | .valued allows, '=' :: value =>
              reading.noteValue rule.long allows (String.ofList value)
          | .valued allows, c :: letters =>
              reading.noteValue rule.long allows (String.ofList (c :: letters))
          | _, letters => do form.readShort (← reading.readSwitch rule) letters

/-- Reads a long option.  A value follows an equals sign, and only an option that has a
value may have one there. -/
def readLong (form : ArgumentForm) (reading : Reading) (text : List Char) :
    Except Interruption Reading :=
  let name := String.ofList (text.takeWhile (· != '='))
  match form.options.find? (·.long == name) with
  | none => .error .misuse
  | some rule =>
      match rule.role, text.dropWhile (· != '=') with
      | .valued allows, '=' :: value =>
          reading.noteValue rule.long allows (String.ofList value)
      | _, '=' :: _ => .error .misuse
      | _, _ => reading.readSwitch rule

/-- Reads one argument.  After two hyphens there are only words. -/
def readArgument (form : ArgumentForm) (reading : Reading) (argument : String) :
    Except Interruption Reading :=
  if reading.wordsOnly then form.readWord reading argument
  else
    match reading.awaited, argument.toList with
    | some (long, allows), text =>
        if isWord text then reading.noteValue long allows argument else .error .misuse
    | none, ['-', '-'] => .ok { reading with wordsOnly := true }
    | none, '-' :: '-' :: text => form.readLong reading text
    | none, '-' :: c :: letters => form.readShort reading (c :: letters)
    | none, _ => form.readWord reading argument

/-- Reads arguments.  None may be missing its value at the end. -/
def read (form : ArgumentForm) (arguments : List String) : Except Interruption Reading := do
  let reading ← arguments.foldlM form.readArgument {}
  if reading.awaited.isSome then throw .misuse
  return reading

/-- Where reading is interrupted, the arguments behind that place do not matter. -/
theorem read_append_of_foldlM_eq_error {form : ArgumentForm} {arguments : List String}
    {interruption : Interruption}
    (h : arguments.foldlM form.readArgument {} = .error interruption) (rest : List String) :
    form.read (arguments ++ rest) = .error interruption := by
  simp only [read, List.foldlM_append, h]
  rfl

end ArgumentForm

end ConcreteSyntax
