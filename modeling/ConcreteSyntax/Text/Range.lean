/-!
# Byte ranges of a text

A text is a list of characters, and places in it are counted in bytes of its
UTF-8 form.  `takeBytes` and `dropBytes` cut a text at such a place without ever
splitting a character (`takeBytes_append_dropBytes`).  A `Range` is a stretch of
bytes, and a `Fragment` is a stretch of text that knows where it stands.
-/

namespace ConcreteSyntax

namespace Text

/-- The number of bytes in the UTF-8 form of a text. -/
def byteLength : List Char → Nat
  | [] => 0
  | c :: rest => c.utf8Size + byteLength rest

@[simp] theorem byteLength_nil : byteLength [] = 0 := rfl

@[simp] theorem byteLength_cons (c : Char) (rest : List Char) :
    byteLength (c :: rest) = c.utf8Size + byteLength rest := rfl

@[simp] theorem byteLength_append (a b : List Char) :
    byteLength (a ++ b) = byteLength a + byteLength b := by
  induction a with
  | nil => simp
  | cons c rest ih => simp [ih, Nat.add_assoc]

theorem byteLength_eq_zero_iff {text : List Char} : byteLength text = 0 ↔ text = [] := by
  cases text with
  | nil => simp
  | cons c rest =>
      have := c.utf8Size_pos
      simp
      omega

/-- The longest beginning of a text that fits into `n` bytes. -/
def takeBytes : Nat → List Char → List Char
  | _, [] => []
  | n, c :: rest =>
      if c.utf8Size ≤ n then c :: takeBytes (n - c.utf8Size) rest else []

/-- What follows the longest beginning of a text that fits into `n` bytes. -/
def dropBytes : Nat → List Char → List Char
  | _, [] => []
  | n, c :: rest =>
      if c.utf8Size ≤ n then dropBytes (n - c.utf8Size) rest else c :: rest

theorem takeBytes_append_dropBytes (n : Nat) (text : List Char) :
    takeBytes n text ++ dropBytes n text = text := by
  induction text generalizing n with
  | nil => rfl
  | cons c rest ih =>
      unfold takeBytes dropBytes
      split
      · simp [ih]
      · rfl

@[simp] theorem takeBytes_zero (text : List Char) : takeBytes 0 text = [] := by
  cases text with
  | nil => rfl
  | cons c rest =>
      have := c.utf8Size_pos
      unfold takeBytes
      rw [if_neg (by omega)]

@[simp] theorem dropBytes_zero (text : List Char) : dropBytes 0 text = text := by
  cases text with
  | nil => rfl
  | cons c rest =>
      have := c.utf8Size_pos
      unfold dropBytes
      rw [if_neg (by omega)]

theorem takeBytes_byteLength_append (a b : List Char) :
    takeBytes (byteLength a) (a ++ b) = a := by
  induction a with
  | nil => simp
  | cons c rest ih => simp [takeBytes, ih]

theorem dropBytes_byteLength_append (a b : List Char) :
    dropBytes (byteLength a) (a ++ b) = b := by
  induction a with
  | nil => simp
  | cons c rest ih => simp [dropBytes, ih]

/-- Whether `offset` lies within a text and between two of its characters. -/
def isBoundary (text : List Char) (offset : Nat) : Bool :=
  byteLength (takeBytes offset text) == offset

theorem isBoundary_byteLength_append (a b : List Char) :
    isBoundary (a ++ b) (byteLength a) = true := by
  simp [isBoundary, takeBytes_byteLength_append]

end Text

/-- A stretch of bytes from `start` up to, and not including, `stop`. -/
@[ext] structure Range where
  start : Nat
  stop : Nat
  start_le_stop : start ≤ stop := by omega
deriving DecidableEq

namespace Range

/-- The empty range at `offset`. -/
def empty (offset : Nat) : Range := ⟨offset, offset, Nat.le_refl offset⟩

instance : Inhabited Range := ⟨empty 0⟩

/-- The range of `length` bytes from `start` on. -/
def ofLength (start length : Nat) : Range := ⟨start, start + length, by omega⟩

/-- The range from `start` to `stop`, or the empty range at `start` when `stop` comes before. -/
def upTo (start stop : Nat) : Range := ⟨start, max stop start, by omega⟩

/-- The number of bytes in a range. -/
def length (range : Range) : Nat := range.stop - range.start

/-- Whether a range holds no bytes. -/
def isEmpty (range : Range) : Bool := range.start == range.stop

/-- The smallest range that holds two ranges. -/
def cover (a b : Range) : Range :=
  ⟨min a.start b.start, max a.stop b.stop, by
    have := a.start_le_stop
    omega⟩

/-- A range as dumps show it: `3..7`. -/
def render (range : Range) : String := toString range.start ++ ".." ++ toString range.stop

end Range

namespace Text

/-- The part of a text that a range names. -/
def slice (text : List Char) (range : Range) : List Char :=
  takeBytes range.length (dropBytes range.start text)

theorem slice_append (before middle after : List Char) :
    slice (before ++ (middle ++ after))
      (Range.ofLength (byteLength before) (byteLength middle)) = middle := by
  simp [slice, Range.ofLength, Range.length, dropBytes_byteLength_append,
    takeBytes_byteLength_append]

end Text

/-- A stretch of a text: the offset of its first byte, and its characters. -/
structure Fragment where
  start : Nat
  chars : List Char
deriving DecidableEq, Inhabited

namespace Fragment

/-- The offset right after a fragment. -/
def stop (fragment : Fragment) : Nat := fragment.start + Text.byteLength fragment.chars

/-- The bytes that a fragment takes. -/
def range (fragment : Fragment) : Range :=
  Range.ofLength fragment.start (Text.byteLength fragment.chars)

/-- The fragment of `text` that `range` names. -/
def ofRange (text : List Char) (range : Range) : Fragment :=
  ⟨range.start, Text.slice text range⟩

end Fragment

end ConcreteSyntax
