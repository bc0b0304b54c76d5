import ConcreteSyntax.Text.Range
import ConcreteSyntax.Text.Character

/-!
# What a matcher sees

A matcher at a place of a text sees the rest of the text, the character before
the place, and whether only blanks stand before the place on its line.  What
stands to the left is a `LeftContext`.  It is defined twice: `LeftContext.ofText`
looks back through all the text before a place, and `LeftContext.push` follows
the text one character at a time.  `ofText_append` says that the two agree.
-/

namespace ConcreteSyntax

/-- What stands before a place: the character right before it, the NUL character
at the beginning of a text, and whether its line holds only blanks so far. -/
structure LeftContext where
  previous : Char
  blank : Bool
deriving DecidableEq, Inhabited

namespace LeftContext

/-- The left context at the beginning of a text. -/
def atStart : LeftContext := ⟨'\x00', true⟩

/-- The left context after one more character. -/
def push (left : LeftContext) (c : Char) : LeftContext :=
  ⟨c, Text.isLineBreak c || (Text.isBlank c && left.blank)⟩

/-- The left context after more characters. -/
def after (left : LeftContext) (text : List Char) : LeftContext := text.foldl push left

/-- The left context that looking back through the text before a place gives. -/
def ofText (before : List Char) : LeftContext where
  previous := before.getLast?.getD '\x00'
  blank := (before.reverse.dropWhile Text.isBlank).head?.all Text.isLineBreak

@[simp] theorem ofText_nil : ofText [] = atStart := rfl

@[simp] theorem after_nil (left : LeftContext) : left.after [] = left := rfl

theorem after_append (left : LeftContext) (a b : List Char) :
    left.after (a ++ b) = (left.after a).after b := by
  simp [after]

theorem ofText_concat (before : List Char) (c : Char) :
    ofText (before ++ [c]) = (ofText before).push c := by
  unfold ofText push
  by_cases h : Text.isBlank c
  · have hbreak : Text.isLineBreak c = false := by
      simp only [Text.isBlank, Bool.or_eq_true, beq_iff_eq] at h
      rcases h with rfl | rfl <;> decide
    simp [h, hbreak]
  · simp [h]

/-- Looking back through a text finds what following it from its beginning found. -/
theorem ofText_append (before text : List Char) :
    ofText (before ++ text) = (ofText before).after text := by
  induction text generalizing before with
  | nil => simp
  | cons c rest ih =>
      have hsplit : before ++ c :: rest = (before ++ [c]) ++ rest := by simp
      rw [hsplit, ih, ofText_concat]
      rfl

end LeftContext

/-- A place in a text: what stands before it, and all that follows. -/
structure Context extends LeftContext where
  rest : List Char
deriving DecidableEq, Inhabited

namespace Context

/-- The place between `previous` and `rest` when no more of the line is known. -/
def ofPrevious (previous : Char) (rest : List Char) : Context where
  previous
  blank := previous == '\x00' || Text.isLineBreak previous
  rest

/-- Whether no identifier reaches up to the place. -/
def atWordBoundary (cx : Context) : Bool := !Text.isIdentifier cx.previous

/-- Whether the place begins a line. -/
def atLineStart (cx : Context) : Bool :=
  cx.previous == '\x00' || Text.isLineBreak cx.previous

/-- The place `n` characters further on. -/
def advance (cx : Context) (n : Nat) : Context :=
  ⟨cx.toLeftContext.after (cx.rest.take n), cx.rest.drop n⟩

end Context

end ConcreteSyntax
