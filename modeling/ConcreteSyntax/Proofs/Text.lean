import ConcreteSyntax.Text.Lines

/-!
# Places in a text

A place between two characters splits a text, and a range between two such places holds
a part of it.  A `Fragment` that lies in a text holds what the text holds in its range.
-/

namespace ConcreteSyntax

namespace Text

theorem isBoundary_iff {text : List Char} {offset : Nat} :
    isBoundary text offset = true ↔
      ∃ before after, text = before ++ after ∧ byteLength before = offset := by
  constructor
  · intro h
    exact ⟨takeBytes offset text, dropBytes offset text,
      (takeBytes_append_dropBytes offset text).symm, by simpa [isBoundary] using h⟩
  · rintro ⟨before, after, rfl, rfl⟩
    exact isBoundary_byteLength_append before after

theorem isBoundary_zero (text : List Char) : isBoundary text 0 = true := by
  simp [isBoundary]

theorem isBoundary_byteLength (text : List Char) : isBoundary text (byteLength text) = true :=
  isBoundary_iff.2 ⟨text, [], by simp, rfl⟩

/-- Two places between characters cut a text into three parts. -/
theorem exists_parts {text : List Char} {a b : Nat} (ha : isBoundary text a = true)
    (hb : isBoundary text b = true) (hab : a ≤ b) :
    ∃ before middle after, text = before ++ (middle ++ after)
      ∧ byteLength before = a ∧ a + byteLength middle = b := by
  obtain ⟨before, rest, htext, hbefore⟩ := isBoundary_iff.1 ha
  obtain ⟨front, after, htext', hfront⟩ := isBoundary_iff.1 hb
  rw [htext, List.append_eq_append_iff] at htext'
  obtain ⟨middle, hfront', hrest⟩ | ⟨extra, hbefore', hafter⟩ := htext'
  · refine ⟨before, middle, after, by rw [htext, hrest], hbefore, ?_⟩
    rw [← hfront, hfront', byteLength_append, hbefore]
  · have hextra : extra = [] := by
      rw [hbefore', byteLength_append] at hbefore
      exact byteLength_eq_zero_iff.1 (by omega)
    refine ⟨before, [], rest, by rw [htext]; rfl, hbefore, ?_⟩
    rw [hbefore', hextra] at hbefore
    simp at hbefore
    simp
    omega

theorem slice_eq_of_parts {before middle after : List Char} {range : Range}
    (hstart : byteLength before = range.start)
    (hstop : range.start + byteLength middle = range.stop) :
    slice (before ++ (middle ++ after)) range = middle := by
  have hrange : range = Range.ofLength (byteLength before) (byteLength middle) := by
    apply Range.ext <;> simp only [Range.ofLength] <;> omega
  rw [hrange, slice_append]

theorem byteLength_slice {text : List Char} {range : Range}
    (hstart : isBoundary text range.start = true) (hstop : isBoundary text range.stop = true) :
    byteLength (slice text range) = range.length := by
  obtain ⟨before, middle, after, rfl, hbefore, hmiddle⟩ :=
    exists_parts hstart hstop range.start_le_stop
  rw [slice_eq_of_parts hbefore hmiddle, Range.length]
  omega

theorem byteLength_take_le (text : List Char) {m n : Nat} (h : m ≤ n) :
    byteLength (text.take m) ≤ byteLength (text.take n) := by
  obtain ⟨more, hmore⟩ := List.take_prefix_take_left (l := text) h
  rw [← hmore, byteLength_append]
  exact Nat.le_add_right _ _

/-- A text splits at a place in one way only. -/
theorem append_inj_of_byteLength {a b c d : List Char} (h : a ++ b = c ++ d)
    (hlength : byteLength a = byteLength c) : a = c ∧ b = d := by
  constructor
  · rw [← takeBytes_byteLength_append a b, h, hlength, takeBytes_byteLength_append]
  · rw [← dropBytes_byteLength_append a b, h, hlength, dropBytes_byteLength_append]

/-- Neighbouring ranges hold what the range over both holds. -/
theorem slice_append_slice {text : List Char} {a b c : Range}
    (ha : isBoundary text a.start = true) (hb : isBoundary text b.start = true)
    (hc : isBoundary text b.stop = true) (hab : a.stop = b.start) (hstart : c.start = a.start)
    (hstop : c.stop = b.stop) : slice text a ++ slice text b = slice text c := by
  have hle := a.start_le_stop
  obtain ⟨before, left, rest, htext, hbefore, hleft⟩ := exists_parts ha hb (by omega)
  obtain ⟨front, right, after, htext', hfront, hright⟩ := exists_parts hb hc b.start_le_stop
  obtain ⟨hfront', hrest⟩ : before ++ left = front ∧ rest = right ++ after := by
    apply append_inj_of_byteLength
    · rw [List.append_assoc, ← htext, htext']
    · rw [byteLength_append]
      omega
  have hslice : slice text a = left := by
    rw [htext]
    exact slice_eq_of_parts hbefore (by omega)
  have hslice' : slice text b = right := by
    rw [htext']
    exact slice_eq_of_parts hfront (by omega)
  rw [hslice, hslice', htext, hrest, ← List.append_assoc left right after]
  refine (slice_eq_of_parts (by omega) ?_).symm
  rw [byteLength_append]
  omega

theorem slice_whole (text : List Char) : slice text (.ofLength 0 (byteLength text)) = text := by
  have h := slice_append [] text []
  simpa using h

end Text

namespace Fragment

/-- A fragment lies in a text when the text holds its characters at its place. -/
def LiesIn (fragment : Fragment) (text : List Char) : Prop :=
  ∃ before after, text = before ++ (fragment.chars ++ after)
    ∧ Text.byteLength before = fragment.start

variable {text : List Char} {fragment : Fragment}

theorem LiesIn.isBoundary_start (h : fragment.LiesIn text) :
    Text.isBoundary text fragment.start = true := by
  obtain ⟨before, after, rfl, hbefore⟩ := h
  exact Text.isBoundary_iff.2 ⟨before, _, rfl, hbefore⟩

theorem LiesIn.isBoundary_stop (h : fragment.LiesIn text) :
    Text.isBoundary text fragment.stop = true := by
  obtain ⟨before, after, rfl, hbefore⟩ := h
  refine Text.isBoundary_iff.2 ⟨before ++ fragment.chars, after, by simp, ?_⟩
  rw [Text.byteLength_append, hbefore, stop]

theorem LiesIn.slice_range (h : fragment.LiesIn text) :
    Text.slice text fragment.range = fragment.chars := by
  obtain ⟨before, after, rfl, hbefore⟩ := h
  exact Text.slice_eq_of_parts hbefore rfl

theorem liesIn_ofRange {range : Range} (hstart : Text.isBoundary text range.start = true)
    (hstop : Text.isBoundary text range.stop = true) : (ofRange text range).LiesIn text := by
  obtain ⟨before, middle, after, rfl, hbefore, hmiddle⟩ :=
    Text.exists_parts hstart hstop range.start_le_stop
  refine ⟨before, after, ?_, hbefore⟩
  simp only [ofRange]
  rw [Text.slice_eq_of_parts hbefore hmiddle]

theorem stop_ofRange {range : Range} (hstart : Text.isBoundary text range.start = true)
    (hstop : Text.isBoundary text range.stop = true) : (ofRange text range).stop = range.stop := by
  have := range.start_le_stop
  simp only [stop, ofRange, Text.byteLength_slice hstart hstop, Range.length]
  omega

/-- Both parts of a fragment that lies in a text lie in it. -/
theorem LiesIn.split {start : Nat} {a b : List Char} (h : LiesIn ⟨start, a ++ b⟩ text) :
    LiesIn ⟨start, a⟩ text ∧ LiesIn ⟨start + Text.byteLength a, b⟩ text := by
  obtain ⟨before, after, rfl, hbefore⟩ := h
  refine ⟨⟨before, b ++ after, by simp, hbefore⟩, ⟨before ++ a, after, by simp, ?_⟩⟩
  rw [Text.byteLength_append, hbefore]

end Fragment

end ConcreteSyntax
