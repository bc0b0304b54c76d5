import ConcreteSyntax.Proofs.Text.Lines

/-!
# Gaps

A gap is a stretch of a text that is looked away from.  Places outside a gap are counted as if it
were closed up (`Gap.place?`), so that texts which differ in a gap only have the same places, and
their places have the same lines (`Gap.alike_ofText`).
-/

namespace ConcreteSyntax

/-- A stretch of a text that is looked away from. -/
structure Gap where
  start : Nat
  length : Nat
deriving DecidableEq

/-- The gap that a fragment leaves when it is looked away from. -/
def Fragment.gap (fragment : Fragment) : Gap :=
  ⟨fragment.start, Text.byteLength fragment.chars⟩

/-- The ends of a range as they are counted outside a gap. -/
structure Extent where
  start : Option Nat
  stop : Option Nat
deriving DecidableEq

namespace Gap

/-- The offset right after a gap. -/
def stop (gap : Gap) : Nat := gap.start + gap.length

/-- A place as it is counted when a gap is closed up; nothing for a place in the gap. -/
def place? (gap : Gap) (offset : Nat) : Option Nat :=
  if offset < gap.start then some offset
  else if gap.stop ≤ offset then some (offset - gap.length)
  else none

/-- The ends of a range as they are counted outside a gap. -/
def extent (gap : Gap) (range : Range) : Extent := ⟨gap.place? range.start, gap.place? range.stop⟩

/-- Whether a range begins before a gap and reaches to its end. -/
def isWithin (gap : Gap) (range : Range) : Bool :=
  range.start < gap.start && gap.stop ≤ range.stop

variable {gap gap' : Gap}

/-- Places of two texts with gaps at the same place are the same before the gaps, in them, and
behind them. -/
theorem place?_eq_iff (h : gap.start = gap'.start) {offset offset' : Nat} :
    gap.place? offset = gap'.place? offset' ↔
      offset < gap.start ∧ offset' = offset
        ∨ (gap.start ≤ offset ∧ offset < gap.stop ∧ gap'.start ≤ offset' ∧ offset' < gap'.stop)
        ∨ (gap.stop ≤ offset ∧ gap'.stop ≤ offset'
            ∧ offset - gap.length = offset' - gap'.length) := by
  unfold place? stop
  split_ifs <;> simp only [Option.some.injEq, false_iff, true_iff] <;> omega

theorem place?_of_lt {offset : Nat} (h : offset < gap.start) : gap.place? offset = some offset :=
  if_pos h

theorem place?_add (offset : Nat) : gap.place? (gap.stop + offset) = some (gap.start + offset) := by
  unfold place? stop
  rw [if_neg (by omega), if_pos (by omega), Option.some.injEq]
  omega

theorem place?_stop : gap.place? gap.stop = some gap.start := gap.place?_add 0

/-- Places behind a gap do not depend on what stands in it. -/
theorem place?_behind (before interior interior' : List Char) (n : Nat) :
    (Fragment.gap ⟨Text.byteLength before, interior⟩).place?
        (Text.byteLength (before ++ interior) + n) =
      (Fragment.gap ⟨Text.byteLength before, interior'⟩).place?
        (Text.byteLength (before ++ interior') + n) := by
  rw [Text.byteLength_append, Text.byteLength_append]
  exact ((Fragment.gap ⟨_, interior⟩).place?_add n).trans
    ((Fragment.gap ⟨_, interior'⟩).place?_add n).symm

/-- Two texts that are the same outside a gap, with their lines. -/
structure Alike (gap gap' : Gap) (lines lines' : LineIndex) : Prop where
  start : gap.start = gap'.start
  line : ∀ {offset offset'}, gap.place? offset = gap'.place? offset' →
    lines.line offset = lines'.line offset'

theorem isWithin_eq (h : gap.start = gap'.start) {range range' : Range}
    (hextent : gap.extent range = gap'.extent range') :
    gap.isWithin range = gap'.isWithin range' := by
  obtain ⟨hstart, hstop⟩ := Extent.mk.inj hextent
  rw [place?_eq_iff h] at hstart hstop
  rw [Bool.eq_iff_iff]
  simp only [isWithin, Bool.and_eq_true, decide_eq_true_eq]
  unfold stop at *
  omega

/-- Places that stand the other way round in the other text are in the gap, or the same. -/
theorem place?_eq_of_crossed (h : gap.start = gap'.start) {a a' b b' : Nat}
    (ha : gap.place? a = gap'.place? a') (hb : gap.place? b = gap'.place? b') (hle : a ≤ b)
    (hle' : b' ≤ a') : gap.place? a = gap.place? b := by
  rw [place?_eq_iff h] at ha hb
  rw [place?_eq_iff rfl]
  unfold stop at *
  omega

theorem place?_min (h : gap.start = gap'.start) {a a' b b' : Nat}
    (ha : gap.place? a = gap'.place? a') (hb : gap.place? b = gap'.place? b') :
    gap.place? (min a b) = gap'.place? (min a' b') := by
  rcases Nat.le_total a b with hle | hle <;> rcases Nat.le_total a' b' with hle' | hle'
  · rwa [Nat.min_eq_left hle, Nat.min_eq_left hle']
  · rw [Nat.min_eq_left hle, Nat.min_eq_right hle', place?_eq_of_crossed h ha hb hle hle', hb]
  · rw [Nat.min_eq_right hle, Nat.min_eq_left hle', place?_eq_of_crossed h hb ha hle hle', ha]
  · rwa [Nat.min_eq_right hle, Nat.min_eq_right hle']

theorem place?_max (h : gap.start = gap'.start) {a a' b b' : Nat}
    (ha : gap.place? a = gap'.place? a') (hb : gap.place? b = gap'.place? b') :
    gap.place? (max a b) = gap'.place? (max a' b') := by
  rcases Nat.le_total a b with hle | hle <;> rcases Nat.le_total a' b' with hle' | hle'
  · rwa [Nat.max_eq_right hle, Nat.max_eq_right hle']
  · rw [Nat.max_eq_right hle, Nat.max_eq_left hle', ← place?_eq_of_crossed h ha hb hle hle', ha]
  · rw [Nat.max_eq_left hle, Nat.max_eq_right hle', ← place?_eq_of_crossed h hb ha hle hle', hb]
  · rwa [Nat.max_eq_left hle, Nat.max_eq_left hle']

theorem extent_upTo (h : gap.start = gap'.start) {start start' stop stop' : Nat}
    (hstart : gap.place? start = gap'.place? start') (hstop : gap.place? stop = gap'.place? stop') :
    gap.extent (.upTo start stop) = gap'.extent (.upTo start' stop') :=
  Extent.mk.injEq .. ▸ ⟨hstart, place?_max h hstop hstart⟩

theorem extent_cover (h : gap.start = gap'.start) {first first' last last' : Range}
    (hfirst : gap.extent first = gap'.extent first') (hlast : gap.extent last = gap'.extent last') :
    gap.extent (first.cover last) = gap'.extent (first'.cover last') := by
  obtain ⟨hfirst, hfirst'⟩ := Extent.mk.inj hfirst
  obtain ⟨hlast, hlast'⟩ := Extent.mk.inj hlast
  exact Extent.mk.injEq .. ▸ ⟨place?_min h hfirst hlast, place?_max h hfirst' hlast'⟩

theorem Alike.span {lines lines' : LineIndex} (h : gap.Alike gap' lines lines')
    {range range' : Range} (hextent : gap.extent range = gap'.extent range') :
    lines.span range = lines'.span range' := by
  obtain ⟨hstart, hstop⟩ := Extent.mk.inj hextent
  rw [LineIndex.span, LineIndex.span, h.line hstart, h.line hstop]

end Gap

namespace Text

theorem lineEnds_add (offset n : Nat) (text : List Char) :
    lineEnds (offset + n) text = (lineEnds offset text).map (· + n) := by
  fun_induction lineEnds offset text with
  | case1 => rfl
  | case2 offset rest ih =>
      rw [lineEnds, List.map_cons, ← ih, Nat.add_right_comm]
  | case3 offset c rest hpair hend ih =>
      rw [lineEnds, if_pos hend, List.map_cons, ← ih, Nat.add_right_comm]
      exact hpair
  | case4 offset c rest hpair hend ih =>
      rw [lineEnds, if_neg hend, ← ih, Nat.add_right_comm]
      exact hpair

/-- A text without line breaks ends no lines. -/
theorem lineEnds_append_of_plain {interior : List Char}
    (h : ∀ c ∈ interior, isLineBreak c = false) (offset : Nat) (after : List Char) :
    lineEnds offset (interior ++ after) = lineEnds (offset + byteLength interior) after := by
  induction interior generalizing offset with
  | nil => rfl
  | cons c interior ih =>
      rw [List.forall_mem_cons] at h
      obtain ⟨hbreak, hrest⟩ := h
      rw [isLineBreak, Bool.or_eq_false_iff, beq_eq_false_iff_ne, beq_eq_false_iff_ne] at hbreak
      rw [List.cons_append, lineEnds_cons fun hc => absurd hc hbreak.2, if_neg (not_or.2 hbreak),
        ih hrest, byteLength_cons, Nat.add_assoc]

end Text

/-- The lines of a text are those of the text in front of a gap without line breaks, and those of
the text behind it. -/
theorem LineIndex.line_ofText_gap {before interior after : List Char} (hbefore : '\r' ∉ before)
    (hinterior : ∀ c ∈ interior, Text.isLineBreak c = false) (offset : Nat) :
    (LineIndex.ofText (before ++ (interior ++ after))).line offset =
      (Text.lineEnds 0 before).countP (· ≤ offset)
        + (Text.lineEnds 0 after).countP
            (· + (Text.byteLength before + Text.byteLength interior) ≤ offset) := by
  have hwhole : ¬Text.SplitsPair before (interior ++ after) := fun hsplit =>
    hbefore (List.mem_of_getLast? hsplit.1)
  have hends : Text.lineEnds (0 + Text.byteLength before + Text.byteLength interior) after =
      (Text.lineEnds 0 after).map (· + (Text.byteLength before + Text.byteLength interior)) := by
    rw [Nat.add_assoc, Text.lineEnds_add]
  rw [line, starts_ofText, Text.lineEnds_append hwhole, Text.lineEnds_append_of_plain hinterior,
    hends, List.countP_append, List.countP_map]
  rfl

/-- Texts that differ in a gap without line breaks have the same lines outside it. -/
theorem Gap.alike_ofText {before interior interior' : List Char} (hbefore : '\r' ∉ before)
    (hinterior : ∀ c ∈ interior, Text.isLineBreak c = false)
    (hinterior' : ∀ c ∈ interior', Text.isLineBreak c = false) (after : List Char) :
    (Fragment.gap ⟨Text.byteLength before, interior⟩).Alike
      (Fragment.gap ⟨Text.byteLength before, interior'⟩)
      (.ofText (before ++ (interior ++ after))) (.ofText (before ++ (interior' ++ after))) where
  start := rfl
  line {offset offset'} h := by
    have hstart : (Fragment.gap ⟨Text.byteLength before, interior⟩).start =
        (Fragment.gap ⟨Text.byteLength before, interior'⟩).start := rfl
    rw [place?_eq_iff hstart] at h
    simp only [stop, Fragment.gap] at h
    rw [LineIndex.line_ofText_gap hbefore hinterior, LineIndex.line_ofText_gap hbefore hinterior']
    congr 1 <;> refine List.countP_congr fun place hplace => ?_ <;>
      have := Text.bounds_of_mem_lineEnds hplace <;>
      simp only [decide_eq_true_eq] <;> omega

end ConcreteSyntax
