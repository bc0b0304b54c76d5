import ConcreteSyntax.Proofs.Scan
import ConcreteSyntax.Proofs.Scan.Attempt

/-!
# Resuming a scan

A scan may be taken up again at the end of any span that it yields, and goes on as it would have
(`Table.scan_resumes`).  What it knows of the text before a place, it follows from the beginning
of its range, one character after the other.  At every place that it comes to (`Table.Visits`),
this is what looking back through all of the text finds (`Context.ofText`).
-/

namespace ConcreteSyntax

@[simp] theorem Range.start_upTo (start stop : Nat) : (upTo start stop).start = start := rfl

theorem Range.stop_upTo {start stop : Nat} (h : start ≤ stop) : (upTo start stop).stop = stop :=
  Nat.max_eq_left h

theorem Range.upTo_start_stop (range : Range) : upTo range.start range.stop = range :=
  Range.ext rfl (Nat.max_eq_left range.start_le_stop)

/-! ## Places -/

namespace Context

/-- The place at `offset` of a text as looking back finds it, for a scan that ends at `stop`. -/
def ofText (text : List Char) (stop offset : Nat) : Context where
  toLeftContext := .ofText (Text.takeBytes offset text)
  rest := Text.slice text (.upTo offset stop)

theorem ofText_append (before rest behind : List Char) :
    ofText (before ++ (rest ++ behind)) (Text.byteLength before + Text.byteLength rest)
      (Text.byteLength before) = ⟨.ofText before, rest⟩ := by
  have hrest : Text.slice (before ++ (rest ++ behind))
      (.upTo (Text.byteLength before) (Text.byteLength before + Text.byteLength rest)) = rest :=
    Text.slice_eq_of_parts rfl (Nat.max_eq_left (Nat.le_add_right _ _)).symm
  rw [ofText, hrest, Text.takeBytes_byteLength_append]

theorem advance_advance (place : Context) (m n : Nat) :
    (place.advance m).advance n = place.advance (m + n) := by
  simp only [advance, List.take_add, LeftContext.after_append, List.drop_drop]

theorem advance_zero (place : Context) : place.advance 0 = place := rfl

theorem advance_one {left : LeftContext} {c : Char} {tail : List Char} :
    advance ⟨left, c :: tail⟩ 1 = ⟨left.push c, tail⟩ := rfl

/-- Going on from a place leads to a place further on in the same range. -/
theorem advance_ofText {text : List Char} {stop offset : Nat}
    (hoffset : Text.isBoundary text offset = true) (hstop : Text.isBoundary text stop = true)
    (hle : offset ≤ stop) (n : Nat) :
    ∃ next, next = offset + Text.byteLength ((ofText text stop offset).rest.take n)
      ∧ Text.isBoundary text next = true ∧ next ≤ stop
      ∧ (ofText text stop offset).advance n = ofText text stop next := by
  obtain ⟨before, rest, behind, rfl, rfl, rfl⟩ := Text.exists_parts hoffset hstop hle
  have htext : before ++ (rest ++ behind) =
      (before ++ rest.take n) ++ (rest.drop n ++ behind) := by
    rw [List.append_assoc, ← List.append_assoc (rest.take n), List.take_append_drop]
  have hlength : Text.byteLength (rest.take n) + Text.byteLength (rest.drop n) =
      Text.byteLength rest := by
    rw [← Text.byteLength_append, List.take_append_drop]
  have hnext : Text.byteLength (before ++ rest.take n) =
      Text.byteLength before + Text.byteLength (rest.take n) := Text.byteLength_append _ _
  rw [ofText_append]
  dsimp only
  refine ⟨_, rfl, ?_, by omega, ?_⟩
  · rw [htext, ← hnext]
    exact Text.isBoundary_byteLength_append _ _
  · have hplace := ofText_append (before ++ rest.take n) (rest.drop n) behind
    rw [← htext, hnext, Nat.add_assoc, hlength, LeftContext.ofText_append] at hplace
    exact hplace.symm

end Context

/-! ## Places that a scan comes to -/

/-- Whether the search for a closing marker that begins at `first` comes to a place. -/
inductive Pattern.Seeks (closing : Pattern) (escape : Option Char) (first : Context) :
    Context → Prop
  | start : Seeks closing escape first first
  /-- A character is passed over. -/
  | pass {place : Context} {c : Char} {tail : List Char} :
      Seeks closing escape first place → place.rest = c :: tail → closing.length? place = none →
        (some c = escape → tail = []) → Seeks closing escape first (place.advance 1)
  /-- An escape is passed over with the character behind it. -/
  | escaped {place : Context} {c d : Char} {tail : List Char} :
      Seeks closing escape first place → place.rest = c :: d :: tail →
        closing.length? place = none → some c = escape →
          Seeks closing escape first (place.advance 2)

/-- Whether a scan that begins at `first` comes to a place. -/
inductive Table.Visits (table : Table) (restrict : Option KindSet) (first : Context) :
    Context → Prop
  | start : Visits table restrict first first
  /-- Where nothing is recognised, a character is passed over. -/
  | pass {place : Context} {c : Char} {tail : List Char} :
      Visits table restrict first place → place.rest = c :: tail →
        table.recognise? restrict place = none → Visits table restrict first (place.advance 1)
  /-- Scanning goes on behind what is recognised. -/
  | skip {place : Context} {found : Found} :
      Visits table restrict first place → table.recognise? restrict place = some found →
        Visits table restrict first (place.advance found.length)
  /-- The closing marker of what is recognised is looked for behind the opening marker. -/
  | seek {place inside : Context} {found : Found} {spec : Spec} {n : Nat} {closing : Pattern} :
      Visits table restrict first place → table.recognise? restrict place = some found →
        spec ∈ table.candidates → spec.recognise? place = some found →
          spec.opening.length? place = some n → spec.shape ≠ .paired →
            spec.closing = some closing → closing.Seeks spec.escape (place.advance n) inside →
              Visits table restrict first inside

theorem Pattern.Seeks.exists_advance {closing : Pattern} {escape : Option Char}
    {first place : Context} (h : closing.Seeks escape first place) :
    ∃ n, place = first.advance n := by
  induction h with
  | start => exact ⟨0, rfl⟩
  | pass _ _ _ _ ih =>
      obtain ⟨n, rfl⟩ := ih
      exact ⟨n + 1, Context.advance_advance _ _ _⟩
  | escaped _ _ _ _ ih =>
      obtain ⟨n, rfl⟩ := ih
      exact ⟨n + 2, Context.advance_advance _ _ _⟩

/-- A search comes to the closing marker that it finds. -/
theorem Pattern.Seeks.seek {closing : Pattern} {escape : Option Char} {first : Context}
    {left : LeftContext} {rest : List Char} (h : closing.Seeks escape first ⟨left, rest⟩) :
    closing.Seeks escape first
      (Context.advance ⟨left, rest⟩ (closing.seek escape left rest).1) := by
  fun_induction Pattern.seek closing escape left rest with
  | case1 => exact h
  | case2 => exact h
  | case3 left c hnone => exact h.pass rfl hnone fun _ => rfl
  | case4 => exact h
  | case5 left c d rest hnone hescape before n hseek ih =>
      have hthere := ih (h.escaped rfl hnone hescape)
      rw [hseek] at hthere
      rw [Nat.add_comm, ← Context.advance_advance]
      exact hthere
  | case6 left c d rest hnone hescape before n hseek ih =>
      have hthere := ih (h.pass rfl hnone fun hc => absurd hc hescape)
      rw [hseek] at hthere
      rw [Nat.add_comm, ← Context.advance_advance]
      exact hthere

namespace Table

variable {table : Table} {restrict : Option KindSet}

/-- Every place that a scan comes to lies in front of the place where it began. -/
theorem Visits.exists_advance {first place : Context} (h : table.Visits restrict first place) :
    ∃ n, place = first.advance n := by
  induction h with
  | start => exact ⟨0, rfl⟩
  | pass _ _ _ ih =>
      obtain ⟨n, rfl⟩ := ih
      exact ⟨n + 1, Context.advance_advance _ _ _⟩
  | skip _ _ ih =>
      obtain ⟨n, rfl⟩ := ih
      exact ⟨_, Context.advance_advance _ _ _⟩
  | seek _ _ _ _ _ _ _ hseeks ih =>
      obtain ⟨n, rfl⟩ := ih
      obtain ⟨m, rfl⟩ := hseeks.exists_advance
      exact ⟨_, by rw [Context.advance_advance, Context.advance_advance]⟩

theorem Visits.textRun {first : Context} {left : LeftContext} {rest : List Char}
    (h : table.Visits restrict first ⟨left, rest⟩) :
    table.Visits restrict first
      (Context.advance ⟨left, rest⟩ (table.textRun restrict left rest)) := by
  induction rest generalizing left with
  | nil => exact h
  | cons c tail ih =>
      cases hfound : table.recognise? restrict ⟨left, c :: tail⟩ with
      | some found =>
          rwa [textRun_of_some hfound, Context.advance_zero]
      | none =>
          have hpass := ih (h.pass rfl hfound)
          rwa [textRun_of_none hfound, Nat.add_comm, ← Context.advance_advance, Context.advance_one]

/-! ## Taking a scan up again -/

/-- Where the first span of a scan lies, and how the scan goes on behind it. -/
theorem scanFrom_eq_cons {first place : Context} (hplace : table.Visits restrict first place)
    {offset : Nat} {span : Span} {after : List Span}
    (h : table.scanFrom restrict offset place.toLeftContext place.rest = span :: after) :
    ∃ n, span.range = .ofLength offset (Text.byteLength (place.rest.take n))
      ∧ table.Visits restrict first (place.advance n)
      ∧ table.scanFrom restrict (offset + Text.byteLength (place.rest.take n))
          (place.advance n).toLeftContext (place.advance n).rest = after := by
  obtain ⟨n, -, hrange, hafter, ⟨found, hfound, rfl, -⟩ | ⟨-, rfl, -⟩⟩ := scanFrom_cases h
  · exact ⟨_, hrange, hplace.skip hfound, hafter⟩
  · exact ⟨_, hrange, hplace.textRun, hafter⟩

/-- Where a yielded span ends, and what is yielded behind it. -/
theorem yieldFrom_eq_cons {offset : Nat} {pending : List Char} {left : LeftContext}
    {rest : List Char} {span : Span} {after : List Span} {fault? : Option Fault}
    (h : table.yieldFrom restrict offset pending left rest = (span :: after, fault?)) :
    ∃ n, span.range.stop = offset + Text.byteLength (pending ++ rest.take n)
      ∧ table.yieldFrom restrict span.range.stop [] (left.after (rest.take n)) (rest.drop n) =
          (after, fault?) := by
  fun_induction yieldFrom table restrict offset pending left rest with
  | case1 offset pending left =>
      rw [Prod.mk.injEq, passed] at h
      obtain ⟨hspans, rfl⟩ := h
      split at hspans
      · cases hspans
      · obtain ⟨rfl, rfl⟩ := List.cons.inj hspans
        exact ⟨0, by simp [Span.range, Fragment.range, Range.ofLength],
          by rw [List.drop_nil, yieldFrom]; rfl⟩
  | case2 offset pending left c tail fault hfault => cases h
  | case3 offset pending left c tail hnone ih =>
      obtain ⟨n, hstop, hrest⟩ := ih h
      exact ⟨n + 1, by simpa using hstop, hrest⟩
  | case4 offset pending left c tail found hfound start taken spans fault hbehind ih =>
      rw [Prod.mk.injEq, passed] at h
      obtain ⟨hspans, rfl⟩ := h
      split at hspans
      · rename_i hpending
        obtain ⟨rfl, rfl⟩ := List.cons.inj hspans
        rw [List.isEmpty_iff] at hpending
        subst hpending
        refine ⟨found.length, by rw [found.range_toSpan]; rfl, ?_⟩
        rw [found.range_toSpan]
        exact hbehind
      · obtain ⟨rfl, rfl⟩ := List.cons.inj hspans
        refine ⟨0, by simp [Span.range, Fragment.range, Range.ofLength], ?_⟩
        have hstart : (Span.leaf .text ⟨offset, pending⟩).range.stop = start := rfl
        rw [List.take_zero, List.drop_zero, LeftContext.after_nil, yieldFrom_of_some hfound]
        simp only [hstart, Text.byteLength_nil, Nat.add_zero, passed, List.isEmpty_nil, if_true,
          List.nil_append]
        rw [hbehind]
        rfl

/-! ## Scans of a range -/

variable {text : List Char} {range : Range}

theorem scanRange_eq_scanFrom (table : Table) (text : List Char) (range : Range)
    (restrict : Option KindSet) :
    table.scanRange text range restrict =
      table.scanFrom restrict range.start
        (Context.ofText text range.stop range.start).toLeftContext
        (Context.ofText text range.stop range.start).rest := by
  rw [scanRange, Context.ofText, Range.upTo_start_stop]

/-- Where the first span of a range lies, and how the scan goes on behind it. -/
theorem scanRange_eq_cons (hstart : Text.isBoundary text range.start = true)
    (hstop : Text.isBoundary text range.stop = true) {first : Context}
    (hplace : table.Visits restrict first (.ofText text range.stop range.start))
    {span : Span} {after : List Span}
    (h : table.scanRange text range restrict = span :: after) :
    span.range.start = range.start ∧ span.range.stop ≤ range.stop
      ∧ Text.isBoundary text span.range.stop = true
      ∧ table.Visits restrict first (.ofText text range.stop span.range.stop)
      ∧ table.scanRange text (.upTo span.range.stop range.stop) restrict = after := by
  rw [scanRange_eq_scanFrom] at h
  obtain ⟨n, hrange, hvisits, hafter⟩ := scanFrom_eq_cons hplace h
  obtain ⟨next, hnext, hboundary, hle, hadvance⟩ :=
    Context.advance_ofText hstart hstop range.start_le_stop n
  rw [← hnext] at hafter
  rw [hadvance] at hvisits hafter
  have hspan : span.range.stop = next := by rw [hrange, hnext]; rfl
  refine ⟨by rw [hrange]; rfl, by rwa [hspan], by rwa [hspan], by rwa [hspan], ?_⟩
  rw [hspan, scanRange_eq_scanFrom]
  rw [Range.stop_upTo hle, Range.start_upTo]
  exact hafter

/-- Wherever the spans of a range are split, the scan can be begun anew. -/
theorem scanRange_eq_append (hstart : Text.isBoundary text range.start = true)
    (hstop : Text.isBoundary text range.stop = true) {first : Context}
    (hplace : table.Visits restrict first (.ofText text range.stop range.start))
    {before after : List Span} (h : table.scanRange text range restrict = before ++ after) :
    ∃ offset, Text.isBoundary text offset = true ∧ range.start ≤ offset ∧ offset ≤ range.stop
      ∧ table.Visits restrict first (.ofText text range.stop offset)
      ∧ table.scanRange text (.upTo offset range.stop) restrict = after := by
  induction before generalizing range with
  | nil =>
      refine ⟨range.start, hstart, Nat.le_refl _, range.start_le_stop, hplace, ?_⟩
      rwa [Range.upTo_start_stop]
  | cons span before ih =>
      obtain ⟨hspan, hle, hboundary, hvisits, hrest⟩ :=
        scanRange_eq_cons hstart hstop hplace h
      have hupTo := Range.stop_upTo hle
      have hspanLe := span.range.start_le_stop
      obtain ⟨offset, hoffset, hstartLe, hstopLe, hthere, hscan⟩ :=
        ih hboundary (by rwa [hupTo]) (by rwa [hupTo]) hrest
      rw [hupTo] at hstopLe hthere hscan
      rw [Range.start_upTo] at hstartLe
      exact ⟨offset, hoffset, by omega, hstopLe, hthere, hscan⟩

theorem yieldRange_eq_yieldFrom (table : Table) (restrict : Option KindSet)
    (hstart : Text.isBoundary text range.start = true)
    (hstop : Text.isBoundary text range.stop = true) :
    table.yieldRange text range restrict =
      table.yieldFrom restrict range.start []
        (Context.ofText text range.stop range.start).toLeftContext
        (Context.ofText text range.stop range.start).rest := by
  rw [yieldRange, Text.cut_before hstart, Text.cut_eq hstart hstop, Context.ofText,
    Range.upTo_start_stop]

theorem yieldRange_eq_cons (hstart : Text.isBoundary text range.start = true)
    (hstop : Text.isBoundary text range.stop = true) {span : Span} {after : List Span}
    {fault? : Option Fault} (h : table.yieldRange text range restrict = (span :: after, fault?)) :
    span.range.stop ≤ range.stop ∧ Text.isBoundary text span.range.stop = true
      ∧ table.yieldRange text (.upTo span.range.stop range.stop) restrict = (after, fault?) := by
  rw [yieldRange_eq_yieldFrom _ _ hstart hstop] at h
  obtain ⟨n, hspan, hafter⟩ := yieldFrom_eq_cons h
  obtain ⟨next, hnext, hboundary, hle, hadvance⟩ :=
    Context.advance_ofText hstart hstop range.start_le_stop n
  rw [List.nil_append, ← hnext] at hspan
  have hstop' := Range.stop_upTo hle
  rw [hspan] at hafter ⊢
  refine ⟨hle, hboundary, ?_⟩
  rw [yieldRange_eq_yieldFrom _ _ hboundary (by rwa [hstop']), hstop', Range.start_upTo,
    ← hadvance]
  exact hafter

/-- What is yielded behind a span is what a scan from its end yields. -/
theorem yieldRange_eq_append (hstart : Text.isBoundary text range.start = true)
    (hstop : Text.isBoundary text range.stop = true) {before : List Span} {span : Span}
    {after : List Span} {fault? : Option Fault}
    (h : table.yieldRange text range restrict = (before ++ span :: after, fault?)) :
    table.yieldRange text (.upTo span.range.stop range.stop) restrict = (after, fault?) := by
  induction before generalizing range with
  | nil => exact (yieldRange_eq_cons hstart hstop h).2.2
  | cons first before ih =>
      obtain ⟨hle, hboundary, hrest⟩ := yieldRange_eq_cons hstart hstop h
      have hupTo := Range.stop_upTo hle
      have hscan := ih hboundary (by rwa [hupTo]) hrest
      rwa [hupTo] at hscan

/-- Whether a scan of a range can be taken up again wherever one of its spans ends, with what it
knows of the text before each of its places. -/
structure Resumes (table : Table) (text : List Char) (range : Range)
    (restrict : Option KindSet) : Prop where
  /-- A scan from the end of a span gives the remaining spans. -/
  spans : ∀ before span after,
    table.scanRange text range restrict = before ++ span :: after →
      Text.isBoundary text span.range.stop = true ∧ span.range.stop ≤ range.stop
        ∧ table.scanRange text (.upTo span.range.stop range.stop) restrict = after
  /-- A scan from the end of a span yields what remained to be yielded, and breaks as the first
  one did. -/
  yields : ∀ before span after fault?,
    table.yieldRange text range restrict = (before ++ span :: after, fault?) →
      table.yieldRange text (.upTo span.range.stop range.stop) restrict = (after, fault?)
  /-- At every place that the scan comes to, looking back through the text before it finds what
  following the text from the beginning of the range has found. -/
  places : ∀ place, table.Visits restrict (.ofText text range.stop range.start) place →
    ∃ offset, Text.isBoundary text offset = true ∧ range.start ≤ offset ∧ offset ≤ range.stop
      ∧ place = .ofText text range.stop offset
  /-- The scan comes to the places where spans begin. -/
  starts : ∀ span ∈ table.scanRange text range restrict,
    table.Visits restrict (.ofText text range.stop range.start)
      (.ofText text range.stop span.range.start)

theorem scan_resumes (table : Table) (text : List Char) (range : Range)
    (restrict : Option KindSet) (hstart : Text.isBoundary text range.start = true)
    (hstop : Text.isBoundary text range.stop = true) : table.Resumes text range restrict where
  spans before span after h := by
    obtain ⟨offset, hoffset, -, hle, -, hscan⟩ :=
      scanRange_eq_append hstart hstop (.start) h
    have hupTo := Range.stop_upTo hle
    obtain ⟨-, hspanLe, hboundary, -, hafter⟩ :=
      scanRange_eq_cons hoffset (by rwa [hupTo]) .start hscan
    rw [hupTo] at hspanLe hafter
    exact ⟨hboundary, hspanLe, hafter⟩
  yields _ _ _ _ h := yieldRange_eq_append hstart hstop h
  places place h := by
    obtain ⟨n, rfl⟩ := h.exists_advance
    obtain ⟨next, hnext, hboundary, hle, hadvance⟩ :=
      Context.advance_ofText hstart hstop range.start_le_stop n
    exact ⟨next, hboundary, by omega, hle, hadvance⟩
  starts span hspan := by
    obtain ⟨before, after, hsplit⟩ := List.append_of_mem hspan
    obtain ⟨offset, hoffset, -, hle, hvisits, hscan⟩ :=
      scanRange_eq_append hstart hstop .start hsplit
    have hupTo := Range.stop_upTo hle
    obtain ⟨hspanStart, -⟩ := scanRange_eq_cons hoffset (by rwa [hupTo]) .start hscan
    rwa [hspanStart]

/-- A scan that begins in the middle of a line, behind a character of two bytes. -/
theorem scan_resumes_in_line :
    Text.isBoundary ['é', ' ', ':', 'x'] 2 = true ∧ Text.isBoundary ['é', ' ', ':', 'x'] 5 = true
      ∧ (ofCatalogue [.literal .colon ":"]).Resumes ['é', ' ', ':', 'x'] (.upTo 2 5) none :=
  ⟨by decide, by decide, scan_resumes _ _ _ _ (by decide) (by decide)⟩

end Table

end ConcreteSyntax
