import ConcreteSyntax.Proofs.Scan
import ConcreteSyntax.Proofs.Text.Gap

/-!
# Scans of the same stretch in two texts

What is scanned of a stretch of text depends on what a matcher sees in front of it, and not on the
place where it stands (`Table.scanFrom_add`).  So a stretch that two texts share, with the same to
the left of it, is scanned into the same spans (`Aligned.scanRange`).
-/

namespace ConcreteSyntax

/-- A fragment of a text as it stands behind more text. -/
def Fragment.behind (offset : Nat) (fragment : Fragment) : Fragment :=
  ⟨offset + fragment.start, fragment.chars⟩

/-- A span of a text as it stands behind more text. -/
def Span.behind (offset : Nat) : Span → Span
  | .leaf kind text => .leaf kind (text.behind offset)
  | .opener kind text => .opener kind (text.behind offset)
  | .closer kind text => .closer kind (text.behind offset)
  | .delimited kind opening interior closing =>
      .delimited kind (opening.behind offset) (interior.behind offset) (closing.behind offset)

theorem Span.behind_zero : behind 0 = id := by
  funext span
  cases span <;> simp [behind, Fragment.behind]

theorem Found.toSpan_add (found : Found) (n offset : Nat) (rest : List Char) :
    found.toSpan (n + offset) rest = (found.toSpan offset rest).behind n := by
  cases found <;> simp only [toSpan, Span.behind, Fragment.behind, Fragment.stop, Nat.add_assoc]

theorem Table.scanFrom_add (table : Table) (restrict : Option KindSet) (n offset : Nat)
    (left : LeftContext) (rest : List Char) :
    table.scanFrom restrict (n + offset) left rest =
      (table.scanFrom restrict offset left rest).map (Span.behind n) := by
  fun_induction scanFrom table restrict offset left rest with
  | case1 => rw [scanFrom, List.map_nil]
  | case2 offset left c tail found h taken ih =>
      rw [scanFrom_of_some h, List.map_cons, ← ih, Found.toSpan_add, ← Nat.add_assoc]
  | case3 offset left c tail h taken ih =>
      rw [scanFrom_of_none h, List.map_cons, ← ih, ← Nat.add_assoc]
      rfl

/-- Two fragments of texts with gaps that hold the same at the same place. -/
structure Fragment.Alike (gap gap' : Gap) (fragment fragment' : Fragment) : Prop where
  chars : fragment.chars = fragment'.chars
  start : gap.place? fragment.start = gap'.place? fragment'.start
  stop : gap.place? fragment.stop = gap'.place? fragment'.stop

/-- Two texts with gaps that share a stretch outside the gaps, and what a matcher sees to the left
of it. -/
structure Aligned (gap gap' : Gap) (text text' : List Char) (start start' : Nat)
    (chars : List Char) : Prop where
  parts : ∃ before before' after after',
    text = before ++ (chars ++ after) ∧ text' = before' ++ (chars ++ after')
      ∧ Text.byteLength before = start ∧ Text.byteLength before' = start'
      ∧ LeftContext.ofText before = LeftContext.ofText before'
  places : ∀ n ≤ Text.byteLength chars, gap.place? (start + n) = gap'.place? (start' + n)

variable {gap gap' : Gap} {text text' chars : List Char} {start start' : Nat}

theorem Fragment.Alike.extent {fragment fragment' : Fragment}
    (h : fragment.Alike gap gap' fragment') :
    gap.extent fragment.range = gap'.extent fragment'.range :=
  Extent.mk.injEq .. ▸ ⟨h.start, h.stop⟩

namespace Aligned

/-- Texts share what stands in front of their gaps. -/
theorem ofPrefix {front behind behind' : List Char} (htext : text = front ++ behind)
    (htext' : text' = front ++ behind') (h : Text.byteLength front < gap.start)
    (h' : Text.byteLength front < gap'.start) : Aligned gap gap' text text' 0 0 front where
  parts := ⟨[], [], behind, behind', htext, htext', rfl, rfl, rfl⟩
  places n hn := by
    rw [Nat.zero_add, Gap.place?_of_lt (by omega), Gap.place?_of_lt (by omega)]

/-- Both texts share each part of the stretch. -/
theorem part (h : Aligned gap gap' text text' start start' chars) {fragment : Fragment}
    (hfragment : fragment.LiesIn chars) :
    Aligned gap gap' text text' (start + fragment.start) (start' + fragment.start)
      fragment.chars := by
  obtain ⟨front, behind, rfl, hfront⟩ := hfragment
  obtain ⟨before, before', after, after', rfl, rfl, rfl, rfl, hleft⟩ := h.parts
  refine ⟨⟨before ++ front, before' ++ front, behind ++ after, behind ++ after', ?_, ?_, ?_, ?_, ?_⟩,
    fun n hn => ?_⟩
  · simp only [List.append_assoc]
  · simp only [List.append_assoc]
  · rw [Text.byteLength_append, hfront]
  · rw [Text.byteLength_append, hfront]
  · rw [LeftContext.ofText_append, LeftContext.ofText_append, hleft]
  · rw [Nat.add_assoc, Nat.add_assoc]
    refine h.places _ ?_
    rw [Text.byteLength_append, Text.byteLength_append, hfront]
    omega

theorem fragment (h : Aligned gap gap' text text' start start' chars) {fragment : Fragment}
    (hfragment : fragment.LiesIn chars) :
    (fragment.behind start).Alike gap gap' (fragment.behind start') := by
  have hplaces := (h.part hfragment).places
  exact ⟨rfl, hplaces 0 (Nat.zero_le _), hplaces _ (Nat.le_refl _)⟩

/-- The stretch is scanned into the same spans. -/
theorem scanRange (h : Aligned gap gap' text text' start start' chars) (table : Table)
    (restrict : Option KindSet) :
    ∃ left,
      table.scanRange text (.ofLength start (Text.byteLength chars)) restrict =
          (table.scanFrom restrict 0 left chars).map (Span.behind start)
        ∧ table.scanRange text' (.ofLength start' (Text.byteLength chars)) restrict =
          (table.scanFrom restrict 0 left chars).map (Span.behind start') := by
  obtain ⟨before, before', after, after', rfl, rfl, rfl, rfl, hleft⟩ := h.parts
  refine ⟨.ofText before, ?_, ?_⟩
  · rw [Table.scanRange, Text.slice_append, ← Table.scanFrom_add]
    simp only [Range.ofLength, Text.takeBytes_byteLength_append, Nat.add_zero]
  · rw [Table.scanRange, Text.slice_append, ← Table.scanFrom_add, hleft]
    simp only [Range.ofLength, Text.takeBytes_byteLength_append, Nat.add_zero]

end Aligned

/-! ## The spans of a stretch -/

/-- A fragment that ends within the beginning of a text lies in it. -/
theorem Fragment.LiesIn.of_append {fragment : Fragment} {before after : List Char}
    (h : fragment.LiesIn (before ++ after)) (hstop : fragment.stop ≤ Text.byteLength before) :
    fragment.LiesIn before := by
  obtain ⟨front, behind, hfront, hstart⟩ := h
  rw [← List.append_assoc, List.append_eq_append_iff] at hfront
  obtain ⟨more, hmore, -⟩ | ⟨more, hmore, -⟩ := hfront
  · have hlength := congrArg Text.byteLength hmore
    simp only [Text.byteLength_append] at hlength
    unfold Fragment.stop at hstop
    obtain rfl : more = [] := Text.byteLength_eq_zero_iff.1 (by omega)
    exact ⟨front, [], by rw [List.append_nil, hmore, List.append_nil], hstart⟩
  · exact ⟨front, more, by rw [hmore, List.append_assoc], hstart⟩

/-- Whether a span is one of a stretch of text. -/
structure Span.LiesIn (chars : List Char) (span : Span) : Prop where
  fragments : ∀ fragment ∈ span.fragments, fragment.LiesIn chars
  suits : span.Suits False
  /-- Interiors are shorter than the stretch. -/
  shorter : ∀ {kind opening interior closing}, span = .delimited kind opening interior closing →
    Text.byteLength interior.chars < Text.byteLength chars

/-- Spans of a chain lie in the text up to the end of the chain. -/
theorem Table.liesIn_of_chain {table : Table} {restrict : Option KindSet} {offset : Nat}
    {left : LeftContext} {text rest before after : List Char} {spans : List Span}
    (hchain : Chain text 0 (spans.flatMap Span.fragments) (Text.byteLength before))
    (htext : text = before ++ after)
    (hspans : spans ⊆ table.scanFrom restrict offset left rest) :
    ∀ span ∈ spans, span.LiesIn before := by
  intro span hspan
  have hscanned := hspans hspan
  obtain ⟨first, last, -, hparts, hlast⟩ := hchain.of_mem hspan
  refine ⟨fun fragment hfragment => ?_, suits_scanFrom nofun restrict offset left rest span hscanned,
    ?_⟩
  · obtain ⟨one, two, hone⟩ := List.append_of_mem hfragment
    rw [hone, chain_append] at hparts
    obtain ⟨middle, -, -, hliesIn, hbehind⟩ := hparts
    exact (htext ▸ hliesIn).of_append (Nat.le_trans hbehind.le hlast)
  · rintro kind opening interior closing rfl
    -- the opening marker makes the interior shorter than the stretch
    obtain ⟨rfl, -, hmiddle, -, hend, -, rfl⟩ := hparts
    have hopening := Fragment.start_lt_stop (table.marked_scanFrom _ _ _ _ _ hscanned)
    unfold Fragment.stop at *
    omega

theorem Table.liesIn_scanFrom (table : Table) (restrict : Option KindSet) (left : LeftContext)
    (chars : List Char) : ∀ span ∈ table.scanFrom restrict 0 left chars, span.LiesIn chars := by
  have hchain := table.chain_scanFrom restrict 0 left chars
    ⟨[], [], (List.append_nil chars).symm, rfl⟩
  rw [Nat.zero_add] at hchain
  exact liesIn_of_chain hchain (List.append_nil chars).symm (List.Subset.refl _)

end ConcreteSyntax
