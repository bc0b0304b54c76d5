import ConcreteSyntax.Proofs.Scan.Order
import ConcreteSyntax.Proofs.Text
import ConcreteSyntax.Scan.Span

/-!
# Spans of a text

The spans of a range of a text follow one another from its start to its end, and say what
their kinds allow: only kinds of containers are opened and delimited.
-/

namespace ConcreteSyntax

/-- Fragments that follow one another in a text from `start` to `stop`. -/
def Chain (text : List Char) (start : Nat) : List Fragment → Nat → Prop
  | [], stop => start = stop
  | fragment :: rest, stop =>
      fragment.start = start ∧ fragment.LiesIn text ∧ Chain text fragment.stop rest stop

theorem chain_append {text : List Char} {start stop : Nat} {left right : List Fragment} :
    Chain text start (left ++ right) stop ↔
      ∃ middle, Chain text start left middle ∧ Chain text middle right stop := by
  induction left generalizing start with
  | nil => simp [Chain]
  | cons fragment rest ih => simp [Chain, ih, and_assoc]

namespace Span

/-- The fragments of a span. -/
def fragments : Span → List Fragment
  | .leaf _ text => [text]
  | .opener _ text => [text]
  | .closer _ text => [text]
  | .delimited _ opening interior closing => [opening, interior, closing]

/-- Whether the kind of a span suits it, where kinds are `sound`. -/
def Suits (sound : Prop) : Span → Prop
  | .leaf kind _ => sound → kind.isAtomic = true
  | .opener kind _ => kind.isAtomic = false
  | .closer _ _ => True
  | .delimited kind _ _ _ => kind.isAtomic = false

end Span

/-- What is recognised in front of a rest of a text follows one another there. -/
theorem Found.chain_toSpan {text rest : List Char} {offset : Nat} (found : Found)
    (h : Fragment.LiesIn ⟨offset, rest⟩ text) :
    Chain text offset (found.toSpan offset rest).fragments
      (offset + Text.byteLength (rest.take found.length)) := by
  have htake : ∀ n, Fragment.LiesIn ⟨offset, rest.take n⟩ text := by
    intro n
    rw [← List.take_append_drop n rest] at h
    exact h.split.1
  cases found with
  | leaf kind n => exact ⟨rfl, htake n, rfl⟩
  | opener kind n => exact ⟨rfl, htake n, rfl⟩
  | closer kind n => exact ⟨rfl, htake n, rfl⟩
  | delimited kind opening interior closing =>
      have h' := h
      rw [← List.take_append_drop opening rest] at h'
      obtain ⟨hopening, hrest⟩ := h'.split
      rw [← List.take_append_drop interior (rest.drop opening)] at hrest
      obtain ⟨hinterior, hrest⟩ := hrest.split
      rw [← List.take_append_drop closing ((rest.drop opening).drop interior)] at hrest
      obtain ⟨hclosing, _⟩ := hrest.split
      refine ⟨rfl, hopening, rfl, hinterior, rfl, hclosing, ?_⟩
      simp only [Chain, length, Fragment.stop, List.take_add, Text.byteLength_append]
      omega

theorem Found.range_toSpan (found : Found) (offset : Nat) (rest : List Char) :
    (found.toSpan offset rest).range =
      .ofLength offset (Text.byteLength (rest.take found.length)) := by
  cases found with
  | leaf kind n => rfl
  | opener kind n => rfl
  | closer kind n => rfl
  | delimited kind opening interior closing =>
      apply Range.ext <;>
        simp only [toSpan, Span.range, Range.cover, Fragment.range, Fragment.stop, Range.ofLength,
          length, List.take_add, Text.byteLength_append] <;> omega

namespace Table

/-- In a sound table, kinds without a closing marker are kinds of leaves. -/
def IsSound (table : Table) : Prop :=
  ∀ spec ∈ table.candidates, spec.closing = none → spec.kind.isAtomic = true

/-- A table is sound when the catalogue is. -/
theorem isSound_ofCatalogue {specs : List Spec}
    (h : specs.all (fun spec => spec.closing.isSome || spec.kind.isAtomic) = true) :
    (ofCatalogue specs).IsSound := by
  intro spec hspec hclosing
  have hself := List.all_eq_true.1 h spec (mem_of_mem_candidates hspec)
  simpa [hclosing] using hself

/-- What recognises something at a place, and what was tried before it in vain. -/
theorem exists_of_recognise? {table : Table} {restrict : Option KindSet} {cx : Context}
    {found : Found} (h : table.recognise? restrict cx = some found) :
    ∃ before spec after, table.candidates = before ++ spec :: after
      ∧ restrict.all (·.contains spec.kind) = true ∧ spec.recognise? cx = some found
      ∧ ∀ other ∈ before, restrict.all (·.contains other.kind) = true →
          other.recognise? cx = none := by
  obtain ⟨before, spec, after, hcandidates, hspec, hbefore⟩ := List.findSome?_eq_some_iff.1 h
  rw [Option.ite_none_right_eq_some] at hspec
  exact ⟨before, spec, after, hcandidates, hspec.1, hspec.2, fun other hother hallowed => by
    simpa [hallowed] using hbefore other hother⟩

theorem recognise?_eq_none_iff {table : Table} {restrict : Option KindSet} {cx : Context} :
    table.recognise? restrict cx = none ↔
      ∀ spec ∈ table.candidates, restrict.all (·.contains spec.kind) = true →
        spec.recognise? cx = none := by
  simp only [recognise?, List.findSome?_eq_none_iff, ite_eq_right_iff]

/-- What the first span of a scan is, and how the scan goes on behind it. -/
theorem scanFrom_cases {table : Table} {restrict : Option KindSet} {offset : Nat}
    {place : Context} {span : Span} {after : List Span}
    (h : table.scanFrom restrict offset place.toLeftContext place.rest = span :: after) :
    ∃ n, place.rest.take n ≠ []
      ∧ span.range = .ofLength offset (Text.byteLength (place.rest.take n))
      ∧ table.scanFrom restrict (offset + Text.byteLength (place.rest.take n))
          (place.advance n).toLeftContext (place.advance n).rest = after
      ∧ ((∃ found, table.recognise? restrict place = some found ∧ n = found.length
            ∧ span = found.toSpan offset place.rest)
        ∨ (table.recognise? restrict place = none
            ∧ n = table.textRun restrict place.toLeftContext place.rest
            ∧ span = .leaf .text ⟨offset, place.rest.take n⟩)) := by
  obtain ⟨left, rest⟩ := place
  cases rest with
  | nil => simp [scanFrom] at h
  | cons c tail =>
      cases hfound : table.recognise? restrict ⟨left, c :: tail⟩ with
      | some found =>
          have hpos := length_pos_of_recognise? hfound
          rw [scanFrom_of_some hfound] at h
          obtain ⟨rfl, rfl⟩ := List.cons.inj h
          exact ⟨found.length, by simp; omega, found.range_toSpan .., rfl,
            .inl ⟨found, rfl, rfl, rfl⟩⟩
      | none =>
          rw [scanFrom_of_none hfound] at h
          obtain ⟨rfl, rfl⟩ := List.cons.inj h
          exact ⟨table.textRun restrict (left.push c) tail + 1, List.cons_ne_nil _ _, rfl, rfl,
            .inr ⟨rfl, (textRun_of_none hfound).symm, rfl⟩⟩

theorem chain_scanFrom (table : Table) (restrict : Option KindSet) {text : List Char}
    (offset : Nat) (left : LeftContext) (rest : List Char)
    (h : Fragment.LiesIn ⟨offset, rest⟩ text) :
    Chain text offset ((table.scanFrom restrict offset left rest).flatMap Span.fragments)
      (offset + Text.byteLength rest) := by
  fun_induction scanFrom table restrict offset left rest with
  | case1 => simp [Chain]
  | case2 offset left c tail found hfound taken ih =>
      have hfirst := found.chain_toSpan h
      have hsplit : c :: tail = taken ++ (c :: tail).drop found.length :=
        (List.take_append_drop found.length (c :: tail)).symm
      rw [hsplit] at h
      rw [List.flatMap_cons, chain_append]
      refine ⟨_, hfirst, ?_⟩
      rw [hsplit, Text.byteLength_append, ← Nat.add_assoc, ← hsplit]
      exact ih h.split.2
  | case3 offset left c tail hfound taken ih =>
      have hsplit : c :: tail =
          taken ++ tail.drop (table.textRun restrict (left.push c) tail) := by
        rw [List.cons_append, List.take_append_drop]
      rw [hsplit] at h
      rw [List.flatMap_cons, chain_append]
      refine ⟨_, ⟨rfl, h.split.1, rfl⟩, ?_⟩
      rw [hsplit, Text.byteLength_append, ← Nat.add_assoc]
      exact ih h.split.2

/-- The spans of a range of a text follow one another over the whole range. -/
theorem chain_scanRange (table : Table) (restrict : Option KindSet) {text : List Char}
    {range : Range} (hstart : Text.isBoundary text range.start = true)
    (hstop : Text.isBoundary text range.stop = true) :
    Chain text range.start ((table.scanRange text range restrict).flatMap Span.fragments)
      range.stop := by
  have hchain := table.chain_scanFrom restrict range.start
    (.ofText (Text.takeBytes range.start text)) _ (Fragment.liesIn_ofRange hstart hstop)
  have hlength := Fragment.stop_ofRange hstart hstop
  rw [Fragment.stop] at hlength
  exact hlength ▸ hchain

end Table

namespace Spec

/-- What the shape of a spec says of its kind: leaves with a closing marker are atomic, and
what has an interior is a container. -/
theorem of_shape (spec : Spec) :
    match spec.shape with
    | .leaf => spec.closing = none
    | .delimitedLeaf => spec.kind.isAtomic = true
    | .paired => spec.kind.isAtomic = false
    | .delimitedContainer => spec.kind.isAtomic = false := by
  cases hclosing : spec.closing with
  | none => simp only [shape, hclosing]
  | some closing =>
      cases hkind : spec.kind.isAtomic with
      | true => simp only [shape, hclosing, hkind]
      | false => cases hinterior : spec.interior <;> simp only [shape, hclosing, hkind, hinterior]

theorem kind_of_recognise? {spec : Spec} {cx : Context} {found : Found}
    (h : spec.recognise? cx = some found) (offset : Nat) (rest : List Char) :
    (found.toSpan offset rest).kind = spec.kind := by
  unfold recognise? at h
  split at h
  · simp at h
  · split at h <;> simp only [Option.some.injEq] at h <;> subst h <;> rfl
  · split at h
    · split at h
      · simp only [Option.some.injEq] at h
        subst h
        rfl
      · simp at h
    · simp at h

theorem suits_toSpan {sound : Prop} {spec : Spec} {cx : Context} {found : Found}
    (hsound : sound → spec.closing = none → spec.kind.isAtomic = true)
    (h : spec.recognise? cx = some found) (offset : Nat) (rest : List Char) :
    (found.toSpan offset rest).Suits sound := by
  have hkind := spec.of_shape
  unfold Spec.recognise? at h
  split at h
  · simp at h
  · split at h <;> rename_i hshape <;> rw [hshape] at hkind <;>
      simp only [Option.some.injEq] at h <;> subst h
    · exact fun hs => hsound hs hkind
    · exact fun _ => hkind
    · exact hkind
    · exact hkind
  · split at h
    · split at h
      · simp only [Option.some.injEq] at h
        subst h
        trivial
      · simp at h
    · simp at h

end Spec

namespace Table

theorem kind_scanFrom {table : Table} {allowed : Kind → Prop} (restrict : Option KindSet)
    (htext : allowed .text) (hspecs : ∀ spec ∈ table.candidates,
      restrict.all (·.contains spec.kind) = true → allowed spec.kind)
    (offset : Nat) (left : LeftContext) (rest : List Char) :
    ∀ span ∈ table.scanFrom restrict offset left rest, allowed span.kind := by
  fun_induction scanFrom table restrict offset left rest with
  | case1 => simp
  | case2 offset left c tail found hfound taken ih =>
      rw [List.forall_mem_cons]
      refine ⟨?_, ih⟩
      obtain ⟨before, spec, after, hcandidates, hallowed, hrecognised, _⟩ :=
        exists_of_recognise? hfound
      rw [Spec.kind_of_recognise? hrecognised]
      exact hspecs spec (by simp [hcandidates]) hallowed
  | case3 offset left c tail hfound taken ih =>
      rw [List.forall_mem_cons]
      exact ⟨htext, ih⟩

theorem suits_scanFrom {sound : Prop} {table : Table} (hsound : sound → table.IsSound)
    (restrict : Option KindSet) (offset : Nat) (left : LeftContext) (rest : List Char) :
    ∀ span ∈ table.scanFrom restrict offset left rest, span.Suits sound := by
  fun_induction scanFrom table restrict offset left rest with
  | case1 => simp
  | case2 offset left c tail found hfound taken ih =>
      rw [List.forall_mem_cons]
      refine ⟨?_, ih⟩
      obtain ⟨before, spec, after, hcandidates, _, hrecognised, _⟩ := exists_of_recognise? hfound
      exact Spec.suits_toSpan (fun hs => hsound hs spec (by simp [hcandidates])) hrecognised _ _
  | case3 offset left c tail hfound taken ih =>
      rw [List.forall_mem_cons]
      exact ⟨fun _ => by decide, ih⟩

end Table

/-! ## Markers -/

theorem Fragment.start_lt_stop {fragment : Fragment} (h : fragment.chars ≠ []) :
    fragment.start < fragment.stop := by
  have hlength : Text.byteLength fragment.chars ≠ 0 := mt Text.byteLength_eq_zero_iff.1 h
  unfold stop
  omega

namespace Span

/-- Whether what opens a span, or is a marker on its own, has characters. -/
def Marked : Span → Prop
  | .leaf _ _ => True
  | .opener _ text | .closer _ text => text.chars ≠ []
  | .delimited _ opening _ _ => opening.chars ≠ []

end Span

theorem Spec.marked_toSpan {spec : Spec} {cx : Context} {found : Found}
    (h : spec.recognise? cx = some found) (offset : Nat) {rest : List Char} (hrest : rest ≠ []) :
    (found.toSpan offset rest).Marked := by
  have htake : ∀ n, rest.take (n + 1) ≠ [] := by
    intro n hnil
    rcases List.take_eq_nil_iff.1 hnil with hzero | hnil
    · cases hzero
    · exact hrest hnil
  unfold recognise? at h
  split at h
  · simp at h
  · split at h <;> simp only [Option.some.injEq] at h <;> subst h
    · trivial
    · trivial
    · exact htake _
    · exact htake _
  · split at h
    · split at h
      · simp only [Option.some.injEq] at h
        subst h
        exact htake _
      · simp at h
    · simp at h

theorem Table.marked_scanFrom (table : Table) (restrict : Option KindSet) (offset : Nat)
    (left : LeftContext) (rest : List Char) :
    ∀ span ∈ table.scanFrom restrict offset left rest, span.Marked := by
  fun_induction scanFrom table restrict offset left rest with
  | case1 => simp
  | case2 offset left c tail found hfound taken ih =>
      rw [List.forall_mem_cons]
      refine ⟨?_, ih⟩
      obtain ⟨_, spec, _, _, _, hrecognised, _⟩ := exists_of_recognise? hfound
      exact Spec.marked_toSpan hrecognised _ (List.cons_ne_nil _ _)
  | case3 offset left c tail hfound taken ih =>
      rw [List.forall_mem_cons]
      exact ⟨trivial, ih⟩

namespace Chain

variable {text : List Char} {start stop : Nat}

theorem le {fragments : List Fragment} (h : Chain text start fragments stop) : start ≤ stop := by
  induction fragments generalizing start with
  | nil => exact Nat.le_of_eq h
  | cons fragment rest ih =>
      have hrest := ih h.2.2
      have hfirst := h.1
      unfold Fragment.stop at hrest
      omega

theorem liesIn {fragments : List Fragment} (h : Chain text start fragments stop) :
    ∀ fragment ∈ fragments, fragment.LiesIn text := by
  induction fragments generalizing start with
  | nil => simp
  | cons fragment rest ih => exact List.forall_mem_cons.2 ⟨h.2.1, ih h.2.2⟩

/-- Each span of a text has its place between the ends. -/
theorem of_mem {spans : List Span} (h : Chain text start (spans.flatMap Span.fragments) stop)
    {span : Span} (hspan : span ∈ spans) :
    ∃ first last, start ≤ first ∧ Chain text first span.fragments last ∧ last ≤ stop := by
  obtain ⟨before, after, rfl⟩ := List.append_of_mem hspan
  rw [List.flatMap_append, List.flatMap_cons, chain_append] at h
  obtain ⟨first, hbefore, hrest⟩ := h
  obtain ⟨last, hself, hafter⟩ := chain_append.1 hrest
  exact ⟨first, last, hbefore.le, hself, hafter.le⟩

end Chain

end ConcreteSyntax
