import ConcreteSyntax.Proofs.Scan.Coverage
import ConcreteSyntax.Proofs.Scan.Resume
import Mathlib.Data.List.Nodup

/-!
# Precedence of kinds

Where several kinds match, a scan recognises the first of them in the order of candidates, and
it passes over a character only where none of them matches (`Table.scan_precedence`).  A kind
is therefore never recognised where one that patches it matches, at whatever places the two
are declared.
-/

namespace ConcreteSyntax

namespace Spec

/-- Whether the opening marker of a spec matches at a place. -/
def Opens (spec : Spec) (cx : Context) : Prop := ∃ n, spec.opening.length? cx = some n

/-- Whether a spec is of a paired kind, and its closing marker matches at a place and has
characters. -/
def Closes (spec : Spec) (cx : Context) : Prop :=
  spec.shape = .paired
    ∧ ∃ closing n, spec.closing = some closing ∧ closing.length? cx = some n ∧ 0 < n

/-- Whether a spec matches at a place. -/
def Matches (spec : Spec) (cx : Context) : Prop := spec.Opens cx ∨ spec.Closes cx

/-- Whether the marker that a span begins with is that of a spec at a place. -/
def Begins (spec : Spec) (cx : Context) : Span → Prop
  | .closer _ _ => spec.Closes cx
  | .leaf _ _ | .opener _ _ | .delimited _ _ _ _ => spec.Opens cx

/-- Whether a spec of a catalogue has to be tried before a kind: it patches the kind, or a
declared kind that has to be tried before it.  No kind has to be tried before itself. -/
inductive Patches (specs : List Spec) : Spec → Kind → Prop
  | direct {spec : Spec} {kind : Kind} :
      kind ≠ spec.kind → spec.patches.contains kind = true → Patches specs spec kind
  | through {spec via : Spec} {kind : Kind} :
      via ∈ specs → spec.patches.contains via.kind = true → Patches specs via kind →
        Patches specs spec kind

variable {spec : Spec} {cx : Context}

/-- What a spec recognises at a place begins with its marker there. -/
theorem begins_toSpan {found : Found} (h : spec.recognise? cx = some found) (offset : Nat)
    (rest : List Char) : spec.Begins cx (found.toSpan offset rest) := by
  unfold recognise? at h
  split at h
  · cases h
  · rename_i n hopening
    split at h <;> obtain rfl := Option.some.inj h <;> exact ⟨n + 1, hopening⟩
  · split at h
    · rename_i closing hshape hclosing
      split at h
      · rename_i n hlength
        obtain rfl := Option.some.inj h
        exact ⟨hshape, closing, n + 1, hclosing, hlength, Nat.succ_pos n⟩
      · cases h
    · cases h

/-- Without an empty opening marker, a spec recognises something wherever it matches. -/
theorem not_matches_of_recognise? (hproper : spec.opening.length? cx ≠ some 0)
    (h : spec.recognise? cx = none) : ¬ spec.Matches cx := by
  unfold recognise? at h
  rintro (⟨n, hopening⟩ | ⟨hshape, closing, n, hclosing, hlength, hpos⟩)
  · obtain ⟨m, rfl⟩ : ∃ m, n = m + 1 :=
      Nat.exists_eq_succ_of_ne_zero fun hzero => hproper (hzero ▸ hopening)
    rw [hopening] at h
    dsimp only at h
    split at h <;> cases h
  · obtain ⟨m, rfl⟩ := Nat.exists_eq_succ_of_ne_zero (Nat.ne_of_gt hpos)
    split at h
    · rename_i hzero
      exact hproper hzero
    · rw [hshape] at h
      cases h
    · rw [hshape, hclosing] at h
      simp only [hlength] at h
      cases h

end Spec

/-! ## Order -/

namespace Table.IsOrdered

variable {table : Table} {spec first : Spec} {before after : List Spec}

/-- A spec is tried before the specs that it patches. -/
theorem mem_of_contains (h : table.IsOrdered) (hspec : spec ∈ table.specs)
    (hsplit : table.candidates = before ++ first :: after) (hne : first.kind ≠ spec.kind)
    (hpatches : spec.patches.contains first.kind = true) : spec ∈ before := by
  have hthere : spec ∈ before ++ first :: after := hsplit ▸ h.perm.mem_iff.2 hspec
  have hordered := hsplit ▸ h.ordered
  rcases List.mem_append.1 hthere with hbefore | hbehind
  · exact hbefore
  rcases List.mem_cons.1 hbehind with rfl | hafter
  · exact absurd rfl hne
  · rcases (List.pairwise_cons.1 (List.pairwise_append.1 hordered).2.1).1 spec hafter with hkind | hno
    · exact absurd hkind.symm hne
    · rw [hpatches] at hno
      cases hno

theorem eq_of_kind_eq (h : table.IsOrdered) (hspec : spec ∈ table.specs)
    (hfirst : first ∈ table.specs) (hkind : spec.kind = first.kind) : spec = first :=
  List.inj_on_of_nodup_map h.distinct hspec hfirst hkind

/-- A spec is tried before all specs that it patches through others. -/
theorem mem_of_patches (h : table.IsOrdered) (hspec : spec ∈ table.specs) {kind : Kind}
    (hpatches : spec.Patches table.specs kind)
    (hsplit : table.candidates = before ++ first :: after) (hkind : first.kind = kind) :
    spec ∈ before := by
  induction hpatches generalizing before first after with
  | direct hne hcontains =>
      subst hkind
      exact h.mem_of_contains hspec hsplit hne hcontains
  | @through spec via kind hvia hcontains _ ih =>
      have hviaBefore := ih hvia hsplit hkind
      by_cases hsame : via.kind = spec.kind
      · rwa [← h.eq_of_kind_eq hvia hspec hsame]
      · obtain ⟨front, back, rfl⟩ := List.append_of_mem hviaBefore
        rw [List.append_assoc, List.cons_append] at hsplit
        exact List.mem_append_left _ (h.mem_of_contains hspec hsplit hsame hcontains)

end Table.IsOrdered

/-! ## Scans of a range -/

namespace Context

/-- Every place further on in a range lies in front of a place. -/
theorem exists_advance {text : List Char} {stop offset next : Nat}
    (hoffset : Text.isBoundary text offset = true) (hnext : Text.isBoundary text next = true)
    (hstop : Text.isBoundary text stop = true) (hle : offset ≤ next) (hle' : next ≤ stop) :
    ∃ n, next = offset + Text.byteLength ((ofText text stop offset).rest.take n)
      ∧ (ofText text stop offset).advance n = ofText text stop next := by
  have hnear := Range.stop_upTo hle
  have hfar := Range.stop_upTo hle'
  have hwhole := Range.stop_upTo (Nat.le_trans hle hle')
  have hsplit : Text.slice text (.upTo offset next) ++ Text.slice text (.upTo next stop) =
      (ofText text stop offset).rest :=
    Text.slice_append_slice hoffset hnext (by rwa [hfar]) hnear rfl (hwhole.trans hfar.symm)
  have hlength : Text.byteLength (Text.slice text (.upTo offset next)) = next - offset := by
    rw [Text.byteLength_slice hoffset (by rwa [hnear]), Range.length, hnear, Range.start_upTo]
  obtain ⟨place, hplace, -, -, hadvance⟩ := advance_ofText hoffset hstop
    (Nat.le_trans hle hle') (Text.slice text (.upTo offset next)).length
  rw [← hsplit, List.take_left, hlength, Nat.add_sub_cancel' hle] at hplace
  refine ⟨_, ?_, hplace ▸ hadvance⟩
  rw [← hsplit, List.take_left, hlength, Nat.add_sub_cancel' hle]

end Context

namespace Table

variable {table : Table} {restrict : Option KindSet} {text : List Char} {range : Range}

/-- Nothing is recognised at any place of a run of text. -/
theorem recognise?_of_lt_textRun {place : Context} {n : Nat}
    (h : n < table.textRun restrict place.toLeftContext place.rest) :
    table.recognise? restrict (place.advance n) = none := by
  obtain ⟨left, rest⟩ := place
  induction rest generalizing left n with
  | nil => simp [textRun] at h
  | cons c tail ih =>
      cases hfound : table.recognise? restrict ⟨left, c :: tail⟩ with
      | some found => simp [textRun, hfound] at h
      | none =>
          cases n with
          | zero => exact hfound
          | succ n =>
              simp only [textRun_of_none hfound] at h
              exact ih (left.push c) (Nat.lt_of_succ_lt_succ h)

/-- What the scan of a range made a span of, at the place where the span begins. -/
theorem scanRange_cases (hstart : Text.isBoundary text range.start = true)
    (hstop : Text.isBoundary text range.stop = true) {span : Span}
    (h : span ∈ table.scanRange text range restrict) :
    Text.isBoundary text span.range.start = true ∧ span.range.start < span.range.stop
      ∧ span.range.stop ≤ range.stop
      ∧ let place := Context.ofText text range.stop span.range.start
        (∃ found, table.recognise? restrict place = some found
            ∧ span = found.toSpan span.range.start place.rest)
          ∨ span.kind = .text ∧ span.range.stop = span.range.start + Text.byteLength
              (place.rest.take (table.textRun restrict place.toLeftContext place.rest)) := by
  obtain ⟨before, after, hsplit⟩ := List.append_of_mem h
  obtain ⟨offset, hoffset, -, hle, -, hscan⟩ := scanRange_eq_append hstart hstop .start hsplit
  have hupTo := Range.stop_upTo hle
  obtain ⟨hspan, hspanLe, -⟩ := scanRange_eq_cons hoffset (by rwa [hupTo]) .start hscan
  rw [Range.start_upTo] at hspan
  rw [scanRange_eq_scanFrom, hupTo, Range.start_upTo] at hscan
  rw [hupTo] at hspanLe
  obtain ⟨n, htake, hrange, -, hcases⟩ := scanFrom_cases hscan
  have hpos : Text.byteLength _ ≠ 0 := mt Text.byteLength_eq_zero_iff.1 htake
  have hlt : offset < span.range.stop := by
    simp only [hrange, Range.ofLength]
    omega
  rw [hspan]
  refine ⟨hoffset, hlt, hspanLe, ?_⟩
  obtain ⟨found, hfound, -, rfl⟩ | ⟨-, rfl, rfl⟩ := hcases
  · exact .inl ⟨found, hfound, rfl⟩
  · exact .inr ⟨rfl, rfl⟩

/-- How the order of candidates shows in spans of a range. -/
structure Precedes (table : Table) (text : List Char) (range : Range) (restrict : Option KindSet)
    (spans : List Span) : Prop where
  /-- A span that is not a text begins with a marker of its kind, and no kind that comes before
  this one and is asked for matches there. -/
  markers : ∀ span ∈ spans, span.kind ≠ .text →
    ∃ before spec after, table.candidates = before ++ spec :: after ∧ spec.kind = span.kind
      ∧ restrict.all (·.contains spec.kind) = true
      ∧ spec.Begins (.ofText text range.stop span.range.start) span
      ∧ ∀ other ∈ before, restrict.all (·.contains other.kind) = true →
          ¬ other.Matches (.ofText text range.stop span.range.start)
  /-- No kind that is asked for matches anywhere in a text. -/
  texts : ∀ span ∈ spans, span.kind = .text → ∀ offset, Text.isBoundary text offset = true →
    span.range.start ≤ offset → offset < span.range.stop → ∀ spec ∈ table.specs,
      restrict.all (·.contains spec.kind) = true → ¬ spec.Matches (.ofText text range.stop offset)
  /-- Where a kind that is asked for matches, no span of a kind begins that it patches. -/
  patches : ∀ spec ∈ table.specs, restrict.all (·.contains spec.kind) = true →
    ∀ kind, spec.Patches table.specs kind → ∀ span ∈ spans,
      spec.Matches (.ofText text range.stop span.range.start) → span.kind ≠ kind

theorem Precedes.subset {spans others : List Span} (h : table.Precedes text range restrict spans)
    (hsubset : others ⊆ spans) : table.Precedes text range restrict others where
  markers span hspan := h.markers span (hsubset hspan)
  texts span hspan := h.texts span (hsubset hspan)
  patches spec hspec hallowed kind hkind span hspan :=
    h.patches spec hspec hallowed kind hkind span (hsubset hspan)

section

variable (hordered : table.IsOrdered)
  (hproper : ∀ spec ∈ table.specs, ∀ cx, spec.opening.length? cx ≠ some 0)
  (hstart : Text.isBoundary text range.start = true)
  (hstop : Text.isBoundary text range.stop = true)

include hordered hproper hstart hstop

theorem begins_of_mem_scanRange {span : Span}
    (hspan : span ∈ table.scanRange text range restrict) (hkind : span.kind ≠ .text) :
    ∃ before spec after, table.candidates = before ++ spec :: after ∧ spec.kind = span.kind
      ∧ restrict.all (·.contains spec.kind) = true
      ∧ spec.Begins (.ofText text range.stop span.range.start) span
      ∧ ∀ other ∈ before, restrict.all (·.contains other.kind) = true →
          ¬ other.Matches (.ofText text range.stop span.range.start) := by
  obtain ⟨-, -, -, ⟨found, hfound, hfoundSpan⟩ | ⟨hleaf, hspanStop⟩⟩ :=
    scanRange_cases hstart hstop hspan
  · obtain ⟨before, spec, after, hsplit, hallowed, hrecognised, hbefore⟩ :=
      exists_of_recognise? hfound
    refine ⟨before, spec, after, hsplit, ?_, hallowed, ?_, fun other hother hotherAllowed => ?_⟩
    · rw [hfoundSpan, Spec.kind_of_recognise? hrecognised]
    · exact hfoundSpan ▸ Spec.begins_toSpan hrecognised _ _
    · have hdeclared : other ∈ table.specs := hordered.perm.mem_iff.1 (by simp [hsplit, hother])
      exact Spec.not_matches_of_recognise? (hproper other hdeclared _)
        (hbefore other hother hotherAllowed)
  · exact absurd hleaf hkind

theorem not_matches_of_mem_scanRange (htext : table.kinds.contains .text = false) {span : Span}
    (hspan : span ∈ table.scanRange text range restrict) (hkind : span.kind = .text)
    {offset : Nat} (hoffset : Text.isBoundary text offset = true)
    (hle : span.range.start ≤ offset) (hlt : offset < span.range.stop) {spec : Spec}
    (hspec : spec ∈ table.specs) (hallowed : restrict.all (·.contains spec.kind) = true) :
    ¬ spec.Matches (.ofText text range.stop offset) := by
  obtain ⟨hboundary, -, hstopLe, ⟨found, hfound, hfoundSpan⟩ | ⟨hleaf, hspanStop⟩⟩ :=
    scanRange_cases hstart hstop hspan
  · have hcandidate : ∀ spec ∈ table.candidates, spec.kind ≠ .text := fun spec hspec =>
      kind_ne_of_notMem (hordered.perm.mem_iff.1 hspec) htext
    rw [hfoundSpan] at hkind
    exact absurd hkind (kind_ne_text_of_recognise? hcandidate hfound _ _)
  · obtain ⟨n, hn, hadvance⟩ := Context.exists_advance hboundary hoffset hstop hle (by omega)
    have hrun : n < table.textRun restrict
        (Context.ofText text range.stop span.range.start).toLeftContext
        (Context.ofText text range.stop span.range.start).rest := by
      by_contra hge
      have hbytes := Text.byteLength_take_le
        (Context.ofText text range.stop span.range.start).rest (not_lt.1 hge)
      omega
    have hnone := recognise?_of_lt_textRun hrun
    rw [hadvance] at hnone
    exact Spec.not_matches_of_recognise? (hproper spec hspec _)
      (recognise?_eq_none_iff.1 hnone spec (hordered.perm.mem_iff.2 hspec) hallowed)

end

/-- The spans of a range keep to the order of candidates, and so does what is yielded when a
scan breaks. -/
theorem scan_precedence {specs : List Spec} {table : Table} (hbuild : build specs = .ok table)
    (htext : table.kinds.contains .text = false)
    (hproper : ∀ spec ∈ specs, ∀ cx, spec.opening.length? cx ≠ some 0)
    (text : List Char) (range : Range) (restrict : Option KindSet)
    (hstart : Text.isBoundary text range.start = true)
    (hstop : Text.isBoundary text range.stop = true) :
    table.Precedes text range restrict (table.scanRange text range restrict)
      ∧ table.Precedes text range restrict (table.yieldRange text range restrict).1 := by
  obtain ⟨rfl, hordered⟩ := build_eq_ok hbuild
  have hscan : table.Precedes text range restrict (table.scanRange text range restrict) := by
    refine ⟨fun span hspan => begins_of_mem_scanRange hordered hproper hstart hstop hspan,
      fun span hspan hkind offset hoffset hle hlt spec hspec =>
        not_matches_of_mem_scanRange hordered hproper hstart hstop htext hspan hkind hoffset hle
          hlt hspec, ?_⟩
    rintro spec hspec hallowed kind hpatches span hspan hmatches rfl
    by_cases hkind : span.kind = .text
    · obtain ⟨hboundary, hlt, -⟩ := scanRange_cases hstart hstop hspan
      exact not_matches_of_mem_scanRange hordered hproper hstart hstop htext hspan hkind hboundary
        (Nat.le_refl _) hlt hspec hallowed hmatches
    · obtain ⟨before, first, after, hsplit, hfirst, -, -, hbefore⟩ :=
        begins_of_mem_scanRange hordered hproper hstart hstop hspan hkind
      exact hbefore spec (hordered.mem_of_patches hspec hpatches hsplit hfirst) hallowed hmatches
  exact ⟨hscan, hscan.subset (yieldRange_initial table restrict hstart hstop).subset⟩

/-- A marker of two colons that is declared behind the colon that it patches. -/
theorem scan_precedence_of_colons :
    let colon := Spec.literal .colon ":"
    let colons := (Spec.literal .doubleColon "::").patching [.colon]
    let table : Table := ⟨[colon, colons], [colons, colon]⟩
    build [colon, colons] = .ok table ∧ colons.Patches table.specs .colon
      ∧ table.Precedes ['a', ':', ':'] (.upTo 0 3) none
        (table.scanRange ['a', ':', ':'] (.upTo 0 3) none) := by
  intro colon colons table
  have horder : Backlog.settle [colon, colons] 2 (.start [colon, colons]) = [1, 0] := by
    decide +kernel
  have hbuild : build [colon, colons] = .ok table := build_of_settle (by decide) horder rfl
  have hproper : ∀ spec ∈ [colon, colons], ∀ cx, spec.opening.length? cx ≠ some 0 := by
    rw [List.forall_mem_cons, List.forall_mem_singleton]
    exact ⟨Pattern.IsProper.length?_ne_zero (List.cons_ne_nil _ _),
      Pattern.IsProper.length?_ne_zero (List.cons_ne_nil _ _)⟩
  exact ⟨hbuild, .direct (by decide) (by decide),
    (scan_precedence hbuild (by decide) hproper _ (.upTo 0 3) none (by decide) (by decide)).1⟩

end Table

end ConcreteSyntax
