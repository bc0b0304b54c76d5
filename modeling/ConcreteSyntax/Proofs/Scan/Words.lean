import ConcreteSyntax.Proofs.Scan.Closing
import ConcreteSyntax.Proofs.Scan.Coverage
import ConcreteSyntax.Proofs.Scan.Resume

/-!
# Words stay whole

A place splits a word when identifier characters stand on both sides of it.  Where the markers of a
table keep apart from words, no span and no part of a delimited container begins at such a place
(`Table.KeepsWords.scanRange`).
-/

namespace ConcreteSyntax

namespace Text

/-- Whether a word goes on from the end of one text into the beginning of the next. -/
def joins (before after : List Char) : Bool :=
  before.getLast?.any isIdentifier && after.head?.any isIdentifier

/-- Whether a place in a text stands inside a word. -/
def splitsWord (text : List Char) (offset : Nat) : Bool :=
  joins (takeBytes offset text) (dropBytes offset text)

theorem splitsWord_append (before after : List Char) :
    splitsWord (before ++ after) (byteLength before) = joins before after := by
  rw [splitsWord, takeBytes_byteLength_append, dropBytes_byteLength_append]

@[simp] theorem joins_nil_left (after : List Char) : joins [] after = false := rfl

@[simp] theorem joins_nil_right (before : List Char) : joins before [] = false := by
  simp [joins]

/-- What stands behind a text matters for a word in front of it only if the text is empty. -/
theorem joins_append {before rest behind : List Char} (h : joins before rest = false)
    (hstop : joins (before ++ rest) behind = false) : joins before (rest ++ behind) = false := by
  cases rest with
  | nil => simpa using hstop
  | cons c rest => exact h

/-- What stands farther around two texts does not part a word that goes on between them. -/
theorem joins_of_around {front before after behind : List Char}
    (h : joins (front ++ before) (after ++ behind) = false) : joins before after = false := by
  rw [Bool.eq_false_iff] at h ⊢
  intro hjoins
  obtain ⟨hbefore, hafter⟩ := (Bool.and_eq_true _ _).mp hjoins
  obtain ⟨c, hc, hcWord⟩ := (Option.any_eq_true _ _).1 hbefore
  obtain ⟨d, hd, hdWord⟩ := (Option.any_eq_true _ _).1 hafter
  refine h ((Bool.and_eq_true _ _).mpr
    ⟨(Option.any_eq_true _ _).2 ⟨c, ?_, hcWord⟩, (Option.any_eq_true _ _).2 ⟨d, ?_, hdWord⟩⟩)
  · rw [List.getLast?_append, hc, Option.some_or]
  · rw [List.head?_append, hd, Option.some_or]

end Text

open Text

namespace Context

/-- Whether a place stands inside a word. -/
def splitsWord (cx : Context) : Bool := isIdentifier cx.previous && cx.rest.head?.any isIdentifier

theorem splitsWord_ofText (before rest : List Char) :
    splitsWord ⟨.ofText before, rest⟩ = joins before rest := by
  unfold splitsWord joins LeftContext.ofText
  cases before.getLast? <;> rfl

theorem splitsWord_of_rest {cx : Context} (h : cx.rest.head?.any isIdentifier = false) :
    cx.splitsWord = false := by
  rw [splitsWord, h, Bool.and_false]

theorem splitsWord_of_previous {cx : Context} (h : isIdentifier cx.previous = false) :
    cx.splitsWord = false := by
  rw [splitsWord, h, Bool.false_and]

end Context

theorem LeftContext.previous_after (left : LeftContext) (text : List Char) :
    (left.after text).previous = text.getLast?.getD left.previous := by
  induction text using List.reverseRecOn with
  | nil => rfl
  | append_singleton text c _ => simp [after, push]

/-- Behind characters the last of which is not one of a word, no word is split. -/
theorem Context.splitsWord_advance {cx : Context} {n : Nat} {c : Char}
    (hlast : (cx.rest.take n).getLast? = some c) (hc : isIdentifier c = false) :
    (cx.advance n).splitsWord = false := by
  apply splitsWord_of_previous
  rw [advance, LeftContext.previous_after, hlast]
  exact hc

namespace Pattern

/-- Whether no match of a pattern begins inside a word. -/
def StartsApart (pattern : Pattern) : Prop :=
  ∀ cx n, pattern.length? cx = some n → cx.splitsWord = false

/-- Whether no match of a pattern ends inside a word. -/
def EndsApart (pattern : Pattern) : Prop :=
  ∀ cx n, pattern.length? cx = some n → (cx.advance n).splitsWord = false

/-- Whether no match of a pattern has an end inside a word. -/
structure IsApart (pattern : Pattern) : Prop where
  starts : pattern.StartsApart
  ends : pattern.EndsApart

/-- Whether a pattern that is a fixed text begins and ends with characters that are not of words. -/
def hasEdges : Pattern → Bool
  | .literal text =>
      text.head?.any (!isIdentifier ·) && text.getLast?.any (!isIdentifier ·)
  | .keyword _ | .custom _ => true

variable {text : List Char}

theorem startsApart_literal (h : text.head?.any (!isIdentifier ·) = true) :
    (literal text).StartsApart := by
  intro cx n hlength
  obtain ⟨hfront, -⟩ := Option.ite_none_right_eq_some.1 hlength
  obtain ⟨after, hafter⟩ := List.isPrefixOf_iff_prefix.1 hfront
  obtain ⟨c, hc, hcEdge⟩ := (Option.any_eq_true _ _).1 h
  apply Context.splitsWord_of_rest
  rw [← hafter, List.head?_append, hc, Option.some_or]
  simpa using hcEdge

theorem endsApart_literal (h : text.getLast?.any (!isIdentifier ·) = true) :
    (literal text).EndsApart := by
  intro cx n hlength
  obtain ⟨hfront, hn⟩ := Option.ite_none_right_eq_some.1 hlength
  obtain ⟨after, hafter⟩ := List.isPrefixOf_iff_prefix.1 hfront
  obtain rfl := Option.some.inj hn
  obtain ⟨c, hc, hcEdge⟩ := (Option.any_eq_true _ _).1 h
  refine Context.splitsWord_advance (c := c) ?_ (by simpa using hcEdge)
  rw [← hafter, List.take_left, hc]

theorem startsApart_keyword (word : List Char) : (keyword word).StartsApart := by
  intro cx n hlength
  have hbounds := (Option.ite_none_right_eq_some.1 hlength).1
  simp only [Bool.and_eq_true, Context.atWordBoundary, Bool.not_eq_true'] at hbounds
  exact Context.splitsWord_of_previous hbounds.1.1

theorem endsApart_keyword (word : List Char) : (keyword word).EndsApart := by
  intro cx n hlength
  obtain ⟨hbounds, hn⟩ := Option.ite_none_right_eq_some.1 hlength
  obtain rfl := Option.some.inj hn
  simp only [Bool.and_eq_true, Bool.not_eq_true'] at hbounds
  exact Context.splitsWord_of_rest hbounds.2

variable {pattern : Pattern}

/-- Only rules need a look at what they measure. -/
theorem isApart_of_hasEdges (h : pattern.hasEdges = true)
    (hrule : ∀ rule, pattern = .custom rule → (custom rule).IsApart) : pattern.IsApart := by
  cases pattern with
  | literal text =>
      rw [hasEdges, Bool.and_eq_true] at h
      exact ⟨startsApart_literal h.1, endsApart_literal h.2⟩
  | keyword word => exact ⟨startsApart_keyword word, endsApart_keyword word⟩
  | custom rule => exact hrule rule rfl

end Pattern

namespace Spec

/-- Whether no marker of a spec stands with an end inside a word.  What follows the opening marker
of a leaf belongs to the leaf, so the marker may end anywhere. -/
structure KeepsWords (spec : Spec) : Prop where
  starts : spec.opening.StartsApart
  ends : spec.shape ≠ .delimitedLeaf → spec.opening.EndsApart
  closing : ∀ closing, spec.closing = some closing → closing.IsApart

variable {spec : Spec} {cx : Context} {found : Found}

/-- Neither end of a closing marker splits a word, nor does the end of the text. -/
theorem KeepsWords.seekClosing (h : spec.KeepsWords) (hclosing : spec.closing ≠ none)
    (first : Context) :
    (first.advance (spec.seekClosing first).1).splitsWord = false
      ∧ (first.advance ((spec.seekClosing first).1 + (spec.seekClosing first).2)).splitsWord =
        false := by
  obtain ⟨closing, hclosing⟩ := Option.ne_none_iff_exists'.1 hclosing
  obtain ⟨hstarts, hends⟩ := h.closing closing hclosing
  have hseek := closing.endsIn_seek spec.escape first.toLeftContext first.rest
  unfold Spec.seekClosing
  rw [hclosing]
  rcases hseek with ⟨hcloses, -⟩ | ⟨hlength, hzero, -⟩
  · rw [← Context.advance_advance]
    exact ⟨hstarts _ _ hcloses.found, hends _ _ hcloses.found⟩
  · have hstop : (first.advance first.rest.length).splitsWord = false :=
      Context.splitsWord_of_rest (by simp [Context.advance])
    dsimp only at hlength hzero ⊢
    rw [hzero, hlength]
    exact ⟨hstop, hstop⟩

end Spec

/-- Whether no end of what is recognised at a place, and no end of its interior, splits a word. -/
structure Found.KeepsWords (found : Found) (cx : Context) : Prop where
  start : cx.splitsWord = false
  stop : (cx.advance found.length).splitsWord = false
  interior : ∀ kind opening interior closing,
    found = .delimited kind opening interior closing →
      (cx.advance opening).splitsWord = false
        ∧ (cx.advance (opening + interior)).splitsWord = false

theorem Spec.KeepsWords.recognise? {spec : Spec} {cx : Context} {found : Found}
    (h : spec.KeepsWords) (hfound : spec.recognise? cx = some found) : found.KeepsWords cx := by
  unfold Spec.recognise? at hfound
  split at hfound
  · cases hfound
  · rename_i n hopening
    have hstart := h.starts _ _ hopening
    have hseek := fun hclosing => h.seekClosing hclosing (cx.advance (n + 1))
    simp only [Context.advance_advance] at hseek
    split at hfound <;> rename_i hshape <;> obtain rfl := Option.some.inj hfound
    case h_1 | h_3 =>
      refine ⟨hstart, h.ends (by simp [hshape]) _ _ hopening, ?_⟩
      rintro _ _ _ _ ⟨⟩
    case h_2 =>
      have hclosing : spec.closing ≠ none := fun hnone => by simp [Spec.shape, hnone] at hshape
      refine ⟨hstart, (hseek hclosing).2, ?_⟩
      rintro _ _ _ _ ⟨⟩
    case h_4 =>
      have hclosing : spec.closing ≠ none := fun hnone => by simp [Spec.shape, hnone] at hshape
      refine ⟨hstart, (hseek hclosing).2, ?_⟩
      rintro _ _ _ _ ⟨⟩
      exact ⟨h.ends (by simp [hshape]) _ _ hopening, (hseek hclosing).1⟩
  · split at hfound
    · rename_i closing hshape hclosing
      obtain ⟨hstarts, hends⟩ := h.closing closing hclosing
      split at hfound
      · rename_i n hlength
        obtain rfl := Option.some.inj hfound
        refine ⟨hstarts _ _ hlength, hends _ _ hlength, ?_⟩
        rintro _ _ _ _ ⟨⟩
      · cases hfound
    · cases hfound

namespace Table

/-- Whether no marker of a table stands with an end inside a word. -/
def KeepsWords (table : Table) : Prop := ∀ spec ∈ table.candidates, spec.KeepsWords

variable {table : Table} {restrict : Option KindSet}

theorem KeepsWords.recognise? (h : table.KeepsWords) {cx : Context} {found : Found}
    (hfound : table.recognise? restrict cx = some found) : found.KeepsWords cx := by
  obtain ⟨before, spec, after, hcandidates, -, hspec, -⟩ := exists_of_recognise? hfound
  exact (h spec (by simp [hcandidates])).recognise? hspec

/-- Behind what is not recognised, too, no word is split. -/
theorem KeepsWords.textRun (h : table.KeepsWords) (place : Context) :
    (place.advance (table.textRun restrict place.toLeftContext place.rest)).splitsWord = false := by
  by_cases hrest : (place.advance (table.textRun restrict place.toLeftContext place.rest)).rest = []
  · apply Context.splitsWord_of_rest
    rw [hrest]
    rfl
  · obtain ⟨found, hfound⟩ := Option.ne_none_iff_exists'.1 (recognise?_textRun place hrest)
    exact (h.recognise? hfound).start

end Table

variable {before rest behind : List Char}

/-- A place on the way of a scan that splits no word of the rest splits none of the text. -/
theorem splitsWord_of_advance (hstop : joins (before ++ rest) behind = false) {n : Nat}
    (h : (Context.advance ⟨.ofText before, rest⟩ n).splitsWord = false) :
    joins (before ++ rest.take n) (rest.drop n ++ behind) = false := by
  have hadvance : Context.advance ⟨.ofText before, rest⟩ n =
      ⟨.ofText (before ++ rest.take n), rest.drop n⟩ := by
    rw [LeftContext.ofText_append]
    rfl
  rw [hadvance, Context.splitsWord_ofText] at h
  refine joins_append h ?_
  rwa [List.append_assoc, List.take_append_drop]

theorem Found.KeepsWords.fragments {found : Found}
    (h : found.KeepsWords ⟨.ofText before, rest⟩)
    (hstop : joins (before ++ rest) behind = false) :
    ∀ fragment ∈ (found.toSpan (byteLength before) rest).fragments,
      splitsWord (before ++ (rest ++ behind)) fragment.start = false := by
  have hcut : ∀ {n}, (Context.advance ⟨.ofText before, rest⟩ n).splitsWord = false →
      splitsWord (before ++ (rest ++ behind)) (byteLength before + byteLength (rest.take n)) =
        false := by
    intro n hn
    have hsplit : before ++ (rest ++ behind) =
        (before ++ rest.take n) ++ (rest.drop n ++ behind) := by
      rw [List.append_assoc, ← List.append_assoc (rest.take n), List.take_append_drop]
    rw [hsplit, ← byteLength_append, splitsWord_append]
    exact splitsWord_of_advance hstop hn
  have hfirst : splitsWord (before ++ (rest ++ behind)) (byteLength before) = false := by
    simpa using hcut (n := 0) h.start
  cases found with
  | leaf kind n | opener kind n | closer kind n => simpa [Found.toSpan, Span.fragments] using hfirst
  | delimited kind opening interior closing =>
      obtain ⟨hopening, hinterior⟩ := h.interior _ _ _ _ rfl
      have hopening := hcut hopening
      have hinterior := hcut hinterior
      rw [List.take_add, byteLength_append, ← Nat.add_assoc] at hinterior
      simp only [Found.toSpan, Span.fragments, Fragment.stop, List.forall_mem_cons]
      exact ⟨hfirst, hopening, hinterior, by simp⟩

namespace Table

variable {table : Table}

/-- No part of a scan begins inside a word, if the scanned range does not begin or end there. -/
theorem KeepsWords.scanFrom (h : table.KeepsWords) (restrict : Option KindSet)
    (hstart : joins before (rest ++ behind) = false)
    (hstop : joins (before ++ rest) behind = false) :
    ∀ fragment ∈ (table.scanFrom restrict (byteLength before) (.ofText before) rest).flatMap
        Span.fragments,
      splitsWord (before ++ (rest ++ behind)) fragment.start = false := by
  generalize hscan : table.scanFrom restrict (byteLength before) (.ofText before) rest = spans
  induction spans generalizing before rest with
  | nil => simp
  | cons span after ih =>
      obtain ⟨n, -, -, hafter, hspan⟩ := @scanFrom_cases table restrict _ ⟨_, rest⟩ span after hscan
      have hsplit : before ++ (rest ++ behind) =
          (before ++ rest.take n) ++ (rest.drop n ++ behind) := by
        rw [List.append_assoc, ← List.append_assoc (rest.take n), List.take_append_drop]
      have hadvance : (Context.advance ⟨.ofText before, rest⟩ n).splitsWord = false := by
        obtain ⟨found, hfound, rfl, -⟩ | ⟨-, rfl, -⟩ := hspan
        · exact (h.recognise? hfound).stop
        · exact h.textRun ⟨.ofText before, rest⟩
      rw [List.flatMap_cons, List.forall_mem_append]
      constructor
      · obtain ⟨found, hfound, -, rfl⟩ | ⟨-, -, rfl⟩ := hspan
        · exact (h.recognise? hfound).fragments hstop
        · intro fragment hfragment
          obtain rfl := List.mem_singleton.1 hfragment
          rwa [splitsWord_append]
      · rw [hsplit]
        refine ih (splitsWord_of_advance hstop hadvance) ?_ ?_
        · rwa [List.append_assoc, List.take_append_drop]
        · rw [byteLength_append, LeftContext.ofText_append]
          exact hafter

/-- No part of a scan of a range begins inside a word of the text, if the range does not begin or
end there. -/
theorem KeepsWords.scanRange (h : table.KeepsWords) (restrict : Option KindSet) {text : List Char}
    {range : Range} (hstart : isBoundary text range.start = true)
    (hstop : isBoundary text range.stop = true) (hfirst : splitsWord text range.start = false)
    (hlast : splitsWord text range.stop = false) :
    ∀ fragment ∈ (table.scanRange text range restrict).flatMap Span.fragments,
      splitsWord text fragment.start = false := by
  obtain ⟨before, part, behind, rfl, hbefore, hpart⟩ :=
    exists_parts hstart hstop range.start_le_stop
  rw [← hbefore, splitsWord_append] at hfirst
  rw [← hpart, ← hbefore, ← byteLength_append, ← List.append_assoc, splitsWord_append] at hlast
  have hscan := h.scanFrom restrict hfirst hlast
  rw [Table.scanRange, slice_eq_of_parts hbefore hpart, ← hbefore, takeBytes_byteLength_append]
  exact hscan

end Table

end ConcreteSyntax
