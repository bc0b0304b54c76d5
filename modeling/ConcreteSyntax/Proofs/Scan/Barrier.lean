import ConcreteSyntax.Proofs.Scan

/-!
# Barriers

A character is a barrier for a table when no pattern goes on through it: to what begins before
it, it is the end of the text.  What a scan does up to a barrier does not depend on what stands
behind it (`Table.scanFrom_before`).
-/

namespace ConcreteSyntax

namespace Pattern

/-- Whether what begins before a character ends before it, as it would at the end of the text. -/
def EndsAt (barrier : Char) (pattern : Pattern) : Prop :=
  ∀ left front behind, front ≠ [] →
    pattern.length? ⟨left, front ++ barrier :: behind⟩ = pattern.length? ⟨left, front⟩

/-- Whether a pattern does not match at a character. -/
def Misses (c : Char) (pattern : Pattern) : Prop :=
  ∀ left behind, pattern.length? ⟨left, c :: behind⟩ = none

variable {closing : Pattern} {escape : Option Char} {barrier : Char}

/-- One step of the search for a closing marker, in front of at least one more character. -/
theorem seek_cons (closing : Pattern) (escape : Option Char) (left : LeftContext) (c : Char)
    {rest : List Char} (hrest : rest ≠ []) :
    closing.seek escape left (c :: rest) =
      match closing.length? ⟨left, c :: rest⟩ with
      | some n => (0, n)
      | none =>
          if some c = escape then
            ((closing.seek escape ((left.push c).push (rest.head hrest)) rest.tail).1 + 2,
              (closing.seek escape ((left.push c).push (rest.head hrest)) rest.tail).2)
          else
            ((closing.seek escape (left.push c) rest).1 + 1,
              (closing.seek escape (left.push c) rest).2) := by
  obtain ⟨d, tail, rfl⟩ := List.exists_cons_of_ne_nil hrest
  rw [seek]
  rfl

theorem seek_pos (h : closing.Misses barrier) (escape : Option Char) (left : LeftContext)
    (behind : List Char) :
    0 < (closing.seek escape left (barrier :: behind)).1 := by
  cases behind with
  | nil => simp [seek, h left []]
  | cons c rest =>
      rw [seek_cons _ _ _ _ (List.cons_ne_nil c rest), h left (c :: rest)]
      dsimp only
      split <;> exact Nat.succ_pos _

/-- A closing marker that is found before a barrier is found whatever stands behind it. -/
theorem seek_before (hends : closing.EndsAt barrier) (hmisses : closing.Misses barrier)
    (left : LeftContext) (front behind behind' : List Char)
    (h : (closing.seek escape left (front ++ barrier :: behind)).1
      + (closing.seek escape left (front ++ barrier :: behind)).2 ≤ front.length) :
    closing.seek escape left (front ++ barrier :: behind') =
      closing.seek escape left (front ++ barrier :: behind) := by
  -- an escape takes the character behind it along, so the search may go on two characters ahead
  induction hlength : front.length using Nat.strongRecOn generalizing front left with
  | _ length ih =>
    subst hlength
    obtain _ | ⟨c, front⟩ := front
    · have := seek_pos hmisses escape left behind
      simp only [List.nil_append, List.length_nil] at h
      omega
    have hlength : ∀ behind, closing.length? ⟨left, c :: (front ++ barrier :: behind)⟩ =
        closing.length? ⟨left, c :: front⟩ := fun behind =>
      hends left (c :: front) behind (List.cons_ne_nil c front)
    have hne : ∀ behind, front ++ barrier :: behind ≠ [] := by simp
    rw [List.cons_append, seek_cons _ _ _ _ (hne _), hlength] at h
    rw [List.cons_append, List.cons_append, seek_cons _ _ _ _ (hne _), seek_cons _ _ _ _ (hne _),
      hlength, hlength]
    cases hfound : closing.length? ⟨left, c :: front⟩ with
    | some n => rfl
    | none =>
        rw [hfound] at h
        dsimp only at h ⊢
        by_cases hescape : some c = escape
        · rw [if_pos hescape] at h ⊢
          rw [if_pos hescape]
          obtain _ | ⟨d, front⟩ := front
          · simp only [List.length_singleton] at h
            omega
          · simp only [List.cons_append, List.head_cons, List.tail_cons, List.length_cons] at h ⊢
            rw [ih front.length (by simp only [List.length_cons]; omega) _ front (by omega) rfl]
        · rw [if_neg hescape] at h ⊢
          rw [if_neg hescape]
          simp only [List.length_cons] at h
          rw [ih front.length (by simp) _ front (by omega) rfl]

end Pattern

/-- What is recognised within the beginning of a rest is spelt there. -/
theorem Found.toSpan_append (found : Found) (offset : Nat) {front : List Char}
    (h : found.length ≤ front.length) (behind : List Char) :
    found.toSpan offset (front ++ behind) = found.toSpan offset front := by
  have htake : ∀ n ≤ front.length, (front ++ behind).take n = front.take n := fun n hn =>
    List.take_append_of_le_length hn
  cases found with
  | leaf kind n | opener kind n | closer kind n =>
      simp only [toSpan, htake n h]
  | delimited kind opening interior closing =>
      simp only [length] at h
      have hparts : ∀ m n, m + n ≤ front.length →
          ((front ++ behind).drop m).take n = (front.drop m).take n := by
        intro m n hmn
        rw [List.drop_append_of_le_length (by omega),
          List.take_append_of_le_length (by rw [List.length_drop]; omega)]
      simp only [toSpan, List.drop_drop]
      rw [htake opening (by omega), hparts opening interior (by omega),
        hparts (opening + interior) closing (by omega)]

namespace Spec

/-- Whether no marker of a spec goes on through a character. -/
structure StopsAt (barrier : Char) (spec : Spec) : Prop where
  opening : spec.opening.EndsAt barrier
  closing : ∀ closing, spec.closing = some closing →
    closing.EndsAt barrier ∧ closing.Misses barrier

variable {spec : Spec} {barrier : Char} {left : LeftContext} {front behind : List Char}

/-- Whether something is recognised before a barrier does not depend on what stands behind it. -/
theorem recognise?_eq_none_before (h : spec.StopsAt barrier) (hfront : front ≠ [])
    (hnone : spec.recognise? ⟨left, front ++ barrier :: behind⟩ = none) (behind' : List Char) :
    spec.recognise? ⟨left, front ++ barrier :: behind'⟩ = none := by
  unfold recognise? at hnone ⊢
  rw [h.opening left front behind hfront] at hnone
  rw [h.opening left front behind' hfront]
  split at hnone
  · rfl
  · split at hnone <;> cases hnone
  · split at hnone
    · rename_i closing _ hclosing
      rw [(h.closing closing hclosing).1 left front behind hfront] at hnone
      rwa [(h.closing closing hclosing).1 left front behind' hfront]
    · rfl

/-- What is recognised before a barrier and ends there is recognised whatever stands behind it. -/
theorem recognise?_before (h : spec.StopsAt barrier) {found : Found}
    (hfound : spec.recognise? ⟨left, front ++ barrier :: behind⟩ = some found)
    (hle : found.length ≤ front.length) (behind' : List Char) :
    spec.recognise? ⟨left, front ++ barrier :: behind'⟩ = some found := by
  have hfront : front ≠ [] := by
    rintro rfl
    exact absurd (length_pos_of_recognise? hfound) (by simpa using hle)
  have hseek : ∀ n, n ≤ front.length →
      (spec.seekClosing (Context.advance ⟨left, front ++ barrier :: behind⟩ n)).1
        + (spec.seekClosing (Context.advance ⟨left, front ++ barrier :: behind⟩ n)).2
          ≤ front.length - n →
      spec.seekClosing (Context.advance ⟨left, front ++ barrier :: behind'⟩ n) =
        spec.seekClosing (Context.advance ⟨left, front ++ barrier :: behind⟩ n) := by
    intro n hn hsum
    unfold seekClosing Context.advance at hsum ⊢
    rw [List.take_append_of_le_length hn, List.drop_append_of_le_length hn] at hsum ⊢
    rw [List.take_append_of_le_length hn, List.drop_append_of_le_length hn]
    cases hclosing : spec.closing with
    | none => rfl
    | some closing =>
        rw [hclosing] at hsum
        obtain ⟨hends, hmisses⟩ := h.closing closing hclosing
        exact Pattern.seek_before hends hmisses _ _ _ _ (by rwa [List.length_drop])
  cases hopening : spec.opening.length? ⟨left, front⟩ with
  | none =>
      simp only [recognise?, h.opening _ _ _ hfront, hopening] at hfound ⊢
      split at hfound
      · rename_i closing _ hclosing
        rwa [(h.closing closing hclosing).1 left front behind hfront,
          ← (h.closing closing hclosing).1 left front behind' hfront] at hfound
      · cases hfound
  | some n =>
      simp only [recognise?, h.opening _ _ _ hfront, hopening] at hfound ⊢
      cases n with
      | zero => cases hfound
      | succ n =>
          cases hshape : spec.shape <;> simp only [hshape, Option.some.injEq] at hfound ⊢ <;>
            subst hfound <;> simp only [Found.length] at hle
          case leaf | paired => rfl
          case delimitedLeaf | delimitedContainer => rw [hseek _ (by omega) (by omega)]

end Spec

namespace Table

variable {table : Table} {restrict : Option KindSet}

/-- Where the spans of a text are split, the scan goes on from there. -/
theorem scanFrom_eq_append {offset : Nat} {place : Context} {before after : List Span}
    (h : table.scanFrom restrict offset place.toLeftContext place.rest = before ++ after) :
    ∃ behind, place.rest = before.flatMap Span.chars ++ behind
      ∧ after = table.scanFrom restrict
          (offset + Text.byteLength (before.flatMap Span.chars))
          (place.after (before.flatMap Span.chars)) behind := by
  induction before generalizing offset place with
  | nil => exact ⟨place.rest, rfl, h.symm⟩
  | cons span before ih =>
      obtain ⟨n, _, _, hrest, hspan⟩ := scanFrom_cases h
      have hchars : span.chars = place.rest.take n := by
        rcases hspan with ⟨found, _, rfl, rfl⟩ | ⟨_, rfl, rfl⟩
        · exact Found.chars_toSpan ..
        · rfl
      obtain ⟨behind, hbehind, hafter⟩ := ih hrest
      refine ⟨behind, ?_, ?_⟩
      · rw [List.flatMap_cons, hchars, List.append_assoc, ← hbehind]
        exact (List.take_append_drop n place.rest).symm
      · rw [List.flatMap_cons, hchars, Text.byteLength_append, ← Nat.add_assoc,
          LeftContext.after_append]
        exact hafter

/-- A scan begins with what is recognised, and goes on behind it. -/
theorem scanFrom_of_found (place : Context) (hne : place.rest ≠ []) {found : Found}
    (h : table.recognise? restrict place = some found) (offset : Nat) :
    table.scanFrom restrict offset place.toLeftContext place.rest =
      found.toSpan offset place.rest ::
        table.scanFrom restrict (offset + Text.byteLength (place.rest.take found.length))
          (place.advance found.length).toLeftContext (place.advance found.length).rest := by
  obtain ⟨left, rest⟩ := place
  obtain ⟨c, tail, rfl⟩ := List.exists_cons_of_ne_nil hne
  exact scanFrom_of_some h

/-- A scan begins with what is not recognised, and goes on behind it. -/
theorem scanFrom_of_textRun (place : Context) (hne : place.rest ≠ [])
    (h : table.recognise? restrict place = none) {n : Nat}
    (hn : table.textRun restrict place.toLeftContext place.rest = n) (offset : Nat) :
    table.scanFrom restrict offset place.toLeftContext place.rest =
      .leaf .text ⟨offset, place.rest.take n⟩ ::
        table.scanFrom restrict (offset + Text.byteLength (place.rest.take n))
          (place.advance n).toLeftContext (place.advance n).rest := by
  obtain ⟨left, rest⟩ := place
  obtain ⟨c, tail, rfl⟩ := List.exists_cons_of_ne_nil hne
  subst hn
  rw [textRun_of_none h]
  exact scanFrom_of_none h

/-- Whether a character is a barrier that is always recognised itself. -/
structure StopsAt (barrier : Char) (table : Table) : Prop where
  specs : ∀ spec ∈ table.candidates, spec.StopsAt barrier
  recognised : ∀ left behind, table.recognise? none ⟨left, barrier :: behind⟩ ≠ none

variable {barrier : Char} {left : LeftContext} {front behind : List Char}

theorem recognise?_eq_none_before (h : table.StopsAt barrier) (hfront : front ≠ [])
    (hnone : table.recognise? none ⟨left, front ++ barrier :: behind⟩ = none)
    (behind' : List Char) :
    table.recognise? none ⟨left, front ++ barrier :: behind'⟩ = none := by
  rw [recognise?_eq_none_iff] at hnone ⊢
  exact fun spec hspec hallowed =>
    Spec.recognise?_eq_none_before (h.specs spec hspec) hfront (hnone spec hspec hallowed) behind'

theorem recognise?_before (h : table.StopsAt barrier) {found : Found}
    (hfound : table.recognise? none ⟨left, front ++ barrier :: behind⟩ = some found)
    (hle : found.length ≤ front.length) (behind' : List Char) :
    table.recognise? none ⟨left, front ++ barrier :: behind'⟩ = some found := by
  have hfront : front ≠ [] := by
    rintro rfl
    exact absurd (length_pos_of_recognise? hfound) (by simpa using hle)
  obtain ⟨before, spec, after, hcandidates, _, hspec, hnone⟩ := exists_of_recognise? hfound
  have hmem : ∀ other ∈ before ++ spec :: after, other.StopsAt barrier := hcandidates ▸ h.specs
  refine List.findSome?_eq_some_iff.2 ⟨before, spec, after, hcandidates, ?_, fun other hother => ?_⟩
  · exact Spec.recognise?_before (hmem spec (by simp)) hspec hle behind'
  · exact Spec.recognise?_eq_none_before (hmem other (by simp [hother])) hfront
      (hnone other hother rfl) behind'

theorem textRun_before (h : table.StopsAt barrier) (left : LeftContext)
    (front behind behind' : List Char) :
    table.textRun none left (front ++ barrier :: behind') =
      table.textRun none left (front ++ barrier :: behind) := by
  induction front generalizing left with
  | nil =>
      have hstop : ∀ behind, table.textRun none left (barrier :: behind) = 0 := fun behind => by
        obtain ⟨found, hfound⟩ := Option.ne_none_iff_exists'.1 (h.recognised left behind)
        exact textRun_of_some hfound
      rw [List.nil_append, List.nil_append, hstop, hstop]
  | cons c front ih =>
      have hne : c :: front ≠ [] := List.cons_ne_nil c front
      cases hfound : table.recognise? none ⟨left, c :: (front ++ barrier :: behind)⟩ with
      | none =>
          have hfound' := recognise?_eq_none_before h hne hfound behind'
          exact (textRun_of_none hfound').trans
            ((congrArg (· + 1) (ih _)).trans (textRun_of_none hfound).symm)
      | some found =>
          cases hfound' : table.recognise? none ⟨left, c :: (front ++ barrier :: behind')⟩ with
          | none =>
              have hnone := recognise?_eq_none_before h hne hfound' behind
              exact absurd (hnone.symm.trans hfound) (Option.some_ne_none found).symm
          | some other => exact (textRun_of_some hfound').trans (textRun_of_some hfound).symm

/-- What is taken up to a barrier at most is taken from what stands in front of it. -/
theorem le_and_drop_of_take {chars rest : List Char} {n : Nat} (hfront : chars ++ rest = front)
    (hchars : chars = (front ++ barrier :: behind).take n) :
    n ≤ front.length ∧ front.drop n = rest := by
  have hlength := congrArg List.length hchars
  have htotal := congrArg List.length hfront
  simp only [List.length_take, List.length_append, List.length_cons] at hlength htotal
  have hn : n = chars.length := by omega
  rw [← hfront, hn]
  exact ⟨by simp, List.drop_left⟩

/-- A scan comes to a barrier in the same way whatever stands behind it. -/
theorem scanFrom_before (h : table.StopsAt barrier) {offset : Nat} {spans rest : List Span}
    (hspans : spans.flatMap Span.chars = front)
    (hscan : table.scanFrom none offset left (front ++ barrier :: behind) = spans ++ rest)
    (behind' : List Char) :
    table.scanFrom none offset left (front ++ barrier :: behind') =
      spans ++ table.scanFrom none (offset + Text.byteLength front) (left.after front)
        (barrier :: behind') := by
  induction spans generalizing offset left front with
  | nil =>
      subst hspans
      rfl
  | cons span spans ih =>
      have hplace : table.scanFrom none offset
          (Context.mk left (front ++ barrier :: behind)).toLeftContext
          (Context.mk left (front ++ barrier :: behind)).rest = span :: (spans ++ rest) := hscan
      obtain ⟨n, hne, -, hrest, hspan⟩ := scanFrom_cases hplace
      have hchars : span.chars = (front ++ barrier :: behind).take n := by
        rcases hspan with ⟨found, _, rfl, rfl⟩ | ⟨_, rfl, rfl⟩
        · exact Found.chars_toSpan ..
        · rfl
      -- the span ends before the barrier, as all of them spell what stands there
      obtain ⟨hle, hdrop⟩ := le_and_drop_of_take hspans hchars
      have hfront : front ≠ [] := by
        rintro rfl
        rw [Nat.le_zero.1 hle] at hne
        exact hne rfl
      have hlength : offset + Text.byteLength front =
          offset + Text.byteLength (front.take n) + Text.byteLength (front.drop n) := by
        rw [Nat.add_assoc, ← Text.byteLength_append, List.take_append_drop]
      have hafter : left.after front = (left.after (front.take n)).after (front.drop n) := by
        rw [← LeftContext.after_append, List.take_append_drop]
      have htakes : ∀ behind, (front ++ barrier :: behind).take n = front.take n := fun _ =>
        List.take_append_of_le_length hle
      have hdrops : ∀ behind, (front ++ barrier :: behind).drop n =
          front.drop n ++ barrier :: behind := fun _ => List.drop_append_of_le_length hle
      simp only [Context.advance, htakes, hdrops] at hrest
      have hgoOn := ih hdrop.symm hrest
      rw [← hlength, ← hafter] at hgoOn
      have hne' : front ++ barrier :: behind' ≠ [] := by simp
      rcases hspan with ⟨found, hfound, rfl, rfl⟩ | ⟨hnone, rfl, rfl⟩
      · have hscan' := scanFrom_of_found ⟨left, front ++ barrier :: behind'⟩ hne'
          (recognise?_before h hfound hle behind') offset
        simp only [Context.advance, htakes, hdrops, hgoOn] at hscan'
        rw [hscan', found.toSpan_append offset hle, found.toSpan_append offset hle,
          List.cons_append]
      · have hscan' := scanFrom_of_textRun ⟨left, front ++ barrier :: behind'⟩ hne'
          (recognise?_eq_none_before h hfront hnone behind')
          (textRun_before h left front behind behind') offset
        simp only [Context.advance, htakes, hdrops, hgoOn] at hscan'
        rw [hscan', htakes, List.cons_append]

end Table

end ConcreteSyntax
