import ConcreteSyntax.Proofs.Text
import ConcreteSyntax.Scan.Attempt

/-!
# Scanning does not break

Where no opening marker is empty and every match is there (`Spec.IsMeasured`), scanning gives
the spans that `Table.scanRange` says, in every range that ends between characters.
-/

namespace ConcreteSyntax

theorem Text.cut_eq {text : List Char} {range : Range}
    (hstart : isBoundary text range.start = true) (hstop : isBoundary text range.stop = true) :
    cut text range = .ok (slice text range) := by
  simp [cut, hstart, hstop]

theorem Text.cut_before {text : List Char} {offset : Nat} (h : isBoundary text offset = true) :
    cut text (.upTo 0 offset) = .ok (takeBytes offset text) := by
  rw [cut_eq (isBoundary_zero text) (by simpa [Range.upTo] using h)]
  simp [slice, Range.upTo, Range.length]

/-- Whether the matches of a pattern are always there. -/
def Pattern.IsMeasured (pattern : Pattern) : Prop :=
  ∀ cx n, pattern.length? cx = some n → n ≤ cx.rest.length

theorem length_le_of_isPrefixOf {text rest : List Char} (h : text.isPrefixOf rest = true) :
    text.length ≤ rest.length := (List.isPrefixOf_iff_prefix.1 h).length_le

theorem Pattern.isMeasured_literal (text : List Char) : (Pattern.literal text).IsMeasured := by
  intro cx n h
  simp only [length?, Option.ite_none_right_eq_some, Option.some.injEq] at h
  obtain ⟨hstarts, rfl⟩ := h
  exact length_le_of_isPrefixOf hstarts

theorem Pattern.isMeasured_keyword (word : List Char) : (Pattern.keyword word).IsMeasured := by
  intro cx n h
  simp only [length?, Option.ite_none_right_eq_some, Option.some.injEq, Bool.and_eq_true] at h
  obtain ⟨⟨⟨-, hstarts⟩, -⟩, rfl⟩ := h
  exact length_le_of_isPrefixOf hstarts

/-- Whether a spec has an opening marker, and all its markers are there where they match. -/
structure Spec.IsMeasured (spec : Spec) : Prop where
  proper : ∀ cx, spec.opening.length? cx ≠ some 0
  opening : spec.opening.IsMeasured
  closing : ∀ closing, spec.closing = some closing → closing.IsMeasured

theorem Pattern.seek_le {closing : Pattern} (h : closing.IsMeasured) (escape : Option Char)
    (left : LeftContext) (rest : List Char) :
    (closing.seek escape left rest).1 + (closing.seek escape left rest).2 ≤ rest.length := by
  fun_induction seek closing escape left rest with
  | case1 => simp
  | case2 left c n hfound =>
      have hle := h _ _ hfound
      simpa using hle
  | case3 left c hfound => simp
  | case4 left c d rest n hfound =>
      have hle := h _ _ hfound
      simpa using hle
  | case5 left c d rest hfound hescape before n hseek ih =>
      rw [hseek] at ih
      simp only [List.length_cons]
      omega
  | case6 left c d rest hfound hescape before n hseek ih =>
      rw [hseek] at ih
      simp only [List.length_cons] at ih ⊢
      omega

namespace Spec

variable {spec : Spec}

theorem seekClosing_le (h : spec.IsMeasured) (cx : Context) :
    (spec.seekClosing cx).1 + (spec.seekClosing cx).2 ≤ cx.rest.length := by
  unfold seekClosing
  cases hclosing : spec.closing with
  | none => simp
  | some closing => exact Pattern.seek_le (h.closing closing hclosing) _ _ _

/-- All that a spec recognises is there. -/
theorem length_le_of_recognise? (h : spec.IsMeasured) {cx : Context} {found : Found}
    (hfound : spec.recognise? cx = some found) : found.length ≤ cx.rest.length := by
  unfold recognise? at hfound
  split at hfound
  · simp at hfound
  · rename_i n hopening
    have hle := h.opening _ _ hopening
    have hseek := seekClosing_le h (cx.advance (n + 1))
    have hrest : (cx.advance (n + 1)).rest.length = cx.rest.length - (n + 1) := by
      simp [Context.advance]
    split at hfound <;> simp only [Option.some.injEq] at hfound <;> subst hfound <;>
      simp only [Found.length] <;> omega
  · split at hfound
    · rename_i closing hshape hclosing
      split at hfound
      · rename_i n hlength
        simp only [Option.some.injEq] at hfound
        subst hfound
        exact h.closing closing hclosing _ _ hlength
      · simp at hfound
    · simp at hfound

theorem attempt_eq (h : spec.IsMeasured) (cx : Context) :
    spec.attempt cx = .ok (spec.recognise? cx) := by
  have hthere : (spec.recognise? cx).all (·.length ≤ cx.rest.length) = true := by
    cases hfound : spec.recognise? cx with
    | none => rfl
    | some found => simpa using length_le_of_recognise? h hfound
  rw [attempt, if_neg (h.proper cx), if_pos hthere]

end Spec

namespace Table

/-- Whether all specs of a table are measured. -/
def IsMeasured (table : Table) : Prop := ∀ spec ∈ table.candidates, spec.IsMeasured

variable {table : Table}

theorem attemptFirst_eq {specs : List Spec} (h : ∀ spec ∈ specs, spec.IsMeasured)
    (restrict : Option KindSet) (cx : Context) :
    attemptFirst restrict cx specs = .ok (specs.findSome? fun spec =>
      if restrict.all (·.contains spec.kind) then spec.recognise? cx else none) := by
  induction specs with
  | nil => rfl
  | cons spec rest ih =>
      rw [List.forall_mem_cons] at h
      have hrest := ih h.2
      unfold attemptFirst
      rw [List.findSome?_cons]
      by_cases hkind : restrict.all (·.contains spec.kind) = true
      · rw [if_pos hkind, if_pos hkind, Spec.attempt_eq h.1]
        cases spec.recognise? cx with
        | none => exact hrest
        | some found => rfl
      · rw [if_neg hkind, if_neg hkind]
        exact hrest

theorem attempt_eq (h : table.IsMeasured) (restrict : Option KindSet) (cx : Context) :
    table.attempt restrict cx = .ok (table.recognise? restrict cx) := attemptFirst_eq h restrict cx

theorem recognise?_of_attemptFirst {restrict : Option KindSet} {cx : Context} {specs : List Spec}
    {found : Option Found} (h : attemptFirst restrict cx specs = .ok found) :
    (specs.findSome? fun spec =>
      if restrict.all (·.contains spec.kind) then spec.recognise? cx else none) = found := by
  induction specs with
  | nil => exact Except.ok.inj h
  | cons spec rest ih =>
      unfold attemptFirst at h
      rw [List.findSome?_cons]
      split at h
      · rename_i hallowed
        rw [if_pos hallowed]
        split at h <;> rename_i hattempt
        · rw [Spec.recognise?_of_attempt hattempt]
          exact ih h
        · rw [Spec.recognise?_of_attempt hattempt]
          exact Except.ok.inj h
        · cases h
      · rename_i hallowed
        rw [if_neg hallowed]
        exact ih h

/-- What is recognised where trying does not break. -/
theorem recognise?_of_attempt {restrict : Option KindSet} {cx : Context} {found : Option Found}
    (h : table.attempt restrict cx = .ok found) : table.recognise? restrict cx = found :=
  recognise?_of_attemptFirst h

/-- A scan begins with the leaf of what is passed over, and goes on behind it. -/
theorem scanFrom_eq_passed (table : Table) (restrict : Option KindSet) (offset : Nat)
    (left : LeftContext) (rest : List Char) :
    table.scanFrom restrict offset left rest =
      passed offset (rest.take (table.textRun restrict left rest)) ++
        table.scanFrom restrict
          (offset + Text.byteLength (rest.take (table.textRun restrict left rest)))
          (left.after (rest.take (table.textRun restrict left rest)))
          (rest.drop (table.textRun restrict left rest)) := by
  cases rest with
  | nil => simp [textRun, passed]
  | cons c tail =>
      cases hfound : table.recognise? restrict ⟨left, c :: tail⟩ with
      | some found => simp [textRun, hfound, passed]
      | none =>
          rw [scanFrom_of_none hfound]
          simp [textRun, hfound, passed]

theorem attemptFrom_eq (h : table.IsMeasured) (restrict : Option KindSet) (offset : Nat)
    (pending : List Char) (left : LeftContext) (rest : List Char) :
    table.attemptFrom restrict offset pending left rest =
      .ok (passed offset (pending ++ rest.take (table.textRun restrict left rest)) ++
        table.scanFrom restrict
          (offset + Text.byteLength (pending ++ rest.take (table.textRun restrict left rest)))
          (left.after (rest.take (table.textRun restrict left rest)))
          (rest.drop (table.textRun restrict left rest))) := by
  fun_induction attemptFrom table restrict offset pending left rest with
  | case1 offset pending left => simp [textRun, scanFrom]
  | case2 offset pending left c tail fault hfault =>
      rw [attempt_eq h] at hfault
      cases hfault
  | case3 offset pending left c tail hnone ih =>
      have hrecognised : table.recognise? restrict ⟨left, c :: tail⟩ = none :=
        Except.ok.inj ((attempt_eq h restrict _).symm.trans hnone)
      rw [ih]
      simp [textRun, hrecognised, LeftContext.after]
  | case4 offset pending left c tail found hfound start taken ih =>
      have hrecognised : table.recognise? restrict ⟨left, c :: tail⟩ = some found :=
        Except.ok.inj ((attempt_eq h restrict _).symm.trans hfound)
      have hrest := table.scanFrom_eq_passed restrict (start + Text.byteLength taken)
        (left.after taken) ((c :: tail).drop found.length)
      rw [ih, List.nil_append, ← hrest]
      simp only [textRun, hrecognised, Option.isSome_some, if_true, List.take_zero,
        List.append_nil, List.drop_zero, LeftContext.after_nil]
      rw [scanFrom_of_some hrecognised]
      rfl

/-- What is yielded before a scan breaks is the beginning of what the range holds. -/
theorem yieldFrom_initial (table : Table) (restrict : Option KindSet) (offset : Nat)
    (pending : List Char) (left : LeftContext) (rest : List Char) :
    (table.yieldFrom restrict offset pending left rest).1 <+:
      passed offset (pending ++ rest.take (table.textRun restrict left rest)) ++
        table.scanFrom restrict
          (offset + Text.byteLength (pending ++ rest.take (table.textRun restrict left rest)))
          (left.after (rest.take (table.textRun restrict left rest)))
          (rest.drop (table.textRun restrict left rest)) := by
  fun_induction yieldFrom table restrict offset pending left rest with
  | case1 offset pending left => simp [textRun, scanFrom]
  | case2 offset pending left c tail fault hfault => exact List.nil_prefix
  | case3 offset pending left c tail hnone ih =>
      simpa [textRun, recognise?_of_attempt hnone, LeftContext.after] using ih
  | case4 offset pending left c tail found hfound start taken spans fault hbehind ih =>
      have hrecognised := recognise?_of_attempt hfound
      have hrest := table.scanFrom_eq_passed restrict (start + Text.byteLength taken)
        (left.after taken) ((c :: tail).drop found.length)
      rw [hbehind, List.nil_append, ← hrest] at ih
      simp only [textRun, hrecognised, Option.isSome_some, if_true, List.take_zero,
        List.append_nil, List.drop_zero, LeftContext.after_nil]
      rw [scanFrom_of_some hrecognised, List.prefix_append_right_inj, List.cons_prefix_cons]
      exact ⟨rfl, ih⟩

theorem yieldRange_initial (table : Table) (restrict : Option KindSet) {text : List Char}
    {range : Range} (hstart : Text.isBoundary text range.start = true)
    (hstop : Text.isBoundary text range.stop = true) :
    (table.yieldRange text range restrict).1 <+: table.scanRange text range restrict := by
  rw [yieldRange, Text.cut_before hstart, Text.cut_eq hstart hstop]
  have hprefix := table.yieldFrom_initial restrict range.start []
    (.ofText (Text.takeBytes range.start text)) (Text.slice text range)
  rwa [List.nil_append, ← scanFrom_eq_passed] at hprefix

/-- Scanning a range of a text does not break. -/
theorem attemptRange_eq (h : table.IsMeasured) {text : List Char} {range : Range}
    (restrict : Option KindSet) (hstart : Text.isBoundary text range.start = true)
    (hstop : Text.isBoundary text range.stop = true) :
    table.attemptRange text range restrict = .ok (table.scanRange text range restrict) := by
  rw [attemptRange, Text.cut_before hstart, Text.cut_eq hstart hstop]
  change table.attemptFrom restrict range.start [] _ _ = _
  rw [attemptFrom_eq h, List.nil_append, ← scanFrom_eq_passed]
  rfl

end Table

end ConcreteSyntax
