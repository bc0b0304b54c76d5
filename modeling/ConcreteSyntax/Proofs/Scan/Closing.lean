import Mathlib.Algebra.Group.Nat.Even
import Mathlib.Data.List.DropRight
import ConcreteSyntax.Proofs.Scan.Barrier

/-!
# Where a span is closed

The search for a closing marker passes over an escape together with the character behind it.
Which places it comes to can be told from the text alone: those that an even number of escapes
stands before.  `Pattern.ClosesAt` says where a marker closes a span in these terms, and the search
finds the first such place.
-/

namespace ConcreteSyntax

namespace Text

/-- The number of escape characters that stand right at the end of a text. -/
def escapeRun (escape : Option Char) (text : List Char) : Nat :=
  (text.rtakeWhile fun c => some c = escape).length

variable {escape : Option Char} {c : Char}

@[simp] theorem escapeRun_nil : escapeRun escape [] = 0 := rfl

theorem escapeRun_concat (text : List Char) (c : Char) :
    escapeRun escape (text ++ [c]) = if some c = escape then escapeRun escape text + 1 else 0 := by
  unfold escapeRun
  rw [List.rtakeWhile_concat]
  by_cases hc : some c = escape <;> simp [hc]

theorem escapeRun_singleton (hc : some c = escape) : escapeRun escape [c] = 1 := by
  rw [← List.nil_append [c], escapeRun_concat, if_pos hc, escapeRun_nil]

@[simp] theorem escapeRun_none (text : List Char) : escapeRun none text = 0 := by
  induction text using List.reverseRecOn with
  | nil => rfl
  | append_singleton text c _ => rw [escapeRun_concat, if_neg (Option.some_ne_none c)]

theorem escapeRun_cons (hc : some c ≠ escape) (text : List Char) :
    escapeRun escape (c :: text) = escapeRun escape text := by
  induction text using List.reverseRecOn with
  | nil => rw [← List.nil_append [c], escapeRun_concat, if_neg hc, escapeRun_nil]
  | append_singleton text d ih =>
      rw [← List.cons_append, escapeRun_concat, escapeRun_concat, ih]

/-- An escape and the character behind it leave the number of escapes at the end even or odd. -/
theorem even_escapeRun_cons_cons (hc : some c = escape) (d : Char) (text : List Char) :
    Even (escapeRun escape (c :: d :: text)) ↔ Even (escapeRun escape text) := by
  induction text using List.reverseRecOn with
  | nil =>
      have hpair : escapeRun escape ([c] ++ [d]) = _ := escapeRun_concat [c] d
      rw [List.singleton_append, escapeRun_singleton hc] at hpair
      rw [hpair, escapeRun_nil]
      split <;> decide
  | append_singleton text e ih =>
      rw [← List.cons_append, ← List.cons_append, escapeRun_concat, escapeRun_concat]
      split
      · rw [Nat.even_add_one, Nat.even_add_one, ih]
      · rfl

end Text

namespace Pattern

/-- Whether a closing marker of `n` characters stands `q` characters behind the `first` place it is
looked for at, and the escapes right before it, if any, protect each other. -/
structure ClosesAt (closing : Pattern) (escape : Option Char) (first : Context) (q n : Nat) :
    Prop where
  lt : q < first.rest.length
  found : closing.length? (first.advance q) = some n
  even : Even (Text.escapeRun escape (first.rest.take q))

variable {closing : Pattern} {escape : Option Char} {left : LeftContext} {c d : Char}
  {rest : List Char} {q n : Nat}

theorem closesAt_zero :
    closing.ClosesAt escape ⟨left, c :: rest⟩ 0 n ↔
      closing.length? ⟨left, c :: rest⟩ = some n :=
  ⟨fun h => h.found, fun h => ⟨Nat.succ_pos rest.length, h, by simp⟩⟩

theorem closesAt_succ (hc : some c ≠ escape) :
    closing.ClosesAt escape ⟨left, c :: rest⟩ (q + 1) n ↔
      closing.ClosesAt escape ⟨left.push c, rest⟩ q n := by
  have heven := Text.escapeRun_cons hc (rest.take q)
  constructor
  · rintro ⟨hlt, hfound, hparity⟩
    exact ⟨Nat.lt_of_succ_lt_succ hlt, hfound, heven ▸ hparity⟩
  · rintro ⟨hlt, hfound, hparity⟩
    exact ⟨Nat.succ_lt_succ hlt, hfound, heven.symm ▸ hparity⟩

/-- A marker right behind an escape closes nothing. -/
theorem not_closesAt_one (hc : some c = escape) :
    ¬ closing.ClosesAt escape ⟨left, c :: rest⟩ 1 n := by
  intro h
  have heven := h.even
  rw [List.take_succ_cons, List.take_zero, Text.escapeRun_singleton hc] at heven
  exact Nat.not_even_one heven

theorem closesAt_succ_succ (hc : some c = escape) :
    closing.ClosesAt escape ⟨left, c :: d :: rest⟩ (q + 2) n ↔
      closing.ClosesAt escape ⟨(left.push c).push d, rest⟩ q n := by
  have heven := Text.even_escapeRun_cons_cons hc d (rest.take q)
  constructor
  · rintro ⟨hlt, hfound, hparity⟩
    exact ⟨by simpa using hlt, hfound, heven.1 hparity⟩
  · rintro ⟨hlt, hfound, hparity⟩
    exact ⟨by simpa using hlt, hfound, heven.2 hparity⟩

/-- What a search for a closing marker may come to: the first place where one closes the span, or
the end of the text when there is no such place. -/
def EndsIn (closing : Pattern) (escape : Option Char) (first : Context) (q n : Nat) : Prop :=
  (closing.ClosesAt escape first q n ∧ ∀ p < q, ∀ m, ¬ closing.ClosesAt escape first p m) ∨
    (q = first.rest.length ∧ n = 0 ∧ ∀ p m, ¬ closing.ClosesAt escape first p m)

theorem EndsIn.succ (hnone : closing.length? ⟨left, c :: rest⟩ = none) (hc : some c ≠ escape)
    (h : closing.EndsIn escape ⟨left.push c, rest⟩ q n) :
    closing.EndsIn escape ⟨left, c :: rest⟩ (q + 1) n := by
  have hzero : ∀ m, ¬ closing.ClosesAt escape ⟨left, c :: rest⟩ 0 m := fun m hm => by
    simp [closesAt_zero, hnone] at hm
  rcases h with ⟨hcloses, hfirst⟩ | ⟨rfl, rfl, hnever⟩
  · refine .inl ⟨(closesAt_succ hc).2 hcloses, fun p hp m => ?_⟩
    cases p with
    | zero => exact hzero m
    | succ p => exact fun hm => hfirst p (by omega) m ((closesAt_succ hc).1 hm)
  · refine .inr ⟨rfl, rfl, fun p m => ?_⟩
    cases p with
    | zero => exact hzero m
    | succ p => exact fun hm => hnever p m ((closesAt_succ hc).1 hm)

theorem EndsIn.succ_succ (hnone : closing.length? ⟨left, c :: d :: rest⟩ = none)
    (hc : some c = escape) (h : closing.EndsIn escape ⟨(left.push c).push d, rest⟩ q n) :
    closing.EndsIn escape ⟨left, c :: d :: rest⟩ (q + 2) n := by
  have hzero : ∀ m, ¬ closing.ClosesAt escape ⟨left, c :: d :: rest⟩ 0 m := fun m hm => by
    simp [closesAt_zero, hnone] at hm
  rcases h with ⟨hcloses, hfirst⟩ | ⟨rfl, rfl, hnever⟩
  · refine .inl ⟨(closesAt_succ_succ hc).2 hcloses, fun p hp m => ?_⟩
    match p with
    | 0 => exact hzero m
    | 1 => exact not_closesAt_one hc
    | p + 2 => exact fun hm => hfirst p (by omega) m ((closesAt_succ_succ hc).1 hm)
  · refine .inr ⟨rfl, rfl, fun p m => ?_⟩
    match p with
    | 0 => exact hzero m
    | 1 => exact not_closesAt_one hc
    | p + 2 => exact fun hm => hnever p m ((closesAt_succ_succ hc).1 hm)

theorem endsIn_nil : closing.EndsIn escape ⟨left, []⟩ 0 0 :=
  .inr ⟨rfl, rfl, fun _ _ h => absurd h.lt (Nat.not_lt_zero _)⟩

theorem endsIn_zero (h : closing.length? ⟨left, c :: rest⟩ = some n) :
    closing.EndsIn escape ⟨left, c :: rest⟩ 0 n :=
  .inl ⟨closesAt_zero.2 h, fun _ hp => absurd hp (Nat.not_lt_zero _)⟩

/-- An escape at the very end of a text protects nothing, and nothing closes the span there. -/
theorem endsIn_singleton (h : closing.length? ⟨left, [c]⟩ = none) :
    closing.EndsIn escape ⟨left, [c]⟩ 1 0 := by
  refine .inr ⟨rfl, rfl, fun p m hm => ?_⟩
  obtain rfl : p = 0 := Nat.lt_one_iff.1 hm.lt
  simp [closesAt_zero, h] at hm

/-- The search comes to where the text says that it has to. -/
theorem endsIn_seek (closing : Pattern) (escape : Option Char) (left : LeftContext)
    (rest : List Char) :
    closing.EndsIn escape ⟨left, rest⟩ (closing.seek escape left rest).1
      (closing.seek escape left rest).2 := by
  -- the induction is on the search itself: it never stops between an escape and its character
  fun_induction seek closing escape left rest with
  | case1 left => exact endsIn_nil
  | case2 left c n h => exact endsIn_zero h
  | case3 left c h => exact endsIn_singleton h
  | case4 left c d rest n h => exact endsIn_zero h
  | case5 left c d rest hnone hescape before n hseek ih =>
      rw [hseek] at ih
      exact ih.succ_succ hnone hescape
  | case6 left c d rest hnone hescape before n hseek ih =>
      rw [hseek] at ih
      exact ih.succ hnone hescape

/-- Without an escape, any marker closes the span. -/
theorem closesAt_none_iff {first : Context} :
    closing.ClosesAt none first q n ↔
      q < first.rest.length ∧ closing.length? (first.advance q) = some n :=
  ⟨fun h => ⟨h.lt, h.found⟩, fun h => ⟨h.1, h.2, by simp⟩⟩

end Pattern

namespace Spec

variable {spec : Spec} {closing : Pattern}

/-- A span is closed at the first marker with an even number of escapes right before it, and goes
on to the end of the scanned text when there is no such marker. -/
theorem seekClosing_first_unescaped (hclosing : spec.closing = some closing) (first : Context) :
    ∃ q n, spec.seekClosing first = (q, n)
      ∧ ((closing.ClosesAt spec.escape first q n
          ∧ ∀ p < q, ∀ m, ¬ closing.ClosesAt spec.escape first p m)
        ∨ (q = first.rest.length ∧ n = 0
          ∧ ∀ p m, ¬ closing.ClosesAt spec.escape first p m))
      ∧ (spec.escape = none → ∀ p m, closing.ClosesAt spec.escape first p m ↔
          p < first.rest.length ∧ closing.length? (first.advance p) = some m)
      ∧ ∀ place k, spec.opening.length? place = some (k + 1) → first = place.advance (k + 1) →
          (spec.shape = .delimitedLeaf →
            spec.recognise? place = some (.leaf spec.kind (k + 1 + (q + n))))
          ∧ (spec.shape = .delimitedContainer →
            spec.recognise? place = some (.delimited spec.kind (k + 1) q n)) := by
  have hseek : spec.seekClosing first =
      closing.seek spec.escape first.toLeftContext first.rest := by
    unfold seekClosing
    rw [hclosing]
  refine ⟨_, _, hseek, closing.endsIn_seek spec.escape _ _, fun hescape p m => ?_,
    fun place k hopening hfirst => ⟨fun hshape => ?_, fun hshape => ?_⟩⟩
  · rw [hescape]
    exact Pattern.closesAt_none_iff
  all_goals
    subst hfirst
    simp only [recognise?, hopening, hshape, hseek]

/-- In the text behind a quote, the quote behind three escapes is passed over, and the one behind
two escapes closes the string. -/
theorem seekClosing_first_unescaped_string :
    let spec := (Spec.pair .stringDoubleQuote "\"" "\"").escapedBy '\\'
    let first : Context := ⟨.atStart, "a\\\\\\\"é\\\\\" b\"".toList⟩
    spec.closing = some (.literal ['"']) ∧ spec.seekClosing first = (8, 1)
      ∧ Pattern.ClosesAt (.literal ['"']) spec.escape first 8 1
      ∧ ∀ p < 8, ∀ m, ¬ Pattern.ClosesAt (.literal ['"']) spec.escape first p m := by
  intro spec first
  have hclosing : spec.closing = some (.literal ['"']) := rfl
  have hfound : spec.seekClosing first = (8, 1) := by decide +kernel
  obtain ⟨q, n, hseek, hends, _⟩ := seekClosing_first_unescaped hclosing first
  obtain ⟨rfl, rfl⟩ := Prod.mk.inj (hfound.symm.trans hseek)
  refine ⟨hclosing, hfound, ?_⟩
  rcases hends with hcloses | ⟨hlength, _⟩
  · exact hcloses
  · exact absurd hlength (by decide +kernel)

end Spec

end ConcreteSyntax
