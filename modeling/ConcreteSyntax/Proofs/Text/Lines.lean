import ConcreteSyntax.Proofs.Language
import ConcreteSyntax.Proofs.Text

/-!
# The lines of a text, as written and as prepared

A line ends after each `\r\n`, each `\n` and each `\r` that stands alone (`Text.lineEnds`).
These places are the ones where a line ends in the text (`Text.mem_lineEnds_iff`), so that the line
of a place is one more than their number up to there (`Text.lineAt_eq`).
The line index of a text knows these ends (`LineIndex.starts_ofText`).  A text keeps its lines
when its line endings are made one: each split of the unified text is one of the text as written
(`LineEndings.exists_of_unify_eq_append`), and the place of the split has the same line and
column in both (`LineEndings.location_unify`).
-/

namespace ConcreteSyntax

namespace Text

/-- The places right after the line endings of a text that begins at `offset`. -/
def lineEnds (offset : Nat) : List Char → List Nat
  | [] => []
  | '\r' :: '\n' :: rest => (offset + 2) :: lineEnds (offset + 2) rest
  | c :: rest =>
      if c = '\n' ∨ c = '\r' then (offset + c.utf8Size) :: lineEnds (offset + c.utf8Size) rest
      else lineEnds (offset + c.utf8Size) rest

/-- The line of a place in a text, counted from 1. -/
def lineAt (text : List Char) (place : Nat) : Nat :=
  (lineEnds 0 text).countP (· ≤ place) + 1

/-- The place where the line of a place begins. -/
def lineStartAt (text : List Char) (place : Nat) : Nat :=
  ((lineEnds 0 text).filter (· ≤ place)).getLastD 0

/-- The column of a place in a text, in bytes and counted from 1. -/
def columnAt (text : List Char) (place : Nat) : Nat := place - lineStartAt text place + 1

/-- Whether the place between two parts of a text lies within a `\r\n`. -/
def SplitsPair (before after : List Char) : Prop :=
  before.getLast? = some '\r' ∧ after.head? = some '\n'

theorem SplitsPair.cons {before after : List Char} (h : SplitsPair before after) (c : Char) :
    SplitsPair (c :: before) after :=
  ⟨by rw [List.getLast?_cons, h.1]; rfl, h.2⟩

theorem SplitsPair.of_cons {c next : Char} {before after : List Char}
    (h : SplitsPair (c :: next :: before) after) : SplitsPair (next :: before) after :=
  ⟨by rw [← h.1, List.getLast?_cons_cons], h.2⟩

theorem byteLength_pair (rest : List Char) :
    byteLength ('\r' :: '\n' :: rest) = 2 + byteLength rest := by
  rw [byteLength_cons, byteLength_cons, ← Nat.add_assoc]
  rfl

theorem lineEnds_cons {c : Char} {rest : List Char}
    (h : c = '\r' → rest.head? ≠ some '\n') (offset : Nat) :
    lineEnds offset (c :: rest) =
      if c = '\n' ∨ c = '\r' then (offset + c.utf8Size) :: lineEnds (offset + c.utf8Size) rest
      else lineEnds (offset + c.utf8Size) rest := by
  rw [lineEnds]
  rintro after rfl rfl
  exact h rfl rfl

/-- All line endings lie behind the place where a text begins, and within it. -/
theorem bounds_of_mem_lineEnds {offset place : Nat} {text : List Char}
    (h : place ∈ lineEnds offset text) : offset < place ∧ place ≤ offset + byteLength text := by
  fun_induction lineEnds offset text with
  | case1 => cases h
  | case2 offset rest ih =>
      rw [byteLength_pair]
      rcases List.mem_cons.1 h with rfl | h
      · omega
      · have := ih h
        omega
  | case3 offset c rest hpair hend ih =>
      have := c.utf8Size_pos
      rw [byteLength_cons]
      rcases List.mem_cons.1 h with rfl | h
      · omega
      · have := ih h
        omega
  | case4 offset c rest hpair hend ih =>
      have := ih h
      rw [byteLength_cons]
      omega

/-- Whether a line ends between two parts of a text: behind a `\n`, or behind a `\r` that no `\n`
follows. -/
def EndsBetween (before after : List Char) : Prop :=
  before.getLast? = some '\n' ∨ before.getLast? = some '\r' ∧ after.head? ≠ some '\n'

/-- Whether a line ends at a place in a text that begins at `offset`. -/
def EndsLine (offset : Nat) (text : List Char) (place : Nat) : Prop :=
  ∃ before after, text = before ++ after ∧ place = offset + byteLength before
    ∧ EndsBetween before after

theorem endsLine_nil {offset place : Nat} : ¬EndsLine offset [] place := by
  rintro ⟨before, after, htext, _, hend⟩
  rw [(List.append_eq_nil_iff.1 htext.symm).1] at hend
  simp [EndsBetween] at hend

/-- A line ends behind the first character of a text, or in the rest of it. -/
theorem endsLine_cons {offset place : Nat} {c : Char} {rest : List Char} :
    EndsLine offset (c :: rest) place ↔
      place = offset + c.utf8Size ∧ EndsBetween [c] rest
        ∨ EndsLine (offset + c.utf8Size) rest place := by
  constructor
  · rintro ⟨before, after, htext, rfl, hend⟩
    obtain _ | ⟨first, before⟩ := before
    · simp [EndsBetween] at hend
    obtain ⟨rfl, rfl⟩ := List.cons.inj htext
    rw [byteLength_cons, ← Nat.add_assoc]
    obtain _ | ⟨next, before⟩ := before
    · exact .inl ⟨rfl, hend⟩
    · rw [EndsBetween, List.getLast?_cons_cons] at hend
      exact .inr ⟨_, _, rfl, rfl, hend⟩
  · rintro (⟨rfl, hend⟩ | ⟨before, after, rfl, rfl, hend⟩)
    · exact ⟨[c], rest, rfl, rfl, hend⟩
    · obtain _ | ⟨next, before⟩ := before
      · simp [EndsBetween] at hend
      · refine ⟨c :: next :: before, after, rfl, ?_, ?_⟩
        · rw [byteLength_cons c, Nat.add_assoc]
        · rwa [EndsBetween, List.getLast?_cons_cons]

/-- The line endings of a text are the places where its lines end. -/
theorem mem_lineEnds_iff {offset place : Nat} {text : List Char} :
    place ∈ lineEnds offset text ↔ EndsLine offset text place := by
  fun_induction lineEnds offset text with
  | case1 offset => simp [endsLine_nil]
  | case2 offset rest ih =>
      have hpair : ¬EndsBetween ['\r'] ('\n' :: rest) := by simp [EndsBetween]
      have hfeed : EndsBetween ['\n'] rest := .inl rfl
      rw [List.mem_cons, ih, endsLine_cons, endsLine_cons]
      simp only [hpair, hfeed, and_false, and_true, false_or]
      rfl
  | case3 offset c rest hpair hend ih =>
      have hends : EndsBetween [c] rest := by
        rcases hend with rfl | rfl
        · exact .inl rfl
        · refine .inr ⟨rfl, fun hnext => ?_⟩
          obtain ⟨after, rfl⟩ := List.head?_eq_some_iff.1 hnext
          exact hpair after rfl rfl
      rw [List.mem_cons, ih, endsLine_cons, and_iff_left hends]
  | case4 offset c rest hpair hend ih =>
      have hends : ¬EndsBetween [c] rest := by
        rintro (hlast | ⟨hlast, _⟩)
        · exact hend (.inl (Option.some.inj hlast))
        · exact hend (.inr (Option.some.inj hlast))
      rw [ih, endsLine_cons, or_iff_right fun h => hends h.2]
/-- The line endings of a text stand in their order, each once. -/
theorem pairwise_lineEnds (offset : Nat) (text : List Char) :
    (lineEnds offset text).Pairwise (· < ·) := by
  fun_induction lineEnds offset text with
  | case1 => exact .nil
  | case2 offset rest ih =>
      exact .cons (fun place hplace => (bounds_of_mem_lineEnds hplace).1) ih
  | case3 offset c rest hpair hend ih =>
      exact .cons (fun place hplace => (bounds_of_mem_lineEnds hplace).1) ih
  | case4 offset c rest hpair hend ih => exact ih

instance (offset : Nat) (text : List Char) : DecidablePred (EndsLine offset text) :=
  fun _ => decidable_of_iff _ mem_lineEnds_iff

/-- The number of the lines that end at a place of a text or before it. -/
def endingsUpTo (text : List Char) (place : Nat) : Nat :=
  (List.range (place + 1)).countP (EndsLine 0 text ·)

/-- The line of a place is one more than the number of the lines that end before. -/
theorem lineAt_eq (text : List Char) (place : Nat) :
    lineAt text place = 1 + endingsUpTo text place := by
  have hnodup : (lineEnds 0 text).Nodup :=
    (pairwise_lineEnds 0 text).imp fun h => Nat.ne_of_lt h
  have hperm : ((lineEnds 0 text).filter (· ≤ place)).Perm
      ((List.range (place + 1)).filter (EndsLine 0 text ·)) := by
    refine (List.perm_ext_iff_of_nodup (hnodup.filter _) (List.nodup_range.filter _)).2 ?_
    intro other
    rw [List.mem_filter, List.mem_filter, List.mem_range, mem_lineEnds_iff, decide_eq_true_eq,
      decide_eq_true_eq, Nat.lt_succ_iff, and_comm]
  rw [lineAt, endingsUpTo, List.countP_eq_length_filter, List.countP_eq_length_filter,
    hperm.length_eq, Nat.add_comm]
/-- A split that leaves all pairs whole splits the line endings. -/
theorem lineEnds_append {before after : List Char} (h : ¬SplitsPair before after) (offset : Nat) :
    lineEnds offset (before ++ after) =
      lineEnds offset before ++ lineEnds (offset + byteLength before) after := by
  have hhead : ∀ {c : Char} {rest : List Char}, ¬SplitsPair (c :: rest) after →
      (c = '\r' → rest.head? ≠ some '\n') → c = '\r' → (rest ++ after).head? ≠ some '\n' := by
    rintro c (_ | ⟨next, rest⟩) hsplit hpair rfl hnext
    · exact hsplit ⟨rfl, hnext⟩
    · exact hpair rfl hnext
  fun_induction lineEnds offset before with
  | case1 => rfl
  | case2 offset rest ih =>
      rw [List.cons_append, List.cons_append, lineEnds, ih fun hrest => h ((hrest.cons _).cons _),
        byteLength_pair, List.cons_append, Nat.add_assoc]
  | case3 offset c rest hpair hend ih =>
      have hpair' : c = '\r' → rest.head? ≠ some '\n' := by
        rintro rfl hnext
        obtain ⟨after, rfl⟩ := List.head?_eq_some_iff.1 hnext
        exact hpair after rfl rfl
      rw [List.cons_append, lineEnds_cons (hhead h hpair'), if_pos hend,
        ih fun hrest => h (hrest.cons _), byteLength_cons, List.cons_append, Nat.add_assoc]
  | case4 offset c rest hpair hend ih =>
      have hpair' : c = '\r' → rest.head? ≠ some '\n' := fun hc => absurd (.inr hc) hend
      rw [List.cons_append, lineEnds_cons (hhead h hpair'), if_neg hend,
        ih fun hrest => h (hrest.cons _), byteLength_cons, Nat.add_assoc]

/-- The line and the column of a split are those of its first part, which ends there. -/
theorem lineAt_append {before after : List Char} (h : ¬SplitsPair before after) :
    lineAt (before ++ after) (byteLength before) = (lineEnds 0 before).length + 1
      ∧ lineStartAt (before ++ after) (byteLength before) = (lineEnds 0 before).getLastD 0 := by
  have hbefore : ∀ place ∈ lineEnds 0 before, decide (place ≤ byteLength before) = true :=
    fun place hplace => by
      have := bounds_of_mem_lineEnds hplace
      exact decide_eq_true (by omega)
  have hafter : ∀ place ∈ lineEnds (0 + byteLength before) after,
      ¬decide (place ≤ byteLength before) = true := fun place hplace => by
    have := bounds_of_mem_lineEnds hplace
    rw [decide_eq_true_eq]
    omega
  rw [lineAt, lineStartAt, lineEnds_append h, List.countP_append, List.filter_append,
    List.countP_eq_length.2 hbefore, List.countP_eq_zero.2 hafter, List.filter_eq_self.2 hbefore,
    List.filter_eq_nil_iff.2 hafter, List.append_nil]
  exact ⟨rfl, rfl⟩

end Text

namespace LineIndex

theorem afterFeeds_feedLone (offset : Nat) (text : List Char) :
    afterFeeds offset (feedLone text) = Text.lineEnds offset text := by
  fun_induction Text.lineEnds offset text with
  | case1 => rfl
  | case2 offset rest ih => rw [← ih]; rfl
  | case3 offset c rest hpair hend ih =>
      have hfeed : (if c = '\r' ∧ rest.head? ≠ some '\n' then '\n' else c) = '\n' := by
        rcases hend with rfl | rfl
        · rfl
        · refine if_pos ⟨rfl, fun hnext => ?_⟩
          obtain ⟨after, rfl⟩ := List.head?_eq_some_iff.1 hnext
          exact hpair after rfl rfl
      have hsize : c.utf8Size = 1 := by rcases hend with rfl | rfl <;> rfl
      rw [feedLone, hfeed, afterFeeds, if_pos rfl, ← hsize, ih]
  | case4 offset c rest hpair hend ih =>
      rw [not_or] at hend
      rw [feedLone, if_neg fun h => hend.2 h.1, afterFeeds, if_neg hend.1, ih]

/-- The index of a text knows its lines. -/
theorem starts_ofText (text : List Char) : (ofText text).starts = Text.lineEnds 0 text :=
  afterFeeds_feedLone 0 text

/-- The index of a text gives the line and the column of each place between its characters,
counted from 0. -/
theorem lineColumn?_ofText {text : List Char} {place : Nat}
    (h : Text.isBoundary text place = true) :
    ∃ line column, (ofText text).lineColumn? place = some (line, column)
      ∧ Text.lineAt text place = line + 1 ∧ Text.columnAt text place = column + 1 := by
  refine ⟨_, _, if_pos h, ?_, ?_⟩
  · rw [line, starts_ofText, Text.lineAt]
  · rw [column, lineStart, starts_ofText, Text.columnAt, Text.lineStartAt]

end LineIndex

namespace LineEndings

open Text (SplitsPair lineEnds lineAt columnAt byteLength)

theorem unify_cons {c : Char} {rest : List Char} (h : c = '\r' → rest.head? ≠ some '\n') :
    unify (c :: rest) = feed c :: unify rest := by
  rw [unify, joinPairs]
  · rfl
  · rintro after rfl rfl
    exact h rfl rfl

theorem unify_append {before after : List Char} (h : ¬SplitsPair before after) :
    unify (before ++ after) = unify before ++ unify after := by
  have hhead : ∀ {c : Char} {rest : List Char}, ¬SplitsPair (c :: rest) after →
      (c = '\r' → rest.head? ≠ some '\n') → c = '\r' → (rest ++ after).head? ≠ some '\n' := by
    rintro c (_ | ⟨next, rest⟩) hsplit hpair rfl hnext
    · exact hsplit ⟨rfl, hnext⟩
    · exact hpair rfl hnext
  fun_induction joinPairs before with
  | case1 => rfl
  | case2 rest ih =>
      exact congrArg ('\n' :: ·) (ih fun hrest => h ((hrest.cons _).cons _))
  | case3 c rest hpair ih =>
      have hpair' : c = '\r' → rest.head? ≠ some '\n' := by
        rintro rfl hnext
        obtain ⟨after, rfl⟩ := List.head?_eq_some_iff.1 hnext
        exact hpair after rfl rfl
      rw [List.cons_append, unify_cons (hhead h hpair'), unify_cons hpair',
        ih fun hrest => h (hrest.cons _), List.cons_append]

/-- What a text is unified to begins with what its beginning is unified to, also where a pair is
split. -/
theorem exists_unify_append (before after : List Char) :
    ∃ rest, unify (before ++ after) = unify before ++ rest := by
  by_cases h : SplitsPair before after
  · obtain ⟨hlast, hnext⟩ := h
    obtain ⟨front, rfl⟩ := List.getLast?_eq_some_iff.1 hlast
    obtain ⟨rest, rfl⟩ := List.head?_eq_some_iff.1 hnext
    have hwhole : ∀ rest, ¬SplitsPair front ('\r' :: rest) := fun rest hsplit => by
      cases hsplit.2
    refine ⟨unify rest, ?_⟩
    rw [List.append_assoc, List.singleton_append, unify_append (hwhole _), unify_append (hwhole _),
      List.append_assoc]
    rfl
  · exact ⟨_, unify_append h⟩

/-- Where a unified text is split, the text as written can be split as well, and no pair is. -/
theorem exists_of_unify_eq_append {text left right : List Char} (h : unify text = left ++ right) :
    ∃ before after, text = before ++ after ∧ unify before = left ∧ unify after = right
      ∧ ¬SplitsPair before after := by
  induction left generalizing text with
  | nil => exact ⟨[], text, rfl, rfl, h, fun hsplit => by cases hsplit.1⟩
  | cons first left ih =>
      obtain _ | ⟨c, rest⟩ := text
      · cases h
      by_cases hpair : c = '\r' ∧ rest.head? = some '\n'
      · obtain ⟨rfl, hnext⟩ := hpair
        obtain ⟨rest, rfl⟩ := List.head?_eq_some_iff.1 hnext
        obtain ⟨rfl, hrest⟩ : '\n' = first ∧ unify rest = left ++ right := List.cons.inj h
        obtain ⟨before, after, rfl, rfl, rfl, hwhole⟩ := ih hrest
        refine ⟨'\r' :: '\n' :: before, after, rfl, rfl, rfl, fun hsplit => ?_⟩
        obtain _ | ⟨next, before⟩ := before
        · cases hsplit.1
        · exact hwhole hsplit.of_cons.of_cons
      · have hpair' : c = '\r' → rest.head? ≠ some '\n' := fun hc hnext => hpair ⟨hc, hnext⟩
        rw [unify_cons hpair'] at h
        obtain ⟨rfl, hrest⟩ := List.cons.inj h
        obtain ⟨before, after, rfl, rfl, rfl, hwhole⟩ := ih hrest
        refine ⟨c :: before, after, rfl, unify_cons fun hc hnext => hpair' hc ?_, rfl,
          fun hsplit => ?_⟩
        · rw [List.head?_append, hnext]
          rfl
        · obtain _ | ⟨next, before⟩ := before
          · exact hpair' (Option.some.inj hsplit.1) hsplit.2
          · exact hwhole hsplit.of_cons

/-- A text and its unified form have as many line endings, and as many bytes behind the last of
them.  The lines in which both begin may have begun the same number of bytes before. -/
theorem lineEnds_unify {offset offset' start start' column : Nat} (text : List Char)
    (h : offset = start + column) (h' : offset' = start' + column) :
    (lineEnds offset' (unify text)).length = (lineEnds offset text).length
      ∧ offset' + byteLength (unify text) - (lineEnds offset' (unify text)).getLastD start' =
          offset + byteLength text - (lineEnds offset text).getLastD start := by
  fun_induction lineEnds offset text generalizing offset' start start' column with
  | case1 offset =>
      refine ⟨rfl, ?_⟩
      change offset' + 0 - start' = offset + 0 - start
      omega
  | case2 offset rest ih =>
      have hrest := ih (Nat.add_zero (offset + 2)).symm (Nat.add_zero (offset' + 1)).symm
      have hunify : unify ('\r' :: '\n' :: rest) = '\n' :: unify rest := rfl
      have hends : lineEnds offset' ('\n' :: unify rest) =
          (offset' + 1) :: lineEnds (offset' + 1) (unify rest) := rfl
      rw [hunify, hends, Text.byteLength_pair, Text.byteLength_cons, ← Nat.add_assoc,
        ← Nat.add_assoc, List.getLastD_cons, List.getLastD_cons]
      exact ⟨congrArg (· + 1) hrest.1, hrest.2⟩
  | case3 offset c rest hpair hend ih =>
      have hpair' : c = '\r' → rest.head? ≠ some '\n' := by
        rintro rfl hnext
        obtain ⟨after, rfl⟩ := List.head?_eq_some_iff.1 hnext
        exact hpair after rfl rfl
      have hfeed : feed c = '\n' ∧ c.utf8Size = 1 := by
        rcases hend with rfl | rfl <;> exact ⟨rfl, rfl⟩
      have hrest := ih (Nat.add_zero (offset + c.utf8Size)).symm (Nat.add_zero (offset' + 1)).symm
      have hends : lineEnds offset' ('\n' :: unify rest) =
          (offset' + 1) :: lineEnds (offset' + 1) (unify rest) := rfl
      rw [unify_cons hpair', hfeed.1, hends, Text.byteLength_cons, Text.byteLength_cons,
        ← Nat.add_assoc, ← Nat.add_assoc, List.getLastD_cons, List.getLastD_cons]
      exact ⟨congrArg (· + 1) hrest.1, hrest.2⟩
  | case4 offset c rest hpair hend ih =>
      rw [not_or] at hend
      have hrest := ih
        (show offset + c.utf8Size = start + (column + c.utf8Size) by omega)
        (show offset' + c.utf8Size = start' + (column + c.utf8Size) by omega)
      rw [unify_cons fun hc => absurd hc hend.2, show feed c = c from if_neg hend.2,
        Text.lineEnds_cons fun hc => absurd hc hend.2, if_neg (not_or.2 hend),
        Text.byteLength_cons, Text.byteLength_cons, ← Nat.add_assoc, ← Nat.add_assoc]
      exact hrest

/-- A split of a unified text has the line and the column that it has in the text as written. -/
theorem location_unify {before after : List Char} (h : ¬SplitsPair before after) :
    lineAt (unify before ++ unify after) (byteLength (unify before)) =
        lineAt (before ++ after) (byteLength before)
      ∧ columnAt (unify before ++ unify after) (byteLength (unify before)) =
        columnAt (before ++ after) (byteLength before) := by
  have hunified : ¬SplitsPair (unify before) (unify after) := fun hsplit =>
    notMem_unify before (List.mem_of_getLast? hsplit.1)
  obtain ⟨hlength, hlast⟩ := lineEnds_unify before (Nat.zero_add 0).symm (Nat.zero_add 0).symm
  obtain ⟨hline, hstart⟩ := Text.lineAt_append h
  obtain ⟨hline', hstart'⟩ := Text.lineAt_append hunified
  rw [Nat.zero_add, Nat.zero_add] at hlast
  rw [columnAt, columnAt, hline, hline', hstart, hstart', hlength, hlast]
  exact ⟨rfl, rfl⟩

end LineEndings

/-- Where a prepared text is split, the text as written can be split as well, in the same line
and column. -/
theorem Language.exists_of_prepare_eq_append {language : Language} {text left right : List Char}
    (h : language.prepare text = left ++ right) :
    ∃ before after, text = before ++ after
      ∧ language.prepare before = left ∧ language.prepare after = right
      ∧ Text.lineAt (left ++ right) (Text.byteLength left) =
          Text.lineAt text (Text.byteLength before)
      ∧ Text.columnAt (left ++ right) (Text.byteLength left) =
          Text.columnAt text (Text.byteLength before) := by
  unfold prepare LineEndings.apply at *
  cases hendings : language.lineEndings with
  | preserve =>
      rw [hendings] at h
      exact ⟨left, right, h, rfl, rfl, by rw [← h], by rw [← h]⟩
  | normalize =>
      rw [hendings] at h
      obtain ⟨before, after, rfl, rfl, rfl, hwhole⟩ := LineEndings.exists_of_unify_eq_append h
      exact ⟨before, after, rfl, rfl, rfl, LineEndings.location_unify hwhole⟩

end ConcreteSyntax
