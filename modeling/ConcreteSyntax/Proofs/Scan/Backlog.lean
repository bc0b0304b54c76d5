import ConcreteSyntax.Scan.Table
import Mathlib.Data.List.Perm.Subperm

/-!
# Ordering a backlog

A backlog counts down what still has to come before each spec.  `Backlog.Tracks` says what the
counts and the queue are about: the places that are still to be ordered.  One step keeps it
(`Tracks.step`), and by induction on the steps the order that results has no place in front of
one that goes before it, leaves out only places that wait for each other (`exists_stuck`), and is
the first of all such orders (`eq_or_lex_settle`).
-/

namespace ConcreteSyntax.Table

variable {specs : List Spec} {place first later : Nat} {queue : List Nat}

@[simp] theorem mem_places : place ∈ places specs ↔ place < specs.length := List.mem_range

theorem goesBefore_self (specs : List Spec) (place : Nat) :
    goesBefore specs place place = false := by
  unfold goesBefore
  split <;> simp

theorem mem_followers :
    later ∈ followers specs first ↔ later < specs.length ∧ goesBefore specs first later = true := by
  simp [followers]

theorem nodup_followers (specs : List Spec) (first : Nat) : (followers specs first).Nodup :=
  List.nodup_range.filter _

/-! ## The queue -/

theorem mem_enqueue : place ∈ enqueue later queue ↔ place = later ∨ place ∈ queue := by
  induction queue with
  | nil => simp [enqueue]
  | cons next rest ih =>
      unfold enqueue
      split
      · simp
      · simp only [List.mem_cons, ih]
        tauto

theorem pairwise_enqueue (hqueue : queue.Pairwise (· < ·)) (hnew : later ∉ queue) :
    (enqueue later queue).Pairwise (· < ·) := by
  induction queue with
  | nil => simp [enqueue]
  | cons next rest ih =>
      rw [List.pairwise_cons] at hqueue
      rw [List.mem_cons, not_or] at hnew
      unfold enqueue
      split
      · rename_i hlt
        refine List.pairwise_cons.2 ⟨fun place hplace => ?_, List.pairwise_cons.2 hqueue⟩
        rcases List.mem_cons.1 hplace with rfl | hplace
        · exact hlt
        · exact Nat.lt_trans hlt (hqueue.1 place hplace)
      · refine List.pairwise_cons.2 ⟨fun place hplace => ?_, ih hqueue.2 hnew.2⟩
        rcases mem_enqueue.1 hplace with rfl | hplace
        · omega
        · exact hqueue.1 place hplace

/-- Lists in rising order with the same members are the same. -/
theorem eq_of_rising {queue queue' : List Nat} (hqueue : queue.Pairwise (· < ·))
    (hqueue' : queue'.Pairwise (· < ·)) (h : ∀ place, place ∈ queue ↔ place ∈ queue') :
    queue = queue' := by
  have hperm : queue.Perm queue' :=
    (List.perm_ext_iff_of_nodup (hqueue.imp Nat.ne_of_lt) (hqueue'.imp Nat.ne_of_lt)).2 h
  refine hperm.eq_of_pairwise (fun a b _ _ hab hba => ?_) hqueue hqueue'
  omega

namespace Backlog

variable {backlog : Backlog} {laters : List Nat}

/-! ## Releasing places -/

theorem getElem?_blockers_release (backlog : Backlog) (later place : Nat) :
    (backlog.release later).blockers[place]? =
      if place = later then (backlog.blockers[place]?).map (· - 1)
      else backlog.blockers[place]? := by
  simp only [release, List.getElem?_modify]
  by_cases h : later = place
  · simp [h]
  · simp [h, Ne.symm h]

theorem mem_ready_release :
    place ∈ (backlog.release later).ready ↔ place ∈ backlog.ready
      ∨ place = later ∧ (backlog.blockers[place]?).map (· - 1) = some 0 := by
  have hcount : (backlog.blockers.modify later (· - 1))[later]? =
      (backlog.blockers[later]?).map (· - 1) := by
    simp
  simp only [release, hcount]
  split
  · rename_i hzero
    rw [mem_enqueue]
    exact ⟨fun h => h.elim (fun h => .inr ⟨h, h ▸ hzero⟩) .inl,
      fun h => h.elim .inr fun h => .inl h.1⟩
  · rename_i hzero
    exact ⟨.inl, fun h => h.elim id fun h => absurd (h.1 ▸ h.2) hzero⟩

theorem getElem?_blockers_releaseAll (hnodup : laters.Nodup) (backlog : Backlog) (place : Nat) :
    (laters.foldl release backlog).blockers[place]? =
      if place ∈ laters then (backlog.blockers[place]?).map (· - 1)
      else backlog.blockers[place]? := by
  induction laters generalizing backlog with
  | nil => simp
  | cons later rest ih =>
      obtain ⟨hlater, hrest⟩ := List.nodup_cons.1 hnodup
      rw [List.foldl_cons, ih hrest, getElem?_blockers_release]
      by_cases h : place = later
      · simp [h, hlater]
      · simp [h]

theorem mem_ready_releaseAll (hnodup : laters.Nodup) (backlog : Backlog) :
    place ∈ (laters.foldl release backlog).ready ↔ place ∈ backlog.ready
      ∨ place ∈ laters ∧ (backlog.blockers[place]?).map (· - 1) = some 0 := by
  induction laters generalizing backlog with
  | nil => simp
  | cons later rest ih =>
      obtain ⟨hlater, hrest⟩ := List.nodup_cons.1 hnodup
      rw [List.foldl_cons, ih hrest, mem_ready_release, getElem?_blockers_release, List.mem_cons]
      by_cases h : place = later
      · subst h
        simp [hlater]
      · simp [h]

theorem pairwise_ready_releaseAll (hnodup : laters.Nodup) (hready : backlog.ready.Pairwise (· < ·))
    (hnew : ∀ later ∈ laters, later ∉ backlog.ready) :
    (laters.foldl release backlog).ready.Pairwise (· < ·) := by
  induction laters generalizing backlog with
  | nil => exact hready
  | cons later rest ih =>
      obtain ⟨hlater, hrest⟩ := List.nodup_cons.1 hnodup
      rw [List.forall_mem_cons] at hnew
      rw [List.foldl_cons]
      refine ih hrest ?_ fun other hother => ?_
      · simp only [release]
        split
        · exact pairwise_enqueue hready hnew.1
        · exact hready
      · rw [mem_ready_release]
        rintro (hmem | ⟨rfl, _⟩)
        · exact hnew.2 other hother hmem
        · exact hlater hother

/-! ## What a backlog is about -/

/-- Whether a backlog is about the places of `rest`, which are still to be ordered: it counts for
each place those of them that go before it, its queue holds those of them that none of them goes
before, and none of them goes before a place that is ordered. -/
structure Tracks (specs : List Spec) (backlog : Backlog) (rest : List Nat) : Prop where
  rising : rest.Pairwise (· < ·)
  within : rest ⊆ places specs
  blockers : ∀ place ∈ places specs,
    backlog.blockers[place]? = some (rest.countP (goesBefore specs · place))
  behind : ∀ place ∈ places specs, place ∉ rest → rest.countP (goesBefore specs · place) = 0
  ready : backlog.ready = rest.filter fun place => rest.countP (goesBefore specs · place) == 0

theorem tracks_start (specs : List Spec) : Tracks specs (start specs) (places specs) where
  rising := List.pairwise_lt_range
  within := List.Subset.refl _
  blockers place hplace := by
    rw [mem_places] at hplace
    simp [start, places, hplace]
  behind place hplace hnot := absurd hplace hnot
  ready := by
    refine List.filter_congr fun place hplace => ?_
    rw [mem_places] at hplace
    simp [places, hplace]

namespace Tracks

variable {rest others : List Nat}

theorem mem_ready (h : Tracks specs backlog rest) :
    place ∈ backlog.ready ↔ place ∈ rest ∧ rest.countP (goesBefore specs · place) = 0 := by
  simp [h.ready]

/-- One place fewer is counted before the places that the ordered one goes before. -/
theorem countP_erase_add (specs : List Spec) (hfirst : first ∈ rest) (place : Nat) :
    rest.countP (goesBefore specs · place) =
      (rest.erase first).countP (goesBefore specs · place)
        + if goesBefore specs first place = true then 1 else 0 := by
  have hperm := List.perm_cons_erase hfirst
  rw [hperm.countP_eq, List.countP_cons]

/-- What is released when the first place of the queue is ordered, is about the places that are
left. -/
theorem step (h : Tracks specs backlog rest) (hready : backlog.ready = first :: others) :
    Tracks specs ((followers specs first).foldl release { backlog with ready := others })
      (rest.erase first) := by
  obtain ⟨hfirst, hzero⟩ := h.mem_ready.1 (hready ▸ List.mem_cons_self : first ∈ backlog.ready)
  have hnodup : rest.Nodup := h.rising.imp Nat.ne_of_lt
  have hsorted : backlog.ready.Pairwise (· < ·) := h.ready ▸ h.rising.filter _
  have hothers := List.pairwise_cons.1 (hready ▸ hsorted)
  have hcount := fun place => countP_erase_add specs hfirst place
  -- What the first place goes before waited for it, so it was not in the queue.
  have hwaiting : ∀ later ∈ followers specs first, later ∉ backlog.ready := by
    intro later hlater hmem
    have hlast := (h.mem_ready.1 hmem).2
    have := hcount later
    rw [if_pos (mem_followers.1 hlater).2] at this
    omega
  refine ⟨h.rising.sublist List.erase_sublist,
    fun place hplace => h.within (List.mem_of_mem_erase hplace), fun place hplace => ?_,
    fun place hplace hnot => ?_, ?_⟩
  · rw [getElem?_blockers_releaseAll (nodup_followers specs first), h.blockers place hplace,
      hcount place]
    rw [mem_places] at hplace
    by_cases hgoes : goesBefore specs first place = true <;> simp [mem_followers, hplace, hgoes]
  · by_cases hplaceFirst : place = first
    · have := hcount place
      rw [hplaceFirst] at this ⊢
      omega
    · have hrest : place ∉ rest := fun hmem => hnot ((List.mem_erase_of_ne hplaceFirst).2 hmem)
      have := hcount place
      have := h.behind place hplace hrest
      omega
  · refine eq_of_rising (pairwise_ready_releaseAll (nodup_followers specs first) hothers.2 ?_)
      ((h.rising.sublist List.erase_sublist).filter _) fun place => ?_
    · intro later hlater hmem
      exact hwaiting later hlater (hready ▸ List.mem_cons_of_mem _ hmem)
    · have hmemOthers : place ∈ others ↔ place ∈ backlog.ready ∧ place ≠ first := by
        rw [hready, List.mem_cons]
        constructor
        · exact fun hmem => ⟨.inr hmem, fun heq => absurd (hothers.1 place hmem) (by omega)⟩
        · exact fun hmem => hmem.1.resolve_left hmem.2
      rw [mem_ready_releaseAll (nodup_followers specs first), hmemOthers, h.mem_ready,
        List.mem_filter, hnodup.mem_erase_iff, mem_followers]
      have hplaceCount := hcount place
      by_cases hgoes : goesBefore specs first place = true
      · have hself : place ≠ first := by
          rintro rfl
          rw [goesBefore_self] at hgoes
          cases hgoes
        rw [if_pos hgoes] at hplaceCount
        by_cases hplace : place < specs.length
        · have hrest : place ∈ rest := by
            by_contra hnot
            have := h.behind place (mem_places.2 hplace) hnot
            omega
          simp [h.blockers place (mem_places.2 hplace), hplaceCount, hgoes, hplace, hself, hrest]
        · have hnot : place ∉ rest := fun hmem => hplace (mem_places.1 (h.within hmem))
          simp [hplace, hnot]
      · rw [if_neg hgoes, Nat.add_zero] at hplaceCount
        simp [hgoes, hplaceCount, and_comm, and_assoc]

end Tracks

/-! ## The order that results -/

variable {rest : List Nat} {fuel : Nat}

theorem settle_subset (h : Tracks specs backlog rest) (fuel : Nat) :
    settle specs fuel backlog ⊆ rest := by
  induction fuel generalizing backlog rest with
  | zero => simp [settle]
  | succ fuel ih =>
      unfold settle
      split
      · simp
      · rename_i first others hready
        have hfirst := (h.mem_ready.1 (hready ▸ List.mem_cons_self : first ∈ backlog.ready)).1
        refine List.cons_subset.2 ⟨hfirst, fun place hplace => ?_⟩
        exact List.mem_of_mem_erase (ih (h.step hready) hplace)

theorem nodup_settle (h : Tracks specs backlog rest) (fuel : Nat) :
    (settle specs fuel backlog).Nodup := by
  induction fuel generalizing backlog rest with
  | zero => simp [settle]
  | succ fuel ih =>
      unfold settle
      split
      · simp
      · rename_i first others hready
        have hstep := h.step hready
        refine List.nodup_cons.2 ⟨fun hmem => ?_, ih hstep⟩
        have hnodup : rest.Nodup := h.rising.imp Nat.ne_of_lt
        exact hnodup.not_mem_erase (settle_subset hstep fuel hmem)

/-- No place is ordered in front of one that goes before it. -/
theorem pairwise_settle (h : Tracks specs backlog rest) (fuel : Nat) :
    (settle specs fuel backlog).Pairwise fun first later => goesBefore specs later first = false := by
  induction fuel generalizing backlog rest with
  | zero => simp [settle]
  | succ fuel ih =>
      unfold settle
      split
      · simp
      · rename_i first others hready
        have hstep := h.step hready
        refine List.pairwise_cons.2 ⟨fun later hlater => ?_, ih hstep⟩
        have hzero := (h.mem_ready.1 (hready ▸ List.mem_cons_self : first ∈ backlog.ready)).2
        have hrest := List.mem_of_mem_erase (settle_subset hstep fuel hlater)
        simpa using List.countP_eq_zero.1 hzero later hrest

/-- Where not all places can be ordered, there are some of which each waits for another. -/
theorem exists_stuck (h : Tracks specs backlog rest) (hfuel : rest.length ≤ fuel)
    (hshort : (settle specs fuel backlog).length ≠ rest.length) :
    ∃ stuck, stuck ≠ [] ∧ stuck ⊆ rest
      ∧ ∀ later ∈ stuck, ∃ first ∈ stuck, goesBefore specs first later = true := by
  induction fuel generalizing backlog rest with
  | zero =>
      obtain rfl := List.length_eq_zero_iff.1 (Nat.le_zero.1 hfuel)
      exact absurd rfl hshort
  | succ fuel ih =>
      unfold settle at hshort
      split at hshort
      · rename_i hready
        refine ⟨rest, fun hnil => hshort (by rw [hnil]), List.Subset.refl _, fun later hlater => ?_⟩
        have hnot : later ∉ backlog.ready := by rw [hready]; exact List.not_mem_nil
        have hpos : 0 < rest.countP (goesBefore specs · later) :=
          Nat.pos_of_ne_zero fun hzero => hnot (h.mem_ready.2 ⟨hlater, hzero⟩)
        exact List.countP_pos_iff.1 hpos
      · rename_i first others hready
        have hfirst := (h.mem_ready.1 (hready ▸ List.mem_cons_self : first ∈ backlog.ready)).1
        have hlength := List.length_erase_of_mem hfirst
        have hpos := List.length_pos_of_mem hfirst
        rw [List.length_cons] at hshort
        obtain ⟨stuck, hne, hsub, hwaits⟩ :=
          ih (h.step hready) (by omega) (fun hsame => hshort (by omega))
        exact ⟨stuck, hne, fun place hplace => List.mem_of_mem_erase (hsub hplace), hwaits⟩

/-- Of all orders in which no place stands in front of one that goes before it, the one that
results is the first: where another differs from it, the other has the later place. -/
theorem eq_or_lex_settle (h : Tracks specs backlog rest) (hfuel : rest.length ≤ fuel)
    {other : List Nat} (hperm : other.Perm rest)
    (hother : other.Pairwise fun first later => goesBefore specs later first = false) :
    settle specs fuel backlog = other ∨ List.Lex (· < ·) (settle specs fuel backlog) other := by
  induction fuel generalizing backlog rest other with
  | zero =>
      obtain rfl := List.length_eq_zero_iff.1 (Nat.le_zero.1 hfuel)
      exact .inl hperm.eq_nil.symm
  | succ fuel ih =>
      unfold settle
      cases other with
      | nil =>
          obtain rfl := hperm.symm.eq_nil
          have hready : backlog.ready = [] := by simp [h.ready]
          simp [hready]
      | cons head tail =>
          obtain ⟨hhead, htail⟩ := List.pairwise_cons.1 hother
          have hmem : head ∈ rest := hperm.mem_iff.1 List.mem_cons_self
          -- The first place of the other order waits for nothing, so it is in the queue.
          have hready : head ∈ backlog.ready := by
            refine h.mem_ready.2 ⟨hmem, ?_⟩
            rw [← hperm.countP_eq, List.countP_eq_zero]
            intro place hplace
            rcases List.mem_cons.1 hplace with rfl | hplace
            · simp [goesBefore_self]
            · simp [hhead place hplace]
          split
          · rename_i hnil
            rw [hnil] at hready
            cases hready
          · rename_i first others hcons
            have hsorted : backlog.ready.Pairwise (· < ·) := h.ready ▸ h.rising.filter _
            rw [hcons] at hready hsorted
            rcases List.mem_cons.1 hready with rfl | hlater
            · have hfirst := List.length_erase_of_mem hmem
              have hpos := List.length_pos_of_mem hmem
              have hrest : tail.Perm (rest.erase head) :=
                (List.perm_cons head).1 (hperm.trans (List.perm_cons_erase hmem))
              rcases ih (h.step hcons) (by omega) hrest htail with heq | hlex
              · exact .inl (by rw [heq])
              · exact .inr (.cons hlex)
            · exact .inr (.rel ((List.pairwise_cons.1 hsorted).1 head hlater))

end Backlog

end ConcreteSyntax.Table
