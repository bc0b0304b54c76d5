import ConcreteSyntax.CFamily.Statements
import ConcreteSyntax.Proofs.Analysis.Plan

/-!
# What the rules for statements find

Plans of the rules for flow, for allocations and for labels.
-/

namespace ConcreteSyntax.CFamily

open Action Plan

/-! ## Statements -/

/-- The rest of a `do` loop after its body. -/
def doEndLength (kinds : List Kind) : Option Nat :=
  if kinds.head? = some .whileKw ∧ kinds[1]? = some .parenthesis then
    some (if kinds[2]? = some .semicolon then 3 else 2)
  else none

/-- The number of siblings that one statement takes; nothing when it is cut short. -/
def statementLength : List Kind → Option Nat
  | [] => none
  | .delimiter :: _ => none
  | .braces :: _ => some 1
  | .ifKw :: rest | .forKw :: rest | .whileKw :: rest | .switchKw :: rest =>
      if rest.head? = some .parenthesis then (statementLength rest.tail).map (· + 2) else none
  | .elseKw :: rest => (statementLength rest).map (· + 1)
  | .doKw :: rest =>
      match statementLength rest with
      | some n => (doEndLength (rest.drop n)).map (n + · + 1)
      | none => none
  | .tryKw :: rest | .atTryKw :: rest | .atFinallyKw :: rest =>
      if rest.head? = some .braces then some 2 else none
  | .catchKw :: rest | .atCatchKw :: rest | .atSynchronizedKw :: rest =>
      if rest.head? = some .parenthesis ∧ rest[1]? = some .braces then some 3 else none
  | kinds => through .semicolon (fun kind => !statementStop.contains kind) kinds
termination_by kinds => kinds.length

theorem eat?_eq_some {look body : Lookahead} {kind : Kind} (h : look.eat? kind = some body) :
    look.kinds.head? = some kind ∧ body = look.advance := by
  rw [Lookahead.eat?_eq] at h
  split at h
  · simp only [Option.some.injEq] at h
    exact ⟨‹_›, h.symm⟩
  · simp at h

theorem eat?_eq_none {look : Lookahead} {kind : Kind} (h : look.eat? kind = none) :
    look.kinds.head? ≠ some kind := by
  rw [Lookahead.eat?_eq] at h
  split at h
  · simp at h
  · assumption

theorem doEnd_eq (body : Lookahead) :
    (do let condition ← body.eat? .whileKw
        let after ← condition.eat? .parenthesis
        return after.skip .semicolon) = (doEndLength body.kinds).map body.past := by
  unfold doEndLength Lookahead.skip
  simp only [Lookahead.eat?_eq]
  by_cases hwhile : body.kinds.head? = some .whileKw
  · by_cases hcondition : body.kinds[1]? = some .parenthesis
    · by_cases hend : body.kinds[2]? = some .semicolon
      · simp [hwhile, hcondition, hend]
      · simp [hwhile, hcondition, hend]
    · simp [hwhile, hcondition]
  · simp [hwhile]

theorem handlerEnd_eq (look : Lookahead) :
    (do let body ← look.eat? .parenthesis
        body.eat? .braces) =
      if look.kinds.head? = some .parenthesis ∧ look.kinds[1]? = some .braces then
        some (look.past 2)
      else none := by
  simp only [Lookahead.eat?_eq]
  by_cases hargument : look.kinds.head? = some .parenthesis
  · by_cases hbody : look.kinds[1]? = some .braces <;> simp [hargument, hbody]
  · simp [hargument]

theorem statement?_eq (look : Lookahead) :
    statement? look = (statementLength look.kinds).map look.past := by
  fun_induction statement? look with
  | case1 look h => simp [Lookahead.kinds_eq_nil h, statementLength]
  | case2 look h =>
      rw [Lookahead.kinds_eq_cons h, statementLength]
      rfl
  | case3 look h =>
      rw [Lookahead.kinds_eq_cons h, statementLength]
      rfl
  | case4 look h body he ih | case6 look h body he ih | case8 look h body he ih
  | case10 look h body he ih =>
      -- A word with a condition in parentheses, and a body.
      obtain ⟨hcondition, rfl⟩ := eat?_eq_some he
      rw [Lookahead.kinds_eq_cons h, statementLength, if_pos hcondition, ih,
        Lookahead.kinds_advance look.advance, Option.map_map]
      rfl
  | case5 look h he | case7 look h he | case9 look h he | case11 look h he =>
      rw [Lookahead.kinds_eq_cons h, statementLength, if_neg (eat?_eq_none he)]
      rfl
  | case12 look h ih =>
      rw [Lookahead.kinds_eq_cons h, statementLength, ih, Option.map_map]
      rfl
  | case13 look h body hbody ih =>
      rw [hbody] at ih
      obtain ⟨n, hn, rfl⟩ := Option.map_eq_some_iff.1 ih.symm
      rw [doEnd_eq, Lookahead.kinds_eq_cons h, statementLength, hn, Lookahead.kinds_past,
        Option.map_map]
      congr 1
      funext m
      rw [Lookahead.past_past]
      rfl
  | case14 look h hbody ih =>
      rw [hbody] at ih
      rw [Lookahead.kinds_eq_cons h, statementLength, Option.map_eq_none_iff.1 ih.symm]
      rfl
  | case15 look h | case16 look h | case17 look h =>
      rw [Lookahead.kinds_eq_cons h, statementLength, Lookahead.eat?_eq]
      split <;> rfl
  | case18 look h | case19 look h | case20 look h =>
      rw [Lookahead.kinds_eq_cons h, statementLength, handlerEnd_eq]
      split <;> rfl
  | case21 =>
      rename_i h
      rw [Lookahead.kinds_eq_cons h, statementLength, ← Lookahead.kinds_eq_cons h,
        Lookahead.eatThrough?_eq]
      all_goals simp_all

theorem run_statement (attempt : Attempt) :
    statement.run attempt =
      .ok (statementLength attempt.look.kinds).isSome
        { attempt with
          look := attempt.look.past ((statementLength attempt.look.kinds).getD 0) } := by
  rw [statement, run_bind, run_place]
  dsimp only
  rw [run_tryTo, statement?_eq]
  cases statementLength attempt.look.kinds <;> rfl

theorem doEnd_spec {kinds : List Kind} {n : Nat} (h : doEndLength kinds = some n) :
    n ≤ kinds.length := by
  unfold doEndLength at h
  split at h
  · rename_i hcondition
    obtain ⟨hlength, _⟩ := List.getElem?_eq_some_iff.1 hcondition.2
    split at h
    · rename_i hend
      obtain ⟨hlength, _⟩ := List.getElem?_eq_some_iff.1 hend
      simp only [Option.some.injEq] at h
      omega
    · simp only [Option.some.injEq] at h
      omega
  · simp at h

/-- A statement takes at least one sibling, and no more than there are. -/
theorem statement_spec {kinds : List Kind} {n : Nat} (h : statementLength kinds = some n) :
    0 < n ∧ n ≤ kinds.length := by
  fun_induction statementLength kinds generalizing n with
  | case1 | case2 | case5 | case7 | case9 | case11 | case14 | case16 | case18 | case20 | case22
  | case24 | case26 => simp at h
  | case3 =>
      simp only [Option.some.injEq] at h
      simp [← h]
  | case4 rest hcondition ih | case6 rest hcondition ih | case8 rest hcondition ih
  | case10 rest hcondition ih =>
      obtain ⟨m, hm, rfl⟩ := Option.map_eq_some_iff.1 h
      have hspec := ih hm
      rw [List.length_tail] at hspec
      simp only [List.length_cons]
      omega
  | case12 rest ih =>
      obtain ⟨m, hm, rfl⟩ := Option.map_eq_some_iff.1 h
      have hspec := ih hm
      simp only [List.length_cons]
      omega
  | case13 rest body hbody ih =>
      obtain ⟨m, hm, rfl⟩ := Option.map_eq_some_iff.1 h
      have hspec := ih hbody
      have hend := doEnd_spec hm
      rw [List.length_drop] at hend
      simp only [List.length_cons]
      omega
  | case15 rest hbody | case17 rest hbody | case19 rest hbody =>
      rw [List.head?_eq_getElem?] at hbody
      obtain ⟨hlength, _⟩ := List.getElem?_eq_some_iff.1 hbody
      simp only [Option.some.injEq] at h
      simp only [List.length_cons]
      omega
  | case21 rest hbody | case23 rest hbody | case25 rest hbody =>
      obtain ⟨hlength, _⟩ := List.getElem?_eq_some_iff.1 hbody.2
      simp only [Option.some.injEq] at h
      simp only [List.length_cons]
      omega
  | case27 kinds => exact ⟨through_pos h, through_le h⟩

/-! ## Flow -/

/-- `new` with a type, and with arguments or a length. -/
def allocationPlan : Plan := fun scene =>
  if scene.kinds[1]?.any allocated.contains then
    let type := 1 + countWhile allocated.contains scene.kinds.tail
    if scene.kinds[type]? = some .parenthesis ∨ scene.kinds[type]? = some .brackets then
      some (.cppNew, type + 1)
    else some (.cppNew, type)
  else none

/-- The kind of the statement that a word begins. -/
def flowKindOf (scene : Scene) : Option Kind :=
  match scene.kinds.head? with
  | some .ifKw => if scene.previous = some .elseKw then none else some .conditionIf
  | some .elseKw =>
      if scene.kinds[1]? = some .ifKw then some .conditionElseIf else some .conditionElse
  | some .switchKw => some .flowSwitch
  | some .forKw => some .flowFor
  | some .whileKw =>
      if scene.parent = .flowDoWhile ∧ scene.previous ≠ some .doKw then none
      else some .flowWhile
  | some .doKw => some .flowDoWhile
  | some .returnKw => some .flowReturn
  | some .gotoKw => some .flowGoto
  | some .tryKw => some .cppTry
  | some .catchKw => some .cppCatch
  | some .throwKw => some .cppThrow
  | some .deleteKw => if scene.previous = some .equal then none else some .cppDelete
  | some .atTryKw => some .objcTry
  | some .atCatchKw => some .objcCatch
  | some .atFinallyKw => some .objcFinally
  | some .atThrowKw => some .objcThrow
  | some .atSynchronizedKw => some .objcSynchronized
  | _ => none

/-- A statement that a word begins. -/
def flowStatementPlan : Plan := fun scene =>
  (flowKindOf scene).bind fun kind =>
    (statementLength scene.kinds).map fun n => (kind, n)

/-- Conditions, loops, jumps, exceptions, and `new`. -/
def flowPlan : Plan :=
  .dispatch fun head => if head = some .newKw then allocationPlan else flowStatementPlan

theorem flowKind?_eq (look : Lookahead) : flowKind? look = flowKindOf look.scene := by
  unfold flowKind? flowKindOf
  rw [Lookahead.current?_eq, Lookahead.nth?_eq]
  rfl

theorem reads_allocation : allocation.Reads allocationPlan := by
  intro look
  simp only [Rule.ReadsAt, Rule.outcome, allocation, run_bind, run_start, run_advance,
    run_isAtAny]
  simp only [allocationPlan, Lookahead.scene, Lookahead.runOf, Lookahead.isAtAny_eq,
    Lookahead.kinds_past, List.head?_drop]
  by_cases htype : look.kinds[1]?.any allocated.contains = true
  · by_cases harguments : look.kinds[1 + countWhile allocated.contains look.kinds.tail]? =
        some .parenthesis
    · simp [htype, harguments, run_map, run_skipWhile, run_eat, run_complete]
    · by_cases hlength : look.kinds[1 + countWhile allocated.contains look.kinds.tail]? =
          some .brackets
      · simp [htype, hlength, run_map, run_skipWhile, run_eat, run_complete]
      · simp [htype, harguments, hlength, run_map, run_skipWhile, run_eat,
          run_complete]
  · simp [htype, run_map, run_abandon]

theorem reads_flow : flow.Reads flowPlan := by
  intro look
  unfold flowPlan dispatch
  simp only [Rule.ReadsAt, Rule.outcome, flow, run_bind, run_isAt, Lookahead.isAt_eq]
  by_cases hnew : look.kinds.head? = some .newKw
  · simp only [hnew, beq_self_eq_true, if_true, Lookahead.scene]
    exact reads_allocation look
  · have hold : look.scene.kinds.head? ≠ some .newKw := hnew
    rw [if_neg (by simpa using hnew), if_neg hold]
    simp only [run_bind, run_place, flowKind?_eq, flowStatementPlan]
    cases flowKindOf look.scene with
    | none => rfl
    | some kind =>
        simp only [run_bind, run_start, run_statement, run_finish, Lookahead.scene,
          Lookahead.runOf]
        cases statementLength look.kinds <;> simp

/-- An `else` takes the `if` after it into its own run. -/
theorem statement_elseKw {kinds : List Kind} {n : Nat} (h : statementLength kinds = some n)
    (hhead : kinds.head? = some .elseKw) : 2 ≤ n := by
  obtain ⟨rest, rfl⟩ := List.head?_eq_some_iff.1 hhead
  rw [statementLength] at h
  obtain ⟨m, hm, rfl⟩ := Option.map_eq_some_iff.1 h
  have := (statement_spec hm).1
  omega

theorem flowStatement_spec {scene : Scene} {kind : Kind} {n : Nat}
    (h : flowStatementPlan scene = some (kind, n)) :
    flowKindOf scene = some kind ∧ statementLength scene.kinds = some n := by
  simp only [flowStatementPlan, Option.bind_eq_some_iff, Option.map_eq_some_iff,
    Prod.mk.injEq] at h
  obtain ⟨kind', hkind, n', hn, rfl, rfl⟩ := h
  exact ⟨hkind, hn⟩

theorem synthesized_flowKind {scene : Scene} {kind : Kind}
    (h : flowKindOf scene = some kind) : KindSet.synthesized.contains kind = true := by
  unfold flowKindOf at h
  split at h <;> (try split at h) <;> simp only [Option.some.injEq, reduceCtorEq] at h <;>
    subst h <;> decide

/-- The word, and what follows an `else`, decide the kind of a statement, if it has one. -/
theorem flowKind_unique {a b : Scene} {kind other : Kind} (ha : flowKindOf a = some kind)
    (hb : flowKindOf b = some other) (hhead : b.kinds.head? = a.kinds.head?)
    (hnext : a.kinds.head? = some .elseKw → b.kinds[1]? = a.kinds[1]?) : other = kind := by
  unfold flowKindOf at ha hb
  rw [hhead] at hb
  split at ha <;> simp_all

theorem sound_flowStatement : Sound flowStatementPlan where
  pos h := (statement_spec (flowStatement_spec h).2).1
  le h := (statement_spec (flowStatement_spec h).2).2
  synthesized h := synthesized_flowKind (flowStatement_spec h).1
  steady {scene kind other n} h hwithin := by
    obtain ⟨hkind, hn⟩ := flowStatement_spec h
    have hpos := (statement_spec hn).1
    refine flowKind_unique hkind (flowStatement_spec hwithin).1 ?_ fun helse => ?_
    · simp [Scene.within, List.head?_take, Nat.ne_of_gt hpos]
    · have htwo := statement_elseKw hn helse
      simp only [Scene.within, List.getElem?_take]
      rw [if_pos (by omega)]

theorem sound_allocation : Sound allocationPlan := by
  refine sound_of_kind .cppNew (by decide) fun {scene found n} h => ?_
  unfold allocationPlan at h
  dsimp only at h
  split at h
  · rename_i htype
    obtain ⟨kind, hget, _⟩ := (Option.any_eq_true _ _).1 htype
    obtain ⟨hlength, _⟩ := List.getElem?_eq_some_iff.1 hget
    have hcount := countWhile_le allocated.contains scene.kinds.tail
    rw [List.length_tail] at hcount
    split at h
    · rename_i hend
      have hlast : 1 + countWhile allocated.contains scene.kinds.tail < scene.kinds.length := by
        obtain harguments | hbrackets := hend
        · exact (List.getElem?_eq_some_iff.1 harguments).1
        · exact (List.getElem?_eq_some_iff.1 hbrackets).1
      simp only [Option.some.injEq, Prod.mk.injEq] at h
      exact ⟨h.1.symm, by omega, by omega⟩
    · simp only [Option.some.injEq, Prod.mk.injEq] at h
      exact ⟨h.1.symm, by omega, by omega⟩
  · simp at h

theorem sound_flow : Sound flowPlan := by
  refine sound_dispatch fun head => ?_
  split
  · exact sound_allocation
  · exact sound_flowStatement

/-! ## Labels -/

/-- A label through its colon, and the statements up to the next label. -/
def labelGroupPlan (kind : Kind) : Plan := fun scene =>
  (through .colon (fun other => !labelStop.contains other) scene.kinds).map fun n =>
    (kind, n + countWhile (fun other => !groupEnd.contains other) (scene.kinds.drop n))

/-- An access specifier and the declarations after it. -/
def accessLabelPlan (kind : Kind) : Plan :=
  .guarded (fun scene => scene.kinds[1]? == some .colon) (labelGroupPlan kind)

/-- The target of a `goto`, at the beginning of a statement. -/
def gotoTargetPlan : Plan :=
  .guarded (fun scene => scene.kinds[1]? == some .colon && isBoundary scene.previous)
    fun scene => if 2 ≤ scene.kinds.length then some (.flowLabel, 2) else none

/-- The plan for what a label begins with. -/
def labelAtPlan : Option Kind → Plan
  | some .caseKw => labelGroupPlan .flowCase
  | some .defaultKw => labelGroupPlan .flowDefault
  | some .publicKw => accessLabelPlan .cppPublic
  | some .protectedKw => accessLabelPlan .cppProtected
  | some .privateKw => accessLabelPlan .cppPrivate
  | some .text => gotoTargetPlan
  | _ => .nothing

/-- Labels, which only stand in braces. -/
def labelsPlan : Plan :=
  .guarded (fun scene => scene.parent = .braces) (.dispatch labelAtPlan)

theorem reads_labelGroup (kind : Kind) : (labelGroup kind).Reads (labelGroupPlan kind) := by
  intro look
  simp only [Rule.ReadsAt, Rule.outcome, labelGroup, run_bind, run_start, run_eatThrough]
  simp only [labelGroupPlan, Lookahead.scene, Lookahead.runOf]
  cases h : through .colon (fun other => !labelStop.contains other) look.kinds with
  | none => simp [run_finish]
  | some n => simp [run_skipWhile, run_finish]

theorem reads_accessLabel (kind : Kind) : (accessLabel kind).Reads (accessLabelPlan kind) :=
  Rule.reads_guarded beforeColon (fun look => by rw [beforeColon, Lookahead.nth?_eq]; rfl)
    fun look _ => reads_labelGroup kind look

theorem reads_gotoTarget : gotoTarget.Reads gotoTargetPlan := by
  refine Rule.reads_guarded (fun look => beforeColon look && isBoundary look.previous?)
    (fun look => by rw [beforeColon, Lookahead.nth?_eq]; rfl) fun look htest => ?_
  rw [Bool.and_eq_true, beforeColon, Lookahead.nth?_eq, beq_iff_eq] at htest
  obtain ⟨hlength, _⟩ := List.getElem?_eq_some_iff.1 htest.1
  simp only [Rule.ReadsAt, Rule.outcome, gotoLabel, run_bind, run_start, run_advance,
    run_complete, run_pure]
  simp [Lookahead.scene, Lookahead.runOf, Nat.succ_le_of_lt hlength]

theorem reads_labelAt (head : Option Kind) : (labelAt head).Reads (labelAtPlan head) := by
  unfold labelAt labelAtPlan
  split
  · exact reads_labelGroup _
  · exact reads_labelGroup _
  · exact reads_accessLabel _
  · exact reads_accessLabel _
  · exact reads_accessLabel _
  · exact reads_gotoTarget
  · try split
    all_goals simp_all [Rule.reads_nothing]

theorem reads_labels : labels.Reads labelsPlan := by
  intro look
  unfold Rule.ReadsAt labels labelsPlan guarded
  rw [Rule.outcome_place, Lookahead.current?_eq]
  by_cases hparent : look.parent = .braces
  · simp only [Lookahead.scene, hparent, decide_true, if_true]
    exact hparent ▸ reads_labelAt _ look
  · simp only [Lookahead.scene, hparent, decide_false, if_false]
    rfl

theorem sound_labelGroup {kind : Kind} (hkind : KindSet.synthesized.contains kind = true) :
    Sound (labelGroupPlan kind) := by
  refine sound_of_kind kind hkind fun {scene found n} h => ?_
  simp only [labelGroupPlan, Option.map_eq_some_iff, Prod.mk.injEq] at h
  obtain ⟨m, hm, rfl, rfl⟩ := h
  have hpos := through_pos hm
  have hle := through_le hm
  have hcount := countWhile_le (fun other => !groupEnd.contains other) (scene.kinds.drop m)
  rw [List.length_drop] at hcount
  exact ⟨rfl, by omega, by omega⟩

theorem sound_gotoTarget : Sound gotoTargetPlan := by
  refine sound_guarded _ (sound_of_kind .flowLabel (by decide) fun {scene found n} h => ?_)
  split at h
  · simp only [Option.some.injEq, Prod.mk.injEq] at h
    exact ⟨h.1.symm, by omega, by omega⟩
  · simp at h

theorem sound_labels : Sound labelsPlan := by
  refine sound_guarded _ (sound_dispatch fun head => ?_)
  unfold labelAtPlan
  split
  · exact sound_labelGroup (by decide)
  · exact sound_labelGroup (by decide)
  · exact sound_guarded _ (sound_labelGroup (by decide))
  · exact sound_guarded _ (sound_labelGroup (by decide))
  · exact sound_guarded _ (sound_labelGroup (by decide))
  · exact sound_gotoTarget
  · exact sound_nothing

end ConcreteSyntax.CFamily
