import ConcreteSyntax.CFamily.Declarations
import ConcreteSyntax.Proofs.Analysis.Plan

/-!
# What the rules for declarations find

Plans of the rules for conditional directives, types, functions, classes and methods.
-/

namespace ConcreteSyntax.CFamily

open Action Plan

/-! ## Words -/

/-- A word through the next sibling of kind `stop`, with none of `barred` between. -/
def wordThroughPlan (stop : Kind) (barred : KindSet) (kind : Kind) : Plan := fun scene =>
  (through stop (fun other => !barred.contains other) scene.kinds.tail).map fun n => (kind, n + 1)

/-- A word with an argument in parentheses. -/
def wordWithArgumentPlan (kind : Kind) : Plan := fun scene =>
  if scene.kinds[1]? = some .parenthesis then some (kind, 2) else none

theorem reads_wordThrough (stop : Kind) (barred : KindSet) (kind : Kind) :
    (wordThrough stop barred kind).Reads (wordThroughPlan stop barred kind) := by
  intro look
  simp only [Rule.ReadsAt, Rule.outcome, wordThrough, run_bind, run_start, run_advance,
    run_eatThrough, run_finish]
  cases h : through stop (fun other => !barred.contains other) look.kinds.tail with
  | none => simp [wordThroughPlan, Lookahead.scene, h]
  | some n => simp [wordThroughPlan, Lookahead.scene, h, Lookahead.runOf, Nat.add_comm]

theorem reads_wordWithArgument (kind : Kind) :
    (wordWithArgument kind).Reads (wordWithArgumentPlan kind) := by
  intro look
  simp only [Rule.ReadsAt, Rule.outcome, wordWithArgument, run_bind, run_start, run_advance,
    run_eat, run_finish]
  by_cases h : look.kinds[1]? = some .parenthesis <;>
    simp [wordWithArgumentPlan, Lookahead.scene, h, Lookahead.runOf]

theorem sound_wordThrough (stop : Kind) (barred : KindSet) {kind : Kind}
    (hkind : KindSet.synthesized.contains kind = true) :
    Sound (wordThroughPlan stop barred kind) := by
  refine sound_of_kind kind hkind fun {scene found n} h => ?_
  simp only [wordThroughPlan, Option.map_eq_some_iff, Prod.mk.injEq] at h
  obtain ⟨m, hm, rfl, rfl⟩ := h
  have hpos := through_pos hm
  have hle := through_le hm
  rw [List.length_tail] at hle
  exact ⟨rfl, by omega, by omega⟩

theorem sound_wordWithArgument {kind : Kind}
    (hkind : KindSet.synthesized.contains kind = true) :
    Sound (wordWithArgumentPlan kind) := by
  refine sound_of_kind kind hkind fun {scene found n} h => ?_
  unfold wordWithArgumentPlan at h
  split at h
  · rename_i hnext
    obtain ⟨hlength, _⟩ := List.getElem?_eq_some_iff.1 hnext
    simp only [Option.some.injEq, Prod.mk.injEq] at h
    exact ⟨h.1.symm, by omega, by omega⟩
  · simp at h

/-! ## Conditional directives -/

/-- The number of siblings through the `#endif` that closes the outermost of `depth + 1`
open conditionals. -/
def throughEndifLength : Nat → List Kind → Option Nat
  | _, [] => none
  | depth, kind :: rest =>
      if conditionalOpeners.contains kind then
        (throughEndifLength (depth + 1) rest).map (· + 1)
      else if kind = .preprocessorEndif then
        match depth with
        | 0 => some 1
        | depth + 1 => (throughEndifLength depth rest).map (· + 1)
      else (throughEndifLength depth rest).map (· + 1)

/-- `#if`, `#ifdef` or `#ifndef` through the `#endif` at the same depth. -/
def conditionalPlan : Plan :=
  .guarded (fun scene => scene.kinds.head?.any conditionalOpeners.contains) fun scene =>
    (throughEndifLength 0 scene.kinds.tail).map fun n => (.preprocessorConditional, n + 1)

theorem throughEndif_le {depth n : Nat} {kinds : List Kind}
    (h : throughEndifLength depth kinds = some n) : n ≤ kinds.length := by
  induction kinds generalizing depth n with
  | nil => simp [throughEndifLength] at h
  | cons kind rest ih =>
      have step : ∀ {depth}, (throughEndifLength depth rest).map (· + 1) = some n →
          n ≤ (kind :: rest).length := by
        intro depth hmap
        obtain ⟨m, hm, rfl⟩ := Option.map_eq_some_iff.1 hmap
        simpa using ih hm
      unfold throughEndifLength at h
      split at h
      · exact step h
      · split at h
        · split at h
          · simp only [Option.some.injEq] at h
            simp [← h]
          · exact step h
        · exact step h

/-- Where a conditional is open, its end is found or not, and no `#endif` is one too many. -/
theorem throughEndif?_eq (depth : Nat) (look : Lookahead) :
    throughEndif? (depth + 1) look =
      .ok ((throughEndifLength depth look.kinds).map look.past) := by
  induction hkinds : look.kinds generalizing depth look with
  | nil =>
      unfold throughEndif?
      split
      · rfl
      · simp_all [Lookahead.current?_eq]
  | cons kind rest ih =>
      have hnext : look.advance.kinds = rest := by simp [hkinds]
      have step : ∀ depth, Except.ok ((throughEndifLength depth rest).map look.advance.past) =
          (.ok (((throughEndifLength depth rest).map (· + 1)).map look.past) :
            Except Fault (Option Lookahead)) := by
        intro depth
        simp [Function.comp_def, Lookahead.past_succ]
      unfold throughEndif?
      split
      · simp_all [Lookahead.current?_eq]
      · rename_i other hcurrent
        obtain rfl : kind = other := by simpa [Lookahead.current?_eq, hkinds] using hcurrent
        unfold throughEndifLength
        split
        · rw [ih _ _ hnext, step]
        · split
          · cases depth with
            | zero => rfl
            | succ depth => simp only [ih _ _ hnext, step]
          · simp only [Nat.succ_ne_zero, if_false]
            rw [ih _ _ hnext, step]

theorem reads_conditional : conditional.Reads conditionalPlan := by
  refine Rule.reads_guarded (·.isAtAny conditionalOpeners)
    (fun look => (look.isAtAny_eq conditionalOpeners).symm) fun look htest => ?_
  have hopen : ∃ kind, look.current? = some kind ∧ conditionalOpeners.contains kind = true := by
    simpa [Lookahead.isAtAny, Option.any_eq_true] using htest
  obtain ⟨kind, hcurrent, hkind⟩ := hopen
  have houter : throughEndif? 0 look = throughEndif? 1 look.advance := by
    rw [throughEndif?]
    split
    · simp_all
    · simp_all
  simp only [Rule.ReadsAt, Rule.outcome, throughEndif, run_bind, run_start, run_place, houter,
    throughEndif?_eq, Lookahead.kinds_advance, run_tryTo, run_finish]
  cases h : throughEndifLength 0 look.kinds.tail with
  | none => simp [Lookahead.scene, h]
  | some n => simp [Lookahead.scene, h, Lookahead.runOf, Lookahead.past_succ]

theorem sound_conditional : Sound conditionalPlan := by
  unfold conditionalPlan
  refine sound_guarded _ (sound_of_kind .preprocessorConditional (by decide)
    fun {scene found n} h => ?_)
  simp only [Option.map_eq_some_iff, Prod.mk.injEq] at h
  obtain ⟨m, hm, rfl, rfl⟩ := h
  have hle := throughEndif_le hm
  rw [List.length_tail] at hle
  refine ⟨rfl, by omega, ?_⟩
  cases hkinds : scene.kinds with
  | nil => simp [hkinds, throughEndifLength] at hm
  | cons kind rest => simp_all

/-! ## Types -/

/-- A record with a body.  Outside a typedef it goes on to its semicolon, if it has one. -/
def recordPlan (kind : Kind) : Plan := fun scene =>
  let header := 1 + countWhile recordHeader.contains scene.kinds.tail
  if scene.kinds[header]? = some .braces
      ∧ ¬(kind = .cppClass ∧ scene.kinds[1]? ≠ some .text) then
    if scene.parent = .typedefDeclaration then some (kind, header + 1)
    else
      let more := through .semicolon declarators.contains (scene.kinds.drop (header + 1))
      some (kind, header + 1 + more.getD 0)
  else none

/-- A namespace with its body. -/
def nameSpacePlan : Plan := fun scene =>
  let name := 1 + countWhile (fun kind => kind = .text || kind = .doubleColon) scene.kinds.tail
  if scene.kinds[name]? = some .braces then some (.cppNamespace, name + 1) else none

/-- Type definitions, records, namespaces, `sizeof` and `typeof`. -/
def typeAtPlan : Option Kind → Plan
  | some .typedefKw => wordThroughPlan .semicolon statementStop .typedefDeclaration
  | some .structKw => recordPlan .typeStruct
  | some .unionKw => recordPlan .typeUnion
  | some .enumKw => recordPlan .typeEnum
  | some .classKw => recordPlan .cppClass
  | some .sizeofKw => wordWithArgumentPlan .sizeof
  | some .typeofKw => wordWithArgumentPlan .typeof
  | some .namespaceKw => nameSpacePlan
  | _ => .nothing

theorem reads_record (kind : Kind) : (record kind).Reads (recordPlan kind) := by
  intro look
  simp only [Rule.ReadsAt, Rule.outcome, record, run_bind, run_start, run_advance, run_isAt,
    run_skipWhile, run_eat]
  simp only [recordPlan, Lookahead.scene, Lookahead.isAt_eq, Lookahead.runOf]
  by_cases hbody : look.kinds[1 + countWhile recordHeader.contains look.kinds.tail]? =
      some .braces
  · by_cases hnamed : kind = .cppClass ∧ look.kinds[1]? ≠ some .text
    · simp [hbody, hnamed, run_map, run_abandon]
    · by_cases hparent : look.parent = .typedefDeclaration
      · simp [hbody, hnamed, hparent, run_map, run_place, run_complete]
      · simp [hbody, hnamed, hparent, run_map, run_place, run_complete,
          run_eatThrough]
  · simp [hbody, run_map, run_abandon]

theorem reads_nameSpace : nameSpace.Reads nameSpacePlan := by
  intro look
  simp only [Rule.ReadsAt, Rule.outcome, nameSpace, run_bind, run_start, run_advance,
    run_skipWhile, run_eat, run_finish]
  simp only [nameSpacePlan, Lookahead.scene, Lookahead.runOf]
  by_cases h : look.kinds[1 + countWhile (fun kind => kind = .text || kind = .doubleColon)
      look.kinds.tail]? = some .braces <;> simp [h]

/-- Type definitions, records, namespaces, `sizeof` and `typeof`. -/
def typesPlan : Plan := .dispatch typeAtPlan

theorem reads_typeAt (head : Option Kind) : (typeAt head).Reads (typeAtPlan head) := by
  unfold typeAt typeAtPlan
  split
  · exact reads_wordThrough _ _ _
  · exact reads_record _
  · exact reads_record _
  · exact reads_record _
  · exact reads_record _
  · exact reads_wordWithArgument _
  · exact reads_wordWithArgument _
  · exact reads_nameSpace
  · try split
    all_goals simp_all [Rule.reads_nothing]

theorem reads_types : types.Reads typesPlan :=
  Rule.reads_dispatch fun look => reads_typeAt _ look

theorem sound_record {kind : Kind} (hkind : KindSet.synthesized.contains kind = true) :
    Sound (recordPlan kind) := by
  refine sound_of_kind kind hkind fun {scene found n} h => ?_
  unfold recordPlan at h
  dsimp only at h
  split at h
  · rename_i hbody
    obtain ⟨hlength, _⟩ := List.getElem?_eq_some_iff.1 hbody.1
    split at h
    · simp only [Option.some.injEq, Prod.mk.injEq] at h
      exact ⟨h.1.symm, by omega, by omega⟩
    · simp only [Option.some.injEq, Prod.mk.injEq] at h
      refine ⟨h.1.symm, by omega, ?_⟩
      rw [← h.2]
      cases hmore : through .semicolon declarators.contains
          (scene.kinds.drop (1 + countWhile recordHeader.contains scene.kinds.tail + 1)) with
      | none =>
          simp only [Option.getD_none]
          omega
      | some m =>
          have hle := through_le hmore
          rw [List.length_drop] at hle
          simp only [Option.getD_some]
          omega
  · simp at h

theorem sound_nameSpace : Sound nameSpacePlan := by
  refine sound_of_kind .cppNamespace (by decide) fun {scene found n} h => ?_
  unfold nameSpacePlan at h
  dsimp only at h
  split at h
  · rename_i hbody
    obtain ⟨hlength, _⟩ := List.getElem?_eq_some_iff.1 hbody
    simp only [Option.some.injEq, Prod.mk.injEq] at h
    exact ⟨h.1.symm, by omega, by omega⟩
  · simp at h

theorem sound_types : Sound typesPlan := by
  refine sound_dispatch fun head => ?_
  unfold typeAtPlan
  split
  · exact sound_wordThrough _ _ (by decide)
  · exact sound_record (by decide)
  · exact sound_record (by decide)
  · exact sound_record (by decide)
  · exact sound_record (by decide)
  · exact sound_wordWithArgument (by decide)
  · exact sound_wordWithArgument (by decide)
  · exact sound_nameSpace
  · exact sound_nothing

/-! ## Functions -/

/-- The end of a function after its parameters: its kind, and the number of siblings up to
and with it. -/
def functionEndPlan (words : Nat) : List Kind → Option (Kind × Nat)
  | [] => none
  | kind :: rest =>
      if kind = .braces then some (.functionDefinition, 1)
      else if kind = .semicolon ∧ 2 ≤ words then some (.functionPrototype, 1)
      else if kind = .equal
          ∧ rest.head?.any fun next => [Kind.number, .defaultKw, .deleteKw].contains next then
        (functionEndPlan words rest.tail).map (shift 2)
      else if functionTrailer.contains kind then (functionEndPlan words rest).map (shift 1)
      else none
termination_by kinds => kinds.length

/-- `words name(parameters) { ... }` or `words name(parameters);`. -/
def functionPlan : Plan :=
  .guarded
    (fun scene => scene.kinds.head?.any declarationWords.contains && isBoundary scene.previous
      && scene.parent != .parenthesis && scene.parent != .brackets)
    fun scene =>
      let words := countWhile declarationWords.contains scene.kinds
      if scene.kinds[words - 1]? = some .text ∧ scene.kinds[words]? = some .parenthesis then
        (functionEndPlan words (scene.kinds.drop (words + 1))).map (shift (words + 1))
      else none

theorem skipWords_eq (words : Nat) (named : Bool) (look : Lookahead) :
    skipWords words named look =
      let count := countWhile declarationWords.contains look.kinds
      (words + count, if count = 0 then named else look.kinds[count - 1]? == some .text,
        look.past count) := by
  fun_induction skipWords words named look with
  | case1 words named look h ih =>
      obtain ⟨kind, hkinds, hkind⟩ := Lookahead.exists_kinds_eq_cons h
      have hcount : countWhile declarationWords.contains look.kinds =
          countWhile declarationWords.contains look.advance.kinds + 1 := by
        rw [hkinds, countWhile, List.takeWhile_cons, if_pos hkind]
        rfl
      rw [ih]
      dsimp only
      rw [hcount, Lookahead.past_succ, Lookahead.isAt_eq]
      generalize countWhile declarationWords.contains look.advance.kinds = count
      rw [hkinds]
      cases count with
      | zero => simp
      | succ count => simp [Nat.add_assoc, Nat.add_comm]
  | case2 words named look h =>
      cases hcurrent : look.current? with
      | none => simp [Lookahead.kinds_eq_nil hcurrent, countWhile]
      | some kind =>
          rw [Lookahead.kinds_eq_cons hcurrent]
          simp_all [countWhile]

/-- The run that begins `n` siblings further on ends at the same place. -/
theorem map_past_shift (look : Lookahead) (n : Nat) (found : Option (Kind × Nat)) :
    ((found.map (shift n)).map fun (kind, m) => (kind, look.past m)) =
      found.map fun (kind, m) => (kind, (look.past n).past m) := by
  simp [Function.comp_def, shift]

theorem functionEnd?_eq (words : Nat) (look : Lookahead) :
    functionEnd? words look =
      (functionEndPlan words look.kinds).map fun (kind, n) => (kind, look.past n) := by
  fun_induction functionEnd? words look with
  | case1 look h =>
      rw [Lookahead.kinds_eq_cons h, functionEndPlan, if_pos rfl]
      rfl
  | case2 look kind hbraces h hend =>
      rw [Lookahead.kinds_eq_cons h, functionEndPlan, if_neg hbraces, if_pos hend]
      rfl
  | case3 look kind hbraces h hend hvalue ih =>
      rw [Lookahead.nth?_eq, Lookahead.kinds_eq_cons h] at hvalue
      rw [Lookahead.kinds_eq_cons h, functionEndPlan, if_neg hbraces, if_neg hend, if_pos]
      · rw [map_past_shift, ih]
        simp [Lookahead.past_succ]
      · simpa using hvalue
  | case4 look kind hbraces h hend hvalue htrailer ih =>
      rw [Lookahead.nth?_eq, Lookahead.kinds_eq_cons h] at hvalue
      rw [Lookahead.kinds_eq_cons h, functionEndPlan, if_neg hbraces, if_neg hend, if_neg,
        if_pos htrailer]
      · rw [map_past_shift, ih]
        rfl
      · simpa using hvalue
  | case5 look kind hbraces h hend hvalue htrailer =>
      rw [Lookahead.nth?_eq, Lookahead.kinds_eq_cons h] at hvalue
      rw [Lookahead.kinds_eq_cons h, functionEndPlan, if_neg hbraces, if_neg hend, if_neg,
        if_neg htrailer]
      · rfl
      · simpa using hvalue
  | case6 look h => simp [Lookahead.kinds_eq_nil h, functionEndPlan]

theorem run_functionEnd (words : Nat) (attempt : Attempt) :
    (functionEnd words).run attempt =
      .ok ((functionEndPlan words attempt.look.kinds).map (·.1))
        { attempt with
          look := attempt.look.past
            (((functionEndPlan words attempt.look.kinds).map (·.2)).getD 0) } := by
  rw [functionEnd, run_bind, run_place]
  dsimp only
  rw [functionEnd?_eq]
  cases functionEndPlan words attempt.look.kinds <;> rfl

theorem reads_function : function.Reads functionPlan := by
  refine Rule.reads_guarded mayDeclare ?_ fun look htest => ?_
  · intro look
    rw [mayDeclare, Lookahead.isAtAny_eq]
    rfl
  · obtain ⟨words, hwords⟩ : ∃ words, countWhile declarationWords.contains look.kinds = words :=
      ⟨_, rfl⟩
    have hpos : words ≠ 0 := by
      have hword : look.current?.any declarationWords.contains = true := by
        simp only [mayDeclare, Bool.and_eq_true] at htest
        exact htest.1.1.1
      obtain ⟨kind, hkinds, hkind⟩ := Lookahead.exists_kinds_eq_cons hword
      rw [← hwords, hkinds, countWhile, List.takeWhile_cons, if_pos hkind]
      simp
    have hskip : skipWords 0 false look =
        (words, look.kinds[words - 1]? == some .text, look.past words) := by
      rw [skipWords_eq]
      simp [hwords, hpos]
    simp only [Rule.ReadsAt, Rule.outcome, run_bind, run_start, run_place, hskip, run_moveTo,
      run_eat]
    simp only [Lookahead.scene, Lookahead.runOf, hwords]
    by_cases hnamed : look.kinds[words - 1]? = some .text
    · by_cases hparameters : look.kinds[words]? = some .parenthesis
      · cases hend : functionEndPlan words (look.kinds.drop (words + 1)) with
        | none => simp [hnamed, hparameters, hend, run_functionEnd, run_finish]
        | some found =>
            simp [hnamed, hparameters, hend, run_functionEnd, run_finish, shift]
      · simp [hnamed, hparameters, run_map, run_abandon]
    · simp [hnamed, run_map, run_abandon]

/-- The kind of a function shows in the sibling that it ends with. -/
theorem functionEnd_spec {words n : Nat} {kinds : List Kind} {kind : Kind}
    (h : functionEndPlan words kinds = some (kind, n)) :
    0 < n ∧ n ≤ kinds.length
      ∧ (kinds[n - 1]? = some .braces ∧ kind = .functionDefinition
        ∨ kinds[n - 1]? = some .semicolon ∧ kind = .functionPrototype) := by
  fun_induction functionEndPlan words kinds generalizing n with
  | case1 => simp at h
  | case2 rest =>
      simp only [Option.some.injEq, Prod.mk.injEq] at h
      simp [← h.1, ← h.2]
  | case3 head rest hbraces hend =>
      simp only [Option.some.injEq, Prod.mk.injEq] at h
      simp [← h.1, ← h.2, hend.1]
  | case4 head rest hbraces hend hvalue ih =>
      simp only [Option.map_eq_some_iff, shift, Prod.mk.injEq] at h
      obtain ⟨⟨found, m⟩, hm, rfl, rfl⟩ := h
      obtain ⟨hpos, hle, hlast⟩ := ih hm
      rw [List.length_tail] at hle
      refine ⟨by omega, by simp only [List.length_cons]; omega, ?_⟩
      have hindex : 2 + m - 1 = m - 1 + 1 + 1 := by omega
      rw [hindex]
      simpa using hlast
  | case5 head rest hbraces hend hvalue htrailer ih =>
      simp only [Option.map_eq_some_iff, shift, Prod.mk.injEq] at h
      obtain ⟨⟨found, m⟩, hm, rfl, rfl⟩ := h
      obtain ⟨hpos, hle, hlast⟩ := ih hm
      refine ⟨by omega, by simp only [List.length_cons]; omega, ?_⟩
      have hindex : 1 + m - 1 = m - 1 + 1 := by omega
      rw [hindex]
      simpa using hlast
  | case6 => simp at h

theorem function_spec {scene : Scene} {kind : Kind} {n : Nat}
    (h : functionPlan scene = some (kind, n)) :
    0 < n ∧ n ≤ scene.kinds.length
      ∧ (scene.kinds[n - 1]? = some .braces ∧ kind = .functionDefinition
        ∨ scene.kinds[n - 1]? = some .semicolon ∧ kind = .functionPrototype) := by
  unfold functionPlan guarded at h
  split at h
  · dsimp only at h
    split at h
    · simp only [Option.map_eq_some_iff, shift, Prod.mk.injEq] at h
      obtain ⟨⟨found, m⟩, hm, rfl, rfl⟩ := h
      obtain ⟨hpos, hle, hlast⟩ := functionEnd_spec hm
      rw [List.length_drop] at hle
      refine ⟨by omega, by omega, ?_⟩
      rw [List.getElem?_drop] at hlast
      rwa [Nat.add_sub_assoc hpos]
    · simp at h
  · simp at h

theorem sound_function : Sound functionPlan where
  pos h := (function_spec h).1
  le h := (function_spec h).2.1
  synthesized h := by
    obtain ⟨_, _, ⟨_, rfl⟩ | ⟨_, rfl⟩⟩ := function_spec h <;> decide
  steady {scene kind other n} h hwithin := by
    obtain ⟨hpos, _, hlast⟩ := function_spec h
    obtain ⟨_, _, hother⟩ := function_spec hwithin
    have hsame : (scene.within kind n).kinds[n - 1]? = scene.kinds[n - 1]? := by
      simp only [Scene.within, List.getElem?_take]
      rw [if_pos (by omega)]
    rw [hsame] at hother
    obtain ⟨hbraces, rfl⟩ | ⟨hsemicolon, rfl⟩ := hlast
    · simp [hbraces] at hother
      exact hother
    · simp [hsemicolon] at hother
      exact hother

/-! ## Classes and methods of Objective-C -/

/-- The end of a method after its signature. -/
def methodEndPlan : List Kind → Option (Kind × Nat)
  | .semicolon :: rest =>
      if rest.head? = some .braces then some (.objcMethodImplementation, 2)
      else some (.objcMethodDeclaration, 1)
  | .braces :: _ => some (.objcMethodImplementation, 1)
  | _ => none

/-- A method, through its body or semicolon. -/
def methodRunPlan : Plan := fun scene =>
  let signature := 1 + countWhile isMethodPart scene.kinds.tail
  (methodEndPlan (scene.kinds.drop signature)).map (shift signature)

/-- A method. -/
def methodPlan : Plan :=
  .guarded
    (fun scene => methodContainers.contains scene.parent
      && (scene.text? == some ['-'] || scene.text? == some ['+']))
    methodRunPlan

/-- A protocol, unless the word is part of an expression. -/
def protocolPlan : Plan :=
  .guarded (fun scene => scene.kinds[1]? == some .text)
    (wordThroughPlan .atEndKw classStop .objcProtocol)

/-- The plan for what a word of a class begins. -/
def classAtPlan : Option Kind → Plan
  | some .atInterfaceKw => wordThroughPlan .atEndKw classStop .objcInterface
  | some .atImplementationKw => wordThroughPlan .atEndKw classStop .objcImplementation
  | some .atProtocolKw => protocolPlan
  | some .atPropertyKw => wordThroughPlan .semicolon propertyStop .objcProperty
  | some .atSynthesizeKw => wordThroughPlan .semicolon propertyStop .objcSynthesize
  | some .operator => methodPlan
  | _ => .nothing

/-- Classes, protocols, properties and methods. -/
def classesPlan : Plan := .dispatch classAtPlan

theorem run_methodEnd (attempt : Attempt) :
    methodEnd.run attempt =
      .ok ((methodEndPlan attempt.look.kinds).map (·.1))
        { attempt with
          look := attempt.look.past (((methodEndPlan attempt.look.kinds).map (·.2)).getD 0) } := by
  rw [methodEnd, run_bind, run_place]
  dsimp only
  split
  · rename_i hcurrent
    rw [Lookahead.kinds_eq_cons hcurrent]
    simp only [run_bind, run_advance, run_eat, Lookahead.past_one, methodEndPlan]
    by_cases hbody : attempt.look.advance.kinds.head? = some .braces
    · simp only [hbody, beq_self_eq_true, if_true, run_pure]
      rfl
    · simp only [hbody, beq_eq_false_iff_ne.2, ne_eq, not_false_eq_true, Bool.false_eq_true,
        if_false, run_pure]
      rfl
  · rename_i hcurrent
    rw [Lookahead.kinds_eq_cons hcurrent]
    rfl
  · have hnone : methodEndPlan attempt.look.kinds = none := by
      rw [Lookahead.current?_eq] at *
      unfold methodEndPlan
      split <;> simp_all
    rw [hnone]
    rfl

theorem reads_methodRun : methodRun.Reads methodRunPlan := by
  intro look
  simp only [Rule.ReadsAt, Rule.outcome, methodRun, run_bind, run_start, run_advance,
    run_skipWhile, run_methodEnd, run_finish]
  simp only [methodRunPlan, Lookahead.scene, Lookahead.runOf]
  cases h : methodEndPlan (look.kinds.drop (1 + countWhile isMethodPart look.kinds.tail)) with
  | none => simp [h]
  | some found => simp [h, shift]

theorem reads_method : method.Reads methodPlan :=
  Rule.reads_guarded mayBeMethod (fun _ => rfl) fun look _ => reads_methodRun look

theorem reads_protocol : protocol.Reads protocolPlan :=
  Rule.reads_guarded beforeName (fun look => by rw [beforeName, Lookahead.nth?_eq]; rfl)
    fun look _ => reads_wordThrough _ _ _ look

theorem reads_classAt (head : Option Kind) : (classAt head).Reads (classAtPlan head) := by
  unfold classAt classAtPlan
  split
  · exact reads_wordThrough _ _ _
  · exact reads_wordThrough _ _ _
  · exact reads_protocol
  · exact reads_wordThrough _ _ _
  · exact reads_wordThrough _ _ _
  · exact reads_method
  · try split
    all_goals simp_all [Rule.reads_nothing]

theorem reads_classes : classes.Reads classesPlan :=
  Rule.reads_dispatch fun look => reads_classAt _ look

theorem methodEnd_spec {kinds : List Kind} {kind : Kind} {n : Nat}
    (h : methodEndPlan kinds = some (kind, n)) :
    0 < n ∧ n ≤ kinds.length
      ∧ (kind = .objcMethodImplementation ∨ kind = .objcMethodDeclaration) := by
  unfold methodEndPlan at h
  split at h
  · split at h
    · rename_i rest hbody
      simp only [Option.some.injEq, Prod.mk.injEq] at h
      cases rest with
      | nil => simp at hbody
      | cons => simp [← h.1, ← h.2]
    · simp only [Option.some.injEq, Prod.mk.injEq] at h
      simp [← h.1, ← h.2]
  · simp only [Option.some.injEq, Prod.mk.injEq] at h
    simp [← h.1, ← h.2]
  · simp at h

theorem method_spec {scene : Scene} {kind : Kind} {n : Nat}
    (h : methodPlan scene = some (kind, n)) :
    methodContainers.contains scene.parent = true ∧ 0 < n ∧ n ≤ scene.kinds.length
      ∧ (kind = .objcMethodImplementation ∨ kind = .objcMethodDeclaration) := by
  unfold methodPlan guarded at h
  split at h
  · rename_i htest
    simp only [Bool.and_eq_true] at htest
    simp only [methodRunPlan, Option.map_eq_some_iff, shift, Prod.mk.injEq] at h
    obtain ⟨⟨found, m⟩, hm, rfl, rfl⟩ := h
    obtain ⟨hpos, hle, hkind⟩ := methodEnd_spec hm
    rw [List.length_drop] at hle
    exact ⟨htest.1, by omega, by omega, hkind⟩
  · simp at h

/-- Methods stand in classes only, so none is found inside a method. -/
theorem sound_method : Sound methodPlan where
  pos h := (method_spec h).2.1
  le h := (method_spec h).2.2.1
  synthesized h := by
    obtain ⟨_, _, _, rfl | rfl⟩ := method_spec h <;> decide
  steady h hwithin := by
    obtain ⟨_, _, _, hkind⟩ := method_spec h
    have hparent := (method_spec hwithin).1
    obtain rfl | rfl := hkind <;> simp [Scene.within, methodContainers] at hparent

theorem sound_classes : Sound classesPlan := by
  refine sound_dispatch fun head => ?_
  unfold classAtPlan
  split
  · exact sound_wordThrough _ _ (by decide)
  · exact sound_wordThrough _ _ (by decide)
  · exact sound_guarded _ (sound_wordThrough _ _ (by decide))
  · exact sound_wordThrough _ _ (by decide)
  · exact sound_wordThrough _ _ (by decide)
  · exact sound_method
  · exact sound_nothing

end ConcreteSyntax.CFamily
