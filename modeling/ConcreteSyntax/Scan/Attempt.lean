import ConcreteSyntax.Fault
import ConcreteSyntax.Scan.Span

/-!
# Scanning that may break

Scanning as it is done, one character after the other: texts are cut at offsets, and matches
are cut off the text in front of the scanner.  It breaks where a cut does not lie between two
characters of the text, or where an opening marker has no characters.  `attemptRange` gives the
spans of a scan that does not break; `yieldRange` also gives what a scan yields before it breaks.
-/

namespace ConcreteSyntax

/-- The part of a text that a range names, which has to end between characters. -/
def Text.cut (text : List Char) (range : Range) : Except Fault (List Char) :=
  if isBoundary text range.start && isBoundary text range.stop then .ok (slice text range)
  else .error .invalidCut

/-- What a spec recognises at a place, which has to be there. -/
def Spec.attempt (spec : Spec) (cx : Context) : Except Fault (Option Found) :=
  if spec.opening.length? cx = some 0 then .error (.emptyMarker spec.kind)
  else if (spec.recognise? cx).all (·.length ≤ cx.rest.length) then .ok (spec.recognise? cx)
  else .error .invalidCut

theorem Spec.recognise?_of_attempt {spec : Spec} {cx : Context} {found : Option Found}
    (h : spec.attempt cx = .ok found) : spec.recognise? cx = found := by
  unfold attempt at h
  split at h
  · simp at h
  · split at h
    · exact Except.ok.inj h
    · simp at h

namespace Table

/-- What the first of several specs to recognise something recognises at a place. -/
def attemptFirst (restrict : Option KindSet) (cx : Context) :
    List Spec → Except Fault (Option Found)
  | [] => .ok none
  | spec :: rest =>
      if restrict.all (·.contains spec.kind) then
        match spec.attempt cx with
        | .ok none => attemptFirst restrict cx rest
        | .ok (some found) => .ok (some found)
        | .error fault => .error fault
      else attemptFirst restrict cx rest

/-- What the first candidate to recognise something recognises at a place. -/
def attempt (table : Table) (restrict : Option KindSet) (cx : Context) :
    Except Fault (Option Found) :=
  attemptFirst restrict cx table.candidates

theorem length_pos_of_attemptFirst {restrict : Option KindSet} {cx : Context}
    {specs : List Spec} {found : Found}
    (h : attemptFirst restrict cx specs = .ok (some found)) : 0 < found.length := by
  induction specs with
  | nil => simp [attemptFirst] at h
  | cons spec rest ih =>
      unfold attemptFirst at h
      split at h
      · split at h
        · exact ih h
        · rename_i first hfirst
          simp only [Except.ok.injEq, Option.some.injEq] at h
          subst h
          exact Spec.length_pos_of_recognise? (Spec.recognise?_of_attempt hfirst)
        · simp at h
      · exact ih h

/-- The leaf of the characters that were passed over. -/
def passed (offset : Nat) (pending : List Char) : List Span :=
  if pending.isEmpty then [] else [.leaf .text ⟨offset, pending⟩]

/-- The spans of `pending` and `rest`, which stand at `offset`.  Nothing was recognised at the
characters of `pending`; `left` stands before `rest`. -/
def attemptFrom (table : Table) (restrict : Option KindSet) (offset : Nat) (pending : List Char)
    (left : LeftContext) (rest : List Char) : Except Fault (List Span) :=
  match rest with
  | [] => .ok (passed offset pending)
  | c :: tail =>
      match _h : table.attempt restrict ⟨left, c :: tail⟩ with
      | .error fault => .error fault
      | .ok none => attemptFrom table restrict offset (pending ++ [c]) (left.push c) tail
      | .ok (some found) =>
          let start := offset + Text.byteLength pending
          let taken := (c :: tail).take found.length
          (attemptFrom table restrict (start + Text.byteLength taken) [] (left.after taken)
              ((c :: tail).drop found.length)).map fun spans =>
            passed offset pending ++ found.toSpan start (c :: tail) :: spans
termination_by rest.length
decreasing_by
  · simp
  · have := length_pos_of_attemptFirst _h
    simp only [List.length_drop, List.length_cons]
    omega

/-- The spans of the part of `text` that `range` names. -/
def attemptRange (table : Table) (text : List Char) (range : Range)
    (restrict : Option KindSet) : Except Fault (List Span) := do
  let before ← Text.cut text (.upTo 0 range.start)
  let part ← Text.cut text range
  table.attemptFrom restrict range.start [] (.ofText before) part

/-- The spans that a scan as in `attemptFrom` yields one after the other, and what it breaks with
if it does.  What was passed over when it breaks is not yielded. -/
def yieldFrom (table : Table) (restrict : Option KindSet) (offset : Nat) (pending : List Char)
    (left : LeftContext) (rest : List Char) : List Span × Option Fault :=
  match rest with
  | [] => (passed offset pending, none)
  | c :: tail =>
      match _h : table.attempt restrict ⟨left, c :: tail⟩ with
      | .error fault => ([], some fault)
      | .ok none => yieldFrom table restrict offset (pending ++ [c]) (left.push c) tail
      | .ok (some found) =>
          let start := offset + Text.byteLength pending
          let taken := (c :: tail).take found.length
          let (spans, fault?) :=
            yieldFrom table restrict (start + Text.byteLength taken) [] (left.after taken)
              ((c :: tail).drop found.length)
          (passed offset pending ++ found.toSpan start (c :: tail) :: spans, fault?)
termination_by rest.length
decreasing_by
  · simp
  · have := length_pos_of_attemptFirst _h
    simp only [List.length_drop, List.length_cons]
    omega

/-- What a scan of the part of `text` that `range` names yields, and what it breaks with. -/
def yieldRange (table : Table) (text : List Char) (range : Range) (restrict : Option KindSet) :
    List Span × Option Fault :=
  match Text.cut text (.upTo 0 range.start), Text.cut text range with
  | .ok before, .ok part => table.yieldFrom restrict range.start [] (.ofText before) part
  | .error fault, _ | _, .error fault => ([], some fault)

section

variable {table : Table} {restrict : Option KindSet} {offset : Nat} {pending : List Char}
  {left : LeftContext} {c : Char} {tail : List Char}

theorem yieldFrom_of_error {fault : Fault}
    (h : table.attempt restrict ⟨left, c :: tail⟩ = .error fault) :
    table.yieldFrom restrict offset pending left (c :: tail) = ([], some fault) := by
  rw [yieldFrom]
  split <;> rename_i hattempt <;> rw [h] at hattempt <;> cases hattempt
  rfl

theorem yieldFrom_of_none (h : table.attempt restrict ⟨left, c :: tail⟩ = .ok none) :
    table.yieldFrom restrict offset pending left (c :: tail) =
      table.yieldFrom restrict offset (pending ++ [c]) (left.push c) tail := by
  rw [yieldFrom]
  split <;> rename_i hattempt <;> rw [h] at hattempt <;> cases hattempt

theorem yieldFrom_of_some {found : Found}
    (h : table.attempt restrict ⟨left, c :: tail⟩ = .ok (some found)) :
    table.yieldFrom restrict offset pending left (c :: tail) =
      let start := offset + Text.byteLength pending
      let taken := (c :: tail).take found.length
      let behind := table.yieldFrom restrict (start + Text.byteLength taken) []
        (left.after taken) ((c :: tail).drop found.length)
      (passed offset pending ++ found.toSpan start (c :: tail) :: behind.1, behind.2) := by
  rw [yieldFrom]
  split <;> rename_i hattempt <;> rw [h] at hattempt <;> cases hattempt
  rfl

end

/-- A scan that does not break gives all that it yields. -/
theorem attemptFrom_eq_yieldFrom (table : Table) (restrict : Option KindSet) (offset : Nat)
    (pending : List Char) (left : LeftContext) (rest : List Char) :
    table.attemptFrom restrict offset pending left rest =
      match table.yieldFrom restrict offset pending left rest with
      | (spans, none) => .ok spans
      | (_, some fault) => .error fault := by
  fun_induction attemptFrom table restrict offset pending left rest with
  | case1 offset pending left => rw [yieldFrom]
  | case2 offset pending left c tail fault hfault => rw [yieldFrom_of_error hfault]
  | case3 offset pending left c tail hnone ih => rw [ih, yieldFrom_of_none hnone]
  | case4 offset pending left c tail found hfound start taken ih =>
      rw [ih, yieldFrom_of_some hfound]
      dsimp only
      split <;> rename_i hbehind <;> rw [hbehind] <;> rfl

theorem attemptRange_eq_yieldRange (table : Table) (text : List Char) (range : Range)
    (restrict : Option KindSet) :
    table.attemptRange text range restrict =
      match table.yieldRange text range restrict with
      | (spans, none) => .ok spans
      | (_, some fault) => .error fault := by
  unfold attemptRange yieldRange
  cases Text.cut text (.upTo 0 range.start) with
  | error fault => rfl
  | ok before =>
      cases Text.cut text range with
      | error fault => rfl
      | ok part => exact attemptFrom_eq_yieldFrom ..

end Table

end ConcreteSyntax
