import ConcreteSyntax.Analysis.Pass
import ConcreteSyntax.CFamily.Vocabulary

/-!
# Statements of the C family

The rules for conditions, loops, jumps and exceptions, and for labels.
-/

namespace ConcreteSyntax.CFamily

open Action

/-! ## Flow -/

/-- The place after one statement; nothing when the statement is cut short. -/
def statement? (look : Lookahead) : Option Lookahead :=
  match _h : look.current? with
  | none => none
  | some .delimiter => none
  | some .braces => some look.advance
  | some .ifKw | some .forKw | some .whileKw | some .switchKw =>
      match _he : look.advance.eat? .parenthesis with
      | some body => statement? body
      | none => none
  | some .elseKw => statement? look.advance
  | some .doKw =>
      match statement? look.advance with
      | some body => do
          let condition ← body.eat? .whileKw
          let after ← condition.eat? .parenthesis
          return after.skip .semicolon
      | none => none
  | some .tryKw | some .atTryKw | some .atFinallyKw => look.advance.eat? .braces
  | some .catchKw | some .atCatchKw | some .atSynchronizedKw => do
      let body ← look.advance.eat? .parenthesis
      body.eat? .braces
  | some _ => look.eatThrough? .semicolon fun kind => !statementStop.contains kind
termination_by look.ahead.length
decreasing_by
  all_goals
    have : look.advance.ahead.length < look.ahead.length :=
      Lookahead.length_ahead_advance_lt (by simp [_h])
    try have := Lookahead.length_ahead_eat?_lt _he
    omega

/-- Moves past one statement. -/
def statement : Action Bool := do tryTo (statement? (← place))

/-- `new` with a type, and with arguments or a length. -/
def allocation : Rule := do
  let marker ← start
  advance
  if ← isAtAny allocated then
    skipWhile allocated.contains
    let arguments ← eat .parenthesis
    if !arguments then
      let _ ← eat .brackets
    return some (← complete marker .cppNew)
  else
    abandon marker
    return none

/-- The kind of the statement that the word at a place begins.  The `while` that closes
a `do` loop begins none, and neither does an `if` right after an `else`. -/
def flowKind? (look : Lookahead) : Option Kind :=
  match look.current? with
  | some .ifKw => if look.previous? = some .elseKw then none else some .conditionIf
  | some .elseKw =>
      if look.nth? 1 = some .ifKw then some .conditionElseIf else some .conditionElse
  | some .switchKw => some .flowSwitch
  | some .forKw => some .flowFor
  | some .whileKw =>
      if look.parent = .flowDoWhile ∧ look.previous? ≠ some .doKw then none
      else some .flowWhile
  | some .doKw => some .flowDoWhile
  | some .returnKw => some .flowReturn
  | some .gotoKw => some .flowGoto
  | some .tryKw => some .cppTry
  | some .catchKw => some .cppCatch
  | some .throwKw => some .cppThrow
  | some .deleteKw => if look.previous? = some .equal then none else some .cppDelete
  | some .atTryKw => some .objcTry
  | some .atCatchKw => some .objcCatch
  | some .atFinallyKw => some .objcFinally
  | some .atThrowKw => some .objcThrow
  | some .atSynchronizedKw => some .objcSynchronized
  | _ => none

/-- Conditions, loops, jumps, exceptions, and `new`. -/
def flow : Rule := do
  if ← isAt .newKw then allocation
  else
    match flowKind? (← place) with
    | some kind =>
        let marker ← start
        let complete ← statement
        finish marker (if complete then some kind else none)
    | none => return none

/-! ## Labels -/

/-- A label through its colon, and the statements up to the next label. -/
def labelGroup (kind : Kind) : Rule := do
  let marker ← start
  let labelled ← eatThrough .colon fun other => !labelStop.contains other
  if labelled then skipWhile fun other => !groupEnd.contains other
  finish marker (if labelled then some kind else none)

/-- The target of a `goto`: a word and a colon. -/
def gotoLabel : Rule := do
  let marker ← start
  advance
  advance
  return some (← complete marker .flowLabel)

/-- Whether a colon follows the first sibling ahead. -/
def beforeColon (look : Lookahead) : Bool := look.nth? 1 == some .colon

/-- An access specifier and the declarations after it. -/
def accessLabel (kind : Kind) : Rule := do
  if beforeColon (← place) then labelGroup kind else return none

/-- The target of a `goto`, at the beginning of a statement. -/
def gotoTarget : Rule := do
  let look ← place
  if beforeColon look && isBoundary look.previous? then gotoLabel else return none

/-- The rule for what a label begins with. -/
def labelAt : Option Kind → Rule
  | some .caseKw => labelGroup .flowCase
  | some .defaultKw => labelGroup .flowDefault
  | some .publicKw => accessLabel .cppPublic
  | some .protectedKw => accessLabel .cppProtected
  | some .privateKw => accessLabel .cppPrivate
  | some .text => gotoTarget
  | _ => return none

/-- Labels of `switch`, access specifiers and targets of `goto`, which only stand in
braces. -/
def labels : Rule := do
  let look ← place
  if look.parent = .braces then labelAt look.current? else return none

end ConcreteSyntax.CFamily
