import ConcreteSyntax.Analysis.Pass
import ConcreteSyntax.CFamily.Vocabulary

/-!
# Calls of the C family

The rules for function calls, for message sends, and for the selector and encoding
literals of Objective-C.
-/

namespace ConcreteSyntax.CFamily

open Action

/-- Passes over the further parts of a member chain. -/
def skipMembers (look : Lookahead) : Lookahead :=
  if _h : look.isAtAny memberAccess && (look.nth? 1).any callees.contains then
    skipMembers look.advance.advance
  else look
termination_by look.ahead.length
decreasing_by
  have hcurrent : look.current?.any memberAccess.contains = true := by
    simp only [Bool.and_eq_true] at _h
    exact _h.1
  have := Lookahead.length_ahead_advance_lt (Lookahead.isSome_current?_of_any hcurrent)
  have := Lookahead.length_ahead_advance_le look.advance
  omega

/-- Whether a call can begin here. -/
def mayCall (look : Lookahead) : Bool :=
  look.isAtAny callees && !withoutCalls.contains look.parent
    && !look.previous?.any memberAccess.contains

/-- `name(...)`, `object.method(...)` or `space::name(...)`. -/
def call : Rule := do
  if mayCall (← place) then
    let marker ← start
    advance
    moveTo (skipMembers (← place))
    let called ← eat .parenthesis
    finish marker (if called then some .functionCall else none)
  else return none

/-- Whether a node is a dot or an arrow. -/
def isChainMark (part : Node) : Bool := part.kind = .dot || part.kind = .arrow

/-- Passes over the further parts of a member chain, each after its dot or arrow. -/
def dropMembers : List Node → List Node
  | [] => []
  | [part] => if isChainMark part then [] else [part]
  | part :: next :: rest => if isChainMark part then dropMembers rest else part :: next :: rest

/-- The parts of a message after its receiver, which may be a member chain. -/
def afterReceiver (parts : List Node) : List Node := dropMembers (parts.drop 1)

/-- The parts of a message in brackets. -/
def messageParts (brackets : Node) : List Node :=
  brackets.significantChildren.filter (·.kind != .delimiter)

/-- Whether brackets hold a receiver and then a word, and do not follow something that
they could be a subscript of. -/
def isMessage (look : Lookahead) : Bool :=
  !look.previous?.any subscripted.contains
    && look.node?.any fun brackets =>
      (afterReceiver (messageParts brackets)).head?.any (·.kind = .text)

/-- A message send, which is one pair of brackets. -/
def message : Rule := do
  let marker ← start
  advance
  return some (← complete marker .objcMethodCall)

/-- Brackets, which are a message send or a subscript. -/
def bracketed : Rule := do
  if isMessage (← place) then message else call

/-- The rule for what a call begins with. -/
def callAt : Option Kind → Rule
  | none => return none
  | some .atSelectorKw => wordWithArgument .objcSelector
  | some .atEncodeKw => wordWithArgument .objcEncode
  | some .brackets => bracketed
  | some _ => call

/-- Message sends, selector and encoding literals, and calls. -/
def messages : Rule := do callAt (← place).current?

end ConcreteSyntax.CFamily
