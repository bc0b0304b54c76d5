import ConcreteSyntax.Analysis.Lookahead
import ConcreteSyntax.Fault

/-!
# Rules

A rule of analysis is an `Action`: it moves over the siblings from an anchor on and may
break.  Before it moves it marks where its run begins, and every marker has to be
finished: it is completed into a match, or abandoned.
-/

namespace ConcreteSyntax

/-- A rule under way: where it looks, and the number of its unfinished markers. -/
structure Attempt where
  look : Lookahead
  markers : Nat
deriving Inhabited

/-- What moves over siblings, and may break. -/
abbrev Action (α : Type) := EStateM Fault Attempt α

/-- What finds a run of siblings, or none. -/
abbrev Rule := Action (Option Match)

/-- The index at which a run begins. -/
structure Marker where
  start : Nat
deriving DecidableEq, Inhabited

namespace Action

/-- Where a rule looks. -/
def place : Action Lookahead := return (← get).look

/-- Whether the first significant sibling ahead is of one kind. -/
def isAt (kind : Kind) : Action Bool := return (← place).isAt kind

/-- Whether the first significant sibling ahead is of one of several kinds. -/
def isAtAny (kinds : KindSet) : Action Bool := return (← place).isAtAny kinds

/-- Goes to a place. -/
def moveTo (look : Lookahead) : Action Unit := modify fun attempt => { attempt with look }

/-- Goes to a place if there is one, and tells whether there was. -/
def tryTo (found : Option Lookahead) : Action Bool := do
  match found with
  | some look => moveTo look; return true
  | none => return false

/-- Moves past the first significant sibling ahead. -/
def advance : Action Unit := do moveTo (← place).advance

/-- Moves past the first significant sibling ahead, if that is of one kind. -/
def eat (kind : Kind) : Action Bool := do tryTo ((← place).eat? kind)

/-- Moves past the next sibling of kind `stop`, if all significant siblings before it are
allowed. -/
def eatThrough (stop : Kind) (allowed : Kind → Bool) : Action Bool := do
  tryTo ((← place).eatThrough? stop allowed)

/-- Moves past all siblings that come next and are allowed. -/
def skipWhile (allowed : Kind → Bool) : Action Unit := do moveTo ((← place).skipWhile allowed)

/-- Marks the first significant sibling ahead. -/
def start : Action Marker :=
  modifyGet fun attempt =>
    (⟨attempt.look.startIndex⟩, { attempt with markers := attempt.markers + 1 })

/-- Ends the run at the sibling consumed last. -/
def complete (marker : Marker) (kind : Kind) : Action Match :=
  modifyGet fun attempt =>
    (attempt.look.run marker.start kind, { attempt with markers := attempt.markers - 1 })

/-- Gives up a run. -/
def abandon (_ : Marker) : Action Unit :=
  modify fun attempt => { attempt with markers := attempt.markers - 1 }

/-- Ends the run with a kind, or gives it up without one. -/
def finish (marker : Marker) (kind : Option Kind) : Rule := do
  match kind with
  | some kind => return some (← complete marker kind)
  | none => abandon marker; return none

end Action

namespace Rule

/-- What a rule makes of the siblings from an anchor on.  A rule that ends with an
unfinished marker breaks. -/
def outcome (rule : Rule) (look : Lookahead) : Except Fault (Option Match) :=
  match rule.run ⟨look, 0⟩ with
  | .ok found attempt => if attempt.markers = 0 then .ok found else .error .unfinishedMarker
  | .error fault _ => .error fault

/-- The run that a rule finds.  A rule that breaks finds none. -/
def found? (rule : Rule) (look : Lookahead) : Option Match :=
  match rule.outcome look with
  | .ok found => found
  | .error _ => none

/-- The rule that finds what a function finds. -/
def ofFunction (find : Lookahead → Option Match) : Rule := return find (← Action.place)

end Rule

end ConcreteSyntax
