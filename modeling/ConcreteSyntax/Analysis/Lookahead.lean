import ConcreteSyntax.Node.Basic

/-!
# Lookahead over siblings

A rule of analysis looks at the children of one node from an anchor on, through a
`Lookahead`.  Trivia and comments are passed over by every move, and never end a
run.  A move that succeeds leaves fewer siblings ahead, which is what makes loops
over siblings end.
-/

namespace ConcreteSyntax

/-- A place among the children of a node. -/
structure Lookahead where
  /-- The kind of the parent. -/
  parent : Kind
  /-- The siblings before the anchor, the nearest first. -/
  before : List Node
  /-- The siblings from the place on. -/
  ahead : List Node
  /-- The index of the first sibling ahead. -/
  position : Nat
  /-- The index of the sibling consumed last. -/
  last : Option Nat := none
deriving Inhabited

/-- A run of siblings, from the index `start` to the index `stop`, and the kind of the
node that it makes. -/
structure Match where
  kind : Kind
  start : Nat
  stop : Nat
deriving DecidableEq, Inhabited

namespace Lookahead

/-- The place at an anchor, which is the first sibling of `ahead`. -/
def atAnchor (parent : Kind) (before ahead : List Node) : Lookahead where
  parent
  before
  ahead
  position := before.length

/-- The first significant node of a list whose first index is `index`: its index, the
node, and what follows it. -/
def firstFrom (index : Nat) : List Node → Option (Nat × Node × List Node)
  | [] => none
  | node :: rest =>
      if node.kind.isSignificant then some (index, node, rest) else firstFrom (index + 1) rest

/-- The `n`-th significant node of a list. -/
def nthFrom : Nat → List Node → Option Node
  | _, [] => none
  | n, node :: rest =>
      if node.kind.isSignificant then
        match n with
        | 0 => some node
        | n + 1 => nthFrom n rest
      else nthFrom n rest

/-- The first significant sibling ahead, with its index and what follows it. -/
def next? (look : Lookahead) : Option (Nat × Node × List Node) :=
  firstFrom look.position look.ahead

/-- The first significant sibling ahead. -/
def node? (look : Lookahead) : Option Node := look.next?.map fun (_, node, _) => node

/-- The kind of the `n`-th significant sibling ahead. -/
def nth? (look : Lookahead) (n : Nat) : Option Kind := (nthFrom n look.ahead).map (·.kind)

/-- The kind of the first significant sibling ahead. -/
def current? (look : Lookahead) : Option Kind := look.node?.map (·.kind)

/-- Whether the first significant sibling ahead is of one kind. -/
def isAt (look : Lookahead) (kind : Kind) : Bool := look.current? == some kind

/-- Whether the first significant sibling ahead is of one of several kinds. -/
def isAtAny (look : Lookahead) (kinds : KindSet) : Bool := look.current?.any kinds.contains

/-- The text of the first significant sibling ahead, if it is a leaf. -/
def text? (look : Lookahead) : Option (List Char) := look.node?.bind (·.text?)

/-- The kind of the nearest significant sibling before the anchor. -/
def previous? (look : Lookahead) : Option Kind :=
  (look.before.map (·.kind)).find? (·.isSignificant)

/-- The index at which a run that begins here starts. -/
def startIndex (look : Lookahead) : Nat :=
  match look.next? with
  | some (index, _, _) => index
  | none => look.position

/-- The run from `start` to the sibling consumed last, or of the first sibling alone
when none was consumed. -/
def run (look : Lookahead) (start : Nat) (kind : Kind) : Match :=
  ⟨kind, start, look.last.getD start⟩

/-- The place after the first significant sibling ahead. -/
def advance (look : Lookahead) : Lookahead :=
  match look.next? with
  | some (index, _, rest) =>
      { look with ahead := rest, position := index + 1, last := some index }
  | none => look

/-- The place after the first significant sibling ahead, if that is of one kind. -/
def eat? (look : Lookahead) (kind : Kind) : Option Lookahead :=
  if look.isAt kind then some look.advance else none

/-- The place after a sibling of one kind, or the same place when none is next. -/
def skip (look : Lookahead) (kind : Kind) : Lookahead := (look.eat? kind).getD look

theorem length_firstFrom_lt {index found : Nat} {nodes rest : List Node} {node : Node}
    (h : firstFrom index nodes = some (found, node, rest)) : rest.length < nodes.length := by
  induction nodes generalizing index with
  | nil => simp [firstFrom] at h
  | cons head tail ih =>
      unfold firstFrom at h
      split at h
      · simp only [Option.some.injEq, Prod.mk.injEq] at h
        simp [h.2.2]
      · have := ih h
        simp
        omega

/-- Moving past a sibling leaves fewer of them ahead. -/
theorem length_ahead_advance_lt {look : Lookahead} (h : look.current?.isSome) :
    look.advance.ahead.length < look.ahead.length := by
  unfold advance
  split
  · exact length_firstFrom_lt ‹_›
  · rename_i hnone
    simp [current?, node?, hnone] at h

theorem length_ahead_advance_le (look : Lookahead) :
    look.advance.ahead.length ≤ look.ahead.length := by
  by_cases h : look.current?.isSome
  · exact Nat.le_of_lt (length_ahead_advance_lt h)
  · have hnone : look.next? = none := by simpa [current?, node?] using h
    simp [advance, hnone]

theorem isSome_current?_of_isAt {look : Lookahead} {kind : Kind} (h : look.isAt kind = true) :
    look.current?.isSome := by
  simp only [isAt, beq_iff_eq] at h
  simp [h]

theorem isSome_current?_of_any {look : Lookahead} {test : Kind → Bool}
    (h : look.current?.any test = true) : look.current?.isSome := by
  cases hcurrent : look.current? with
  | none => simp [hcurrent] at h
  | some kind => rfl

theorem length_ahead_eat?_lt {look after : Lookahead} {kind : Kind}
    (h : look.eat? kind = some after) : after.ahead.length < look.ahead.length := by
  unfold eat? at h
  split at h
  · simp only [Option.some.injEq] at h
    subst h
    exact length_ahead_advance_lt (isSome_current?_of_isAt ‹_›)
  · simp at h

/-- The place after the next sibling of kind `stop`, if all significant siblings before
it are allowed. -/
def eatThrough? (look : Lookahead) (stop : Kind) (allowed : Kind → Bool) : Option Lookahead :=
  if look.isAt stop then some look.advance
  else if _h : look.current?.any allowed then look.advance.eatThrough? stop allowed
  else none
termination_by look.ahead.length
decreasing_by exact length_ahead_advance_lt (isSome_current?_of_any _h)

/-- The place after all siblings that come next and are allowed. -/
def skipWhile (look : Lookahead) (allowed : Kind → Bool) : Lookahead :=
  if _h : look.current?.any allowed then look.advance.skipWhile allowed else look
termination_by look.ahead.length
decreasing_by exact length_ahead_advance_lt (isSome_current?_of_any _h)

end Lookahead

end ConcreteSyntax
