import ConcreteSyntax.Analysis.Pass
import ConcreteSyntax.Tree.Builder

/-!
# Walks

Passes as they go over a tree in an arena, one step after the other.  The names of the nodes
that are still to be visited stand on a stack.  In a container, the rule is tried at one child
after the other, while the child list changes, and then the children that are there by then
are to be visited next.
-/

namespace ConcreteSyntax

/-- What finds a run among the children of a node, at the child with an index. -/
abbrev Finder := Tree → NodeId → Nat → Except Fault (Option Match)

/-- The node that a name leads to, which has to be there, and with it its text. -/
def Tree.nodeOf (tree : Tree) (id : NodeId) : Except Fault Node :=
  match tree.node? id with
  | some node => (Text.cut tree.source node.range).map fun _ => node
  | none => .error (.staleKey id)

/-- The place at the child of a node with an index. -/
def Tree.lookahead (tree : Tree) (parent : NodeId) (index : Nat) : Except Fault Lookahead := do
  match tree.record? parent with
  | some above =>
      let siblings ← above.children.mapM tree.nodeOf
      return .atAnchor above.kind (siblings.take index).reverse (siblings.drop index)
  | none => .error (.staleKey parent)

/-- A rule that reads its siblings in an arena. -/
def Rule.finder (rule : Rule) : Finder := fun tree parent index => do
  rule.outcome (← tree.lookahead parent index)

/-- The finder that answers what a function does. -/
def Finder.ofFunction (find : Tree → NodeId → Nat → Option Match) : Finder :=
  fun tree parent index => .ok (find tree parent index)

/-- Where a walk stands. -/
structure Walk where
  tree : Tree
  /-- What the pass under way tries. -/
  find : Finder
  /-- What the passes after it try. -/
  todo : List Finder
  /-- The number of nodes that the pass has made. -/
  wrapped : Nat
  /-- The nodes that the pass has still to visit. -/
  stack : List NodeId
  /-- The container that it is in, and the index that it has reached there. -/
  level : Option (NodeId × Nat)

namespace Walk

/-- A walk over a tree before its first pass. -/
def start (tree : Tree) (passes : List Finder) : Walk where
  tree
  find := fun _ _ _ => .ok none
  todo := passes
  wrapped := 0
  stack := []
  level := none

/-- Whether a node was made by the pass under way. -/
def isNew (walk : Walk) (id : NodeId) : Bool := walk.tree.size - walk.wrapped ≤ id.index

/-- The node that a name leads to, which has to be there. -/
def record (walk : Walk) (id : NodeId) : Except Halt Record :=
  match walk.tree.record? id with
  | some record => .ok record
  | none => .error (.broken (.staleKey id))

/-- What the pass under way finds at a child. -/
def found (walk : Walk) (parent : NodeId) (index : Nat) : Except Halt (Option Match) :=
  match walk.find walk.tree parent index with
  | .ok found => .ok found
  | .error fault => .error (.broken fault)

/-- Wraps a run that was found, and goes on behind the new node. -/
def wrap (walk : Walk) (parent : NodeId) (found : Match) : Except Halt Walk :=
  match (Edit.wrapRun parent found.start found.stop found.kind).run walk.tree with
  | .ok _ tree =>
      .ok { walk with tree, wrapped := walk.wrapped + 1, level := some (parent, found.start + 1) }
  | .error halt _ => .error halt

/-- Tries the rule at the next child of a container. -/
def tryAt (walk : Walk) (parent : NodeId) (above : Record) (index : Nat) (child : NodeId) :
    Except Halt Walk := do
  let passed := { walk with level := some (parent, index + 1) }
  if (← walk.record child).kind.isSignificant then
    match (← walk.found parent index).filter
      (·.isAccepted above.kind index above.children.length) with
    | some found => walk.wrap parent found
    | none => return passed
  else return passed

/-- Takes the next node from the stack.  A walk goes into containers only, and not into
directives. -/
def visit (walk : Walk) (id : NodeId) (stack : List NodeId) : Walk :=
  match walk.tree.record? id with
  | some record =>
      if Pass.isOpen record.kind then { walk with stack, level := some (id, 0) }
      else { walk with stack }
  | none => { walk with stack }

/-- One step of a walk; nothing when all passes are done. -/
def step (walk : Walk) : Except Halt (Option Walk) := do
  match walk.level with
  | some (parent, index) =>
      let above ← walk.record parent
      match above.children[index]? with
      | some child => return some (← walk.tryAt parent above index child)
      | none => return some { walk with stack := above.children ++ walk.stack, level := none }
  | none =>
      match walk.stack, walk.todo with
      | id :: stack, _ => return some (walk.visit id stack)
      | [], find :: todo =>
          return some { walk with find, todo, wrapped := 0, stack := [walk.tree.root] }
      | [], [] => return none

/-- What a walk comes to from where it stands. -/
inductive Reaches (walk : Walk) : Walk → Prop
  | refl : Reaches walk walk
  | step {mid next : Walk} (hmid : Reaches walk mid) (hstep : mid.step = .ok (some next)) :
      Reaches walk next

end Walk

/-- What the passes of a language try, if there is to be an analysis. -/
def Language.finders (language : Language) (analysis : Bool) : List Finder :=
  if analysis then language.grammar.passes.map (·.rule.finder) else []

end ConcreteSyntax
