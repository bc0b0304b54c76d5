import ConcreteSyntax.Analysis.Action

/-!
# Passes of analysis

A `Pass` wraps runs of siblings into nodes of a higher kind.  It visits the
containers of a tree from the top down, and in each of them tries its rule at
every significant child from left to right.  It only ever adds parents, so the
leaves of a tree and their order never change.  A `Run` records beside its result
which containers it visited and where it tried the rule.
-/

namespace ConcreteSyntax

/-- A named rule. -/
structure Pass where
  name : String
  rule : Rule

/-- What became of one child list. -/
structure Level where
  children : List Node
  /-- The index of the next new node. -/
  next : Nat
  /-- The places at which the rule was tried. -/
  tries : List Lookahead

/-- A container that a pass visited, and the places at which the rule was tried. -/
structure Visit where
  container : NodeId
  tries : List Lookahead

/-- What became of one node. -/
structure Run where
  node : Node
  /-- The index of the next new node. -/
  next : Nat
  visits : List Visit

/-- What became of several nodes. -/
structure Runs where
  nodes : List Node
  next : Nat
  visits : List Visit

namespace Match

/-- Whether a run among `length` children may be wrapped.  It may not reach back before
its anchor, and may not wrap all children of a node of the same kind. -/
def isAccepted (found : Match) (parent : Kind) (anchor length : Nat) : Bool :=
  anchor ≤ found.start && found.start ≤ found.stop && found.stop < length
    && !(found.start == 0 && found.stop + 1 == length && parent == found.kind)

end Match

namespace Node

/-- A new node over a run of siblings. -/
def wrap (lines : LineIndex) (id : NodeId) (kind : Kind) (run : List Node) : Node :=
  let first := (run.head?.map (·.range)).getD default
  let last := (run.getLast?.map (·.range)).getD default
  ⟨.ofRange lines id kind (first.cover last), run⟩

end Node

namespace Pass

/-- Tries a rule at the siblings of `ahead`, with the siblings of `before` done, the
nearest first.  After a run was wrapped, the rule goes on behind the new node. -/
def level (lines : LineIndex) (rule : Rule) (parent : Kind) (next : Nat)
    (before ahead : List Node) : Level :=
  match ahead with
  | [] => ⟨before.reverse, next, []⟩
  | node :: rest =>
      if node.kind.isSignificant then
        let look := Lookahead.atAnchor parent before (node :: rest)
        let anchor := before.length
        match (rule.found? look).filter (·.isAccepted parent anchor (anchor + (rest.length + 1))) with
        | none =>
            let below := level lines rule parent next (node :: before) rest
            { below with tries := look :: below.tries }
        | some found =>
            let skipped := (node :: rest).take (found.start - anchor)
            let run := ((node :: rest).take (found.stop + 1 - anchor)).drop
              (found.start - anchor)
            let wrapped := Node.wrap lines (.fresh next) found.kind run
            let below := level lines rule parent (next + 1)
              (wrapped :: (skipped.reverse ++ before)) (rest.drop (found.stop - anchor))
            { below with tries := look :: below.tries }
      else level lines rule parent next (node :: before) rest
termination_by ahead.length
decreasing_by
  all_goals
    simp
    try omega

/-- Whether a pass looks into nodes of a kind.  Directives stay as they were scanned. -/
def isOpen (kind : Kind) : Bool := !kind.isAtomic && !KindSet.directives.contains kind

/-- Visits nodes from left to right. -/
def visitEach (visit : Nat → Node → Run) : Nat → List Node → Runs
  | next, [] => ⟨[], next, []⟩
  | next, node :: rest =>
      let run := visit next node
      let runs := visitEach visit run.next rest
      ⟨run.node :: runs.nodes, runs.next, run.visits ++ runs.visits⟩

/-- Visits a node and, after it, its children, the new ones among them, down to the
depth of `fuel`. -/
def visit (lines : LineIndex) (rule : Rule) : Nat → Nat → Node → Run
  | 0, next, node => ⟨node, next, []⟩
  | fuel + 1, next, ⟨label, children⟩ =>
      if isOpen label.kind then
        let level := level lines rule label.kind next [] children
        let below := visitEach (visit lines rule fuel) level.next level.children
        ⟨⟨label, below.nodes⟩, below.next, ⟨label.id, level.tries⟩ :: below.visits⟩
      else ⟨⟨label, children⟩, next, []⟩

/-- A depth that suffices for every rule that never wraps the whole content of a node
that its own pass made: along a path downwards, the new nodes inside one child list
hold fewer and fewer of its nodes. -/
def depthBound (node : Node) : Nat := 3 * node.size + 1

/-- Runs a pass over a tree. -/
def run (pass : Pass) (lines : LineIndex) (next : Nat) (node : Node) : Run :=
  visit lines pass.rule (depthBound node) next node

/-- Runs passes over a tree, one after the other. -/
def runAll (passes : List Pass) (lines : LineIndex) (next : Nat) (node : Node) : Node × Nat :=
  passes.foldl (fun (node, next) pass =>
    let run := pass.run lines next node
    (run.node, run.next)) (node, next)

end Pass

end ConcreteSyntax
