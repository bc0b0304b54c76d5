import ConcreteSyntax.Node.Basic
import ConcreteSyntax.Text.Quoted

/-!
# Dumps

A dump shows a tree with one line for each node: two spaces for each level, kind
and range, and the quoted text of a leaf.
-/

namespace ConcreteSyntax.Node

/-- The line of a dump for one node. -/
def dumpLine (depth : Nat) (node : Node) : String :=
  String.ofList (List.replicate (2 * depth) ' ') ++ node.label.render
    ++ (match node.text? with
        | some text => " " ++ Text.quoted text
        | none => "")
    ++ "\n"

/-- The dump of a tree. -/
def dump (node : Node) : String :=
  String.join ((node.descendantsFrom 0).map fun (depth, below) => below.dumpLine depth)

end ConcreteSyntax.Node
