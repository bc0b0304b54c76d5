import ConcreteSyntax.Node.Basic

/-!
# Faults

Misuse and broken assumptions that no answer can be given to.  An operation that meets
one stops for good.
-/

namespace ConcreteSyntax

/-- Why an operation stops for good. -/
inductive Fault where
  | staleKey (id : NodeId)
  | notInTree (id : NodeId)
  | invalidOffset
  | invalidRun (start stop : Nat)
  | atomicParent (kind : Kind)
  | endless (id : NodeId)
  /-- An opening marker without characters. -/
  | emptyMarker (kind : Kind)
  /-- A cut beyond the end of a text or inside one of its characters. -/
  | invalidCut
  /-- A text too long for offsets of 32 bits. -/
  | oversized
  /-- A closing directive where none was open. -/
  | underflow
  /-- A marker that a rule has neither completed nor abandoned. -/
  | unfinishedMarker
deriving DecidableEq, Inhabited

/-- The wording of a fault. -/
def Fault.message : Fault → String
  | .staleKey id => "stale arena key " ++ id.key
  | .notInTree id => id.render ++ " is not part of the tree"
  | .invalidOffset => "invalid offset"
  | .invalidRun start stop => "invalid run " ++ toString start ++ "..=" ++ toString stop
  | .atomicParent kind => kind.code ++ " is atomic"
  | .endless id => id.render ++ " is its own ancestor"
  | .emptyMarker kind => kind.code ++ " matched an empty prefix"
  | .invalidCut => "failed to slice string"
  | .oversized => "called `Result::unwrap()` on an `Err` value: TryFromIntError(())"
  | .underflow => "attempt to subtract with overflow"
  | .unfinishedMarker => "Marker must be either completed or abandoned"

end ConcreteSyntax
