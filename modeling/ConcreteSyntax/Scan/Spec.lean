import ConcreteSyntax.Kind.Set
import ConcreteSyntax.Scan.Pattern

/-!
# How a kind is recognised

A `Spec` says how one kind of a language is recognised, and a catalogue is a list
of specs.  `Spec.compose` extends a catalogue: a spec for a kind that the
catalogue knows takes the place of the old one, and other specs follow at the end.
-/

namespace ConcreteSyntax

/-- What becomes of a match of a spec. -/
inductive Shape where
  /-- The opening marker is the whole leaf. -/
  | leaf
  /-- A leaf from the opening marker through the closing marker. -/
  | delimitedLeaf
  /-- The markers open and close a container; what is between is scanned in line. -/
  | paired
  /-- A container whose interior is scanned on its own, for fewer kinds. -/
  | delimitedContainer
deriving DecidableEq, Inhabited

/-- The name of a shape. -/
def Shape.name : Shape → String
  | .leaf => "Leaf"
  | .delimitedLeaf => "DelimitedLeaf"
  | .paired => "Paired"
  | .delimitedContainer => "DelimitedContainer"

/-- How one kind is recognised. -/
structure Spec where
  kind : Kind
  opening : Pattern
  closing : Option Pattern := none
  /-- A closing marker is not looked for right after this character. -/
  escape : Option Char := none
  /-- The kinds that the interior of the container is scanned for. -/
  interior : Option KindSet := none
  /-- The kinds that this one is tried before. -/
  patches : KindSet := ∅

namespace Spec

/-- A leaf with a fixed text. -/
def literal (kind : Kind) (text : String) : Spec :=
  { kind, opening := .literal text.toList }

/-- A leaf that is a whole word. -/
def keyword (kind : Kind) (word : String) : Spec :=
  { kind, opening := .keyword word.toList }

/-- A leaf that a rule measures. -/
def custom (kind : Kind) (rule : Context → Option Nat) : Spec :=
  { kind, opening := .custom rule }

/-- The spec with a closing marker. -/
def closedBy (spec : Spec) (closing : Pattern) : Spec := { spec with closing := some closing }

/-- The spec with a character that protects the next one. -/
def escapedBy (spec : Spec) (escape : Char) : Spec := { spec with escape := some escape }

/-- The spec with kinds that its interior is scanned for. -/
def holding (spec : Spec) (kinds : KindSet) : Spec := { spec with interior := some kinds }

/-- The spec with kinds that it is tried before. -/
def patching (spec : Spec) (kinds : List Kind) : Spec :=
  { spec with patches := .ofList kinds }

/-- A pair of delimiters. -/
def pair (kind : Kind) (opening closing : String) : Spec :=
  (literal kind opening).closedBy (.literal closing.toList)

/-- What becomes of a match of a spec. -/
def shape (spec : Spec) : Shape :=
  match spec.closing, spec.kind.isAtomic, spec.interior with
  | none, _, _ => .leaf
  | some _, true, _ => .delimitedLeaf
  | some _, false, none => .paired
  | some _, false, some _ => .delimitedContainer

/-- A catalogue with `addition` in the place of the first spec of its kind, or at
the end when there is none. -/
def declare (addition : Spec) : List Spec → List Spec
  | [] => [addition]
  | spec :: rest =>
      if spec.kind = addition.kind then addition :: rest
      else spec :: declare addition rest

/-- A catalogue with `additions` declared in it, one after the other. -/
def compose (base additions : List Spec) : List Spec :=
  additions.foldl (fun specs addition => declare addition specs) base

end Spec

end ConcreteSyntax
