import ConcreteSyntax.Scan.Spec

/-!
# Kind tables

A `Table` holds the specs of a language in the order of their declaration and in
the order in which a scanner tries them.  A spec comes before the declared specs
that it patches, and otherwise specs keep the order of their declaration: again
and again, the first of the specs that wait for no other is taken.
-/

namespace ConcreteSyntax

/-- Why specs do not make a table. -/
inductive TableError where
  | duplicateKind
  | patchCycle
deriving DecidableEq, Inhabited

/-- The wording of a table error. -/
def TableError.message : TableError → String
  | .duplicateKind => "a kind is declared twice; use `compose` to override"
  | .patchCycle => "cycle in the kind patch relation"

/-- The specs of a language, as declared and as tried. -/
structure Table where
  specs : List Spec
  candidates : List Spec
deriving Inhabited

namespace Table

/-- Whether the spec at the place `first` has to be tried before the one at the place `later`.
A spec is never tried before itself, even when it names its own kind. -/
def goesBefore (specs : List Spec) (first later : Nat) : Bool :=
  match specs[first]?, specs[later]? with
  | some spec, some other => first != later && spec.patches.contains other.kind
  | _, _ => false

/-- The places of a list. -/
def places (specs : List Spec) : List Nat := List.range specs.length

/-- The places of the specs that have to be tried behind the one at a place. -/
def followers (specs : List Spec) (first : Nat) : List Nat :=
  (places specs).filter (goesBefore specs first)

/-- A list in rising order with one more place in it. -/
def enqueue (place : Nat) : List Nat → List Nat
  | [] => [place]
  | next :: rest =>
      if place < next then place :: next :: rest else next :: enqueue place rest

/-- The specs that are still to be ordered. -/
structure Backlog where
  /-- For each place, the number of specs that have still to come before the one there. -/
  blockers : List Nat
  /-- The places that wait for nothing, in rising order. -/
  ready : List Nat

namespace Backlog

/-- The backlog before any spec is ordered. -/
def start (specs : List Spec) : Backlog :=
  let blockers := (places specs).map fun later => (places specs).countP (goesBefore specs · later)
  { blockers, ready := (places specs).filter fun later => blockers[later]? == some 0 }

/-- The backlog after a spec in front of the one at a place was ordered. -/
def release (backlog : Backlog) (later : Nat) : Backlog :=
  let blockers := backlog.blockers.modify later (· - 1)
  { blockers
    ready := if blockers[later]? = some 0 then enqueue later backlog.ready else backlog.ready }

/-- Orders what can be ordered, in at most `fuel` steps: of the places that wait for nothing the
first, then what waited for no more than that. -/
def settle (specs : List Spec) : Nat → Backlog → List Nat
  | 0, _ => []
  | fuel + 1, backlog =>
      match backlog.ready with
      | [] => []
      | first :: rest =>
          first :: settle specs fuel
            ((followers specs first).foldl release { backlog with ready := rest })

end Backlog

/-- The order in which specs are tried; nothing when patches form a cycle, as the specs of a
cycle wait for each other. -/
def candidateOrder? (specs : List Spec) : Option (List Spec) :=
  let order := Backlog.settle specs specs.length (.start specs)
  if order.length = specs.length then some (order.filterMap (specs[·]?)) else none

/-- The kinds that specs declare. -/
def declared (specs : List Spec) : KindSet := .ofList (specs.map (·.kind))

/-- The table of a catalogue. -/
def build (specs : List Spec) : Except TableError Table :=
  if (declared specs).toList.length = specs.length then
    match candidateOrder? specs with
    | some candidates => .ok ⟨specs, candidates⟩
    | none => .error .patchCycle
  else .error .duplicateKind

/-- The table of a catalogue that is known to be sound.  A catalogue that is not
is tried in the order of its declaration.  Catalogues are long, so that a table is not to be
computed where two terms are compared. -/
@[irreducible] def ofCatalogue (specs : List Spec) : Table :=
  match build specs with
  | .ok table => table
  | .error _ => ⟨specs, specs⟩

/-- The spec of a kind. -/
def spec? (table : Table) (kind : Kind) : Option Spec := table.specs.find? (·.kind == kind)

/-- The kinds that a table declares. -/
def kinds (table : Table) : KindSet := declared table.specs

end Table

end ConcreteSyntax
