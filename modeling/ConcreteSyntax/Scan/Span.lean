import ConcreteSyntax.Scan.Table

/-!
# Scanning

A scanner turns a text into a flat list of `Span`s.  At every place the
candidates of a table are tried in their order, and the first that recognises
something wins.  The characters that no candidate recognises are gathered into
leaves of kind `text`, so that the spans always spell the whole text.
-/

namespace ConcreteSyntax

/-- A piece of scanned text. -/
inductive Span where
  | leaf (kind : Kind) (text : Fragment)
  /-- The opening marker of a paired kind. -/
  | opener (kind : Kind) (text : Fragment)
  /-- The closing marker of a paired kind. -/
  | closer (kind : Kind) (text : Fragment)
  /-- A delimited container.  Its closing marker is empty when the marker has no
  characters or is never found. -/
  | delimited (kind : Kind) (opening interior closing : Fragment)
deriving DecidableEq, Inhabited

namespace Span

/-- The kind of a span. -/
def kind : Span → Kind
  | .leaf kind _ => kind
  | .opener kind _ => kind
  | .closer kind _ => kind
  | .delimited kind _ _ _ => kind

/-- The characters of a span. -/
def chars : Span → List Char
  | .leaf _ text => text.chars
  | .opener _ text => text.chars
  | .closer _ text => text.chars
  | .delimited _ opening interior closing => opening.chars ++ (interior.chars ++ closing.chars)

/-- The bytes that a span takes. -/
def range : Span → Range
  | .leaf _ text => text.range
  | .opener _ text => text.range
  | .closer _ text => text.range
  | .delimited _ opening _ closing => opening.range.cover closing.range

end Span

/-- What a candidate recognises at a place, with lengths in characters. -/
inductive Found where
  | leaf (kind : Kind) (length : Nat)
  | opener (kind : Kind) (length : Nat)
  | closer (kind : Kind) (length : Nat)
  | delimited (kind : Kind) (opening interior closing : Nat)
deriving DecidableEq, Inhabited

namespace Found

/-- The number of characters recognised. -/
def length : Found → Nat
  | .leaf _ n => n
  | .opener _ n => n
  | .closer _ n => n
  | .delimited _ opening interior closing => opening + (interior + closing)

/-- The span of what was recognised at `offset`, in front of `rest`. -/
def toSpan (found : Found) (offset : Nat) (rest : List Char) : Span :=
  match found with
  | .leaf kind n => .leaf kind ⟨offset, rest.take n⟩
  | .opener kind n => .opener kind ⟨offset, rest.take n⟩
  | .closer kind n => .closer kind ⟨offset, rest.take n⟩
  | .delimited kind opening interior closing =>
      let first : Fragment := ⟨offset, rest.take opening⟩
      let second : Fragment := ⟨first.stop, (rest.drop opening).take interior⟩
      let third : Fragment :=
        ⟨second.stop, ((rest.drop opening).drop interior).take closing⟩
      .delimited kind first second third

@[simp] theorem chars_toSpan (found : Found) (offset : Nat) (rest : List Char) :
    (found.toSpan offset rest).chars = rest.take found.length := by
  cases found <;> simp [toSpan, Span.chars, length, List.take_add]

end Found

namespace Spec

/-- The closing marker of a spec from a place on: characters before it, and its own. -/
def seekClosing (spec : Spec) (cx : Context) : Nat × Nat :=
  match spec.closing with
  | none => (0, 0)
  | some closing => closing.seek spec.escape cx.toLeftContext cx.rest

/-- What a spec recognises at a place.  An opening marker without characters is
passed over, and so is a closing marker without characters. -/
def recognise? (spec : Spec) (cx : Context) : Option Found :=
  match spec.opening.length? cx with
  | some 0 => none
  | some (n + 1) =>
      match spec.shape with
      | .leaf => some (.leaf spec.kind (n + 1))
      | .delimitedLeaf =>
          let (interior, closing) := spec.seekClosing (cx.advance (n + 1))
          some (.leaf spec.kind (n + 1 + (interior + closing)))
      | .paired => some (.opener spec.kind (n + 1))
      | .delimitedContainer =>
          let (interior, closing) := spec.seekClosing (cx.advance (n + 1))
          some (.delimited spec.kind (n + 1) interior closing)
  | none =>
      match spec.shape, spec.closing with
      | .paired, some closing =>
          match closing.length? cx with
          | some (n + 1) => some (.closer spec.kind (n + 1))
          | _ => none
      | _, _ => none

theorem length_pos_of_recognise? {spec : Spec} {cx : Context} {found : Found}
    (h : spec.recognise? cx = some found) : 0 < found.length := by
  unfold recognise? at h
  split at h
  · simp at h
  · split at h <;> simp only [Option.some.injEq] at h <;> subst h <;>
      simp only [Found.length] <;> omega
  · split at h
    · split at h
      · simp only [Option.some.injEq] at h
        subst h
        simp [Found.length]
      · simp at h
    · simp at h

end Spec

namespace Table

/-- What the first candidate to recognise something recognises at a place.  With
`restrict`, only the kinds of that set are candidates. -/
def recognise? (table : Table) (restrict : Option KindSet) (cx : Context) : Option Found :=
  table.candidates.findSome? fun spec =>
    if restrict.all (·.contains spec.kind) then spec.recognise? cx else none

theorem length_pos_of_recognise? {table : Table} {restrict : Option KindSet} {cx : Context}
    {found : Found} (h : table.recognise? restrict cx = some found) : 0 < found.length := by
  obtain ⟨spec, _, hspec⟩ := List.exists_of_findSome?_eq_some h
  split at hspec
  · exact Spec.length_pos_of_recognise? hspec
  · simp at hspec

/-- The number of characters from a place on at which nothing is recognised. -/
def textRun (table : Table) (restrict : Option KindSet) : LeftContext → List Char → Nat
  | _, [] => 0
  | left, c :: rest =>
      if (table.recognise? restrict ⟨left, c :: rest⟩).isSome then 0
      else textRun table restrict (left.push c) rest + 1

section

variable {table : Table} {restrict : Option KindSet} {left : LeftContext} {c : Char}
  {rest : List Char}

theorem textRun_of_some {found : Found}
    (h : table.recognise? restrict ⟨left, c :: rest⟩ = some found) :
    table.textRun restrict left (c :: rest) = 0 := by
  simp [textRun, h]

theorem textRun_of_none (h : table.recognise? restrict ⟨left, c :: rest⟩ = none) :
    table.textRun restrict left (c :: rest) = table.textRun restrict (left.push c) rest + 1 := by
  simp [textRun, h]

end

/-- The spans of `rest`, which stands at `offset` after `left`. -/
def scanFrom (table : Table) (restrict : Option KindSet) (offset : Nat) (left : LeftContext)
    (rest : List Char) : List Span :=
  match rest with
  | [] => []
  | c :: tail =>
      match _h : table.recognise? restrict ⟨left, c :: tail⟩ with
      | some found =>
          let taken := (c :: tail).take found.length
          found.toSpan offset (c :: tail) ::
            scanFrom table restrict (offset + Text.byteLength taken) (left.after taken)
              ((c :: tail).drop found.length)
      | none =>
          let taken := c :: tail.take (table.textRun restrict (left.push c) tail)
          .leaf .text ⟨offset, taken⟩ ::
            scanFrom table restrict (offset + Text.byteLength taken) (left.after taken)
              (tail.drop (table.textRun restrict (left.push c) tail))
termination_by rest.length
decreasing_by
  · have := length_pos_of_recognise? _h
    simp only [List.length_drop, List.length_cons]
    omega
  · simp only [List.length_drop, List.length_cons]
    omega

theorem scanFrom_of_some {table : Table} {restrict : Option KindSet} {offset : Nat}
    {left : LeftContext} {c : Char} {tail : List Char} {found : Found}
    (h : table.recognise? restrict ⟨left, c :: tail⟩ = some found) :
    table.scanFrom restrict offset left (c :: tail) =
      let taken := (c :: tail).take found.length
      found.toSpan offset (c :: tail) ::
        table.scanFrom restrict (offset + Text.byteLength taken) (left.after taken)
          ((c :: tail).drop found.length) := by
  rw [scanFrom]
  split
  · rename_i other hother
    rw [h] at hother
    cases hother
    rfl
  · rename_i hnone
    rw [h] at hnone
    cases hnone

theorem scanFrom_of_none {table : Table} {restrict : Option KindSet} {offset : Nat}
    {left : LeftContext} {c : Char} {tail : List Char}
    (h : table.recognise? restrict ⟨left, c :: tail⟩ = none) :
    table.scanFrom restrict offset left (c :: tail) =
      let run := table.textRun restrict (left.push c) tail
      let taken := c :: tail.take run
      .leaf .text ⟨offset, taken⟩ ::
        table.scanFrom restrict (offset + Text.byteLength taken) (left.after taken)
          (tail.drop run) := by
  rw [scanFrom]
  split
  · rename_i other hother
    rw [h] at hother
    cases hother
  · rfl

/-- The spans of the part of `text` that `range` names.  Matchers see what stands
before the range, and nothing of what follows it. -/
def scanRange (table : Table) (text : List Char) (range : Range)
    (restrict : Option KindSet) : List Span :=
  table.scanFrom restrict range.start (.ofText (Text.takeBytes range.start text))
    (Text.slice text range)

/-- The spans of a whole text. -/
def scan (table : Table) (text : List Char) : List Span :=
  table.scanRange text (.ofLength 0 (Text.byteLength text)) none

/-- The spans of a text spell it. -/
theorem flatMap_chars_scanFrom (table : Table) (restrict : Option KindSet) (offset : Nat)
    (left : LeftContext) (rest : List Char) :
    (table.scanFrom restrict offset left rest).flatMap Span.chars = rest := by
  fun_induction scanFrom table restrict offset left rest with
  | case1 => rfl
  | case2 offset left c tail found h taken ih =>
      rw [List.flatMap_cons, ih]
      simp
  | case3 offset left c tail h taken ih =>
      rw [List.flatMap_cons, ih]
      simp [Span.chars, taken]

end Table

end ConcreteSyntax
