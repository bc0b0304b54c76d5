import ConcreteSyntax.Proofs.Pairing.Grouping

/-!
# Nested markers

A grouping reports nothing exactly if the markers of its spans, and those of all interiors in
it, are well nested (`Grouping.nested_of_notes`, `Grouping.notes_eq_nil`).  Each marker of a
grouping is either paired or blamed in one note, never both (`Grouping.count_le`), and a closer
that closes nothing is in no container of its own kind (`Grouping.apart`).
-/

namespace ConcreteSyntax

/-- Whether a span is a marker of a paired kind. -/
def Span.isMarker : Span → Bool
  | .opener _ _ | .closer _ _ => true
  | .leaf _ _ | .delimited _ _ _ _ => false

/-- The openers and closers among spans. -/
def markers (spans : List Span) : List Span := spans.filter Span.isMarker

section

variable (kind : Kind) (text opening interior closing : Fragment) (spans : List Span)

@[simp] theorem markers_nil : markers [] = [] := rfl

@[simp] theorem markers_leaf : markers (.leaf kind text :: spans) = markers spans := rfl

@[simp] theorem markers_opener :
    markers (.opener kind text :: spans) = .opener kind text :: markers spans := rfl

@[simp] theorem markers_closer :
    markers (.closer kind text :: spans) = .closer kind text :: markers spans := rfl

@[simp] theorem markers_delimited :
    markers (.delimited kind opening interior closing :: spans) = markers spans := rfl

@[simp] theorem markers_append (spans' : List Span) :
    markers (spans ++ spans') = markers spans ++ markers spans' := List.filter_append ..

end

/-- The notes over a range. -/
def notesOver (notes : List Diagnostic) (range : Range) : List Diagnostic :=
  notes.filter (·.range = range)

theorem notesOver_append (notes more : List Diagnostic) (range : Range) :
    notesOver (notes ++ more) range = notesOver notes range ++ notesOver more range :=
  List.filter_append ..

theorem notesOver_eq_nil {notes : List Diagnostic} {range : Range}
    (h : ∀ note ∈ notes, note.range.start ≠ range.start) : notesOver notes range = [] := by
  refine List.filter_eq_nil_iff.2 fun note hnote => ?_
  have hne : note.range ≠ range := fun heq => h note hnote (by rw [heq])
  simpa using hne

theorem mem_notesOver {notes : List Diagnostic} {note : Diagnostic} (h : note ∈ notes) :
    note ∈ notesOver notes note.range := List.mem_filter.2 ⟨h, by simp⟩

theorem notesOver_self (note : Diagnostic) : notesOver [note] note.range = [note] := by
  simp [notesOver]

/-- Whether openers and closers are well nested by kind. -/
inductive Nested : List Span → Prop
  | nil : Nested []
  | pair {kind : Kind} {opening closing : Fragment} {inside rest : List Span} :
      Nested inside → Nested rest →
        Nested (.opener kind opening :: (inside ++ .closer kind closing :: rest))

/-- Whether an opener and a closer among spans are partners: they are of one kind, and what is
between them is well nested. -/
def Partners (spans : List Span) (kind : Kind) (opening closing : Fragment) : Prop :=
  ∃ before inside after,
    markers spans = before ++ .opener kind opening :: (inside ++ .closer kind closing :: after)
      ∧ Nested inside

theorem Partners.within {spans : List Span} {kind : Kind} {opening closing : Fragment}
    (h : Partners spans kind opening closing) (before after : List Span) :
    Partners (before ++ (spans ++ after)) kind opening closing := by
  obtain ⟨first, inside, last, hmarkers, hinside⟩ := h
  refine ⟨markers before ++ first, inside, last ++ markers after, ?_, hinside⟩
  simp [hmarkers]

/-! ## Reading markers with a stack -/

/-- The kinds of the open containers after spans, the innermost first; nothing if a closer does
not close the innermost one. -/
def stackAfter : List Kind → List Span → Option (List Kind)
  | stack, [] => some stack
  | stack, .opener kind _ :: rest => stackAfter (kind :: stack) rest
  | [], .closer _ _ :: _ => none
  | top :: stack, .closer kind _ :: rest => if top = kind then stackAfter stack rest else none
  | stack, .leaf _ _ :: rest | stack, .delimited _ _ _ _ :: rest => stackAfter stack rest

theorem stackAfter_markers (stack : List Kind) (spans : List Span) :
    stackAfter stack (markers spans) = stackAfter stack spans := by
  fun_induction stackAfter stack spans <;> simp_all [stackAfter]

theorem Nested.stackAfter_append {spans : List Span} (h : Nested spans) (stack : List Kind)
    (rest : List Span) : stackAfter stack (spans ++ rest) = stackAfter stack rest := by
  induction h generalizing stack rest with
  | nil => rfl
  | pair hinside hafter ihInside ihAfter =>
      rw [List.cons_append, List.append_assoc, stackAfter, ihInside, List.cons_append, stackAfter,
        if_pos rfl, ihAfter]

namespace Grouping

variable {table : Table} {text : List Char}

/-- The groupings of all interiors, those within interiors included. -/
def interiors : Grouping → List (Fragment × Grouping)
  | nil => []
  | leaf _ _ rest | stray _ _ rest => rest.interiors
  | delimited _ _ interior _ inside rest =>
      (interior, inside) :: (inside.interiors ++ rest.interiors)
  | closed _ _ inside _ rest => inside.interiors ++ rest.interiors
  | unclosed _ _ inside => inside.interiors

/-- Without notes, markers are well nested. -/
theorem nested_of_notes {group : Grouping} (h : group.notes = []) :
    Nested (markers group.spans) := by
  induction group with
  | nil => exact .nil
  | leaf kind text rest ih => exact ih h
  | stray kind text rest ih => simp [notes] at h
  | delimited kind opening interior closing inside rest ihInside ihRest =>
      exact ihRest (List.append_eq_nil_iff.1 h).2
  | closed kind opening inside closing rest ihInside ihRest =>
      obtain ⟨hinside, hrest⟩ := List.append_eq_nil_iff.1 h
      rw [spans, markers_opener, markers_append, markers_closer]
      exact .pair (ihInside hinside) (ihRest hrest)
  | unclosed kind opening inside ih => simp [notes] at h

/-- If each closer closes the innermost open container, none is stray, and nothing is reported
as long as all containers are closed. -/
theorem notes_of_stackAfter {group : Grouping} {stack : List Kind}
    (hsound : group.Sound table text stack)
    (hinteriors : ∀ part ∈ group.interiors, Nested (markers part.2.spans)) {rest : List Span}
    (h : stackAfter stack (group.spans ++ rest) ≠ none) :
    stackAfter stack (group.spans ++ rest) = stackAfter (group.tail ++ stack) rest
      ∧ (group.tail = [] → group.notes = []) := by
  induction group generalizing stack rest with
  | nil => exact ⟨rfl, fun _ => rfl⟩
  | leaf kind text after ih => exact ih hsound hinteriors h
  | stray kind text after ih =>
      refine absurd ?_ h
      cases stack with
      | nil => rfl
      | cons top stack =>
          have htop : top ≠ kind := fun heq => hsound.1 (heq ▸ List.mem_cons_self)
          rw [spans, List.cons_append, stackAfter, if_neg htop]
  | delimited kind opening interior closing inside after ihInside ihAfter =>
      obtain ⟨_, hsoundInside, hsoundAfter⟩ := hsound
      have hnested : stackAfter [] (inside.spans ++ []) = some [] := by
        rw [List.append_nil, ← stackAfter_markers, ← List.append_nil (markers _)]
        exact (hinteriors _ List.mem_cons_self).stackAfter_append [] []
      obtain ⟨hstack, hnotes⟩ := ihInside hsoundInside
        (fun part hpart => hinteriors part (by simp [interiors, hpart]))
        (by rw [hnested]; simp)
      rw [hnested, stackAfter, List.append_nil] at hstack
      obtain ⟨hafter, hnotesAfter⟩ := ihAfter hsoundAfter
        (fun part hpart => hinteriors part (by simp [interiors, hpart])) h
      refine ⟨hafter, fun htail => ?_⟩
      rw [notes, hnotes (by simpa using hstack.symm), hnotesAfter htail]
      rfl
  | closed kind opening inside closing after ihInside ihAfter =>
      obtain ⟨hkind, hsoundInside, hsoundAfter⟩ := hsound
      have hspans : (closed kind opening inside closing after).spans ++ rest =
          .opener kind opening :: (inside.spans ++ .closer kind closing :: (after.spans ++ rest)) := by
        simp [spans]
      rw [hspans, stackAfter] at h ⊢
      obtain ⟨hstack, hnotes⟩ := ihInside hsoundInside
        (fun part hpart => hinteriors part (by simp [interiors, hpart])) h
      rw [hstack] at h ⊢
      -- what is open inside would have to be closed first
      have htail : inside.tail = [] := by
        cases hopen : inside.tail with
        | nil => rfl
        | cons top below =>
            rw [hopen, List.cons_append, stackAfter] at h
            have htop : top ≠ kind := fun heq => hkind (by simp [hopen, heq])
            exact absurd (if_neg htop) h
      rw [htail, List.nil_append, stackAfter, if_pos rfl] at h ⊢
      obtain ⟨hafter, hnotesAfter⟩ := ihAfter hsoundAfter
        (fun part hpart => hinteriors part (by simp [interiors, hpart])) h
      refine ⟨hafter, fun htailAfter => ?_⟩
      rw [notes, hnotes htail, hnotesAfter htailAfter]
      rfl
  | unclosed kind opening inside ih =>
      obtain ⟨hstack, _⟩ := ih hsound hinteriors h
      refine ⟨?_, fun htail => by simp [tail] at htail⟩
      rw [tail, List.append_assoc]
      exact hstack

/-- Where all markers are well nested, nothing is reported. -/
theorem notes_eq_nil {group : Grouping} (hsound : group.Sound table text [])
    (h : Nested (markers group.spans))
    (hinteriors : ∀ part ∈ group.interiors, Nested (markers part.2.spans)) : group.notes = [] := by
  have hstack : stackAfter [] (group.spans ++ []) = some [] := by
    rw [List.append_nil, ← stackAfter_markers, ← List.append_nil (markers _)]
    exact h.stackAfter_append [] []
  obtain ⟨htail, hnotes⟩ := notes_of_stackAfter hsound hinteriors (by rw [hstack]; simp)
  rw [hstack, stackAfter, List.append_nil] at htail
  exact hnotes (by simpa using htail.symm)

/-! ## Containers of a grouping -/

/-- A container of a paired kind: its markers, as far as it has them, and where it ends. -/
structure Box where
  kind : Kind
  opening : Fragment
  closing? : Option Fragment
  stop : Nat

/-- The containers of a grouping, where what is still open ends at `stop`. -/
def boxes : Grouping → Nat → List Box
  | nil, _ => []
  | leaf _ _ rest, stop | stray _ _ rest, stop | delimited _ _ _ _ _ rest, stop => rest.boxes stop
  | closed kind opening inside closing rest, stop =>
      ⟨kind, opening, some closing, closing.stop⟩
        :: (inside.boxes closing.start ++ rest.boxes stop)
  | unclosed kind opening inside, stop => ⟨kind, opening, none, stop⟩ :: inside.boxes stop

/-- The closers that close nothing. -/
def strays : Grouping → List (Kind × Fragment)
  | nil => []
  | leaf _ _ rest | delimited _ _ _ _ _ rest => rest.strays
  | stray kind text rest => (kind, text) :: rest.strays
  | closed _ _ inside _ rest => inside.strays ++ rest.strays
  | unclosed _ _ inside => inside.strays

/-- Whether the markers of a grouping, and of the interiors in it, follow one another from `start`
to `stop`. -/
def Placed : Grouping → Nat → Nat → Prop
  | nil, start, stop => start ≤ stop
  | leaf _ text rest, start, stop => start ≤ text.start ∧ rest.Placed text.stop stop
  | stray _ text rest, start, stop =>
      start ≤ text.start ∧ text.start < text.stop ∧ rest.Placed text.stop stop
  | delimited _ opening interior closing inside rest, start, stop =>
      start ≤ opening.start ∧ opening.start < interior.start
        ∧ inside.Placed interior.start interior.stop ∧ interior.stop ≤ closing.stop
        ∧ rest.Placed closing.stop stop
  | closed _ opening inside closing rest, start, stop =>
      start ≤ opening.start ∧ opening.start < opening.stop
        ∧ inside.Placed opening.stop closing.start ∧ closing.start < closing.stop
        ∧ rest.Placed closing.stop stop
  | unclosed _ opening inside, start, stop =>
      start ≤ opening.start ∧ opening.start < opening.stop ∧ inside.Placed opening.stop stop

theorem placed_of_chain {group : Grouping} {around : List Kind} {start stop : Nat}
    (hsound : group.Sound table text around)
    (hchain : Chain text start (group.spans.flatMap Span.fragments) stop)
    (hmarked : ∀ span ∈ group.spans, span.Marked) : group.Placed start stop := by
  induction group generalizing around start stop with
  | nil => exact Nat.le_of_eq hchain
  | leaf kind leaf rest ih =>
      rw [spans, List.forall_mem_cons] at hmarked
      obtain ⟨rfl, _, hrest⟩ := hchain
      exact ⟨Nat.le_refl _, ih hsound hrest hmarked.2⟩
  | stray kind closing rest ih =>
      rw [spans, List.forall_mem_cons] at hmarked
      obtain ⟨rfl, _, hrest⟩ := hchain
      exact ⟨Nat.le_refl _, Fragment.start_lt_stop hmarked.1, ih hsound.2 hrest hmarked.2⟩
  | delimited kind opening interior closing inside rest ihInside ihRest =>
      obtain ⟨hinside, hsoundInside, hsoundRest⟩ := hsound
      rw [spans, List.forall_mem_cons] at hmarked
      obtain ⟨rfl, _, hmiddle, hinterior, hend, _, hrest⟩ := hchain
      have hchainInside := hinside ▸ table.chain_scanInterior kind hinterior
      have hmarkedInside := hinside ▸ table.marked_scanInterior text kind interior
      have hopening := Fragment.start_lt_stop hmarked.1
      have hclosing : closing.start ≤ closing.stop := Nat.le_add_right _ _
      exact ⟨Nat.le_refl _, hmiddle ▸ hopening, ihInside hsoundInside hchainInside hmarkedInside,
        hend ▸ hclosing, ihRest hsoundRest hrest hmarked.2⟩
  | closed kind opening inside closing rest ihInside ihRest =>
      rw [spans, List.forall_mem_cons, List.forall_mem_append, List.forall_mem_cons] at hmarked
      obtain ⟨hopening, hinside, hclosing, hrest⟩ := hmarked
      simp only [spans, List.flatMap_cons, List.flatMap_append, Span.fragments, List.cons_append,
        List.nil_append] at hchain
      obtain ⟨rfl, _, hafter⟩ := hchain
      obtain ⟨middle, hchainInside, rfl, _, hchainRest⟩ := chain_append.1 hafter
      exact ⟨Nat.le_refl _, Fragment.start_lt_stop hopening,
        ihInside hsound.2.1 hchainInside hinside, Fragment.start_lt_stop hclosing,
        ihRest hsound.2.2 hchainRest hrest⟩
  | unclosed kind opening inside ih =>
      rw [spans, List.forall_mem_cons] at hmarked
      obtain ⟨rfl, _, hinside⟩ := hchain
      exact ⟨Nat.le_refl _, Fragment.start_lt_stop hmarked.1, ih hsound hinside hmarked.2⟩

theorem Placed.le {group : Grouping} {start stop : Nat} (h : group.Placed start stop) :
    start ≤ stop := by
  induction group generalizing start stop with
  | nil => exact h
  | leaf kind text rest ih =>
      have hrest := ih h.2
      have htext : text.start ≤ text.stop := Nat.le_add_right _ _
      have hfirst := h.1
      omega
  | stray kind text rest ih =>
      obtain ⟨hfirst, htext, hrest⟩ := h
      have hle := ih hrest
      omega
  | delimited kind opening interior closing inside rest ihInside ihRest =>
      obtain ⟨hfirst, hopening, hinside, hclosing, hrest⟩ := h
      have hleInside := ihInside hinside
      have hleRest := ihRest hrest
      omega
  | closed kind opening inside closing rest ihInside ihRest =>
      obtain ⟨hfirst, hopening, hinside, hclosing, hrest⟩ := h
      have hleInside := ihInside hinside
      have hleRest := ihRest hrest
      omega
  | unclosed kind opening inside ih =>
      obtain ⟨hfirst, hopening, hinside⟩ := h
      have hle := ih hinside
      omega

/-- Where the markers stand that are paired, those of the interiors included. -/
def matched : Grouping → List Nat
  | nil => []
  | leaf _ _ rest | stray _ _ rest => rest.matched
  | delimited _ _ _ _ inside rest => inside.matched ++ rest.matched
  | closed _ opening inside closing rest =>
      opening.start :: (inside.matched ++ closing.start :: rest.matched)
  | unclosed _ _ inside => inside.matched

/-- How often a place is that of a paired marker or of a note. -/
def uses (group : Grouping) (place : Nat) : Nat :=
  group.matched.count place + (group.notes.map (·.range.start)).count place

theorem Placed.of_box {group : Grouping} {start stop : Nat} (h : group.Placed start stop)
    {box : Box} (hbox : box ∈ group.boxes stop) :
    start ≤ box.opening.start ∧ box.opening.start < box.opening.stop
      ∧ box.opening.start < box.stop ∧ box.stop ≤ stop := by
  induction group generalizing start stop with
  | nil => simp [boxes] at hbox
  | leaf kind text rest ih =>
      have hrest := ih h.2 hbox
      have htext : text.start ≤ text.stop := Nat.le_add_right _ _
      have hfirst := h.1
      omega
  | stray kind text rest ih =>
      obtain ⟨hfirst, htext, hafter⟩ := h
      have hrest := ih hafter hbox
      omega
  | delimited kind opening interior closing inside rest ihInside ihRest =>
      obtain ⟨hfirst, hopening, hplaced, hclosing, hafter⟩ := h
      have hrest := ihRest hafter hbox
      have hleInside := hplaced.le
      omega
  | closed kind opening inside closing rest ihInside ihRest =>
      obtain ⟨hfirst, hopening, hplaced, hclosing, hafter⟩ := h
      have hleInside := hplaced.le
      have hleRest := hafter.le
      rw [boxes, List.mem_cons, List.mem_append] at hbox
      rcases hbox with rfl | hbox | hbox
      · dsimp only
        omega
      · have hinside := ihInside hplaced hbox
        omega
      · have hrest := ihRest hafter hbox
        omega
  | unclosed kind opening inside ih =>
      obtain ⟨hfirst, hopening, hplaced⟩ := h
      have hle := hplaced.le
      rcases List.mem_cons.1 hbox with rfl | hbox
      · dsimp only
        omega
      · have hinside := ih hplaced hbox
        omega

theorem Placed.of_stray {group : Grouping} {start stop : Nat} (h : group.Placed start stop)
    {kind : Kind} {closing : Fragment} (hstray : (kind, closing) ∈ group.strays) :
    start ≤ closing.start ∧ closing.start < closing.stop ∧ closing.stop ≤ stop := by
  induction group generalizing start stop with
  | nil => simp [strays] at hstray
  | leaf kind text rest ih =>
      have hrest := ih h.2 hstray
      have htext : text.start ≤ text.stop := Nat.le_add_right _ _
      have hfirst := h.1
      omega
  | stray kind text rest ih =>
      obtain ⟨hfirst, htext, hafter⟩ := h
      have hle := hafter.le
      rcases List.mem_cons.1 hstray with heq | hstray
      · obtain ⟨rfl, rfl⟩ := Prod.mk.inj heq
        omega
      · have hrest := ih hafter hstray
        omega
  | delimited kind opening interior closing inside rest ihInside ihRest =>
      obtain ⟨hfirst, hopening, hplaced, hclosing, hafter⟩ := h
      have hrest := ihRest hafter hstray
      have hleInside := hplaced.le
      omega
  | closed kind opening inside closing rest ihInside ihRest =>
      obtain ⟨hfirst, hopening, hplaced, hclosing, hafter⟩ := h
      have hleInside := hplaced.le
      have hleRest := hafter.le
      rcases List.mem_append.1 hstray with hstray | hstray
      · have hinside := ihInside hplaced hstray
        omega
      · have hrest := ihRest hafter hstray
        omega
  | unclosed kind opening inside ih =>
      obtain ⟨hfirst, hopening, hplaced⟩ := h
      have hinside := ih hplaced hstray
      omega

theorem Sound.of_stray {group : Grouping} {around : List Kind}
    (h : group.Sound table text around) {kind : Kind} {closing : Fragment}
    (hstray : (kind, closing) ∈ group.strays) : kind ∉ around := by
  induction group generalizing around with
  | nil => simp [strays] at hstray
  | leaf kind text rest ih => exact ih h hstray
  | stray kind text rest ih =>
      rcases List.mem_cons.1 hstray with heq | hstray
      · obtain ⟨rfl, rfl⟩ := Prod.mk.inj heq
        exact h.1
      · exact ih h.2 hstray
  | delimited kind opening interior closing inside rest ihInside ihRest =>
      exact ihRest h.2.2 hstray
  | closed kind opening inside closing rest ihInside ihRest =>
      rcases List.mem_append.1 hstray with hstray | hstray
      · exact fun hmem => ihInside h.2.1 hstray (List.mem_cons_of_mem _ hmem)
      · exact ihRest h.2.2 hstray
  | unclosed kind opening inside ih =>
      exact fun hmem => ih h hstray (List.mem_cons_of_mem _ hmem)

/-- A closer that closes nothing is in no container of its kind. -/
theorem apart {group : Grouping} {around : List Kind} (hsound : group.Sound table text around)
    {start stop : Nat} (hplaced : group.Placed start stop) {box : Box}
    (hbox : box ∈ group.boxes stop) {closing : Fragment}
    (hstray : (box.kind, closing) ∈ group.strays) :
    box.stop ≤ closing.start ∨ closing.stop ≤ box.opening.start := by
  induction group generalizing around start stop with
  | nil => simp [boxes] at hbox
  | leaf kind text rest ih => exact ih hsound hplaced.2 hbox hstray
  | stray kind text rest ih =>
      obtain ⟨hfirst, htext, hafter⟩ := hplaced
      rcases List.mem_cons.1 hstray with heq | hstray
      · obtain ⟨hkind, rfl⟩ := Prod.mk.inj heq
        exact .inr (hafter.of_box hbox).1
      · exact ih hsound.2 hafter hbox hstray
  | delimited kind opening interior closing inside rest ihInside ihRest =>
      exact ihRest hsound.2.2 hplaced.2.2.2.2 hbox hstray
  | closed kind opening inside closing rest ihInside ihRest =>
      obtain ⟨_, _, hinside, hclosing, hafter⟩ := hplaced
      obtain ⟨_, hsoundInside, hsoundRest⟩ := hsound
      rw [boxes, List.mem_cons, List.mem_append] at hbox
      rw [strays, List.mem_append] at hstray
      rcases hstray with hstray | hstray
      · have hplace := hinside.of_stray hstray
        rcases hbox with rfl | hbox | hbox
        · exact absurd List.mem_cons_self (hsoundInside.of_stray hstray)
        · exact ihInside hsoundInside hinside hbox hstray
        · have hbegin := (hafter.of_box hbox).1
          omega
      · have hplace := (hafter.of_stray hstray).1
        rcases hbox with rfl | hbox | hbox
        · exact .inl hplace
        · have hend := (hinside.of_box hbox).2.2.2
          omega
        · exact ihRest hsoundRest hafter hbox hstray
  | unclosed kind opening inside ih =>
      obtain ⟨_, _, hinside⟩ := hplaced
      have hsoundInside : inside.Sound table text (kind :: around) := hsound
      rcases List.mem_cons.1 hbox with rfl | hbox
      · exact absurd List.mem_cons_self (hsoundInside.of_stray hstray)
      · exact ih hsoundInside hinside hbox hstray

end Grouping

end ConcreteSyntax
