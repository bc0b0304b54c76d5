import ConcreteSyntax.Analysis.Action
import ConcreteSyntax.Proofs.Analysis.Scene

/-!
# Plans of rules

A `Plan` says what a rule does as a function of what it sees: the kind of the run, and the
number of significant siblings in it.  A rule that reads its siblings as a plan does
(`Rule.Reads`) never breaks and finishes every marker, and trivia and comments cannot
influence it.
-/

namespace ConcreteSyntax

/-- What a rule sees from its anchor. -/
structure Scene where
  /-- The kind of the parent. -/
  parent : Kind
  /-- The kind of the nearest significant sibling before the anchor. -/
  previous : Option Kind
  /-- The kinds of the significant siblings from the anchor on. -/
  kinds : List Kind
  /-- The text of the first of them. -/
  text? : Option (List Char)
  /-- The kinds of the significant children of the first of them. -/
  inner : List Kind
deriving DecidableEq

namespace Scene

/-- What a rule sees inside a new node of a kind over the first `n` siblings. -/
def within (scene : Scene) (kind : Kind) (n : Nat) : Scene :=
  { scene with parent := kind, previous := none, kinds := scene.kinds.take n }

end Scene

namespace Lookahead

/-- What a rule sees at a place. -/
def scene (look : Lookahead) : Scene where
  parent := look.parent
  previous := look.previous?
  kinds := look.kinds
  text? := look.text?
  inner := (look.node?.map fun node => node.significantChildren.map (·.kind)).getD []

/-- The run of the next `n` significant siblings. -/
def runOf (look : Lookahead) (n : Nat) (kind : Kind) : Match :=
  (look.past n).run look.startIndex kind

end Lookahead

/-- The kind of the run that a rule finds, and the number of significant siblings in it. -/
abbrev Plan := Scene → Option (Kind × Nat)

namespace Plan

/-- A sound plan takes siblings that are there, makes nodes of kinds that only analysis
makes, and inside a new node over the same siblings finds the whole run again only as a
node of the same kind. -/
structure Sound (plan : Plan) : Prop where
  pos : ∀ {scene kind n}, plan scene = some (kind, n) → 0 < n
  le : ∀ {scene kind n}, plan scene = some (kind, n) → n ≤ scene.kinds.length
  synthesized : ∀ {scene kind n},
    plan scene = some (kind, n) → KindSet.synthesized.contains kind = true
  steady : ∀ {scene kind other n}, plan scene = some (kind, n) →
    plan (scene.within kind n) = some (other, n) → other = kind

/-- The plan that never finds anything. -/
def nothing : Plan := fun _ => none

/-- The plan that does what `choose` makes of the first kind. -/
def dispatch (choose : Option Kind → Plan) : Plan := fun scene => choose scene.kinds.head? scene

/-- The plan that finds something only where `test` holds. -/
def guarded (test : Scene → Bool) (plan : Plan) : Plan := fun scene =>
  if test scene then plan scene else none

theorem sound_nothing : Sound nothing := by
  constructor <;> simp [nothing]

/-- A plan that makes nodes of one kind only is steady. -/
theorem sound_of_kind {plan : Plan} (kind : Kind)
    (hkind : KindSet.synthesized.contains kind = true)
    (h : ∀ {scene found n}, plan scene = some (found, n) →
      found = kind ∧ 0 < n ∧ n ≤ scene.kinds.length) : Sound plan where
  pos hplan := (h hplan).2.1
  le hplan := (h hplan).2.2
  synthesized hplan := (h hplan).1 ▸ hkind
  steady hplan hwithin := by rw [(h hplan).1, (h hwithin).1]

/-- A new node begins with the same sibling as its run, so the same plan is chosen in it. -/
theorem sound_dispatch {choose : Option Kind → Plan} (h : ∀ head, Sound (choose head)) :
    Sound (dispatch choose) where
  pos hplan := (h _).pos hplan
  le hplan := (h _).le hplan
  synthesized hplan := (h _).synthesized hplan
  steady {scene kind other n} hplan hwithin := by
    have hhead : (scene.within kind n).kinds.head? = scene.kinds.head? := by
      have hpos := (h _).pos hplan
      simp [Scene.within, List.head?_take, Nat.ne_of_gt hpos]
    unfold dispatch at hplan hwithin
    rw [hhead] at hwithin
    exact (h _).steady hplan hwithin

theorem sound_guarded {plan : Plan} (test : Scene → Bool) (h : Sound plan) :
    Sound (guarded test plan) := by
  have hplan : ∀ {scene kind n}, guarded test plan scene = some (kind, n) →
      plan scene = some (kind, n) := by
    intro scene kind n hguarded
    unfold guarded at hguarded
    split at hguarded
    · exact hguarded
    · simp at hguarded
  exact {
    pos := fun hfound => h.pos (hplan hfound)
    le := fun hfound => h.le (hplan hfound)
    synthesized := fun hfound => h.synthesized (hplan hfound)
    steady := fun hfound hwithin => h.steady (hplan hfound) (hplan hwithin) }

end Plan

namespace Rule

/-- Whether a rule does at a place what a plan says. -/
def ReadsAt (rule : Rule) (plan : Plan) (look : Lookahead) : Prop :=
  rule.outcome look = .ok ((plan look.scene).map fun (kind, n) => look.runOf n kind)

/-- Whether a rule does everywhere what a plan says. -/
def Reads (rule : Rule) (plan : Plan) : Prop := ∀ look, rule.ReadsAt plan look

theorem outcome_place (next : Lookahead → Rule) (look : Lookahead) :
    Rule.outcome (Action.place >>= next) look = (next look).outcome look := rfl

theorem reads_nothing : Reads (return none) .nothing := fun _ => rfl

/-- A rule that looks at the first kind only to choose how to go on. -/
theorem reads_dispatch {next : Option Kind → Rule} {choose : Option Kind → Plan}
    (h : ∀ look : Lookahead, (next look.kinds.head?).ReadsAt (choose look.kinds.head?) look) :
    Reads (Action.place >>= fun look => next look.current?) (.dispatch choose) := by
  intro look
  unfold ReadsAt
  rw [outcome_place, Lookahead.current?_eq]
  exact h look

/-- A rule that goes on only where a test holds. -/
theorem reads_guarded {rule : Rule} {plan : Plan} (test : Lookahead → Bool)
    {sees : Scene → Bool} (hsees : ∀ look, sees look.scene = test look)
    (h : ∀ look, test look = true → rule.ReadsAt plan look) :
    Reads (Action.place >>= fun look => if test look then rule else return none)
      (.guarded sees plan) := by
  intro look
  unfold ReadsAt Plan.guarded
  rw [outcome_place, hsees]
  split
  · exact h look ‹_›
  · rfl

theorem Reads.found?_eq {rule : Rule} {plan : Plan} (h : rule.Reads plan) (look : Lookahead) :
    rule.found? look = (plan look.scene).map fun (kind, n) => look.runOf n kind := by
  have houtcome : rule.outcome look = _ := h look
  simp [found?, houtcome]

/-- What a rule finds is of a kind of analysis. -/
theorem Reads.synthesized {rule : Rule} {plan : Plan} (h : rule.Reads plan) (hplan : plan.Sound)
    {look : Lookahead} {found : Match} (hfound : rule.found? look = some found) :
    KindSet.synthesized.contains found.kind = true := by
  rw [h.found?_eq, Option.map_eq_some_iff] at hfound
  obtain ⟨⟨kind, n⟩, hplanned, rfl⟩ := hfound
  exact hplan.synthesized hplanned

end Rule

namespace Action

variable {α β : Type}

theorem run_bind (action : Action α) (next : α → Action β) (attempt : Attempt) :
    (action >>= next).run attempt =
      match action.run attempt with
      | .ok value after => (next value).run after
      | .error fault after => .error fault after := by
  change EStateM.bind action next attempt = _
  unfold EStateM.bind EStateM.run
  cases action attempt <;> rfl

theorem run_map (f : α → β) (action : Action α) (attempt : Attempt) :
    (f <$> action).run attempt =
      match action.run attempt with
      | .ok value after => .ok (f value) after
      | .error fault after => .error fault after := by
  change EStateM.map f action attempt = _
  unfold EStateM.map EStateM.run
  cases action attempt <;> rfl

theorem run_pure (value : α) (attempt : Attempt) :
    (pure value : Action α).run attempt = .ok value attempt := rfl

theorem run_place (attempt : Attempt) : place.run attempt = .ok attempt.look attempt := rfl

theorem run_isAt (kind : Kind) (attempt : Attempt) :
    (isAt kind).run attempt = .ok (attempt.look.isAt kind) attempt := rfl

theorem run_isAtAny (kinds : KindSet) (attempt : Attempt) :
    (isAtAny kinds).run attempt = .ok (attempt.look.isAtAny kinds) attempt := rfl

theorem run_moveTo (look : Lookahead) (attempt : Attempt) :
    (moveTo look).run attempt = .ok () { attempt with look } := rfl

theorem run_tryTo (found : Option Lookahead) (attempt : Attempt) :
    (tryTo found).run attempt =
      .ok found.isSome { attempt with look := found.getD attempt.look } := by
  cases found <;> rfl

theorem run_advance (attempt : Attempt) :
    advance.run attempt = .ok () { attempt with look := attempt.look.past 1 } := rfl

theorem run_eat (kind : Kind) (attempt : Attempt) :
    (eat kind).run attempt =
      .ok (attempt.look.kinds.head? == some kind)
        { attempt with
          look := if attempt.look.kinds.head? = some kind then attempt.look.past 1
            else attempt.look } := by
  rw [eat, run_bind, run_place]
  dsimp only
  rw [run_tryTo, Lookahead.eat?_eq]
  split <;> simp_all

theorem run_start (attempt : Attempt) :
    start.run attempt =
      .ok ⟨attempt.look.startIndex⟩ { attempt with markers := attempt.markers + 1 } := rfl

theorem run_complete (marker : Marker) (kind : Kind) (attempt : Attempt) :
    (complete marker kind).run attempt =
      .ok (attempt.look.run marker.start kind)
        { attempt with markers := attempt.markers - 1 } := rfl

theorem run_abandon (marker : Marker) (attempt : Attempt) :
    (abandon marker).run attempt = .ok () { attempt with markers := attempt.markers - 1 } :=
  rfl

theorem run_finish (marker : Marker) (kind : Option Kind) (attempt : Attempt) :
    (finish marker kind).run attempt =
      .ok (kind.map (attempt.look.run marker.start))
        { attempt with markers := attempt.markers - 1 } := by
  cases kind <;> rfl

end Action

/-! ## Moves over many siblings -/

namespace Plan

/-- The number of kinds up to the first `stop`, if all kinds before it are allowed. -/
def through (stop : Kind) (allowed : Kind → Bool) : List Kind → Option Nat
  | [] => none
  | kind :: rest =>
      if kind = stop then some 1
      else if allowed kind then (through stop allowed rest).map (· + 1)
      else none

/-- The number of kinds in front that are allowed. -/
def countWhile (allowed : Kind → Bool) (kinds : List Kind) : Nat :=
  (kinds.takeWhile allowed).length

/-- A run that begins `n` siblings earlier. -/
def shift (n : Nat) (found : Kind × Nat) : Kind × Nat := (found.1, n + found.2)

variable {stop : Kind} {allowed : Kind → Bool} {kinds : List Kind} {n : Nat}

/-- Kinds up to the first `stop`, all of them allowed. -/
theorem through_append {stop : Kind} (allowed : Kind → Bool) {front : List Kind}
    (h : ∀ kind ∈ front, kind ≠ stop ∧ allowed kind = true) (rest : List Kind) :
    through stop allowed (front ++ stop :: rest) = some (front.length + 1) := by
  induction front with
  | nil => simp [through]
  | cons kind front ih =>
      rw [List.forall_mem_cons] at h
      rw [List.cons_append, through, if_neg h.1.1, if_pos h.1.2, ih h.2]
      rfl

theorem through_eq_some_iff : through stop allowed kinds = some n ↔
    ∃ front behind, kinds = front ++ stop :: behind ∧ n = front.length + 1
      ∧ ∀ kind ∈ front, kind ≠ stop ∧ allowed kind = true := by
  constructor
  · intro h
    induction kinds generalizing n with
    | nil => cases h
    | cons kind rest ih =>
        rw [through] at h
        split at h
        · rename_i hkind
          obtain rfl := Option.some.inj h
          exact ⟨[], rest, by rw [hkind]; rfl, rfl, by simp⟩
        · rename_i hkind
          split at h
          · rename_i hallowed
            obtain ⟨m, hm, rfl⟩ := Option.map_eq_some_iff.1 h
            obtain ⟨front, behind, rfl, rfl, hfront⟩ := ih hm
            exact ⟨kind :: front, behind, rfl, rfl,
              List.forall_mem_cons.2 ⟨⟨hkind, hallowed⟩, hfront⟩⟩
          · cases h
  · rintro ⟨front, behind, rfl, rfl, hfront⟩
    exact through_append allowed hfront behind

theorem through_pos (h : through stop allowed kinds = some n) : 0 < n := by
  obtain ⟨front, behind, -, rfl, -⟩ := through_eq_some_iff.1 h
  exact Nat.succ_pos _

theorem through_le (h : through stop allowed kinds = some n) : n ≤ kinds.length := by
  obtain ⟨front, behind, rfl, rfl, -⟩ := through_eq_some_iff.1 h
  rw [List.length_append, List.length_cons]
  omega

theorem countWhile_le (allowed : Kind → Bool) (kinds : List Kind) :
    countWhile allowed kinds ≤ kinds.length :=
  (List.takeWhile_prefix allowed).length_le

end Plan

namespace Lookahead

theorem eatThrough?_eq (look : Lookahead) (stop : Kind) (allowed : Kind → Bool) :
    look.eatThrough? stop allowed = (Plan.through stop allowed look.kinds).map look.past := by
  fun_induction eatThrough? look stop allowed with
  | case1 look h =>
      rw [isAt, beq_iff_eq] at h
      rw [kinds_eq_cons h]
      simp [Plan.through, past_one]
  | case2 look hstop hallowed ih =>
      obtain ⟨kind, hkinds, hkind⟩ := exists_kinds_eq_cons hallowed
      have hne : kind ≠ stop := by
        rintro rfl
        rw [isAt_eq, hkinds] at hstop
        simp at hstop
      rw [ih, hkinds, Plan.through, if_neg hne, if_pos hkind]
      simp [Function.comp_def, past_succ]
  | case3 look hstop hallowed =>
      cases hcurrent : look.current? with
      | none => simp [kinds_eq_nil hcurrent, Plan.through]
      | some kind =>
          rw [kinds_eq_cons hcurrent]
          simp_all [Plan.through, isAt]

theorem skipWhile_eq (look : Lookahead) (allowed : Kind → Bool) :
    look.skipWhile allowed = look.past (Plan.countWhile allowed look.kinds) := by
  fun_induction skipWhile look allowed with
  | case1 look h ih =>
      obtain ⟨kind, hkinds, hkind⟩ := exists_kinds_eq_cons h
      rw [ih, hkinds]
      simp [Plan.countWhile, hkind, past_succ]
  | case2 look h =>
      cases hcurrent : look.current? with
      | none => simp [kinds_eq_nil hcurrent, Plan.countWhile]
      | some kind =>
          rw [kinds_eq_cons hcurrent]
          simp_all [Plan.countWhile]

end Lookahead

namespace Action

theorem run_eatThrough (stop : Kind) (allowed : Kind → Bool) (attempt : Attempt) :
    (eatThrough stop allowed).run attempt =
      .ok (Plan.through stop allowed attempt.look.kinds).isSome
        { attempt with
          look := attempt.look.past ((Plan.through stop allowed attempt.look.kinds).getD 0) } := by
  rw [eatThrough, run_bind, run_place]
  dsimp only
  rw [run_tryTo, Lookahead.eatThrough?_eq]
  cases Plan.through stop allowed attempt.look.kinds <;> rfl

theorem run_skipWhile (allowed : Kind → Bool) (attempt : Attempt) :
    (skipWhile allowed).run attempt =
      .ok () { attempt with
        look := attempt.look.past (Plan.countWhile allowed attempt.look.kinds) } := by
  rw [skipWhile, run_bind, run_place]
  dsimp only
  rw [run_moveTo, Lookahead.skipWhile_eq]

end Action

end ConcreteSyntax
