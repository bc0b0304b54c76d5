import ConcreteSyntax.CFamily.Calls
import ConcreteSyntax.Proofs.CFamily.Declarations

/-!
# What the rules for calls find

Plans of the rules for calls, for message sends, and for the literals of Objective-C.
-/

namespace ConcreteSyntax.CFamily

open Action Plan

/-! ## Calls -/

/-- The number of siblings of the further parts of a member chain. -/
def membersLength : List Kind → Nat
  | mark :: name :: rest =>
      if memberAccess.contains mark && callees.contains name then membersLength rest + 2 else 0
  | _ => 0

/-- `name(...)`, `object.method(...)` or `space::name(...)`. -/
def callPlan : Plan :=
  .guarded
    (fun scene => scene.kinds.head?.any callees.contains && !withoutCalls.contains scene.parent
      && !scene.previous.any memberAccess.contains)
    fun scene =>
      let called := 1 + membersLength scene.kinds.tail
      if scene.kinds[called]? = some .parenthesis then some (.functionCall, called + 1) else none

theorem skipMembers_eq (look : Lookahead) :
    skipMembers look = look.past (membersLength look.kinds) := by
  fun_induction skipMembers look with
  | case1 look h ih =>
      rw [Lookahead.isAtAny_eq, Lookahead.nth?_eq] at h
      cases hkinds : look.kinds with
      | nil => simp [hkinds] at h
      | cons mark rest =>
          cases rest with
          | nil => simp [hkinds] at h
          | cons name rest =>
              simp only [hkinds, List.head?_cons, Option.any_some, List.getElem?_cons_succ,
                List.getElem?_cons_zero] at h
              rw [ih, membersLength, if_pos h]
              simp [hkinds, Lookahead.past_succ]
  | case2 look h =>
      rw [Lookahead.isAtAny_eq, Lookahead.nth?_eq] at h
      have hnone : membersLength look.kinds = 0 := by
        unfold membersLength
        split
        · rename_i mark name rest hkinds
          rw [if_neg]
          simpa [hkinds] using h
        · rfl
      rw [hnone]
      rfl

theorem reads_call : call.Reads callPlan := by
  refine Rule.reads_guarded mayCall ?_ fun look _ => ?_
  · intro look
    rw [mayCall, Lookahead.isAtAny_eq]
    rfl
  · simp only [Rule.ReadsAt, Rule.outcome, run_bind, run_start, run_advance, run_place,
      run_moveTo, run_eat, run_finish, skipMembers_eq]
    simp only [Lookahead.scene, Lookahead.runOf]
    by_cases h : look.kinds[1 + membersLength look.kinds.tail]? = some .parenthesis <;> simp [h]

theorem sound_call : Sound callPlan := by
  refine sound_guarded _ (sound_of_kind .functionCall (by decide) fun {scene found n} h => ?_)
  dsimp only at h
  split at h
  · rename_i hcalled
    obtain ⟨hlength, _⟩ := List.getElem?_eq_some_iff.1 hcalled
    simp only [Option.some.injEq, Prod.mk.injEq] at h
    exact ⟨h.1.symm, by omega, by omega⟩
  · simp at h

/-! ## Messages -/

/-- Passes over the further parts of a member chain, each after its dot or arrow. -/
def dropMemberKinds : List Kind → List Kind
  | [] => []
  | [part] => if part = .dot ∨ part = .arrow then [] else [part]
  | part :: next :: rest =>
      if part = .dot ∨ part = .arrow then dropMemberKinds rest else part :: next :: rest

/-- Whether brackets hold a receiver and then a word, and do not follow something that they
could be a subscript of. -/
def seesMessage (scene : Scene) : Bool :=
  !scene.previous.any subscripted.contains
    && (dropMemberKinds ((scene.inner.filter (· != .delimiter)).drop 1)).head? == some .text

/-- Brackets that are a message send. -/
def bracketedPlan : Plan := fun scene =>
  if seesMessage scene ∧ scene.kinds ≠ [] then some (.objcMethodCall, 1) else none

/-- The plan for what a call begins with. -/
def callAtPlan : Option Kind → Plan
  | none => .nothing
  | some .atSelectorKw => wordWithArgumentPlan .objcSelector
  | some .atEncodeKw => wordWithArgumentPlan .objcEncode
  | some .brackets => bracketedPlan
  | some _ => callPlan

/-- Message sends, selector and encoding literals, and calls. -/
def messagesPlan : Plan := .dispatch callAtPlan

theorem map_dropMembers (parts : List Node) :
    (dropMembers parts).map (·.kind) = dropMemberKinds (parts.map (·.kind)) := by
  fun_induction dropMembers parts with
  | case1 => rfl
  | case2 part h => simp_all [isChainMark, dropMemberKinds]
  | case3 part h => simp_all [isChainMark, dropMemberKinds]
  | case4 part next rest h ih => simp_all [isChainMark, dropMemberKinds]
  | case5 part next rest h => simp_all [isChainMark, dropMemberKinds]

theorem isMessage_eq (look : Lookahead) : isMessage look = seesMessage look.scene := by
  unfold isMessage seesMessage Lookahead.scene
  cases look.node? with
  | none => simp [dropMemberKinds]
  | some brackets =>
      have hkinds : dropMemberKinds
          (((brackets.significantChildren.map (·.kind)).filter (· != .delimiter)).drop 1) =
          (afterReceiver (messageParts brackets)).map (·.kind) := by
        rw [afterReceiver, map_dropMembers, List.map_drop, messageParts, List.filter_map]
        rfl
      simp only [Option.any_some, Option.map_some, Option.getD_some, hkinds, List.head?_map]
      cases (afterReceiver (messageParts brackets)).head? <;> rfl

/-- Brackets are no callee, so that brackets which are no message are not called either. -/
theorem reads_bracketed {look : Lookahead} (h : look.kinds.head? = some .brackets) :
    bracketed.ReadsAt bracketedPlan look := by
  have hnonempty : look.kinds ≠ [] := by
    intro hnil
    simp [hnil] at h
  unfold Rule.ReadsAt bracketed bracketedPlan
  rw [Rule.outcome_place, isMessage_eq]
  by_cases hmessage : seesMessage look.scene = true
  · rw [if_pos hmessage, if_pos ⟨hmessage, hnonempty⟩]
    rfl
  · rw [if_neg hmessage, if_neg fun hboth => hmessage hboth.1, reads_call look]
    simp [callPlan, guarded, Lookahead.scene, h, callees]

theorem reads_messages : messages.Reads messagesPlan := by
  refine Rule.reads_dispatch fun look => ?_
  generalize hhead : look.kinds.head? = head
  unfold callAt callAtPlan
  split
  · rfl
  · exact reads_wordWithArgument _ look
  · exact reads_wordWithArgument _ look
  · exact reads_bracketed hhead
  · try split
    all_goals simp_all [reads_call look]

theorem sound_messages : Sound messagesPlan := by
  refine sound_dispatch fun head => ?_
  unfold callAtPlan
  split
  · exact sound_nothing
  · exact sound_wordWithArgument (by decide)
  · exact sound_wordWithArgument (by decide)
  · refine sound_of_kind .objcMethodCall (by decide) fun {scene found n} h => ?_
    unfold bracketedPlan at h
    split at h
    · rename_i hmessage
      simp only [Option.some.injEq, Prod.mk.injEq] at h
      have := List.length_pos_iff.2 hmessage.2
      exact ⟨h.1.symm, by omega, by omega⟩
    · simp at h
  · exact sound_call

end ConcreteSyntax.CFamily
