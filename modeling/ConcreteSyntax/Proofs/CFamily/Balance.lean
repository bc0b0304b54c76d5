import ConcreteSyntax.Proofs.Analysis.Cutout
import ConcreteSyntax.Proofs.CFamily.Declarations

/-!
# Conditionals and their ends

Among siblings, a directive `#if`, `#ifdef` or `#ifndef` makes a pair with the first `#endif`
behind it through which as many conditionals are opened as closed (`IsPair`).  What stands between
the two is `Balanced`: it consists of whole pairs and of other siblings (`isPair_iff`).  Counting
depth from an opener on ends at the partner of the opener, and nowhere else
(`isPair_of_conditionalPlan` and `conditionalPlan_of_isPair`).
-/

namespace ConcreteSyntax.CFamily

/-- Whether a sibling is `#if`, `#ifdef` or `#ifndef`. -/
def opensConditional (node : Node) : Bool := conditionalOpeners.contains node.kind

/-- Whether a sibling is `#endif`. -/
def closesConditional (node : Node) : Bool := node.kind == .preprocessorEndif

/-- Whether as many conditionals are opened in a run as are closed. -/
def IsEven (run : List Node) : Prop :=
  run.countP opensConditional = run.countP closesConditional

/-- A run from an opener through the first `#endif` behind it up to which as many conditionals are
opened as closed. -/
structure IsPair (run : List Node) : Prop where
  opener : run.head?.any opensConditional = true
  endif : run.getLast?.any closesConditional = true
  even : IsEven run
  first : ∀ front, front <+: run → front.getLast?.any closesConditional = true → IsEven front →
    front = run

/-- Siblings that consist of whole pairs and of others that neither open nor close anything. -/
inductive Balanced : List Node → Prop
  | nil : Balanced []
  | other {node : Node} {rest : List Node} (hopener : opensConditional node = false)
      (hendif : closesConditional node = false) (hrest : Balanced rest) : Balanced (node :: rest)
  | pair {opener endif : Node} {body rest : List Node} (hopener : opensConditional opener = true)
      (hendif : closesConditional endif = true) (hbody : Balanced body) (hrest : Balanced rest) :
      Balanced (opener :: (body ++ endif :: rest))

variable {opener endif node : Node} {body rest run : List Node}

theorem closesConditional_of_opens (h : opensConditional node = true) :
    closesConditional node = false := by
  unfold closesConditional
  rw [beq_eq_false_iff_ne]
  intro hkind
  rw [opensConditional, hkind] at h
  revert h
  decide

theorem opensConditional_of_closes (h : closesConditional node = true) :
    opensConditional node = false := by
  cases hopen : opensConditional node with
  | false => rfl
  | true =>
      rw [closesConditional_of_opens hopen] at h
      cases h

theorem isDirective_of_opens (h : opensConditional node = true) :
    KindSet.directives.contains node.kind = true := by
  have hall : Kind.all.all (fun kind =>
      !conditionalOpeners.contains kind || KindSet.directives.contains kind) = true := by
    decide +kernel
  have hkind := List.all_eq_true.1 hall node.kind node.kind.mem_all
  rwa [show conditionalOpeners.contains node.kind = true from h, Bool.not_true,
    Bool.false_or] at hkind

theorem isDirective_of_closes (h : closesConditional node = true) :
    KindSet.directives.contains node.kind = true := by
  rw [eq_of_beq h]
  decide

theorem isSignificant_of_directives {kind : Kind} (h : KindSet.directives.contains kind = true) :
    kind.isSignificant = true := by
  have hall : Kind.all.all (fun kind =>
      !KindSet.directives.contains kind || kind.isSignificant) = true := by
    decide +kernel
  have hkind := List.all_eq_true.1 hall kind kind.mem_all
  rwa [h, Bool.not_true, Bool.false_or] at hkind

/-! ## Counts -/

theorem countP_opener (h : opensConditional opener = true) (rest : List Node) :
    (opener :: rest).countP opensConditional = rest.countP opensConditional + 1
      ∧ (opener :: rest).countP closesConditional = rest.countP closesConditional :=
  ⟨List.countP_cons_of_pos h,
    List.countP_cons_of_neg (by rw [closesConditional_of_opens h]; exact Bool.false_ne_true)⟩

theorem countP_endif (h : closesConditional endif = true) (rest : List Node) :
    (endif :: rest).countP opensConditional = rest.countP opensConditional
      ∧ (endif :: rest).countP closesConditional = rest.countP closesConditional + 1 :=
  ⟨List.countP_cons_of_neg (by rw [opensConditional_of_closes h]; exact Bool.false_ne_true),
    List.countP_cons_of_pos h⟩

theorem countP_other (hopener : opensConditional node = false)
    (hendif : closesConditional node = false) (rest : List Node) :
    (node :: rest).countP opensConditional = rest.countP opensConditional
      ∧ (node :: rest).countP closesConditional = rest.countP closesConditional :=
  ⟨List.countP_cons_of_neg (by rw [hopener]; exact Bool.false_ne_true),
    List.countP_cons_of_neg (by rw [hendif]; exact Bool.false_ne_true)⟩

theorem Balanced.isEven (h : Balanced body) : IsEven body := by
  unfold IsEven
  induction h with
  | nil => rfl
  | @other node rest hopener hendif hrest ih =>
      obtain ⟨hopens, hcloses⟩ := countP_other hopener hendif rest
      rw [hopens, hcloses, ih]
  | @pair opener endif body rest hopener hendif hbody hrest ihBody ihRest =>
      obtain ⟨hopens, hcloses⟩ := countP_opener hopener (body ++ endif :: rest)
      obtain ⟨hopens', hcloses'⟩ := countP_endif hendif rest
      rw [hopens, hcloses, List.countP_append, List.countP_append, hopens', hcloses']
      omega

/-- On the way through balanced siblings, no `#endif` is one too many. -/
theorem Balanced.countP_le (h : Balanced body) {front : List Node} (hfront : front <+: body) :
    front.countP closesConditional ≤ front.countP opensConditional := by
  induction h generalizing front with
  | nil =>
      rw [List.prefix_nil.1 hfront]
      exact Nat.le_refl _
  | @other node rest hopener hendif hrest ih =>
      rcases List.prefix_cons_iff.1 hfront with rfl | ⟨more, rfl, hmore⟩
      · exact Nat.le_refl _
      · obtain ⟨hopens, hcloses⟩ := countP_other hopener hendif more
        rw [hopens, hcloses]
        exact ih hmore
  | @pair opener endif body rest hopener hendif hbody hrest ihBody ihRest =>
      rcases List.prefix_cons_iff.1 hfront with rfl | ⟨more, rfl, hmore⟩
      · exact Nat.le_refl _
      obtain ⟨hopens, hcloses⟩ := countP_opener hopener more
      rw [hopens, hcloses]
      rcases List.prefix_or_prefix_of_prefix hmore (List.prefix_append body (endif :: rest))
        with hinside | ⟨behind, rfl⟩
      · have hle := ihBody hinside
        omega
      · have heven := hbody.isEven
        unfold IsEven at heven
        rw [List.countP_append, List.countP_append]
        rcases List.prefix_cons_iff.1 ((List.prefix_append_right_inj body).1 hmore)
          with rfl | ⟨after, rfl, hafter⟩
        · simp only [List.countP_nil]
          omega
        · obtain ⟨hopens', hcloses'⟩ := countP_endif hendif after
          have hle := ihRest hafter
          rw [hopens', hcloses']
          omega

/-! ## Depth -/

/-- The kinds that a rule sees of siblings. -/
def significantKinds (nodes : List Node) : List Kind :=
  (nodes.filter (·.kind.isSignificant)).map (·.kind)

theorem significantKinds_cons (h : node.kind.isSignificant = true) (rest : List Node) :
    significantKinds (node :: rest) = node.kind :: significantKinds rest := by
  simp only [significantKinds, List.filter_cons, h, if_true, List.map_cons]

theorem significantKinds_skip (h : node.kind.isSignificant = false) (rest : List Node) :
    significantKinds (node :: rest) = significantKinds rest := by
  simp only [significantKinds, List.filter_cons, h, Bool.false_eq_true, if_false]

theorem significantKinds_opener (h : opensConditional opener = true) (rest : List Node) :
    significantKinds (opener :: rest) = opener.kind :: significantKinds rest :=
  significantKinds_cons (isSignificant_of_directives (isDirective_of_opens h)) rest

theorem significantKinds_endif (h : closesConditional endif = true) (rest : List Node) :
    significantKinds (endif :: rest) = endif.kind :: significantKinds rest :=
  significantKinds_cons (isSignificant_of_directives (isDirective_of_closes h)) rest

theorem significantKinds_append (nodes rest : List Node) :
    significantKinds (nodes ++ rest) = significantKinds nodes ++ significantKinds rest := by
  rw [significantKinds, List.filter_append, List.map_append]
  rfl

/-- What is left to pass over behind the `#endif` that closes the innermost of `depth + 1` open
conditionals. -/
def behindEndif (depth : Nat) (rest : List Node) : Option Nat :=
  match depth with
  | 0 => some 0
  | depth + 1 => throughEndifLength depth (significantKinds rest)

theorem throughEndifLength_opener (h : opensConditional opener = true) (depth : Nat)
    (rest : List Node) :
    throughEndifLength depth (significantKinds (opener :: rest)) =
      (throughEndifLength (depth + 1) (significantKinds rest)).map (· + 1) := by
  rw [significantKinds_opener h]
  exact if_pos h

theorem throughEndifLength_endif (h : closesConditional endif = true) (depth : Nat)
    (rest : List Node) :
    throughEndifLength depth (significantKinds (endif :: rest)) =
      (behindEndif depth rest).map (· + 1) := by
  have hopener : ¬conditionalOpeners.contains endif.kind = true := by
    rw [show conditionalOpeners.contains endif.kind = false from opensConditional_of_closes h]
    exact Bool.false_ne_true
  rw [significantKinds_endif h]
  refine (if_neg hopener).trans ((if_pos (eq_of_beq h)).trans ?_)
  cases depth with
  | zero => rfl
  | succ depth => rfl

/-- Other siblings count only if they are significant. -/
theorem throughEndifLength_other (hopener : opensConditional node = false)
    (hendif : closesConditional node = false) (depth : Nat) (rest : List Node) :
    throughEndifLength depth (significantKinds (node :: rest)) =
      (throughEndifLength depth (significantKinds rest)).map
        (· + (significantKinds [node]).length) := by
  cases hnode : node.kind.isSignificant with
  | false =>
      rw [significantKinds_skip hnode, significantKinds_skip hnode]
      exact Option.map_id'.symm
  | true =>
      have hkind : ¬node.kind = .preprocessorEndif := by
        rw [closesConditional, beq_eq_false_iff_ne] at hendif
        exact hendif
      have hcontains : ¬conditionalOpeners.contains node.kind = true := by
        rw [show conditionalOpeners.contains node.kind = false from hopener]
        exact Bool.false_ne_true
      rw [significantKinds_cons hnode, significantKinds_cons hnode]
      exact (if_neg hcontains).trans (if_neg hkind)

/-- Depth behind balanced siblings is what it was before them. -/
theorem Balanced.throughEndifLength (h : Balanced body) (hendif : closesConditional endif = true)
    (depth : Nat) (rest : List Node) :
    CFamily.throughEndifLength depth (significantKinds (body ++ endif :: rest)) =
      (behindEndif depth rest).map (· + ((significantKinds body).length + 1)) := by
  induction h generalizing depth endif rest with
  | nil => exact throughEndifLength_endif hendif depth rest
  | @other node nodes hopener hother hnodes ih =>
      have hlength : (significantKinds (node :: nodes)).length =
          (significantKinds [node]).length + (significantKinds nodes).length := by
        rw [← List.singleton_append, significantKinds_append, List.length_append]
      rw [List.cons_append, throughEndifLength_other hopener hother, ih hendif, Option.map_map,
        hlength]
      congr 1
      funext n
      simp only [Function.comp_apply]
      omega
  | @pair opener inner body nodes hopener hinner hbody hnodes ihBody ihNodes =>
      rw [List.cons_append, List.append_assoc, List.cons_append,
        throughEndifLength_opener hopener, ihBody hinner, behindEndif, ihNodes hendif,
        Option.map_map, Option.map_map, significantKinds_opener hopener, significantKinds_append,
        significantKinds_endif hinner, List.length_cons, List.length_append, List.length_cons]
      congr 1
      funext n
      simp only [Function.comp_apply]
      omega

/-- Where counting depth comes to an end, balanced siblings and an `#endif` stand in front. -/
theorem exists_balanced {depth : Nat} {nodes : List Node}
    (h : throughEndifLength depth (significantKinds nodes) ≠ none) :
    ∃ body endif rest, nodes = body ++ endif :: rest ∧ closesConditional endif = true
      ∧ Balanced body := by
  induction hlength : nodes.length using Nat.strongRecOn generalizing depth nodes with
  | ind length ih =>
      cases nodes with
      | nil => exact absurd rfl h
      | cons node rest =>
          have hshorter : rest.length < length := by
            rw [← hlength, List.length_cons]
            omega
          cases hopener : opensConditional node with
          | true =>
              rw [throughEndifLength_opener hopener, ne_eq, Option.map_eq_none_iff] at h
              obtain ⟨body, endif, behind, rfl, hendif, hbody⟩ := ih _ hshorter h rfl
              rw [hbody.throughEndifLength hendif, Option.map_eq_none_iff] at h
              have hbehind : behind.length < length := by
                rw [List.length_append, List.length_cons] at hshorter
                omega
              obtain ⟨more, last, after, rfl, hlast, hmore⟩ := ih _ hbehind h rfl
              exact ⟨node :: (body ++ endif :: more), last, after, by simp, hlast,
                .pair hopener hendif hbody hmore⟩
          | false =>
              cases hendif : closesConditional node with
              | true => exact ⟨[], node, rest, rfl, hendif, .nil⟩
              | false =>
                  rw [throughEndifLength_other hopener hendif, ne_eq,
                    Option.map_eq_none_iff] at h
                  obtain ⟨body, endif, behind, rfl, hlast, hbody⟩ := ih _ hshorter h rfl
                  exact ⟨node :: body, endif, behind, rfl, hlast, .other hopener hendif hbody⟩

/-- Where more conditionals are closed than opened, counting depth comes to an end. -/
theorem throughEndifLength_ne_none {depth : Nat} {nodes : List Node}
    (h : nodes.countP opensConditional + depth < nodes.countP closesConditional) :
    throughEndifLength depth (significantKinds nodes) ≠ none := by
  induction nodes generalizing depth with
  | nil => exact absurd h (Nat.not_lt_zero _)
  | cons node rest ih =>
      cases hopener : opensConditional node with
      | true =>
          obtain ⟨hopens, hcloses⟩ := countP_opener hopener rest
          rw [hopens, hcloses] at h
          rw [throughEndifLength_opener hopener, ne_eq, Option.map_eq_none_iff]
          exact ih (by omega)
      | false =>
          cases hendif : closesConditional node with
          | true =>
              obtain ⟨hopens, hcloses⟩ := countP_endif hendif rest
              rw [hopens, hcloses] at h
              rw [throughEndifLength_endif hendif, ne_eq, Option.map_eq_none_iff]
              cases depth with
              | zero => exact Option.some_ne_none 0
              | succ depth => exact ih (by omega)
          | false =>
              obtain ⟨hopens, hcloses⟩ := countP_other hopener hendif rest
              rw [hopens, hcloses] at h
              rw [throughEndifLength_other hopener hendif, ne_eq, Option.map_eq_none_iff]
              exact ih h

/-! ## Pairs -/

theorem isPrefix_pair (opener : Node) (body : List Node) (endif : Node) (rest : List Node) :
    opener :: (body ++ [endif]) <+: opener :: (body ++ endif :: rest) := by
  rw [List.append_cons body endif rest, ← List.cons_append]
  exact List.prefix_append _ _

theorem IsPair.of_balanced (hopener : opensConditional opener = true)
    (hendif : closesConditional endif = true) (hbody : Balanced body) :
    IsPair (opener :: (body ++ [endif])) where
  opener := hopener
  endif := by
    rw [← List.cons_append, List.getLast?_concat]
    exact hendif
  even := (Balanced.pair hopener hendif hbody .nil).isEven
  first front hfront hlast heven := by
    rcases List.prefix_cons_iff.1 hfront with rfl | ⟨more, rfl, hmore⟩
    · cases hlast
    have hnot : ¬more <+: body := by
      intro hinside
      have hle := hbody.countP_le hinside
      obtain ⟨hopens, hcloses⟩ := countP_opener hopener more
      unfold IsEven at heven
      omega
    rcases List.prefix_concat_iff.1 hmore with hwhole | hinside
    · rw [hwhole]
    · exact absurd hinside hnot

/-- What stands between an opener and its partner is balanced. -/
theorem IsPair.exists_balanced (h : IsPair run) :
    ∃ opener body endif, run = opener :: (body ++ [endif]) ∧ opensConditional opener = true
      ∧ closesConditional endif = true ∧ Balanced body := by
  obtain ⟨opener, hhead, hopener⟩ := (Option.any_eq_true _ _).1 h.opener
  obtain ⟨rest, rfl⟩ := List.head?_eq_some_iff.1 hhead
  have heven := h.even
  obtain ⟨hopens, hcloses⟩ := countP_opener hopener rest
  rw [IsEven, hopens, hcloses] at heven
  have hends : throughEndifLength 0 (significantKinds rest) ≠ none :=
    throughEndifLength_ne_none (by omega)
  obtain ⟨body, endif, behind, rfl, hendif, hbody⟩ := CFamily.exists_balanced hends
  have hpair := IsPair.of_balanced hopener hendif hbody
  have hfront := isPrefix_pair opener body endif behind
  exact ⟨opener, body, endif, (h.first _ hfront hpair.endif hpair.even).symm, hopener, hendif,
    hbody⟩

theorem isPair_iff :
    IsPair run ↔ ∃ opener body endif, run = opener :: (body ++ [endif])
      ∧ opensConditional opener = true ∧ closesConditional endif = true ∧ Balanced body := by
  constructor
  · exact IsPair.exists_balanced
  · rintro ⟨opener, body, endif, rfl, hopener, hendif, hbody⟩
    exact .of_balanced hopener hendif hbody

theorem IsPair.opens_first (h : IsPair run) (hrun : run <+: node :: rest) :
    opensConditional node = true := by
  obtain ⟨opener, body, endif, rfl, hopener, -⟩ := h.exists_balanced
  obtain ⟨rfl, -⟩ := List.cons_prefix_cons.1 hrun
  exact hopener

/-- There are two siblings in a pair at least. -/
theorem not_isPair_of_infix_singleton (hrun : run <:+: [node]) : ¬IsPair run := by
  intro hpair
  obtain ⟨opener, body, endif, rfl, -⟩ := hpair.exists_balanced
  have hlength := hrun.length_le
  simp at hlength

/-- A place among siblings begins one pair at most. -/
theorem IsPair.eq_of_front {run' nodes : List Node} (h : IsPair run) (h' : IsPair run')
    (hrun : run <+: nodes) (hrun' : run' <+: nodes) : run = run' := by
  rcases List.prefix_or_prefix_of_prefix hrun hrun' with hshort | hshort
  · exact h'.first _ hshort h.endif h.even
  · exact (h.first _ hshort h'.endif h'.even).symm

/-- Whether a directive with siblings before and behind it has no partner among them: an opener
that begins no pair, or an `#endif` that ends none. -/
def IsLone (front : List Node) (node : Node) (back : List Node) : Prop :=
  (opensConditional node = true ∧ ∀ run, run <+: node :: back → ¬IsPair run)
    ∨ (closesConditional node = true ∧ ∀ run, run <:+ front ++ [node] → ¬IsPair run)

theorem IsLone.within {front back before after : List Node}
    (h : IsLone (before ++ front) node (back ++ after)) : IsLone front node back := by
  rcases h with ⟨hopener, hnone⟩ | ⟨hendif, hnone⟩
  · refine .inl ⟨hopener, fun run hrun => hnone run ?_⟩
    exact hrun.trans (List.prefix_append (node :: back) after)
  · refine .inr ⟨hendif, fun run hrun => hnone run ?_⟩
    rw [List.append_assoc]
    exact hrun.trans (List.suffix_append before (front ++ [node]))

theorem IsLone.behind {front back before : List Node} (h : IsLone (before ++ front) node back) :
    IsLone front node back := by
  rw [← List.append_nil back] at h
  exact h.within

/-- A sibling stands before another, is that one, or stands behind it. -/
theorem split_at {front back : List Node} (h : body ++ endif :: rest = front ++ node :: back) :
    (∃ after, body = front ++ node :: after ∧ back = after ++ endif :: rest)
      ∨ (body = front ∧ endif = node ∧ rest = back)
      ∨ ∃ before, rest = before ++ node :: back ∧ front = body ++ endif :: before := by
  obtain ⟨middle, rfl, hbehind⟩ | ⟨middle, rfl, hbehind⟩ := List.append_eq_append_iff.1 h
  · cases middle with
    | nil =>
        rw [List.nil_append, List.cons.injEq] at hbehind
        rw [List.append_nil]
        exact .inr (.inl ⟨rfl, hbehind⟩)
    | cons head middle =>
        rw [List.cons_append, List.cons.injEq] at hbehind
        obtain ⟨rfl, hrest⟩ := hbehind
        exact .inr (.inr ⟨middle, hrest, rfl⟩)
  · cases middle with
    | nil =>
        rw [List.nil_append, List.cons.injEq] at hbehind
        rw [List.append_nil]
        exact .inr (.inl ⟨rfl, hbehind.1.symm, hbehind.2.symm⟩)
    | cons head middle =>
        rw [List.cons_append, List.cons.injEq] at hbehind
        obtain ⟨rfl, rfl⟩ := hbehind
        exact .inl ⟨middle, rfl, rfl⟩

/-- The directives of a pair are not lone. -/
theorem IsLone.of_pair {front back : List Node} (h : IsLone front node back)
    (hopener : opensConditional opener = true) (hendif : closesConditional endif = true)
    (hbody : Balanced body) (hsplit : opener :: (body ++ endif :: rest) = front ++ node :: back) :
    (∃ before after, body = before ++ node :: after ∧ IsLone before node after)
      ∨ ∃ before, rest = before ++ node :: back ∧ IsLone before node back := by
  have hpair := IsPair.of_balanced hopener hendif hbody
  cases front with
  | nil =>
      rw [List.nil_append, List.cons.injEq] at hsplit
      obtain ⟨rfl, rfl⟩ := hsplit
      rcases h with ⟨-, hnone⟩ | ⟨hcloses, -⟩
      · refine absurd hpair (hnone _ ⟨rest, ?_⟩)
        rw [List.cons_append, List.append_assoc, List.singleton_append]
      · rw [closesConditional_of_opens hopener] at hcloses
        cases hcloses
  | cons first front =>
      rw [List.cons_append, List.cons.injEq] at hsplit
      obtain ⟨rfl, hsplit⟩ := hsplit
      obtain ⟨after, hinside, rfl⟩ | ⟨rfl, rfl, rfl⟩ | ⟨before, hbehind, rfl⟩ := split_at hsplit
      · have hwithin : IsLone ([opener] ++ front) node (after ++ endif :: rest) := h
        exact .inl ⟨front, after, hinside, hwithin.within⟩
      · rcases h with ⟨hopens, -⟩ | ⟨-, hnone⟩
        · rw [opensConditional_of_closes hendif] at hopens
          cases hopens
        · exact absurd hpair (hnone _ (List.suffix_refl _))
      · rw [List.append_cons body endif before, ← List.cons_append] at h
        exact .inr ⟨before, hbehind, h.behind⟩

/-- Among balanced siblings, every directive has its partner. -/
theorem Balanced.not_isLone (h : Balanced body) {front back : List Node}
    (hsplit : body = front ++ node :: back) : ¬IsLone front node back := by
  induction h generalizing front back with
  | nil => simp at hsplit
  | @other first rest hopener hendif hrest ih =>
      intro hlone
      cases front with
      | nil =>
          rw [List.nil_append, List.cons.injEq] at hsplit
          obtain ⟨rfl, rfl⟩ := hsplit
          rcases hlone with ⟨hopens, -⟩ | ⟨hcloses, -⟩
          · rw [hopener] at hopens
            cases hopens
          · rw [hendif] at hcloses
            cases hcloses
      | cons other front =>
          rw [List.cons_append, List.cons.injEq] at hsplit
          have hbehind : IsLone ([other] ++ front) node back := hlone
          exact ih hsplit.2 hbehind.behind
  | @pair opener endif body rest hopener hendif hbody hrest ihBody ihRest =>
      intro hlone
      obtain ⟨before, after, hinside, hlone⟩ | ⟨before, hbehind, hlone⟩ :=
        hlone.of_pair hopener hendif hbody hsplit
      · exact ihBody hinside hlone
      · exact ihRest hbehind hlone

/-- A pair does not reach from balanced siblings across the `#endif` behind them. -/
theorem IsPair.infix_of_balanced (h : IsPair run) (hbody : Balanced body)
    (hendif : closesConditional endif = true) (hrun : run <:+: body ++ endif :: rest) :
    run <:+: body ∨ run <:+: rest := by
  obtain ⟨opener, hhead, hopener⟩ := (Option.any_eq_true _ _).1 h.opener
  obtain ⟨others, rfl⟩ := List.head?_eq_some_iff.1 hhead
  obtain ⟨before, after, hsplit⟩ := hrun
  rw [List.append_assoc, List.cons_append] at hsplit
  -- the opener stands in the body, is the `#endif`, or stands behind it
  obtain ⟨back, hinside, hback⟩ | ⟨-, rfl, -⟩ | ⟨front, hbehind, -⟩ := split_at hsplit.symm
  · -- its partner is the one that it has in the body
    have hpartner : ∃ run, run <+: opener :: back ∧ IsPair run := by
      by_contra hnone
      refine hbody.not_isLone hinside (.inl ⟨hopener, fun run hrun hpair => ?_⟩)
      exact hnone ⟨run, hrun, hpair⟩
    obtain ⟨run, hrun, hpair⟩ := hpartner
    obtain rfl : opener :: others = run := by
      refine h.eq_of_front hpair (List.prefix_append (opener :: others) after) (hrun.trans ?_)
      rw [List.cons_append, hback]
      exact List.prefix_append (opener :: back) (endif :: rest)
    refine .inl (hrun.isInfix.trans ?_)
    rw [hinside]
    exact (List.suffix_append before (opener :: back)).isInfix
  · rw [opensConditional_of_closes hendif] at hopener
    cases hopener
  · refine .inr ⟨front, after, ?_⟩
    rw [hbehind, List.append_assoc, List.cons_append]

/-! ## What the rule finds -/

theorem closes_concat {last : Node} (h : last.kind.isSignificant = true) (nodes : List Node) :
    Closes ((significantKinds nodes).length + 1) (nodes ++ [last]) := by
  induction nodes with
  | nil => exact .last h
  | cons node rest ih =>
      cases hnode : node.kind.isSignificant with
      | true =>
          rw [significantKinds_cons hnode]
          exact .take hnode ih
      | false =>
          rw [significantKinds_skip hnode]
          exact .skip hnode ih

theorem conditionalPlan_atAnchor {parent : Kind} (before : List Node)
    (hnode : node.kind.isSignificant = true) (rest : List Node) :
    conditionalPlan (Lookahead.atAnchor parent before (node :: rest)).scene =
      if opensConditional node then
        (throughEndifLength 0 (significantKinds rest)).map fun n =>
          (.preprocessorConditional, n + 1)
      else none := by
  rw [Plan.scene_atAnchor hnode]
  rfl

/-- At an opener with a partner, the rule finds something. -/
theorem IsPair.conditionalPlan_ne_none (h : IsPair run) {parent : Kind} {before : List Node}
    (hrun : run <+: node :: rest) (hnode : node.kind.isSignificant = true) :
    conditionalPlan (Lookahead.atAnchor parent before (node :: rest)).scene ≠ none := by
  obtain ⟨opener, body, endif, rfl, hopener, hendif, hbody⟩ := h.exists_balanced
  obtain ⟨after, hafter⟩ := hrun
  rw [List.cons_append, List.append_assoc, List.singleton_append, List.cons.injEq] at hafter
  obtain ⟨rfl, rfl⟩ := hafter
  rw [conditionalPlan_atAnchor before hnode, if_pos hopener, hbody.throughEndifLength hendif]
  exact Option.some_ne_none _

/-- What the rule finds is a pair. -/
theorem isPair_of_conditionalPlan {parent kind : Kind} {before : List Node} {n : Nat}
    (hnode : node.kind.isSignificant = true) (hcloses : Closes n (node :: run))
    (hfound : conditionalPlan (Lookahead.atAnchor parent before (node :: run ++ rest)).scene =
      some (kind, n)) : kind = .preprocessorConditional ∧ IsPair (node :: run) := by
  rw [List.cons_append, conditionalPlan_atAnchor before hnode, Option.ite_none_right_eq_some,
    Option.map_eq_some_iff] at hfound
  obtain ⟨hopener, m, hm, hplan⟩ := hfound
  rw [Prod.mk.injEq] at hplan
  obtain ⟨rfl, rfl⟩ := hplan
  obtain ⟨body, endif, behind, hsplit, hendif, hbody⟩ :=
    CFamily.exists_balanced (Option.ne_none_iff_exists'.2 ⟨m, hm⟩)
  rw [hsplit, hbody.throughEndifLength hendif] at hm
  obtain rfl := Option.some.inj hm
  have hlast := isSignificant_of_directives (isDirective_of_closes hendif)
  have hpair : Closes (0 + ((significantKinds body).length + 1) + 1)
      (node :: (body ++ [endif])) := by
    rw [Nat.zero_add]
    exact .take hnode (closes_concat hlast body)
  have hwhole : node :: run ++ rest = node :: (body ++ [endif]) ++ behind := by
    rw [List.cons_append, hsplit, List.cons_append, List.append_assoc, List.singleton_append]
  have hlength := hcloses.length_eq hpair (congrArg (List.map Node.kind) hwhole)
  obtain ⟨hrun, -⟩ := List.append_inj hwhole hlength
  rw [hrun]
  exact ⟨rfl, .of_balanced hopener hendif hbody⟩

end ConcreteSyntax.CFamily
