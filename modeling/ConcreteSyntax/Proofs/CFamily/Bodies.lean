import ConcreteSyntax.Proofs.Analysis.Fences
import ConcreteSyntax.Proofs.CFamily.Statements

/-!
# How far statements reach

A `Statement` says which of the siblings of a statement of C belong together.  From its first word
on, the flow pass counts it out whole unless an `if` with an `else` stands for an unbraced body on
the way to its end (`Statement.isWhole`); then it stops in front of that `else`, or takes nothing.
-/

namespace ConcreteSyntax

namespace Plan

theorem through_eq_none {stop : Kind} (allowed : Kind → Bool) {kinds : List Kind}
    (h : stop ∉ kinds) : through stop allowed kinds = none := by
  rw [Option.eq_none_iff_forall_ne_some]
  intro n hn
  obtain ⟨front, behind, rfl, -⟩ := through_eq_some_iff.1 hn
  exact h (by simp)

theorem countWhile_le_of_stop {stop : Kind} (allowed : Kind → Bool) (h : allowed stop = false)
    (front rest : List Kind) : countWhile allowed (front ++ stop :: rest) ≤ front.length := by
  induction front with
  | nil => simp [countWhile, h]
  | cons kind front ih =>
      unfold countWhile at ih ⊢
      rw [List.cons_append, List.takeWhile_cons]
      split <;> simp_all

end Plan

namespace CFamily

open Plan

/-! ## Statements -/

/-- Words that begin a statement with a body. -/
def leadingWords : KindSet := .ofList [
  .ifKw, .elseKw, .forKw, .whileKw, .doKw, .switchKw, .tryKw, .catchKw, .atTryKw, .atCatchKw,
  .atFinallyKw, .atSynchronizedKw]

/-- Whether a kind can stand in a plain statement in front of its semicolon. -/
def isPlainWord (kind : Kind) : Bool :=
  kind != .semicolon && !statementStop.contains kind && !leadingWords.contains kind

/-- An expression or a jump: the words of a plain statement in front of its semicolon. -/
structure Phrase where
  words : List Kind
  plain : ∀ word ∈ words, isPlainWord word = true
  head : words.head? ≠ some .braces

/-- What a loop or a switch begins with: a word and a condition in parentheses. -/
inductive Leader where
  | forLoop | whileLoop | switch
deriving DecidableEq

namespace Leader

/-- The word itself. -/
def word : Leader → Kind
  | forLoop => .forKw
  | whileLoop => .whileKw
  | switch => .switchKw

/-- The kind of the node that the word asks for. -/
def kind : Leader → Kind
  | forLoop => .flowFor
  | whileLoop => .flowWhile
  | switch => .flowSwitch

end Leader

/-- A statement of C among siblings. -/
inductive Statement where
  /-- A block in braces. -/
  | block
  /-- An expression or a jump, with its semicolon. -/
  | plain (phrase : Phrase)
  /-- A `for` loop, a `while` loop or a `switch`. -/
  | led (leader : Leader) (body : Statement)
  /-- A `do` loop. -/
  | doLoop (body : Statement)
  /-- An `if` without an `else`. -/
  | branch (body : Statement)
  /-- An `if` with an `else`. -/
  | choice (body otherwise : Statement)

namespace Statement

/-- The kinds of the significant siblings that a statement is made of. -/
def kinds : Statement → List Kind
  | block => [.braces]
  | plain phrase => phrase.words ++ [.semicolon]
  | led leader body => leader.word :: .parenthesis :: body.kinds
  | doLoop body => .doKw :: (body.kinds ++ [.whileKw, .parenthesis, .semicolon])
  | branch body => .ifKw :: .parenthesis :: body.kinds
  | choice body otherwise =>
      .ifKw :: .parenthesis :: (body.kinds ++ .elseKw :: otherwise.kinds)

/-- The kind of the node that a loop or a switch asks for. -/
def loopKind? : Statement → Option Kind
  | led leader _ => some leader.kind
  | doLoop _ => some .flowDoWhile
  | _ => none

/-- Whether a statement is counted out to its end: no `if` with an `else` stands for an unbraced
body in it. -/
def isWhole : Statement → Bool
  | block | plain _ => true
  | led _ body | doLoop body | branch body => body.isWhole
  | choice _ _ => false

end Statement

/-! ## How far a statement is counted out -/

/-- A statement that begins with no leading word, and is not a block, ends at a semicolon. -/
theorem statementLength_cons {word : Kind} (hleading : leadingWords.contains word = false)
    (hstop : statementStop.contains word = false) (hbraces : word ≠ .braces) (rest : List Kind) :
    statementLength (word :: rest) =
      through .semicolon (fun kind => !statementStop.contains kind) (word :: rest) := by
  unfold statementLength
  split
  case h_1 heq => cases heq
  case h_2 heq =>
      obtain ⟨rfl, -⟩ := List.cons.inj heq
      exact absurd hstop (by decide)
  case h_3 heq => exact absurd (List.cons.inj heq).1 hbraces
  case h_16 => rfl
  all_goals
    rename_i heq
    obtain ⟨rfl, -⟩ := List.cons.inj heq
    exact absurd hleading (by decide)

theorem isPlainWord_iff {word : Kind} :
    isPlainWord word = true ↔ word ≠ .semicolon ∧ statementStop.contains word = false
      ∧ leadingWords.contains word = false := by
  simp [isPlainWord, and_assoc]

theorem statementLength_plain {words : List Kind}
    (hplain : ∀ word ∈ words, isPlainWord word = true) (hhead : words.head? ≠ some .braces)
    (rest : List Kind) :
    statementLength (words ++ .semicolon :: rest) = some (words.length + 1) := by
  have hthrough := through_append (fun kind => !statementStop.contains kind)
    (fun word hword => by
      obtain ⟨hsemicolon, hstop, -⟩ := isPlainWord_iff.1 (hplain word hword)
      exact ⟨hsemicolon, by simp [hstop]⟩) rest
  cases words with
  | nil => exact (statementLength_cons (by decide) (by decide) (by decide) rest).trans hthrough
  | cons word words =>
      obtain ⟨-, hstop, hleading⟩ := isPlainWord_iff.1 (hplain word (List.mem_cons_self ..))
      have hbraces : word ≠ .braces := fun heq => hhead (congrArg some heq)
      exact (statementLength_cons hleading hstop hbraces _).trans hthrough

theorem statementLength_leader (leader : Leader) (rest : List Kind) :
    statementLength (leader.word :: .parenthesis :: rest) =
      (statementLength rest).map (· + 2) := by
  cases leader <;> · rw [Leader.word, statementLength]; simp

theorem statementLength_if (rest : List Kind) :
    statementLength (.ifKw :: .parenthesis :: rest) = (statementLength rest).map (· + 2) := by
  rw [statementLength]
  simp

namespace Statement

/-- A statement without an `if` with an `else` in place of a body is counted out to its end. -/
theorem length_of_isWhole {statement : Statement} (h : statement.isWhole = true)
    (rest : List Kind) :
    statementLength (statement.kinds ++ rest) = some statement.kinds.length := by
  induction statement generalizing rest with
  | block => simp [kinds, statementLength]
  | plain phrase =>
      rw [kinds, List.append_assoc, List.length_append]
      exact statementLength_plain phrase.plain phrase.head rest
  | led leader body ih =>
      rw [kinds, List.cons_append, List.cons_append, statementLength_leader, ih h]
      rfl
  | doLoop body ih =>
      have hbody := ih h (.whileKw :: .parenthesis :: .semicolon :: rest)
      rw [kinds, List.cons_append, List.append_assoc, statementLength]
      simp only [List.cons_append, List.nil_append, hbody, List.drop_left]
      simp [doEndLength]
  | branch body ih =>
      rw [kinds, List.cons_append, List.cons_append, statementLength_if, ih h]
      rfl
  | choice body otherwise => cases h

/-- In front of the first `else` that belongs to an `if` in place of a body, counting stops. -/
theorem length_of_not_isWhole {statement : Statement} (h : statement.isWhole = false)
    (rest : List Kind) :
    statementLength (statement.kinds ++ rest) = none ∨ ∃ n < statement.kinds.length,
      statementLength (statement.kinds ++ rest) = some n
        ∧ (statement.kinds ++ rest)[n]? = some .elseKw := by
  induction statement generalizing rest with
  | block | plain _ => cases h
  | led leader body ih =>
      simp only [kinds, List.cons_append, statementLength_leader]
      obtain hnone | ⟨n, hlt, hsome, helse⟩ := ih h rest
      · exact .inl (by rw [hnone]; rfl)
      · exact .inr ⟨n + 2, by simpa using hlt, by rw [hsome]; rfl, helse⟩
  | doLoop body ih =>
      have hbody := ih h (.whileKw :: .parenthesis :: .semicolon :: rest)
      left
      rw [kinds, List.cons_append, List.append_assoc, statementLength]
      simp only [List.cons_append, List.nil_append]
      obtain hnone | ⟨n, hlt, hsome, helse⟩ := hbody
      · rw [hnone]
      · rw [hsome]
        simp [doEndLength, List.head?_drop, helse]
  | branch body ih =>
      simp only [kinds, List.cons_append, statementLength_if]
      obtain hnone | ⟨n, hlt, hsome, helse⟩ := ih h rest
      · exact .inl (by rw [hnone]; rfl)
      · exact .inr ⟨n + 2, by simpa using hlt, by rw [hsome]; rfl, helse⟩
  | choice body otherwise ih =>
      simp only [kinds, List.cons_append, List.append_assoc, statementLength_if]
      cases hbody : body.isWhole with
      | true =>
          right
          rw [length_of_isWhole hbody]
          refine ⟨body.kinds.length + 2, ?_, rfl, ?_⟩
          · simp
          · simp
      | false =>
          obtain hnone | ⟨n, hlt, hsome, helse⟩ := ih hbody (.elseKw :: (otherwise.kinds ++ rest))
          · exact .inl (by rw [hnone]; rfl)
          · exact .inr ⟨n + 2, by simp; omega, by rw [hsome]; rfl, helse⟩

/-- What is counted out of a statement is all of it exactly if the statement is whole, and never
more. -/
theorem length_spec (statement : Statement) {rest : List Kind} {n : Nat}
    (h : statementLength (statement.kinds ++ rest) = some n) :
    n ≤ statement.kinds.length ∧ (n = statement.kinds.length ↔ statement.isWhole = true) := by
  cases hwhole : statement.isWhole with
  | true =>
      rw [length_of_isWhole hwhole, Option.some.injEq] at h
      simp [h]
  | false =>
      obtain hnone | ⟨m, hlt, hsome, -⟩ := length_of_not_isWhole hwhole rest
      · rw [hnone] at h
        cases h
      · rw [hsome, Option.some.injEq] at h
        subst h
        simp [Nat.le_of_lt hlt, Nat.ne_of_lt hlt]

end Statement

/-! ## Where the runs of the flow pass end -/

/-- Words that begin a run of the flow pass. -/
def flowWords : KindSet :=
  leadingWords ∪ .ofList [.newKw, .returnKw, .gotoKw, .throwKw, .deleteKw, .atThrowKw]

theorem flowPlan_eq (scene : Scene) :
    flowPlan scene =
      if scene.kinds.head? = some .newKw then allocationPlan scene
      else flowStatementPlan scene := by
  unfold flowPlan dispatch
  dsimp only
  split <;> rfl

variable {scene : Scene} {word : Kind} {rest : List Kind}

theorem flowPlan_eq_none (hkinds : scene.kinds = word :: rest)
    (h : flowWords.contains word = false) : flowPlan scene = none := by
  have hhead : scene.kinds.head? = some word := by rw [hkinds]; rfl
  rw [flowPlan_eq, hhead]
  split
  · rename_i hnew
    obtain rfl := Option.some.inj hnew
    exact absurd h (by decide)
  · rw [flowStatementPlan, flowKindOf, hhead]
    split
    case h_18 => rfl
    all_goals
      rename_i hword
      obtain rfl := Option.some.inj hword
      exact absurd h (by decide)

theorem staysWithin_other (h : flowWords.contains word = false)
    (hrest : flowPlan.StaysWithin rest) : flowPlan.StaysWithin (word :: rest) := by
  refine ⟨fun scene behind found n hscene hfound => ?_, hrest⟩
  rw [flowPlan_eq_none hscene h] at hfound
  cases hfound

theorem staysWithin_word (hnew : word ≠ .newKw)
    (hreach : ∀ behind n, statementLength (word :: (rest ++ behind)) = some n →
      n ≤ rest.length + 1) (hrest : flowPlan.StaysWithin rest) :
    flowPlan.StaysWithin (word :: rest) := by
  refine ⟨fun scene behind found n hscene hfound => hreach behind n ?_, hrest⟩
  rw [flowPlan_eq, if_neg (by rw [hscene]; simpa using hnew)] at hfound
  rw [← hscene]
  exact (flowStatement_spec hfound).2

/-- An allocation ends in front of the semicolon behind it. -/
theorem staysWithin_new (hrest : flowPlan.StaysWithin (rest ++ [.semicolon])) :
    flowPlan.StaysWithin (.newKw :: (rest ++ [.semicolon])) := by
  refine ⟨fun scene behind found n hscene hfound => ?_, hrest⟩
  have hcount := countWhile_le_of_stop allocated.contains
    (show allocated.contains .semicolon = false by decide) rest behind
  rw [List.append_assoc, List.singleton_append] at hscene
  rw [flowPlan_eq, if_pos (by rw [hscene]; rfl), allocationPlan, hscene, List.tail_cons] at hfound
  rw [List.length_append, List.length_singleton]
  split at hfound
  · dsimp only at hfound
    split at hfound <;> simp only [Option.some.injEq, Prod.mk.injEq] at hfound <;> omega
  · cases hfound

theorem staysWithin_plain {words : List Kind}
    (hplain : ∀ word ∈ words, isPlainWord word = true) :
    flowPlan.StaysWithin (words ++ [.semicolon]) := by
  induction words with
  | nil => exact staysWithin_other (by decide) trivial
  | cons word words ih =>
      have hrest := ih fun other hother => hplain other (List.mem_cons_of_mem _ hother)
      by_cases hnew : word = .newKw
      · rw [hnew]
        exact staysWithin_new hrest
      by_cases hbraces : word = .braces
      · rw [hbraces]
        exact staysWithin_other (by decide) hrest
      rw [List.cons_append]
      refine staysWithin_word hnew (fun behind n h => ?_) hrest
      have hlength := statementLength_plain hplain (by simpa using hbraces) behind
      rw [List.append_assoc, List.singleton_append, ← List.cons_append, hlength,
        Option.some.injEq] at h
      simp only [List.length_cons, List.length_append] at h ⊢
      exact Nat.le_of_eq h.symm

/-- The `while` behind the body of a `do` loop takes its semicolon, and no more. -/
theorem staysWithin_doEnd : flowPlan.StaysWithin [.whileKw, .parenthesis, .semicolon] := by
  refine staysWithin_word (by decide) (fun behind n h => ?_)
    (staysWithin_other (by decide) (staysWithin_other (by decide) trivial))
  have hlength : statementLength ([] ++ .semicolon :: behind) = some 1 :=
    statementLength_plain (by simp) (by simp) behind
  rw [List.cons_append, List.cons_append, List.nil_append,
    show Kind.whileKw = Leader.whileLoop.word from rfl, statementLength_leader,
    ← List.nil_append (.semicolon :: behind), hlength, Option.map_some, Option.some.injEq] at h
  exact Nat.le_of_eq h.symm

/-- No run that begins in a statement reaches beyond it. -/
theorem Statement.staysWithin (statement : Statement) :
    flowPlan.StaysWithin statement.kinds := by
  induction statement with
  | block => exact staysWithin_other (by decide) trivial
  | plain phrase => exact staysWithin_plain phrase.plain
  | led leader body ih =>
      refine staysWithin_word (by cases leader <;> decide) (fun behind n h => ?_)
        (staysWithin_other (by decide) ih)
      exact ((led leader body).length_spec h).1
  | doLoop body ih =>
      refine staysWithin_word (by decide) (fun behind n h => ?_) (ih.append ?_)
      · exact ((doLoop body).length_spec h).1
      · exact staysWithin_doEnd
  | branch body ih =>
      refine staysWithin_word (by decide) (fun behind n h => ?_) (staysWithin_other (by decide) ih)
      exact ((branch body).length_spec h).1
  | choice body otherwise ih ih' =>
      refine staysWithin_word (by decide) (fun behind n h => ?_)
        (staysWithin_other (by decide) (ih.append ?_))
      · exact ((choice body otherwise).length_spec h).1
      · refine staysWithin_word (by decide) (fun behind n h => ?_) ih'
        rw [statementLength, Option.map_eq_some_iff] at h
        obtain ⟨m, hm, rfl⟩ := h
        exact Nat.succ_le_succ (otherwise.length_spec hm).1

end CFamily

end ConcreteSyntax
