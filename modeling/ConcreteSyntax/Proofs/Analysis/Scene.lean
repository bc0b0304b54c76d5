import ConcreteSyntax.Analysis.Lookahead

/-!
# What a lookahead shows

A rule sees of its siblings only the kinds of the significant ones, and little more of the
first of them.  `Lookahead.past n` is the place `n` significant siblings further on.  Every
move of a rule leads to such a place, and how far it leads depends on `Lookahead.kinds`
alone.
-/

namespace ConcreteSyntax.Lookahead

/-- The significant siblings ahead. -/
def significant (look : Lookahead) : List Node := look.ahead.filter (·.kind.isSignificant)

/-- The kinds of the significant siblings ahead. -/
def kinds (look : Lookahead) : List Kind := look.significant.map (·.kind)

/-- The place `n` significant siblings further on. -/
def past (look : Lookahead) : Nat → Lookahead
  | 0 => look
  | n + 1 => look.advance.past n

/-! ## Reading -/

theorem firstFrom_eq_none {index : Nat} {nodes : List Node} :
    firstFrom index nodes = none ↔ nodes.filter (·.kind.isSignificant) = [] := by
  induction nodes generalizing index with
  | nil => simp [firstFrom]
  | cons node rest ih =>
      unfold firstFrom
      cases h : node.kind.isSignificant <;> simp [h, ih]

theorem filter_of_firstFrom {index found : Nat} {nodes rest : List Node} {node : Node}
    (h : firstFrom index nodes = some (found, node, rest)) :
    nodes.filter (·.kind.isSignificant) = node :: rest.filter (·.kind.isSignificant) := by
  induction nodes generalizing index with
  | nil => simp [firstFrom] at h
  | cons head tail ih =>
      unfold firstFrom at h
      cases hs : head.kind.isSignificant with
      | true =>
          simp only [hs, if_true, Option.some.injEq, Prod.mk.injEq] at h
          obtain ⟨_, rfl, rfl⟩ := h
          simp [hs]
      | false =>
          simp only [hs, Bool.false_eq_true, if_false] at h
          simp [hs, ih h]

theorem nthFrom_eq (n : Nat) (nodes : List Node) :
    nthFrom n nodes = (nodes.filter (·.kind.isSignificant))[n]? := by
  induction nodes generalizing n with
  | nil => simp [nthFrom]
  | cons node rest ih =>
      unfold nthFrom
      cases h : node.kind.isSignificant with
      | true => cases n <;> simp [h, ih]
      | false => simp [h, ih]

theorem nth?_eq (look : Lookahead) (n : Nat) : look.nth? n = look.kinds[n]? := by
  simp [nth?, nthFrom_eq, kinds, significant]

theorem node?_eq (look : Lookahead) : look.node? = look.significant.head? := by
  unfold node? next? significant
  cases h : firstFrom look.position look.ahead with
  | none => simp [firstFrom_eq_none.1 h]
  | some found => simp [filter_of_firstFrom h]

theorem current?_eq (look : Lookahead) : look.current? = look.kinds.head? := by
  simp [current?, node?_eq, kinds]

theorem isAt_eq (look : Lookahead) (kind : Kind) :
    look.isAt kind = (look.kinds.head? == some kind) := by
  rw [isAt, current?_eq]

theorem isAtAny_eq (look : Lookahead) (set : KindSet) :
    look.isAtAny set = look.kinds.head?.any set.contains := by
  rw [isAtAny, current?_eq]

/-! ## Moving -/

@[simp] theorem parent_advance (look : Lookahead) : look.advance.parent = look.parent := by
  unfold advance
  cases look.next? <;> rfl

@[simp] theorem before_advance (look : Lookahead) : look.advance.before = look.before := by
  unfold advance
  cases look.next? <;> rfl

@[simp] theorem significant_advance (look : Lookahead) :
    look.advance.significant = look.significant.tail := by
  unfold advance next? significant
  cases h : firstFrom look.position look.ahead with
  | none => simp [firstFrom_eq_none.1 h]
  | some found => simp [filter_of_firstFrom h]

@[simp] theorem kinds_advance (look : Lookahead) : look.advance.kinds = look.kinds.tail := by
  simp [kinds]

theorem kinds_eq_nil {look : Lookahead} (h : look.current? = none) : look.kinds = [] := by
  simpa [current?_eq] using h

theorem kinds_eq_cons {look : Lookahead} {kind : Kind} (h : look.current? = some kind) :
    look.kinds = kind :: look.advance.kinds := by
  rw [current?_eq, List.head?_eq_some_iff] at h
  obtain ⟨rest, hrest⟩ := h
  simp [hrest]

theorem exists_kinds_eq_cons {look : Lookahead} {test : Kind → Bool}
    (h : look.current?.any test = true) :
    ∃ kind, look.kinds = kind :: look.advance.kinds ∧ test kind = true := by
  cases hcurrent : look.current? with
  | none => simp [hcurrent] at h
  | some kind => exact ⟨kind, kinds_eq_cons hcurrent, by simpa [hcurrent] using h⟩

@[simp] theorem past_zero (look : Lookahead) : look.past 0 = look := rfl

theorem past_succ (look : Lookahead) (n : Nat) : look.past (n + 1) = look.advance.past n := rfl

theorem past_one (look : Lookahead) : look.past 1 = look.advance := rfl

@[simp] theorem past_past (look : Lookahead) (m n : Nat) :
    (look.past m).past n = look.past (m + n) := by
  induction m generalizing look with
  | zero => simp
  | succ m ih => rw [past_succ, ih, Nat.succ_add, past_succ]

@[simp] theorem parent_past (look : Lookahead) (n : Nat) : (look.past n).parent = look.parent := by
  induction n generalizing look with
  | zero => rfl
  | succ n ih => rw [past_succ, ih, parent_advance]

@[simp] theorem before_past (look : Lookahead) (n : Nat) : (look.past n).before = look.before := by
  induction n generalizing look with
  | zero => rfl
  | succ n ih => rw [past_succ, ih, before_advance]

@[simp] theorem previous?_past (look : Lookahead) (n : Nat) :
    (look.past n).previous? = look.previous? := by
  simp [previous?]

@[simp] theorem significant_past (look : Lookahead) (n : Nat) :
    (look.past n).significant = look.significant.drop n := by
  induction n generalizing look with
  | zero => simp
  | succ n ih => rw [past_succ, ih, significant_advance, List.drop_tail]

@[simp] theorem kinds_past (look : Lookahead) (n : Nat) :
    (look.past n).kinds = look.kinds.drop n := by
  simp [kinds, List.map_drop]

theorem eat?_eq (look : Lookahead) (kind : Kind) :
    look.eat? kind = if look.kinds.head? = some kind then some (look.past 1) else none := by
  simp [eat?, isAt_eq, past_one]

end ConcreteSyntax.Lookahead
