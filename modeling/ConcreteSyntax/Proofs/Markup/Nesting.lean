import ConcreteSyntax.Proofs.Markup.Outline

/-!
# Nested tags

Tags that pair are well nested if each closing tag closes the innermost open element.  An outline
reports nothing exactly if its tags are (`Markup.Outline.notes_eq_nil_iff`).
-/

namespace ConcreteSyntax

namespace Markup

namespace Rules

variable (rules : Rules)

/-- Whether a tag has a partner: it opens an element that waits for its closing tag, or closes
one. -/
def pairs (tag : Tag) : Bool := rules.awaits tag || tag.form = .closing

/-- Whether opening and closing tags are well nested by the names of their elements. -/
inductive Nested (rules : Rules) : List Tag → Prop
  | nil : Nested rules []
  | element {opening closing : Tag} {inside rest : List Tag} :
      rules.awaits opening = true → closing.form = .closing →
        rules.sameName opening.name closing.name = true → Nested rules inside →
          Nested rules rest → Nested rules (opening :: (inside ++ closing :: rest))

/-- The names of the open elements after tags, the innermost first; nothing if a closing tag
does not close the innermost one. -/
def openAfter : List (List Char) → List Tag → Option (List (List Char))
  | stack, [] => some stack
  | stack, tag :: rest =>
      if rules.awaits tag then openAfter (tag.name :: stack) rest
      else if tag.form = .closing then
        match stack with
        | [] => none
        | name :: stack => if rules.sameName name tag.name then openAfter stack rest else none
      else openAfter stack rest

variable {rules}

theorem form_of_awaits {tag : Tag} (h : rules.awaits tag = true) : tag.form ≠ .closing := by
  intro hform
  simp [awaits, hform] at h

section

variable {tag : Tag} {tags : List Tag} {name : List Char} {stack : List (List Char)}

theorem openAfter_of_awaits (h : rules.awaits tag = true) :
    rules.openAfter stack (tag :: tags) = rules.openAfter (tag.name :: stack) tags := by
  simp [openAfter, h]

theorem openAfter_of_not_pairs (h : rules.pairs tag = false) :
    rules.openAfter stack (tag :: tags) = rules.openAfter stack tags := by
  obtain ⟨hawaits, hform⟩ : rules.awaits tag = false ∧ tag.form ≠ .closing := by
    simpa [pairs] using h
  simp [openAfter, hawaits, hform]

/-- A closing tag closes the innermost open element or nothing. -/
theorem openAfter_of_closing (h : tag.form = .closing) :
    rules.openAfter (name :: stack) (tag :: tags) =
      if rules.sameName name tag.name then rules.openAfter stack tags else none := by
  have hawaits : rules.awaits tag = false := by simp [awaits, h]
  simp [openAfter, hawaits, h]

theorem openAfter_nil_of_closing (h : tag.form = .closing) :
    rules.openAfter [] (tag :: tags) = none := by
  have hawaits : rules.awaits tag = false := by simp [awaits, h]
  simp [openAfter, hawaits, h]

end

theorem openAfter_filter (stack : List (List Char)) (tags : List Tag) :
    rules.openAfter stack (tags.filter rules.pairs) = rules.openAfter stack tags := by
  induction tags generalizing stack with
  | nil => rfl
  | cons tag rest ih =>
      by_cases hpairs : rules.pairs tag = true
      · rw [List.filter_cons_of_pos hpairs]
        simp only [openAfter, ih]
      · rw [List.filter_cons_of_neg hpairs, ih, openAfter_of_not_pairs (by simpa using hpairs)]

theorem Nested.openAfter_append {tags : List Tag} (h : rules.Nested tags)
    (stack : List (List Char)) (rest : List Tag) :
    rules.openAfter stack (tags ++ rest) = rules.openAfter stack rest := by
  induction h generalizing stack rest with
  | nil => rfl
  | element hawaits hform hsame _ _ ihInside ihAfter =>
      rw [List.cons_append, List.append_assoc, openAfter_of_awaits hawaits, ihInside,
        List.cons_append, openAfter_of_closing hform, if_pos hsame, ihAfter]

end Rules

namespace Outline

variable {rules : Rules} {around tail : List (List Char)} {nodes : List Node}
  {notes : List Diagnostic}

/-- Without notes, the tags that pair are well nested. -/
theorem nested_of_notes (h : Outline rules around nodes tail notes) (hnotes : notes = []) :
    rules.Nested ((nodes.flatMap Node.tags).filter rules.pairs) := by
  induction h with
  | nil => exact .nil
  | leaf hchildren hkind _ _ ih =>
      rw [List.flatMap_cons, Node.tags_of_kind hkind, hchildren]
      exact ih hnotes
  | stray => cases hnotes
  | alone _ hchildren hleaf hform hawaits _ ih =>
      rw [List.flatMap_cons, Node.tags_of_children (by simp [hchildren]), hchildren,
        List.flatMap_singleton, Node.tags_of_leafTag? hleaf.tag]
      simpa [Rules.pairs, hawaits, hform] using ih hnotes
  | closed _ hchildren hleaf hawaits hlast hform hsame _ _ _ ihBelow ihRest =>
      obtain ⟨hbelow, hrest⟩ := List.append_eq_nil_iff.1 hnotes
      have hnested := Rules.Nested.element hawaits hform hsame (ihBelow hbelow) (ihRest hrest)
      rw [List.flatMap_cons, Node.tags_of_children (by simp [hchildren]), hchildren]
      simpa [Node.tags_of_leafTag? hleaf.tag, Node.tags_of_leafTag? hlast.tag, Rules.pairs, hawaits,
        hform] using hnested
  | unclosed => simp at hnotes

/-- If each closing tag closes the innermost open element, none is stray, and nothing is reported
as long as all elements are closed. -/
theorem notes_of_openAfter (h : Outline rules around nodes tail notes) {rest : List Tag}
    (hopen : rules.openAfter around (nodes.flatMap Node.tags ++ rest) ≠ none) :
    rules.openAfter around (nodes.flatMap Node.tags ++ rest) =
        rules.openAfter (tail ++ around) rest
      ∧ (tail = [] → notes = []) := by
  induction h generalizing rest with
  | nil => exact ⟨rfl, fun _ => rfl⟩
  | leaf hchildren hkind _ _ ih =>
      rw [List.flatMap_cons, Node.tags_of_kind hkind, hchildren] at hopen ⊢
      exact ih hopen
  | @stray around _ _ tag _ _ hleaf hform hnames _ ih =>
      refine absurd ?_ hopen
      rw [List.flatMap_cons, Node.tags_of_leafTag? hleaf.tag, List.append_assoc,
        List.singleton_append]
      cases around with
      | nil => exact Rules.openAfter_nil_of_closing hform
      | cons name around =>
          rw [Rules.openAfter_of_closing hform, hnames name List.mem_cons_self]
          rfl
  | @alone _ _ node _ tag after _ _ hchildren hleaf hform hawaits _ ih =>
      have htags : node.tags = [tag] := by
        rw [Node.tags_of_children (by simp [hchildren]), hchildren, List.flatMap_singleton,
          Node.tags_of_leafTag? hleaf.tag]
      have hpairs : rules.pairs tag = false := by simp [Rules.pairs, hawaits, hform]
      rw [List.flatMap_cons, htags, List.append_assoc, List.singleton_append,
        Rules.openAfter_of_not_pairs hpairs] at hopen ⊢
      exact ih hopen
  | @closed around inside _ node _ _ tag closing below after _ _ _ hchildren hleaf hawaits hlast
      hform hsame hnames _ _ ihBelow ihRest =>
      have htags : (node :: after).flatMap Node.tags ++ rest =
          tag :: (below.flatMap Node.tags ++ closing :: (after.flatMap Node.tags ++ rest)) := by
        rw [List.flatMap_cons, Node.tags_of_children (by simp [hchildren]), hchildren]
        simp [Node.tags_of_leafTag? hleaf.tag, Node.tags_of_leafTag? hlast.tag]
      rw [htags, Rules.openAfter_of_awaits hawaits] at hopen ⊢
      obtain ⟨hstack, hnotes⟩ := ihBelow hopen
      rw [hstack] at hopen ⊢
      -- what is open inside would have to be closed first
      have hinside : inside = [] := by
        cases inside with
        | nil => rfl
        | cons name inside =>
            rw [List.cons_append, Rules.openAfter_of_closing hform,
              hnames name List.mem_cons_self] at hopen
            exact absurd rfl hopen
      rw [hinside, List.nil_append, Rules.openAfter_of_closing hform, if_pos hsame] at hopen ⊢
      obtain ⟨hafter, hmore⟩ := ihRest hopen
      exact ⟨hafter, fun htail => by rw [hnotes hinside, hmore htail]; rfl⟩
  | @unclosed _ _ node _ tag below _ _ hchildren hleaf hawaits _ ih =>
      have htags : [node].flatMap Node.tags ++ rest =
          tag :: (below.flatMap Node.tags ++ rest) := by
        rw [List.flatMap_singleton, Node.tags_of_children (by simp [hchildren]), hchildren,
          List.flatMap_cons, Node.tags_of_leafTag? hleaf.tag]
        rfl
      rw [htags, Rules.openAfter_of_awaits hawaits] at hopen ⊢
      obtain ⟨hstack, -⟩ := ih hopen
      refine ⟨?_, fun htail => by simp at htail⟩
      rw [hstack, List.append_assoc, List.singleton_append]

/-- Nothing is reported of siblings outside all elements exactly if their tags that pair are well
nested. -/
theorem notes_eq_nil_iff (h : Outline rules [] nodes tail notes) :
    notes = [] ↔ rules.Nested ((nodes.flatMap Node.tags).filter rules.pairs) := by
  refine ⟨h.nested_of_notes, fun hnested => ?_⟩
  have hopen : rules.openAfter [] (nodes.flatMap Node.tags ++ []) = some [] := by
    have hall := hnested.openAfter_append [] []
    rwa [List.append_nil, Rules.openAfter_filter, ← List.append_nil (nodes.flatMap _)] at hall
  obtain ⟨hstack, hnotes⟩ := h.notes_of_openAfter (by rw [hopen]; simp)
  rw [hopen, Rules.openAfter, List.append_nil] at hstack
  exact hnotes (Option.some.inj hstack).symm

end Outline

end Markup

end ConcreteSyntax
