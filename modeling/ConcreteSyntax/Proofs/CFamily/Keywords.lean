import ConcreteSyntax.Proofs.CFamily.Brackets

/-!
# Words in front of colons

A message in brackets begins with its receiver, and goes on with words that have a colon right behind
them.  Where passes regroup what is in the brackets, these words stay what they are
(`Regroups.keywordsOf_eq`), and so does the first of them behind the receiver
(`Regroups.exists_isMessage`).
-/

namespace ConcreteSyntax

namespace CFamily

/-! ## Receivers -/

/-- Whether kinds are those of the receiver of a message: anything alone, or what dots and arrows
join. -/
inductive IsReceiver : List Kind → Prop
  | single (kind : Kind) : IsReceiver [kind]
  | member {part mark : Kind} {rest : List Kind} (hmark : mark = .dot ∨ mark = .arrow)
      (hrest : IsReceiver rest) : IsReceiver (part :: mark :: rest)

variable {kinds front run behind : List Kind} {made : Kind}

theorem jointKinds_of_mark {mark : Kind} (hmark : mark = .dot ∨ mark = .arrow) :
    jointKinds.contains mark = true := by
  rcases hmark with rfl | rfl <;> decide

theorem not_jointKinds_of_bracketKinds {kind : Kind} (h : bracketKinds.contains kind = true) :
    jointKinds.contains kind = false :=
  KindSet.not_contains_of_disjoint (by decide) h

/-- What begins a chain and ends in brackets may be put together. -/
theorem IsReceiver.wrap_front (h : IsReceiver (run ++ behind)) (hrun : EndsInBrackets run) :
    IsReceiver (made :: behind) := by
  obtain ⟨last, hlast, hkind⟩ := hrun.last
  clear hrun
  generalize hkinds : run ++ behind = kinds at h
  induction h generalizing run with
  | single kind =>
      cases run with
      | nil => cases hlast
      | cons first run =>
          obtain ⟨-, hnil⟩ := List.cons.inj hkinds
          rw [(List.append_eq_nil_iff.1 hnil).2]
          exact .single made
  | @member part mark rest hmark hrest ih =>
      rcases run with - | ⟨first, - | ⟨second, - | ⟨third, run⟩⟩⟩
      · cases hlast
      · obtain ⟨-, rfl⟩ := List.cons.inj hkinds
        exact .member hmark hrest
      · obtain ⟨-, hsecond⟩ := List.cons.inj hkinds
        obtain ⟨rfl, -⟩ := List.cons.inj hsecond
        have hsame : second = last := Option.some.inj hlast
        rw [← hsame] at hkind
        cases (not_jointKinds_of_bracketKinds hkind).symm.trans (jointKinds_of_mark hmark)
      · obtain ⟨-, hsecond⟩ := List.cons.inj hkinds
        obtain ⟨-, hthird⟩ := List.cons.inj hsecond
        exact ih (by simpa using hlast) hthird

/-- What a pass finds in a receiver leaves one. -/
theorem IsReceiver.wrap (h : IsReceiver (front ++ (run ++ behind))) (hrun : IsEnclosed run) :
    IsReceiver (front ++ made :: behind) := by
  generalize hkinds : front ++ (run ++ behind) = kinds at h
  obtain ⟨first, rest, rfl⟩ : ∃ first rest, run = first :: rest := by
    obtain ⟨last, hlast, -⟩ := hrun.last
    cases run with
    | nil => cases hlast
    | cons first rest => exact ⟨first, rest, rfl⟩
  induction h generalizing front with
  | single kind =>
      cases front with
      | nil => exact IsReceiver.wrap_front (hkinds ▸ .single kind) hrun.toEndsInBrackets
      | cons other front => simp at hkinds
  | @member part mark others hmark hothers ih =>
      rcases front with - | ⟨other, - | ⟨second, front⟩⟩
      · have hwhole : IsReceiver (first :: rest ++ behind) := by
          rw [← List.nil_append (first :: rest ++ behind), hkinds]
          exact .member hmark hothers
        exact hwhole.wrap_front hrun.toEndsInBrackets
      · -- the run would begin with a mark
        obtain ⟨-, hsecond⟩ := List.cons.inj hkinds
        obtain ⟨rfl, -⟩ := List.cons.inj hsecond
        cases (hrun.first _ rfl).symm.trans (jointKinds_of_mark hmark)
      · obtain ⟨-, hsecond⟩ := List.cons.inj hkinds
        obtain ⟨rfl, hrest⟩ := List.cons.inj hsecond
        exact .member hmark (ih hrest)

theorem dropMembers_of_not {part : Node} (h : isChainMark part = false) (rest : List Node) :
    dropMembers (part :: rest) = part :: rest := by
  cases rest <;> simp [dropMembers, h]

/-- Behind its receiver a message goes on. -/
theorem afterReceiver_append {receiver : List Node} {part : Node}
    (h : IsReceiver (receiver.map (·.kind))) (hpart : isChainMark part = false)
    (rest : List Node) : afterReceiver (receiver ++ part :: rest) = part :: rest := by
  generalize hkinds : receiver.map (·.kind) = kinds at h
  induction h generalizing receiver with
  | single kind =>
      obtain ⟨first, rfl, -⟩ := List.map_eq_singleton_iff.1 hkinds
      exact dropMembers_of_not hpart rest
  | @member _ mark _ hmark hothers ih =>
      obtain ⟨first, others, rfl, -, hmarked⟩ := List.map_eq_cons_iff.1 hkinds
      obtain ⟨joint, members, rfl, rfl, hmembers⟩ := List.map_eq_cons_iff.1 hmarked
      have hjoint : isChainMark joint = true := by simpa [isChainMark] using hmark
      cases members with
      | nil =>
          obtain rfl := List.map_nil.symm.trans hmembers
          cases hothers
      | cons member members =>
          calc dropMembers (joint :: member :: (members ++ part :: rest))
              = dropMembers (members ++ part :: rest) := by rw [dropMembers, if_pos hjoint]
            _ = part :: rest := ih hmembers

/-! ## Words in front of colons -/

/-- Whether an identifier and a colon are next to each other. -/
def isKeyword (first second : Kind) : Bool := first = .text && second = .colon

/-- The identifiers right in front of a colon. -/
def keywordsOf {α : Type} (kind : α → Kind) : List α → List α
  | first :: second :: rest =>
      if isKeyword (kind first) (kind second) then first :: keywordsOf kind (second :: rest)
      else keywordsOf kind (second :: rest)
  | _ => []

section

variable {α : Type} {kind : α → Kind} {left right items : List α} {item : α}

theorem isKeyword_of_ne_text {first second : Kind} (h : first ≠ .text) :
    isKeyword first second = false := by
  simp [isKeyword, h]

theorem isKeyword_of_ne_colon {first second : Kind} (h : second ≠ .colon) :
    isKeyword first second = false := by
  simp [isKeyword, h]

theorem keywordsOf_map {β : Type} (f : β → α) (items : List β) :
    keywordsOf kind (items.map f) = (keywordsOf (kind ∘ f) items).map f := by
  fun_induction keywordsOf (kind ∘ f) items with
  | case1 first second rest hkeyword ih =>
      rw [List.map_cons, List.map_cons, keywordsOf, ← List.map_cons, ih]
      exact if_pos hkeyword
  | case2 first second rest hkeyword ih =>
      rw [List.map_cons, List.map_cons, keywordsOf, ← List.map_cons, ih]
      exact if_neg hkeyword
  | case3 items hitems =>
      rcases items with - | ⟨first, - | ⟨second, rest⟩⟩
      · rfl
      · rfl
      · exact absurd rfl (hitems first second rest)

theorem keywordsOf_append
    (h : ∀ last ∈ left.getLast?, ∀ first ∈ right.head?,
      isKeyword (kind last) (kind first) = false) :
    keywordsOf kind (left ++ right) = keywordsOf kind left ++ keywordsOf kind right := by
  fun_induction keywordsOf kind left with
  | case1 first second rest hkeyword ih =>
      rw [List.cons_append, List.cons_append, keywordsOf, if_pos hkeyword, ← List.cons_append,
        ih (by simpa using h), List.cons_append]
  | case2 first second rest hkeyword ih =>
      rw [List.cons_append, List.cons_append, keywordsOf, if_neg hkeyword, ← List.cons_append,
        ih (by simpa using h)]
  | case3 left hleft =>
      rcases left with - | ⟨first, - | ⟨second, left⟩⟩
      · rfl
      · cases right with
        | nil => rfl
        | cons second right =>
            have hnot := h first rfl second rfl
            rw [List.cons_append, List.nil_append, keywordsOf,
              if_neg (Bool.not_eq_true _ ▸ hnot)]
            rfl
      · exact absurd rfl (hleft first second left)

/-- What is no identifier does not count. -/
theorem keywordsOf_skip (h : kind item ≠ .text) (items : List α) :
    keywordsOf kind (item :: items) = keywordsOf kind items := by
  have hnot : ∀ last ∈ [item].getLast?, ∀ first ∈ items.head?,
      isKeyword (kind last) (kind first) = false := by
    intro last hlast first _
    obtain rfl := Option.some.inj hlast
    exact isKeyword_of_ne_text h
  exact keywordsOf_append hnot

/-- An identifier counts exactly if a colon is next. -/
theorem keywordsOf_eq_nil_iff :
    keywordsOf kind items = [] ↔ ¬[.text, .colon] <:+: items.map kind := by
  fun_induction keywordsOf kind items with
  | case1 first second rest hkeyword ih =>
      rw [isKeyword, Bool.and_eq_true, decide_eq_true_iff, decide_eq_true_iff] at hkeyword
      rw [List.map_cons, List.map_cons, hkeyword.1, hkeyword.2, List.infix_cons_iff]
      simp
  | case2 first second rest hkeyword ih =>
      have hnot : ¬[.text, .colon] <+: kind first :: (second :: rest).map kind := by
        intro hfront
        rw [List.map_cons, List.cons_prefix_cons, List.cons_prefix_cons] at hfront
        simp [isKeyword, ← hfront.1, ← hfront.2.1] at hkeyword
      calc keywordsOf kind (second :: rest) = []
          ↔ ¬[.text, .colon] <:+: (second :: rest).map kind := ih
        _ ↔ ¬[.text, .colon] <:+: kind first :: (second :: rest).map kind := by
          rw [List.infix_cons_iff, or_iff_right hnot]
  | case3 items hitems =>
      refine ⟨fun _ hpair => ?_, fun _ => rfl⟩
      have hlength := hpair.length_le
      rw [List.length_map] at hlength
      match items, hitems with
      | [], _ | [_], _ => simp at hlength
      | first :: second :: rest, hitems => exact hitems first second rest rfl

theorem mem_keywordsOf (h : item ∈ keywordsOf kind items) : item ∈ items ∧ kind item = .text := by
  fun_induction keywordsOf kind items with
  | case1 first second rest hkeyword ih =>
      rw [isKeyword, Bool.and_eq_true, decide_eq_true_iff] at hkeyword
      rcases List.mem_cons.1 h with rfl | hrest
      · exact ⟨List.mem_cons_self .., hkeyword.1⟩
      · exact ⟨List.mem_cons_of_mem _ (ih hrest).1, (ih hrest).2⟩
  | case2 first second rest hkeyword ih => exact ⟨List.mem_cons_of_mem _ (ih h).1, (ih h).2⟩
  | case3 => cases h

theorem keywordsOf_of_no_colon (h : .colon ∉ items.map kind) : keywordsOf kind items = [] := by
  rw [keywordsOf_eq_nil_iff]
  intro hpair
  exact h (hpair.subset (by simp))

end

variable {left right labels labels' receiver rest : List Label} {word mark : Label}

theorem EndsInBrackets.exists_last {run : List Label} (h : EndsInBrackets (run.map (·.kind))) :
    ∃ front last, run = front ++ [last] ∧ bracketKinds.contains last.kind = true := by
  obtain ⟨kind, hkinds, hkind⟩ := h.last
  rw [List.getLast?_map] at hkinds
  obtain ⟨last, hlast, rfl⟩ := Option.map_eq_some_iff.1 hkinds
  obtain ⟨front, rfl⟩ := List.getLast?_eq_some_iff.1 hlast
  exact ⟨front, last, rfl, hkind⟩

/-- Siblings without a colon that do not end in a word neither have nor hide a word in front of
one. -/
theorem keywordsOf_middle {front : List Label} {last : Label} (htext : last.kind ≠ .text)
    (hcolon : .colon ∉ (front ++ [last]).map (·.kind)) :
    keywordsOf Label.kind (left ++ (front ++ [last] ++ right)) =
      keywordsOf Label.kind left ++ keywordsOf Label.kind right := by
  have hright : ∀ final ∈ (front ++ [last]).getLast?, ∀ first ∈ right.head?,
      isKeyword final.kind first.kind = false := by
    intro final hfinal first _
    rw [List.getLast?_concat] at hfinal
    obtain rfl := Option.some.inj hfinal
    exact isKeyword_of_ne_text htext
  have hleft : ∀ final ∈ left.getLast?, ∀ first ∈ (front ++ [last] ++ right).head?,
      isKeyword final.kind first.kind = false := by
    intro final _ first hfirst
    apply isKeyword_of_ne_colon
    rintro hkind
    refine hcolon (List.mem_map.2 ⟨first, ?_, hkind⟩)
    rw [List.head?_append_of_ne_nil _ (by simp)] at hfirst
    exact List.mem_of_head? hfirst
  rw [keywordsOf_append hleft, keywordsOf_append hright, keywordsOf_of_no_colon hcolon,
    List.nil_append]

/-- A run that a pass finds may be put together. -/
theorem keywordsOf_wrap {run : List Label} {made : Label}
    (hrun : EndsInBrackets (run.map (·.kind)))
    (hmade : KindSet.synthesized.contains made.kind = true) :
    keywordsOf Label.kind (left ++ made :: right) =
      keywordsOf Label.kind (left ++ (run ++ right)) := by
  obtain ⟨front, last, rfl, hlast⟩ := hrun.exists_last
  have htext {label : Label} {kinds : KindSet} (hlabel : kinds.contains label.kind = true)
      (hkinds : kinds.contains .text = false) : label.kind ≠ .text := by
    rintro heq
    rw [heq, hkinds] at hlabel
    cases hlabel
  have hcolon : .colon ∉ (([] : List Label) ++ [made]).map (·.kind) := by
    rw [List.nil_append, List.map_singleton, List.mem_singleton]
    rintro heq
    rw [← heq] at hmade
    exact absurd hmade (by decide)
  rw [keywordsOf_middle (htext hlast (by decide)) hrun.colon,
    ← keywordsOf_middle (htext hmade (by decide)) hcolon]
  rfl

/-! ## What analysis leaves of a message -/

/-- Labels of a message: its receiver, and behind that a word with its colon. -/
structure IsMessage (labels receiver : List Label) (word mark : Label) (rest : List Label) :
    Prop where
  split : labels = receiver ++ word :: mark :: rest
  receiver : IsReceiver (receiver.map (·.kind))
  word : word.kind = .text
  mark : mark.kind = .colon

/-- Neither the word nor its colon becomes part of a run. -/
theorem IsMessage.not_in_run {run front behind : List Label}
    (h : IsMessage labels receiver word mark rest) (hrun : EndsInBrackets (run.map (·.kind)))
    (hword : run = front ++ word :: behind) (hmark : behind ++ right = mark :: rest) : False := by
  cases behind with
  | nil =>
      obtain ⟨others, last, hlast, hkind⟩ := hrun.exists_last
      obtain ⟨-, hsame⟩ := List.append_inj' (hword.symm.trans hlast) rfl
      rw [← List.singleton_inj.1 hsame, h.word] at hkind
      exact absurd hkind (by decide)
  | cons first behind =>
      obtain ⟨rfl, -⟩ := List.cons.inj hmark
      apply hrun.colon
      rw [hword, ← h.mark]
      simp

theorem IsMessage.wrap {run : List Label} {made : Label}
    (h : IsMessage (left ++ (run ++ right)) receiver word mark rest)
    (hrun : IsEnclosed (run.map (·.kind))) :
    ∃ receiver' rest', IsMessage (left ++ made :: right) receiver' word mark rest' := by
  obtain ⟨first, others, rfl⟩ : ∃ first others, run = first :: others := by
    obtain ⟨front, last, rfl, -⟩ := hrun.exists_last
    exact List.exists_cons_of_ne_nil (by simp)
  obtain ⟨middle, hreceiver, hmiddle⟩ | ⟨middle, rfl, hrest⟩ := List.append_eq_append_iff.1 h.split
  · rcases List.append_eq_append_iff.1 hmiddle with ⟨members, rfl, rfl⟩ | ⟨cut, hcut, hbehind⟩
    · -- the run is part of the receiver
      refine ⟨left ++ made :: members, rest, by simp, ?_, h.word, h.mark⟩
      have hwhole := h.receiver
      rw [hreceiver, List.map_append, List.map_append] at hwhole
      rw [List.map_append, List.map_cons]
      exact hwhole.wrap hrun
    · cases cut with
      | nil =>
          rw [List.append_nil] at hcut
          refine ⟨left ++ [made], rest, by simp [hbehind], ?_, h.word, h.mark⟩
          have hwhole := h.receiver
          rw [hreceiver, ← hcut, List.map_append, ← List.append_nil (List.map _ (first :: others))]
            at hwhole
          rw [List.map_append]
          exact hwhole.wrap hrun
      | cons other cut =>
          obtain ⟨rfl, hmark⟩ := List.cons.inj hbehind
          exact (h.not_in_run hrun.toEndsInBrackets hcut hmark.symm).elim
  · rcases middle with - | ⟨other, - | ⟨second, middle⟩⟩
    · obtain ⟨rfl, hmark⟩ := List.cons.inj hrest
      have hword : word :: others = [] ++ word :: others := rfl
      exact (h.not_in_run hrun.toEndsInBrackets hword hmark.symm).elim
    · obtain ⟨-, hmark⟩ := List.cons.inj hrest
      obtain ⟨rfl, -⟩ := List.cons.inj hmark
      exact absurd (by simp [h.mark]) hrun.colon
    · obtain ⟨rfl, hmark⟩ := List.cons.inj hrest
      obtain ⟨rfl, -⟩ := List.cons.inj hmark
      exact ⟨receiver, middle ++ made :: right, by simp, h.receiver, h.word, h.mark⟩

theorem IsEnclosed.filter {run : List Label} (h : IsEnclosed (run.map (·.kind))) :
    IsEnclosed ((run.filter (·.kind != .delimiter)).map (·.kind)) where
  last := by
    obtain ⟨front, last, rfl, hkind⟩ := h.exists_last
    have hkept : last.kind ≠ .delimiter := by
      rintro hdelimiter
      rw [hdelimiter] at hkind
      exact absurd hkind (by decide)
    exact ⟨last.kind, by simp [hkept], hkind⟩
  colon hcolon := by
    obtain ⟨label, hlabel, hkind⟩ := List.mem_map.1 hcolon
    exact h.colon (List.mem_map.2 ⟨label, List.mem_of_mem_filter hlabel, hkind⟩)
  first kind hkind := by
    cases run with
    | nil => cases hkind
    | cons head rest =>
        have hhead := h.first head.kind rfl
        have hkept : (head.kind != .delimiter) = true := by
          rw [bne_iff_ne]
          rintro hdelimiter
          rw [hdelimiter] at hhead
          exact absurd hhead (by decide)
        rw [List.filter_cons, if_pos hkept] at hkind
        obtain rfl := Option.some.inj hkind
        exact hhead

/-- Without the brackets themselves, what stands between them is regrouped, too. -/
theorem Regroups.filter (h : Regroups labels labels') :
    Regroups (labels.filter (·.kind != .delimiter)) (labels'.filter (·.kind != .delimiter)) := by
  induction h with
  | refl => exact .refl
  | @wrap front run behind made _ hrun hmade ih =>
      have hkept : (made.kind != .delimiter) = true := by
        rw [bne_iff_ne]
        rintro hkind
        rw [hkind] at hmade
        exact absurd hmade (by decide)
      rw [List.filter_append, List.filter_append] at ih
      rw [List.filter_append, List.filter_cons, if_pos hkept]
      exact ih.wrap hrun.filter hmade

theorem Regroups.keywordsOf_eq (h : Regroups labels labels') :
    keywordsOf Label.kind labels' = keywordsOf Label.kind labels := by
  induction h with
  | refl => rfl
  | wrap _ hrun hmade ih => rw [keywordsOf_wrap hrun.toEndsInBrackets hmade, ih]

theorem Regroups.exists_isMessage (h : Regroups labels labels')
    (hmessage : IsMessage labels receiver word mark rest) :
    ∃ receiver' rest', IsMessage labels' receiver' word mark rest' := by
  induction h with
  | refl => exact ⟨receiver, rest, hmessage⟩
  | wrap _ hrun _ ih =>
      obtain ⟨_, _, hregrouped⟩ := ih
      exact hregrouped.wrap hrun

/-- In a receiver there is no keyword. -/
theorem keywordsOf_receiver (h : IsReceiver (receiver.map (·.kind))) (hword : word.kind = .text) :
    keywordsOf Label.kind (receiver ++ word :: rest) = keywordsOf Label.kind (word :: rest) := by
  generalize hkinds : receiver.map (·.kind) = kinds at h
  induction h generalizing receiver with
  | single kind =>
      obtain ⟨first, rfl, -⟩ := List.map_eq_singleton_iff.1 hkinds
      rw [List.singleton_append, keywordsOf, if_neg (by simp [isKeyword, hword])]
  | @member _ mark _ hmark hothers ih =>
      obtain ⟨first, others, rfl, -, hmarked⟩ := List.map_eq_cons_iff.1 hkinds
      obtain ⟨joint, members, rfl, rfl, hmembers⟩ := List.map_eq_cons_iff.1 hmarked
      have hjoint : joint.kind ≠ .colon ∧ joint.kind ≠ .text := by
        rcases hmark with hmark | hmark <;> simp [hmark]
      rw [← ih hmembers, List.cons_append, List.cons_append, keywordsOf,
        isKeyword_of_ne_colon hjoint.1, if_neg Bool.false_ne_true, keywordsOf_skip hjoint.2]

end CFamily

end ConcreteSyntax
