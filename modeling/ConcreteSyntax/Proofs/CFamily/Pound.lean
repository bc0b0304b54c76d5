import ConcreteSyntax.Proofs.Scan.Barrier
import ConcreteSyntax.Proofs.Scan.Catalogues
import Mathlib.Data.List.TakeWhile

/-!
# The pound sign in the C family

The pound sign is a barrier for the languages of the C family: nothing that begins before it goes
on through it, and at the pound sign itself only directives look at what follows
(`Language.sparesDirectives_table`).
-/

namespace ConcreteSyntax

/-! ## Patterns in front of a barrier -/

section

variable {barrier : Char} {test : Char → Bool}

theorem takeWhile_before (h : test barrier = false) (front behind : List Char) :
    (front ++ barrier :: behind).takeWhile test = front.takeWhile test := by
  induction front with
  | nil => simp [h]
  | cons c front ih => simp only [List.cons_append, List.takeWhile_cons, ih]

theorem dropWhile_before (h : test barrier = false) (front behind : List Char) :
    (front ++ barrier :: behind).dropWhile test = front.dropWhile test ++ barrier :: behind := by
  induction front with
  | nil => simp [h]
  | cons c front ih =>
      simp only [List.cons_append, List.dropWhile_cons, ih]
      split <;> rfl

theorem isPrefixOf_before {text : List Char} (h : barrier ∉ text) (front behind : List Char) :
    text.isPrefixOf (front ++ barrier :: behind) = text.isPrefixOf front := by
  induction text generalizing front with
  | nil => rw [List.isPrefixOf_nil_left, List.isPrefixOf_nil_left]
  | cons c text ih =>
      rw [List.mem_cons, not_or] at h
      cases front with
      | nil =>
          rw [List.nil_append, List.isPrefixOf_cons_cons, beq_eq_false_iff_ne.2 (Ne.symm h.1)]
          rfl
      | cons d front =>
          rw [List.cons_append, List.isPrefixOf_cons_cons, List.isPrefixOf_cons_cons, ih h.2]

namespace Pattern

theorem endsAt_literal {text : List Char} (h : barrier ∉ text.tail) :
    (literal text).EndsAt barrier := by
  intro left front behind hfront
  obtain ⟨c, front, rfl⟩ := List.exists_cons_of_ne_nil hfront
  have hprefix : text.isPrefixOf (c :: front ++ barrier :: behind) = text.isPrefixOf (c :: front) := by
    cases text with
    | nil => rw [List.isPrefixOf_nil_left, List.isPrefixOf_nil_left]
    | cons d text =>
        rw [List.cons_append, List.isPrefixOf_cons_cons, List.isPrefixOf_cons_cons,
          isPrefixOf_before (show barrier ∉ text from h)]
  simp only [length?, hprefix]

theorem endsAt_keyword {word : List Char} (hbarrier : Text.isIdentifier barrier = false)
    (h : barrier ∉ word) : (keyword word).EndsAt barrier := by
  intro left front behind _
  have hafter : word.isPrefixOf front = true →
      ((front ++ barrier :: behind).drop word.length).head?.any Text.isIdentifier =
        (front.drop word.length).head?.any Text.isIdentifier := by
    intro hprefix
    obtain ⟨after, rfl⟩ := List.isPrefixOf_iff_prefix.1 hprefix
    rw [List.append_assoc, List.drop_left, List.drop_left]
    cases after with
    | nil => simpa using hbarrier
    | cons c after => rfl
  simp only [length?, isPrefixOf_before h, Context.atWordBoundary]
  cases hprefix : word.isPrefixOf front with
  | false => simp
  | true =>
      rw [hafter hprefix]
      rfl

theorem misses_literal {text : List Char} (hne : text ≠ []) (h : text.head? ≠ some barrier) :
    (literal text).Misses barrier := by
  intro left behind
  obtain ⟨c, text, rfl⟩ := List.exists_cons_of_ne_nil hne
  have hc : (c == barrier) = false := beq_eq_false_iff_ne.2 fun heq => h (by rw [heq]; rfl)
  simp only [length?, List.isPrefixOf_cons_cons, hc, Bool.false_and, Bool.false_eq_true, if_false]

theorem misses_keyword {word : List Char} (hne : word ≠ []) (h : word.head? ≠ some barrier) :
    (keyword word).Misses barrier := by
  intro left behind
  obtain ⟨c, word, rfl⟩ := List.exists_cons_of_ne_nil hne
  have hc : (c == barrier) = false := beq_eq_false_iff_ne.2 fun heq => h (by rw [heq]; rfl)
  simp only [length?, List.isPrefixOf_cons_cons, hc, Bool.false_and, Bool.and_false,
    Bool.false_eq_true, if_false]

end Pattern

end

namespace CFamily

open Pattern

theorem endsAt_whitespace : (custom whitespace).EndsAt '#' := by
  intro left front behind _
  simp only [length?, whitespace, takeWhile_before (show isBlank '#' = false by decide)]

theorem endsAt_indenting : (custom indenting).EndsAt '#' := by
  intro left front behind hfront
  have hwhitespace := endsAt_whitespace left front behind hfront
  simp only [length?] at hwhitespace
  simp only [length?, indenting, hwhitespace, Context.atLineStart]
  rfl

theorem endsAt_number : (custom number).EndsAt '#' := by
  intro left front behind hfront
  obtain ⟨c, front, rfl⟩ := List.exists_cons_of_ne_nil hfront
  have hstops : (Text.isIdentifier '#' || '#' == '.') = false := by decide
  have hrun : ∀ front : List Char,
      (front ++ '#' :: behind).takeWhile (fun c => Text.isIdentifier c || c == '.') =
        front.takeWhile (fun c => Text.isIdentifier c || c == '.') := fun front =>
    takeWhile_before hstops front behind
  simp only [length?, number, Context.atWordBoundary, hrun]
  rfl

theorem operatorTail_before (front behind : List Char) :
    operatorTail (front ++ '#' :: behind) = operatorTail front := by
  have hends : ∀ c (front : List Char),
      endsOperator (c :: (front ++ '#' :: behind)) = endsOperator (c :: front) := by
    intro c front
    cases front with
    | nil => simp [endsOperator]
    | cons d front =>
        rw [List.cons_append]
        unfold endsOperator
        split <;> split <;> simp_all
  induction front with
  | nil => rfl
  | cons c front ih => simp only [List.cons_append, operatorTail, ih, hends]

theorem endsAt_operator : (custom operator).EndsAt '#' := by
  intro left front behind hfront
  obtain ⟨c, front, rfl⟩ := List.exists_cons_of_ne_nil hfront
  simp only [length?, operator, List.cons_append, operatorTail_before]

theorem endsAt_lineEnd : (custom lineEnd).EndsAt '#' := by
  intro left front behind hfront
  obtain ⟨c, front, rfl⟩ := List.exists_cons_of_ne_nil hfront
  rfl

/-! ## The word of a directive -/

/-- The word behind a pound sign and blanks. -/
def directiveWord (rest : List Char) : List Char :=
  (rest.dropWhile Text.isBlank).takeWhile Text.isIdentifier

/-- A name that a directive can have. -/
def IsWord (name : List Char) : Prop := name ≠ [] ∧ ∀ c ∈ name, Text.isIdentifier c = true

theorem takeWhile_of_all {test : Char → Bool} {front behind : List Char}
    (hfront : ∀ c ∈ front, test c = true) (hbehind : behind.head?.any test = false) :
    (front ++ behind).takeWhile test = front := by
  rw [List.takeWhile_append_of_pos hfront]
  cases behind with
  | nil => simp
  | cons c behind =>
      have hc : test c = false := by simpa using hbehind
      rw [List.takeWhile_cons, hc]
      simp

/-- A directive is recognised by the whole word behind its pound sign. -/
theorem directive_eq_some_iff {name : String} (hname : IsWord name.toList) {cx : Context}
    {n : Nat} :
    directive name cx = some n ↔
      cx.blank = true ∧ ∃ rest, cx.rest = '#' :: rest ∧ directiveWord rest = name.toList
        ∧ n = 1 + (rest.takeWhile Text.isBlank).length + name.toList.length := by
  have hlength : ∀ rest : List Char, rest.length = (rest.takeWhile Text.isBlank).length
      + (rest.dropWhile Text.isBlank).length := fun rest => by
    rw [← List.length_append, List.takeWhile_append_dropWhile]
  constructor
  · intro h
    unfold directive at h
    split at h
    · rename_i rest hblank hrest
      split at h
      · rename_i after hafter
        rw [Option.ite_none_left_eq_some, Option.some.injEq] at h
        obtain ⟨hnext, rfl⟩ := h
        have hword := List.isPrefixOf?_eq_some_iff_append_eq.1 hafter
        refine ⟨hblank, rest, hrest, ?_, ?_⟩
        · rw [directiveWord, ← hword]
          exact takeWhile_of_all hname.2 (by simpa using hnext)
        · have hsplit := hlength rest
          rw [← hword, List.length_append] at hsplit
          rw [hrest, List.length_cons]
          omega
      · cases h
    · cases h
  · rintro ⟨hblank, rest, hrest, hword, rfl⟩
    -- the word is taken as far as it goes, so no identifier character follows it
    let after := (rest.dropWhile Text.isBlank).dropWhile Text.isIdentifier
    have hsplit : name.toList ++ after = rest.dropWhile Text.isBlank := by
      rw [← hword]
      exact List.takeWhile_append_dropWhile
    have hafter : name.toList.isPrefixOf? (rest.dropWhile Text.isBlank) = some after :=
      List.isPrefixOf?_eq_some_iff_append_eq.2 hsplit
    have hnext : after.head?.any Text.isIdentifier = false := by
      have hstop := List.head?_dropWhile_not Text.isIdentifier (rest.dropWhile Text.isBlank)
      cases hhead : after.head? with
      | none => rfl
      | some c =>
          rw [show (rest.dropWhile Text.isBlank).dropWhile Text.isIdentifier = after from rfl,
            hhead] at hstop
          simpa using hstop
    have hcount := hlength rest
    rw [← hsplit, List.length_append] at hcount
    simp only [directive, hblank, hrest, hafter, hnext, List.length_cons, Bool.false_eq_true,
      if_false, Option.some.injEq]
    omega

theorem directiveWord_before (front behind : List Char) :
    directiveWord (front ++ '#' :: behind) = directiveWord front := by
  have hblank : Text.isBlank '#' = false := by decide
  have hidentifier : Text.isIdentifier '#' = false := by decide
  rw [directiveWord, dropWhile_before hblank, takeWhile_before hidentifier]
  rfl

theorem endsAt_directive {name : String} (hname : IsWord name.toList) :
    (custom (directive name)).EndsAt '#' := by
  intro left front behind hfront
  obtain ⟨c, front, rfl⟩ := List.exists_cons_of_ne_nil hfront
  have hblank : Text.isBlank '#' = false := by decide
  refine Option.ext fun n => ?_
  simp only [length?, directive_eq_some_iff hname, List.cons_append, List.cons.injEq]
  constructor
  · rintro ⟨hleft, _, ⟨rfl, rfl⟩, hword, rfl⟩
    rw [directiveWord_before] at hword
    exact ⟨hleft, front, ⟨rfl, rfl⟩, hword, by rw [takeWhile_before hblank]⟩
  · rintro ⟨hleft, _, ⟨rfl, rfl⟩, hword, rfl⟩
    exact ⟨hleft, _, ⟨rfl, rfl⟩, by rwa [directiveWord_before], by rw [takeWhile_before hblank]⟩

end CFamily

/-! ## Specs -/

/-- Whether a pattern neither goes on through a pound sign nor begins at one or at a line feed. -/
structure Pattern.IsTame (pattern : Pattern) : Prop where
  endsAt : pattern.EndsAt '#'
  pound : pattern.Misses '#'
  feed : pattern.Misses '\n'

namespace Spec

variable {spec : Spec} {kind : Kind}

/-- Whether a spec is that of a directive. -/
structure IsDirective (spec : Spec) (name : String) : Prop where
  word : CFamily.IsWord name.toList
  kind : KindSet.directives.contains spec.kind = true
  eq : spec = CFamily.directiveSpec spec.kind name

/-- Whether a spec leaves directives alone: it stops in front of a pound sign, and at one either
it is the spec of a directive or what follows does not matter.  A line feed is nothing to it, or a
leaf of its own. -/
structure SparesDirectives (spec : Spec) : Prop where
  stops : spec.StopsAt '#'
  feed : (∀ left behind, spec.recognise? ⟨left, '\n' :: behind⟩ = none)
    ∨ ∀ left behind, spec.recognise? ⟨left, '\n' :: behind⟩ = some (.leaf spec.kind 1)
  pound : (∃ name, spec.IsDirective name) ∨ KindSet.directives.contains spec.kind = false
    ∧ ∀ left behind behind',
      spec.recognise? ⟨left, '#' :: behind⟩ = spec.recognise? ⟨left, '#' :: behind'⟩

theorem recognise?_of_misses {c : Char} (hopening : spec.opening.Misses c)
    (hclosing : spec.shape ≠ .paired
      ∨ ∀ closing, spec.closing = some closing → closing.Misses c)
    (left : LeftContext) (behind : List Char) : spec.recognise? ⟨left, c :: behind⟩ = none := by
  simp only [recognise?, hopening left behind]
  split
  · rename_i closing hshape hsome
    rcases hclosing with hclosing | hclosing
    · exact absurd hshape hclosing
    · rw [hclosing closing hsome left behind]
  · rfl

theorem sparesDirectives_of_tame (hopening : spec.opening.IsTame)
    (hclosing : ∀ closing, spec.closing = some closing →
      closing.EndsAt '#' ∧ closing.Misses '#' ∧ (spec.shape = .paired → closing.Misses '\n'))
    (hkind : KindSet.directives.contains spec.kind = false) : spec.SparesDirectives where
  stops := ⟨hopening.endsAt, fun closing h => ⟨(hclosing closing h).1, (hclosing closing h).2.1⟩⟩
  feed := by
    refine .inl (recognise?_of_misses hopening.feed ?_)
    by_cases hshape : spec.shape = .paired
    · exact .inr fun closing h => (hclosing closing h).2.2 hshape
    · exact .inl hshape
  pound := by
    have hnone : ∀ left behind, spec.recognise? ⟨left, '#' :: behind⟩ = none :=
      recognise?_of_misses hopening.pound (.inr fun closing h => (hclosing closing h).2.1)
    exact .inr ⟨hkind, fun left behind behind' => by rw [hnone, hnone]⟩

/-- A spec without a closing marker leaves directives alone if its opening marker does. -/
theorem sparesDirectives_of_open (hopening : spec.opening.IsTame) (hclosing : spec.closing = none)
    (hkind : KindSet.directives.contains spec.kind = false) : spec.SparesDirectives := by
  refine sparesDirectives_of_tame hopening (fun closing h => ?_) hkind
  rw [hclosing] at h
  cases h

theorem sparesDirectives_literal {text : String} (h : text.toList = ['#'] ∨ '#' ∉ text.toList)
    (hfeed : text.toList = ['\n'] ∨ text.toList ≠ [] ∧ text.toList.head? ≠ some '\n')
    (hkind : KindSet.directives.contains kind = false) : (literal kind text).SparesDirectives where
  stops := by
    refine ⟨Pattern.endsAt_literal fun hmem => ?_, fun _ hclosing => by cases hclosing⟩
    rcases h with heq | hpound
    · rw [heq] at hmem
      cases hmem
    · exact hpound (List.mem_of_mem_tail hmem)
  feed := by
    rcases hfeed with heq | ⟨hne, hhead⟩
    · refine .inr fun left behind => ?_
      simp only [recognise?, literal, Pattern.length?, heq]
      rfl
    · exact .inl (recognise?_of_misses (Pattern.misses_literal hne hhead)
        (.inr fun _ hclosing => by cases hclosing))
  pound := by
    refine .inr ⟨hkind, fun left behind behind' => ?_⟩
    have hprefix : text.toList.isPrefixOf ('#' :: behind) =
        text.toList.isPrefixOf ('#' :: behind') := by
      rcases h with heq | hpound
      · rw [heq]
        rfl
      · exact (isPrefixOf_before hpound [] behind).trans (isPrefixOf_before hpound [] behind').symm
    simp only [recognise?, literal, Pattern.length?, hprefix]
    rfl

end Spec

namespace CFamily

open Pattern Spec

/-- Whether a marker of its own begins with neither a pound sign nor a line feed, and has no pound
sign in it. -/
def IsPlain (text : String) : Prop :=
  text.toList ≠ [] ∧ '#' ∉ text.toList ∧ text.toList.head? ≠ some '\n'

instance (text : String) : Decidable (IsPlain text) := inferInstanceAs (Decidable (_ ∧ _ ∧ _))

theorem IsPlain.head?_ne {text : String} (h : IsPlain text) : text.toList.head? ≠ some '#' :=
  fun heq => h.2.1 (List.mem_of_head? heq)

theorem isTame_literal {text : String} (h : IsPlain text) : (literal text.toList).IsTame :=
  ⟨endsAt_literal fun hmem => h.2.1 (List.mem_of_mem_tail hmem), misses_literal h.1 h.head?_ne,
    misses_literal h.1 h.2.2⟩

theorem isTame_keyword {word : String} (h : IsPlain word) : (keyword word.toList).IsTame :=
  ⟨endsAt_keyword (by decide) h.2.1, misses_keyword h.1 h.head?_ne, misses_keyword h.1 h.2.2⟩

theorem isTame_whitespace : (custom whitespace).IsTame :=
  ⟨endsAt_whitespace, fun _ _ => rfl, fun _ _ => rfl⟩

theorem isTame_indenting : (custom indenting).IsTame := by
  have hmisses : ∀ c, (∀ left behind, whitespace ⟨left, c :: behind⟩ = none) →
      (custom indenting).Misses c := by
    intro c h left behind
    simp only [length?, indenting, h left behind, ite_self]
  exact ⟨endsAt_indenting, hmisses _ fun _ _ => rfl, hmisses _ fun _ _ => rfl⟩

theorem isTame_number : (custom number).IsTame := by
  have hmisses : ∀ c : Char, c.isDigit = false → (custom number).Misses c := by
    intro c h left behind
    simp only [length?, number, List.head?_cons, Option.any_some, h, Bool.and_false,
      Bool.false_eq_true, if_false]
  exact ⟨endsAt_number, hmisses _ (by decide), hmisses _ (by decide)⟩

theorem isTame_operator : (custom operator).IsTame :=
  ⟨endsAt_operator, fun _ _ => rfl, fun _ _ => rfl⟩

theorem misses_lineEnd : (custom lineEnd).Misses '#' := fun _ _ => rfl

theorem sparesDirectives_keyword {kind : Kind} {word : String} (h : IsPlain word)
    (hkind : KindSet.directives.contains kind = false) :
    (Spec.keyword kind word).SparesDirectives :=
  sparesDirectives_of_open (isTame_keyword h) rfl hkind

/-- The spec of a pair of delimiters, with or without an escape. -/
theorem sparesDirectives_pair {spec : Spec} {opening closing : String} (hopening : IsPlain opening)
    (hclosing : IsPlain closing) (hspec : spec.opening = literal opening.toList)
    (hspec' : spec.closing = some (literal closing.toList))
    (hkind : KindSet.directives.contains spec.kind = false) : spec.SparesDirectives := by
  refine sparesDirectives_of_tame (hspec ▸ isTame_literal hopening) (fun found hfound => ?_) hkind
  obtain rfl := Option.some.inj (hspec'.symm.trans hfound)
  have htame := isTame_literal hclosing
  exact ⟨htame.endsAt, htame.pound, fun _ => htame.feed⟩

theorem shape_directiveSpec {kind : Kind} (h : KindSet.directives.contains kind = true)
    (name : String) : (directiveSpec kind name).shape = .delimitedContainer := by
  have hkind : (directiveSpec kind name).kind.isAtomic = false := Kind.isAtomic_of_directives h
  simp only [shape, hkind]
  rfl

theorem sparesDirectives_directiveSpec {kind : Kind} {name : String} (hname : IsWord name.toList)
    (hkind : KindSet.directives.contains kind = true) :
    (directiveSpec kind name).SparesDirectives where
  stops := by
    refine ⟨endsAt_directive hname, ?_⟩
    rintro _ ⟨⟩
    exact ⟨endsAt_lineEnd, misses_lineEnd⟩
  feed := by
    refine .inl (recognise?_of_misses (fun left behind => ?_) (.inl ?_))
    · change directive name _ = none
      unfold directive
      cases left.blank <;> rfl
    · rw [shape_directiveSpec hkind]
      decide
  pound := .inl ⟨name, hname, hkind, rfl⟩

/-! ## Catalogues -/

instance (name : List Char) : Decidable (IsWord name) :=
  decidable_of_iff (name ≠ [] ∧ name.all Text.isIdentifier = true)
    (and_congr_right' List.all_eq_true)

theorem sparesDirectives_basicSpecs : ∀ spec ∈ basicSpecs, spec.SparesDirectives := by
  simp only [basicSpecs, List.forall_mem_cons, List.not_mem_nil, false_imp_iff, implies_true,
    and_true]
  exact ⟨sparesDirectives_of_open isTame_whitespace rfl (by decide),
    sparesDirectives_of_open isTame_indenting rfl (by decide),
    sparesDirectives_literal (by decide) (by decide) (by decide),
    sparesDirectives_of_open isTame_number rfl (by decide),
    sparesDirectives_of_open isTame_operator rfl (by decide),
    sparesDirectives_pair (by decide) (by decide) rfl rfl (by decide),
    sparesDirectives_pair (by decide) (by decide) rfl rfl (by decide),
    sparesDirectives_pair (by decide) (by decide) rfl rfl (by decide)⟩

theorem sparesDirectives_literalSpecs {entries : List (Kind × String)}
    (h : ∀ entry ∈ entries, (entry.2.toList = ['#'] ∨ '#' ∉ entry.2.toList)
      ∧ (entry.2.toList ≠ [] ∧ entry.2.toList.head? ≠ some '\n')
      ∧ KindSet.directives.contains entry.1 = false) :
    ∀ spec ∈ literalSpecs entries, spec.SparesDirectives := by
  intro spec hspec
  simp only [literalSpecs, List.mem_map] at hspec
  obtain ⟨entry, hentry, rfl⟩ := hspec
  obtain ⟨hpound, hfeed, hkind⟩ := h entry hentry
  exact sparesDirectives_literal hpound (.inr hfeed) hkind

theorem sparesDirectives_keywordSpecs {entries : List (Kind × String)}
    (h : ∀ entry ∈ entries, IsPlain entry.2 ∧ KindSet.directives.contains entry.1 = false) :
    ∀ spec ∈ keywordSpecs entries, spec.SparesDirectives := by
  intro spec hspec
  simp only [keywordSpecs, List.mem_map] at hspec
  obtain ⟨entry, hentry, rfl⟩ := hspec
  exact sparesDirectives_keyword (h entry hentry).1 (h entry hentry).2

theorem sparesDirectives_literalAndCommentSpecs :
    ∀ spec ∈ literalAndCommentSpecs, spec.SparesDirectives := by
  simp only [literalAndCommentSpecs, List.forall_mem_cons, List.not_mem_nil, false_imp_iff,
    implies_true, and_true]
  refine ⟨sparesDirectives_of_open (isTame_literal (by decide)) rfl (by decide),
    sparesDirectives_pair (by decide) (by decide) rfl rfl (by decide),
    sparesDirectives_of_tame (isTame_literal (by decide)) ?_ (by decide),
    sparesDirectives_pair (by decide) (by decide) rfl rfl (by decide),
    sparesDirectives_pair (by decide) (by decide) rfl rfl (by decide)⟩
  rintro _ ⟨⟩
  exact ⟨endsAt_lineEnd, misses_lineEnd, fun hshape => absurd hshape (by decide)⟩

theorem sparesDirectives_directiveSpecs : ∀ spec ∈ directiveSpecs, spec.SparesDirectives := by
  simp only [directiveSpecs, List.forall_mem_cons, List.not_mem_nil, false_imp_iff,
    implies_true, and_true]
  refine ⟨?_, ?_, ?_, ?_, ?_, ?_, ?_, ?_, ?_, ?_, ?_, ?_⟩ <;>
    exact sparesDirectives_directiveSpec (by decide) (by decide)

theorem sparesDirectives_cSpecs : ∀ spec ∈ cSpecs, spec.SparesDirectives := by
  intro spec hspec
  simp only [cSpecs, List.mem_append] at hspec
  rcases hspec with (((hspec | hspec) | hspec) | hspec) | hspec
  · exact sparesDirectives_basicSpecs spec hspec
  · exact sparesDirectives_literalSpecs (by decide) spec hspec
  · exact sparesDirectives_literalAndCommentSpecs spec hspec
  · exact sparesDirectives_directiveSpecs spec hspec
  · exact sparesDirectives_keywordSpecs (by decide +kernel) spec hspec

theorem sparesDirectives_cppAdditions : ∀ spec ∈ cppAdditions, spec.SparesDirectives := by
  rw [cppAdditions, List.forall_mem_cons]
  exact ⟨sparesDirectives_of_open (isTame_literal (by decide)) rfl (by decide),
    sparesDirectives_keywordSpecs (by decide +kernel)⟩

theorem sparesDirectives_objcAdditions : ∀ spec ∈ objcAdditions, spec.SparesDirectives := by
  rw [objcAdditions, List.forall_mem_cons, List.forall_mem_cons]
  exact ⟨sparesDirectives_directiveSpec (by decide) (by decide),
    sparesDirectives_pair (by decide) (by decide) rfl rfl (by decide),
    sparesDirectives_keywordSpecs (by decide +kernel)⟩

end CFamily

/-! ## Tables -/

/-- The languages of the C family. -/
def Language.cFamily : List Language := [.c, .cpp, .objc, .objcpp]

namespace Table

/-- Whether all specs of a table leave directives alone, and all pound signs and line feeds are
recognised. -/
structure SparesDirectives (table : Table) : Prop where
  specs : ∀ spec ∈ table.candidates, spec.SparesDirectives
  chars : ∀ c ∈ ['#', '\n'], ∃ spec ∈ table.candidates, spec.opening = .literal [c]

/-- Whether a pattern is a character. -/
def isChar (c : Char) : Pattern → Bool
  | .literal text => text == [c]
  | _ => false

theorem sparesDirectives_ofCatalogue {specs : List Spec}
    (h : ∀ spec ∈ specs, spec.SparesDirectives)
    (hchars : ['#', '\n'].all (fun c => specs.any (isChar c ·.opening)) = true) :
    (ofCatalogue specs).SparesDirectives where
  specs spec hspec := h spec (mem_candidates_ofCatalogue.1 hspec)
  chars c hc := by
    obtain ⟨spec, hspec, hopening⟩ := List.any_eq_true.1 (List.all_eq_true.1 hchars c hc)
    refine ⟨spec, mem_candidates_ofCatalogue.2 hspec, ?_⟩
    unfold isChar at hopening
    split at hopening
    · rename_i text htext
      rw [htext, eq_of_beq hopening]
    · cases hopening

variable {table : Table}

theorem SparesDirectives.recognise?_ne_none (h : table.SparesDirectives) {c : Char}
    (hc : c ∈ ['#', '\n']) (left : LeftContext) (behind : List Char) :
    table.recognise? none ⟨left, c :: behind⟩ ≠ none := by
  intro hnone
  obtain ⟨spec, hspec, hopening⟩ := h.chars c hc
  have hmisses := recognise?_eq_none_iff.1 hnone spec hspec rfl
  have hlength : spec.opening.length? ⟨left, c :: behind⟩ = some 1 := by
    rw [hopening]
    simp [Pattern.length?]
  unfold Spec.recognise? at hmisses
  rw [hlength] at hmisses
  cases hshape : spec.shape <;> simp [hshape] at hmisses

theorem SparesDirectives.stopsAt (h : table.SparesDirectives) : table.StopsAt '#' :=
  ⟨fun spec hspec => (h.specs spec hspec).stops,
    h.recognise?_ne_none (List.mem_cons_self ..)⟩

/-- A line feed is a leaf of its own wherever it stands. -/
theorem SparesDirectives.exists_feed (h : table.SparesDirectives) :
    ∃ kind, ∀ left behind,
      table.recognise? none ⟨left, '\n' :: behind⟩ = some (.leaf kind 1) := by
  obtain ⟨found, hfound⟩ :=
    Option.ne_none_iff_exists'.1 (h.recognise?_ne_none (c := '\n') (by decide) .atStart [])
  obtain ⟨before, spec, after, hcandidates, _, hspec, hnone⟩ := exists_of_recognise? hfound
  have hspecs := h.specs
  rw [hcandidates] at hspecs
  refine ⟨spec.kind, fun left behind => List.findSome?_eq_some_iff.2
    ⟨before, spec, after, hcandidates, ?_, fun other hother => ?_⟩⟩
  · rcases (hspecs spec (by simp)).feed with hfeed | hfeed
    · rw [hfeed] at hspec
      cases hspec
    · exact hfeed left behind
  · rcases (hspecs other (by simp [hother])).feed with hfeed | hfeed
    · exact hfeed left behind
    · have := hnone other hother rfl
      rw [hfeed] at this
      cases this

end Table

open Spec in
theorem Language.sparesDirectives_table {language : Language} (h : language ∈ cFamily) :
    language.grammar.table.SparesDirectives := by
  have hcompose : ∀ {base additions : List Spec}, (∀ spec ∈ base, spec.SparesDirectives) →
      (∀ spec ∈ additions, spec.SparesDirectives) →
      ∀ spec ∈ compose base additions, spec.SparesDirectives := by
    intro base additions hbase hadditions spec hspec
    exact (mem_compose hspec).elim (hbase spec) (hadditions spec)
  have hcpp := hcompose CFamily.sparesDirectives_cSpecs CFamily.sparesDirectives_cppAdditions
  cases language with
  | c => exact Table.sparesDirectives_ofCatalogue CFamily.sparesDirectives_cSpecs (by decide +kernel)
  | cpp => exact Table.sparesDirectives_ofCatalogue hcpp (by decide +kernel)
  | objc =>
      exact Table.sparesDirectives_ofCatalogue
        (hcompose CFamily.sparesDirectives_cSpecs CFamily.sparesDirectives_objcAdditions) (by decide +kernel)
  | objcpp =>
      exact Table.sparesDirectives_ofCatalogue
        (hcompose hcpp CFamily.sparesDirectives_objcAdditions) (by decide +kernel)
  | html | xml | feed | propertyList => exact absurd h (by decide)

end ConcreteSyntax
