import ConcreteSyntax.Proofs.CFamily.Rules
import ConcreteSyntax.Proofs.Scan.Words
import ConcreteSyntax.Proofs.Tokens

/-!
# Words in a parsed text

In every language, words keep whole: no leaf of a parsed text begins between two identifier
characters (`Language.leaves_keep_words`).  Words keep apart from keywords and numbers by the rules
of these, and all other markers begin and end with characters that are not of words.
-/

namespace ConcreteSyntax

open Text Pattern

/-! ## Rules -/

/-- What is behind the front of a rest splits no word if the front does not end with one. -/
theorem Context.splitsWord_behind {cx : Context} {front after : List Char} {c : Char}
    (hrest : cx.rest = front ++ after) (hlast : front.getLast? = some c)
    (hc : isIdentifier c = false) : (cx.advance front.length).splitsWord = false := by
  refine splitsWord_advance (c := c) ?_ hc
  rw [hrest, List.take_left, hlast]

/-- What is behind the front of a rest splits no word if it does not begin with one. -/
theorem Context.splitsWord_before {cx : Context} {front after : List Char}
    (hrest : cx.rest = front ++ after) (hafter : after.head?.any isIdentifier = false) :
    (cx.advance front.length).splitsWord = false := by
  apply splitsWord_of_rest
  rw [advance, hrest, List.drop_left, hafter]

theorem isApart_run {test : Char → Bool} (htest : ∀ c, test c = true → isIdentifier c = false) :
    (custom fun cx =>
      if (cx.rest.takeWhile test).isEmpty then none
      else some (cx.rest.takeWhile test).length).IsApart := by
  have hrun : ∀ cx : Context, ∀ c ∈ cx.rest.takeWhile test, isIdentifier c = false :=
    fun cx c hc => htest c (List.mem_takeWhile_imp hc)
  constructor <;> intro cx n hlength <;>
    obtain ⟨hne, hn⟩ := Option.ite_none_left_eq_some.1 hlength <;>
    rw [List.isEmpty_iff] at hne
  · obtain ⟨c, run, hcons⟩ := List.exists_cons_of_ne_nil hne
    apply Context.splitsWord_of_rest
    rw [← List.takeWhile_append_dropWhile (p := test) (l := cx.rest), hcons]
    simpa using hrun cx c (by simp [hcons])
  · obtain rfl := Option.some.inj hn
    obtain ⟨c, hc⟩ := Option.isSome_iff_exists.1 (List.getLast?_isSome.2 hne)
    exact Context.splitsWord_behind List.takeWhile_append_dropWhile.symm hc
      (hrun cx c (List.mem_of_getLast? hc))

namespace CFamily

theorem not_isIdentifier_of_isBlank (c : Char) (h : isBlank c = true) :
    isIdentifier c = false := by
  simp only [isBlank, Bool.or_eq_true, beq_iff_eq] at h
  rcases h with ((rfl | rfl) | rfl) | rfl <;> decide

theorem not_isIdentifier_of_isOperator (c : Char) (h : isOperator c = true) :
    isIdentifier c = false := by
  simp only [isOperator, List.contains_iff_mem, List.mem_cons, List.not_mem_nil, or_false] at h
  rcases h with rfl | rfl | rfl | rfl | rfl | rfl <;> decide

theorem isApart_whitespace : (custom whitespace).IsApart :=
  isApart_run not_isIdentifier_of_isBlank

theorem isApart_indenting : (custom indenting).IsApart where
  starts cx n h := isApart_whitespace.starts cx n (Option.ite_none_right_eq_some.1 h).2
  ends cx n h := isApart_whitespace.ends cx n (Option.ite_none_right_eq_some.1 h).2

theorem isApart_number : (custom number).IsApart := by
  constructor <;> intro cx n hlength <;>
    obtain ⟨hbegins, hn⟩ := Option.ite_none_right_eq_some.1 hlength
  · simp only [Bool.and_eq_true, Context.atWordBoundary, Bool.not_eq_true'] at hbegins
    exact Context.splitsWord_of_previous hbegins.1
  · obtain rfl := Option.some.inj hn
    refine Context.splitsWord_before List.takeWhile_append_dropWhile.symm ?_
    have hstop := List.head?_dropWhile_not (fun c => isIdentifier c || c == '.') cx.rest
    cases hhead : (cx.rest.dropWhile fun c => isIdentifier c || c == '.').head? with
    | none => rfl
    | some c =>
        rw [hhead] at hstop
        simp only [Bool.or_eq_false_iff] at hstop
        exact hstop.1

theorem isOperator_of_mem_operatorTail {rest : List Char} :
    ∀ c ∈ rest.take (operatorTail rest), isOperator c = true := by
  induction rest with
  | nil => simp
  | cons c rest ih =>
      unfold operatorTail
      split
      · rename_i hc
        rw [Bool.and_eq_true] at hc
        rw [List.take_succ_cons, List.forall_mem_cons]
        exact ⟨hc.1, ih⟩
      · simp

theorem isApart_operator : (custom operator).IsApart := by
  constructor <;> intro cx n hlength
  · have hhead := head?_of_operator hlength
    apply Context.splitsWord_of_rest
    cases hrest : cx.rest.head? with
    | none => rfl
    | some c =>
        rw [hrest] at hhead
        exact not_isIdentifier_of_isOperator c hhead
  · simp only [length?, operator] at hlength
    split at hlength
    · cases hlength
    · rename_i c rest hrest
      obtain ⟨hc, hn⟩ := Option.ite_none_right_eq_some.1 hlength
      obtain rfl := Option.some.inj hn
      have hall : ∀ d ∈ c :: rest.take (operatorTail rest), isIdentifier d = false := by
        rw [List.forall_mem_cons]
        exact ⟨not_isIdentifier_of_isOperator c hc, fun d hd =>
          not_isIdentifier_of_isOperator d (isOperator_of_mem_operatorTail d hd)⟩
      obtain ⟨d, hd⟩ := Option.isSome_iff_exists.1
        (List.getLast?_isSome.2 (List.cons_ne_nil c (rest.take (operatorTail rest))))
      refine Context.splitsWord_advance (c := d) ?_ (hall d (List.mem_of_getLast? hd))
      rw [hrest, List.take_succ_cons, hd]

theorem isApart_directive (name : String) : (custom (directive name)).IsApart := by
  constructor <;> intro cx n hlength
  · apply Context.splitsWord_of_rest
    rw [head?_of_directive hlength]
    rfl
  · simp only [length?, directive] at hlength
    split at hlength
    · rename_i rest _ hrest
      split at hlength
      · rename_i after hafter
        obtain ⟨hhead, hn⟩ := Option.ite_none_left_eq_some.1 hlength
        obtain rfl := Option.some.inj hn
        have hsplit : cx.rest =
            ('#' :: (rest.takeWhile Text.isBlank ++ name.toList)) ++ after := by
          rw [hrest, List.cons_append, List.append_assoc,
            List.isPrefixOf?_eq_some_iff_append_eq.1 hafter, List.takeWhile_append_dropWhile]
        have hlength : cx.rest.length - after.length =
            ('#' :: (rest.takeWhile Text.isBlank ++ name.toList)).length := by
          rw [hsplit, List.length_append, Nat.add_sub_cancel]
        rw [hlength]
        exact Context.splitsWord_before hsplit (Bool.eq_false_iff.2 hhead)
      · cases hlength
    · cases hlength

theorem isApart_lineEnd : (custom lineEnd).IsApart := by
  have hplace : ∀ cx n, lineEnd cx = some n → cx.splitsWord = false ∧ n = 0 := by
    intro cx n hlength
    obtain ⟨hhead, hn⟩ := Option.ite_none_right_eq_some.1 hlength
    refine ⟨Context.splitsWord_of_rest ?_, (Option.some.inj hn).symm⟩
    rw [hhead]
    rfl
  refine ⟨fun cx n h => (hplace cx n h).1, fun cx n h => ?_⟩
  obtain ⟨happart, rfl⟩ := hplace cx n h
  exact happart

theorem IsRule.isApart {rule : Context → Option Nat} (h : IsRule rule) :
    (custom rule).IsApart := by
  cases h with
  | whitespace => exact isApart_whitespace
  | indenting => exact isApart_indenting
  | number => exact isApart_number
  | operator => exact isApart_operator
  | directive name => exact isApart_directive name

end CFamily

namespace Markup

theorem not_isIdentifier_of_isBlank (c : Char) (h : Text.isBlank c = true) :
    isIdentifier c = false := by
  simp only [Text.isBlank, Bool.or_eq_true, beq_iff_eq] at h
  rcases h with rfl | rfl <;> decide

theorem not_isIdentifier_of_isLineBreak {c : Char} (h : isLineBreak c = true) :
    isIdentifier c = false := by
  simp only [isLineBreak, Bool.or_eq_true, beq_iff_eq] at h
  rcases h with rfl | rfl <;> decide

theorem toNat_of_isIdentifier {c : Char} (h : isIdentifier c = true) :
    c.toNat = 36 ∨ 48 ≤ c.toNat ∧ c.toNat ≤ 122 := by
  have hword : (c.isUpper || c.isLower || c.isDigit || c == '_' || c == '$') = true := h
  simp only [Bool.or_eq_true, beq_iff_eq] at hword
  rcases hword with (((hupper | hlower) | hdigit) | rfl) | rfl
  · obtain ⟨hlow, hhigh⟩ := of_decide_eq_true hupper
    exact .inr ⟨Nat.le_trans (by decide) hlow, Nat.le_trans hhigh (by decide)⟩
  · obtain ⟨hlow, hhigh⟩ := Bool.and_eq_true_iff.1 hlower
    exact .inr ⟨Nat.le_trans (by decide) (of_decide_eq_true hlow),
      Nat.le_trans (of_decide_eq_true hhigh) (by decide)⟩
  · obtain ⟨hlow, hhigh⟩ := Bool.and_eq_true_iff.1 hdigit
    exact .inr ⟨of_decide_eq_true hlow, Nat.le_trans (of_decide_eq_true hhigh) (by decide)⟩
  · exact .inr (by decide)
  · exact .inl (by decide)

theorem not_isIdentifier_of_isWhitespace {c : Char} (h : isWhitespace c = true) :
    isIdentifier c = false := by
  rw [Bool.eq_false_iff]
  intro hword
  have hbounds := toNat_of_isIdentifier hword
  simp only [isWhitespace, whitespaceIntervals, List.any_cons, List.any_nil, Bool.or_eq_true,
    Bool.and_eq_true, decide_eq_true_eq, Bool.false_eq_true, or_false] at h
  omega

theorem eq_of_toLower {c : Char} (h : c.toLower = '<') : c = '<' := by
  unfold Char.toLower at h
  split at h
  · rename_i hupper
    have hval := congrArg (fun d : Char => d.val.toNat) h
    have hshift : ('a'.val - 'A'.val).toNat = 32 := by decide
    have hless : '<'.val.toNat = 60 := by decide
    have hlow : 65 ≤ c.val.toNat := hupper.1
    have hhigh : c.val.toNat ≤ 90 := hupper.2
    simp only [UInt32.toNat_add, hshift] at hval
    omega
  · exact h

theorem isApart_whitespace : (custom whitespace).IsApart :=
  isApart_run not_isIdentifier_of_isBlank

theorem isApart_indenting : (custom indenting).IsApart where
  starts cx n h := isApart_whitespace.starts cx n (Option.ite_none_right_eq_some.1 h).2
  ends cx n h := isApart_whitespace.ends cx n (Option.ite_none_right_eq_some.1 h).2

theorem isApart_newline : (custom newline).IsApart := by
  constructor <;> intro cx n hlength <;> simp only [length?, newline] at hlength <;>
    split at hlength
  · rename_i rest hrest
    exact Context.splitsWord_of_rest (by rw [hrest]; rfl)
  · rename_i c rest _ hrest
    apply Context.splitsWord_of_rest
    rw [hrest]
    exact not_isIdentifier_of_isLineBreak (Option.ite_none_right_eq_some.1 hlength).1
  · cases hlength
  · rename_i rest hrest
    obtain rfl := Option.some.inj hlength
    exact Context.splitsWord_advance (c := '\n') (by rw [hrest]; rfl) (by decide)
  · rename_i c rest _ hrest
    obtain ⟨hc, hn⟩ := Option.ite_none_right_eq_some.1 hlength
    obtain rfl := Option.some.inj hn
    exact Context.splitsWord_advance (c := c) (by rw [hrest]; rfl)
      (not_isIdentifier_of_isLineBreak hc)
  · cases hlength

/-- A tag ends behind its `>`, in front of the next `<`, or with the text. -/
theorem tagTail_cases (quote : Option Char) (rest : List Char) :
    (rest.take (tagTail quote rest)).getLast? = some '>'
      ∨ (rest.drop (tagTail quote rest)).head?.all (· == '<') = true := by
  fun_induction tagTail quote rest with
  | case1 => exact .inr rfl
  | case2 c rest mark ih | case5 c rest _ _ ih =>
      refine ih.imp (fun hlast => ?_) id
      rw [List.take_succ_cons, List.getLast?_cons, hlast]
      rfl
  | case3 rest => exact .inl rfl
  | case4 rest => exact .inr rfl

theorem exists_of_tag {cx : Context} {n : Nat} (h : tag cx = some n) :
    ∃ rest, cx.rest = '<' :: rest ∧ n = tagTail none rest + 1 := by
  unfold tag at h
  split at h
  · rename_i rest hrest
    exact ⟨rest, hrest, (Option.some.inj (Option.ite_none_right_eq_some.1 h).2).symm⟩
  · cases h

theorem isApart_tag : (custom tag).IsApart := by
  constructor <;> intro cx n hlength <;> obtain ⟨rest, hrest, rfl⟩ := exists_of_tag hlength
  · exact Context.splitsWord_of_rest (by rw [hrest]; rfl)
  · rcases tagTail_cases none rest with hlast | hnext
    · refine Context.splitsWord_advance (c := '>') ?_ (by decide)
      rw [hrest, List.take_succ_cons, List.getLast?_cons, hlast]
      rfl
    · apply Context.splitsWord_of_rest
      rw [Context.advance, hrest, List.drop_succ_cons]
      cases hhead : (rest.drop (tagTail none rest)).head? with
      | none => rfl
      | some c =>
          rw [hhead] at hnext
          rw [eq_of_beq hnext]
          rfl

theorem startsApart_doctype : (custom doctype).StartsApart := by
  intro cx n hlength
  obtain ⟨hequal, -⟩ := Option.ite_none_right_eq_some.1 hlength
  apply Context.splitsWord_of_rest
  cases hrest : cx.rest with
  | nil => rfl
  | cons c rest =>
      have hmap := eq_of_beq hequal
      rw [hrest] at hmap
      rw [eq_of_toLower (List.cons.inj hmap).1]
      rfl

theorem exists_of_xmlDeclaration {cx : Context} {n : Nat} (h : xmlDeclaration cx = some n) :
    ∃ rest, cx.rest = "<?xml".toList ++ rest ∧ rest.head?.any isWhitespace = true
      ∧ n = "<?xml".toList.length := by
  unfold xmlDeclaration at h
  dsimp only at h
  split at h
  · rename_i rest hrest
    obtain ⟨hspace, hn⟩ := Option.ite_none_right_eq_some.1 h
    exact ⟨rest, (List.isPrefixOf?_eq_some_iff_append_eq.1 hrest).symm, hspace,
      (Option.some.inj hn).symm⟩
  · cases h

theorem isApart_xmlDeclaration : (custom xmlDeclaration).IsApart := by
  constructor <;> intro cx n hlength <;>
    obtain ⟨rest, hrest, hspace, rfl⟩ := exists_of_xmlDeclaration hlength
  · exact Context.splitsWord_of_rest (by rw [hrest]; rfl)
  · obtain ⟨c, hc, hspace⟩ := (Option.any_eq_true _ _).1 hspace
    refine Context.splitsWord_before hrest ?_
    rw [hc]
    exact not_isIdentifier_of_isWhitespace hspace

theorem exists_of_entity {cx : Context} {n : Nat} (h : entity cx = some n) :
    ∃ body rest, cx.rest = ('&' :: body ++ [';']) ++ rest ∧ n = ('&' :: body ++ [';']).length
      ∧ ';' ∉ body ∧ isEntityBody body = true := by
  unfold entity at h
  split at h
  · rename_i rest hrest
    obtain ⟨hbody, hn⟩ := Option.ite_none_right_eq_some.1 h
    obtain rfl := Option.some.inj hn
    simp only [Bool.and_eq_true, decide_eq_true_eq] at hbody
    have hsplit := List.takeWhile_append_dropWhile (p := (· != ';')) (l := rest)
    have hstop := List.head?_dropWhile_not (· != ';') rest
    cases hbehind : rest.dropWhile (· != ';') with
    | nil =>
        rw [hbehind, List.append_nil] at hsplit
        rw [hsplit] at hbody
        exact absurd hbody.1 (Nat.lt_irrefl _)
    | cons c behind =>
        rw [hbehind] at hstop hsplit
        obtain rfl : c = ';' := by simpa using hstop
        have hsemicolon : ';' ∉ rest.takeWhile (· != ';') := fun hmem => by
          simpa using List.mem_takeWhile_imp hmem
        refine ⟨rest.takeWhile (· != ';'), behind, ?_, by simp, hsemicolon, hbody.2⟩
        rw [hrest]
        simpa using hsplit.symm
  · cases h

theorem isApart_entity : (custom entity).IsApart := by
  constructor <;> intro cx n hlength <;>
    obtain ⟨body, rest, hrest, rfl, -⟩ := exists_of_entity hlength
  · exact Context.splitsWord_of_rest (by rw [hrest]; rfl)
  · exact Context.splitsWord_behind hrest List.getLast?_concat (by decide)

end Markup

/-! ## Tables -/

namespace Spec

variable {spec : Spec}

theorem keepsWords_of_isApart (hopening : spec.opening.IsApart)
    (hclosing : ∀ closing, spec.closing = some closing → closing.IsApart) : spec.KeepsWords :=
  ⟨hopening.starts, fun _ => hopening.ends, hclosing⟩

theorem keepsWords_custom {kind : Kind} {rule : Context → Option Nat}
    (h : (Pattern.custom rule).IsApart) : (custom kind rule).KeepsWords :=
  keepsWords_of_isApart h nofun

/-- The markers of the C family need a look at their edges only. -/
theorem keepsWords_of_isRuled (h : spec.IsRuled)
    (hedges : (spec.opening.hasEdges && spec.closing.all Pattern.hasEdges) = true) :
    spec.KeepsWords := by
  rw [Bool.and_eq_true] at hedges
  refine keepsWords_of_isApart
    (Pattern.isApart_of_hasEdges hedges.1 fun rule hrule => (h.opening rule hrule).isApart)
    fun closing hclosing => ?_
  rw [hclosing] at hedges
  refine Pattern.isApart_of_hasEdges hedges.2 fun rule hrule => ?_
  obtain rfl := h.closing rule (hclosing.trans (congrArg some hrule))
  exact CFamily.isApart_lineEnd

theorem keepsWords_pair {kind : Kind} {opening closing : String}
    (hopening : (Pattern.literal opening.toList).hasEdges = true)
    (hclosing : (Pattern.literal closing.toList).hasEdges = true) :
    (pair kind opening closing).KeepsWords := by
  refine keepsWords_of_isApart (Pattern.isApart_of_hasEdges hopening nofun) ?_
  rintro _ ⟨⟩
  exact Pattern.isApart_of_hasEdges hclosing nofun

theorem KeepsWords.patching (h : spec.KeepsWords) (kinds : List Kind) :
    (spec.patching kinds).KeepsWords := ⟨h.starts, h.ends, h.closing⟩

end Spec

theorem Markup.keepsWords_specs : ∀ spec ∈ specs, spec.KeepsWords := by
  have hcloses : ∀ {text : List Char}, (literal text).hasEdges = true →
      ∀ closing, some (literal text) = some closing → closing.IsApart := by
    rintro text hedges _ ⟨⟩
    exact isApart_of_hasEdges hedges nofun
  simp only [specs, List.forall_mem_cons, List.not_mem_nil, false_imp_iff, implies_true, and_true]
  refine ⟨Spec.keepsWords_custom isApart_whitespace,
    (Spec.keepsWords_custom isApart_indenting).patching _, Spec.keepsWords_custom isApart_newline,
    Spec.keepsWords_custom isApart_tag, (Spec.keepsWords_pair (by decide) (by decide)).patching _,
    (Spec.keepsWords_pair (by decide) (by decide)).patching _, ⟨startsApart_doctype, ?_, ?_⟩,
    (Spec.keepsWords_pair (by decide) (by decide)).patching _,
    Spec.keepsWords_of_isApart isApart_xmlDeclaration (hcloses (by decide)),
    Spec.keepsWords_custom isApart_entity⟩
  · exact fun hshape => absurd rfl hshape
  · exact hcloses (by decide)

namespace Language

theorem keepsWords_table (language : Language) : language.grammar.table.KeepsWords := by
  have hedges : (CFamily.allSpecs.all fun spec =>
      spec.opening.hasEdges && spec.closing.all Pattern.hasEdges) = true := by decide +kernel
  have hfamily : language ∈ cFamily → language.grammar.table.KeepsWords := by
    intro h spec hspec
    exact Spec.keepsWords_of_isRuled (isRuled_table h spec hspec)
      (List.all_eq_true.1 hedges spec (mem_allSpecs h hspec))
  cases language with
  | c | cpp | objc | objcpp => exact hfamily (by decide)
  | html | xml | feed | propertyList =>
      exact fun spec hspec => Markup.keepsWords_specs spec (Table.mem_of_mem_candidates hspec)

end Language

/-! ## Tokens -/

/-- The tokens of a span follow one another where its fragments do. -/
theorem Span.chain_tokens {text : List Char} {inner : Kind → Range → List Token}
    (hinner : ∀ kind range, isBoundary text range.start = true →
      isBoundary text range.stop = true →
        Chain text range.start ((inner kind range).map Token.text) range.stop)
    {span : Span} {start stop : Nat} (h : Chain text start span.fragments stop) :
    Chain text start ((span.tokens inner).map Token.text) stop := by
  cases span with
  | leaf kind fragment | opener kind fragment | closer kind fragment => exact h
  | delimited kind opening interior closing =>
      obtain ⟨hopening, hopeningLies, hinterior, hinteriorLies, hclosing, hclosingLies, hstop⟩ := h
      refine ⟨hopening, hopeningLies, ?_⟩
      rw [List.map_append]
      refine chain_append.2 ⟨closing.start, ?_, ?_⟩
      · split
        · rename_i hempty
          rw [← hinterior, hclosing, Pairing.Fragment.stop_of_isEmpty hempty]
          rfl
        · rw [← hinterior, hclosing]
          exact hinner kind interior.range hinteriorLies.isBoundary_start
            hinteriorLies.isBoundary_stop
      · split
        · rename_i hempty
          exact (Pairing.Fragment.stop_of_isEmpty hempty).symm.trans hstop
        · exact ⟨rfl, hclosingLies, hstop⟩

theorem Span.splitsWord_tokens {text : List Char} {inner : Kind → Range → List Token}
    (hinner : ∀ kind range, isBoundary text range.start = true →
      isBoundary text range.stop = true → splitsWord text range.start = false →
        splitsWord text range.stop = false →
          ∀ token ∈ inner kind range, splitsWord text token.text.start = false)
    {span : Span} {start stop : Nat} (h : Chain text start span.fragments stop)
    (hwords : ∀ fragment ∈ span.fragments, splitsWord text fragment.start = false) :
    ∀ token ∈ span.tokens inner, splitsWord text token.text.start = false := by
  cases span with
  | leaf kind fragment | opener kind fragment | closer kind fragment =>
      intro token htoken
      obtain rfl := List.mem_singleton.1 htoken
      exact hwords fragment (List.mem_singleton.2 rfl)
  | delimited kind opening interior closing =>
      obtain ⟨-, -, -, hinteriorLies, hclosing, -, -⟩ := h
      simp only [fragments, List.forall_mem_cons] at hwords
      obtain ⟨hopening, hinterior, hclosingStart, -⟩ := hwords
      have hinteriorStop : splitsWord text interior.stop = false := hclosing ▸ hclosingStart
      rw [tokens, List.forall_mem_cons, List.forall_mem_append]
      refine ⟨hopening, fun token htoken => ?_, fun token htoken => ?_⟩
      · split at htoken
        · cases htoken
        · exact hinner kind interior.range hinteriorLies.isBoundary_start
            hinteriorLies.isBoundary_stop hinterior hinteriorStop token htoken
      · split at htoken
        · cases htoken
        · obtain rfl := List.mem_singleton.1 htoken
          exact hclosingStart

/-- What follows one another in all follows one another span by span. -/
theorem Span.exists_chain {text : List Char} {spans : List Span} {start stop : Nat}
    (h : Chain text start (spans.flatMap Span.fragments) stop) :
    ∀ span ∈ spans, ∃ first last, Chain text first span.fragments last := by
  intro span hspan
  obtain ⟨before, after, rfl⟩ := List.append_of_mem hspan
  rw [List.flatMap_append, List.flatMap_cons] at h
  obtain ⟨first, -, hrest⟩ := chain_append.1 h
  obtain ⟨last, hspan, -⟩ := chain_append.1 hrest
  exact ⟨first, last, hspan⟩

namespace Grammar

variable {grammar : Grammar} {text : List Char}

theorem chain_tokensIn (fuel : Nat) (restrict : Option KindSet) (range : Range)
    (hstart : isBoundary text range.start = true) (hstop : isBoundary text range.stop = true) :
    Chain text range.start ((grammar.tokensIn text fuel restrict range).map Token.text)
      range.stop := by
  induction fuel generalizing restrict range with
  | zero =>
      exact ⟨rfl, Fragment.liesIn_ofRange hstart hstop, Fragment.stop_ofRange hstart hstop⟩
  | succ fuel ih =>
      have hchain := grammar.table.chain_scanRange restrict hstart hstop
      unfold tokensIn
      generalize grammar.table.scanRange text range restrict = spans at hchain
      generalize range.start = start at hchain
      induction spans generalizing start with
      | nil => exact hchain
      | cons span rest ihSpans =>
          rw [List.flatMap_cons] at hchain ⊢
          obtain ⟨middle, hspan, hrest⟩ := chain_append.1 hchain
          rw [List.map_append]
          exact chain_append.2 ⟨middle, Span.chain_tokens (fun kind range => ih _ range) hspan,
            ihSpans middle hrest⟩

theorem splitsWord_tokensIn (h : grammar.table.KeepsWords) (fuel : Nat)
    (restrict : Option KindSet) (range : Range) (hstart : isBoundary text range.start = true)
    (hstop : isBoundary text range.stop = true) (hfirst : splitsWord text range.start = false)
    (hlast : splitsWord text range.stop = false) :
    ∀ token ∈ grammar.tokensIn text fuel restrict range,
      splitsWord text token.text.start = false := by
  induction fuel generalizing restrict range with
  | zero =>
      intro token htoken
      obtain rfl := List.mem_singleton.1 htoken
      exact hfirst
  | succ fuel ih =>
      have hchains := Span.exists_chain (grammar.table.chain_scanRange restrict hstart hstop)
      have hwords := h.scanRange restrict hstart hstop hfirst hlast
      intro token htoken
      obtain ⟨span, hspan, htoken⟩ := List.mem_flatMap.1 htoken
      obtain ⟨first, last, hchain⟩ := hchains span hspan
      exact Span.splitsWord_tokens (fun kind range => ih _ range) hchain
        (fun fragment hfragment => hwords fragment (List.mem_flatMap.2 ⟨span, hspan, hfragment⟩))
        token htoken

end Grammar

/-- Where no fragment begins inside a word, no word goes on from one fragment into the next. -/
theorem isChain_of_chain {text : List Char} {fragments : List Fragment} {start stop : Nat}
    (h : Chain text start fragments stop)
    (hwords : ∀ fragment ∈ fragments, splitsWord text fragment.start = false) :
    fragments.IsChain fun left right => joins left.chars right.chars = false := by
  induction fragments generalizing start with
  | nil => exact .nil
  | cons left rest ih =>
      rw [List.forall_mem_cons] at hwords
      refine List.isChain_cons.2 ⟨fun right hright => ?_, ih h.2.2 hwords.2⟩
      obtain ⟨others, rfl⟩ : ∃ others, rest = right :: others := by
        cases rest with
        | nil => cases hright
        | cons other others => exact ⟨others, by rw [Option.some.inj hright]⟩
      obtain ⟨-, hleft, hstart, hright, -⟩ := h
      obtain ⟨before, after, htext, hbefore⟩ := hleft
      obtain ⟨front, behind, htext', hfront⟩ := hright
      have hapart := hwords.2 right (List.mem_cons_self ..)
      obtain ⟨rfl, rfl⟩ : before ++ left.chars = front ∧ after = right.chars ++ behind := by
        refine append_inj_of_byteLength ?_ ?_
        · rw [List.append_assoc, ← htext, htext']
        · rw [hfront, hstart, byteLength_append, hbefore, Fragment.stop]
      rw [htext', ← hfront, splitsWord_append] at hapart
      exact joins_of_around hapart

namespace Language

/-- No token of a text begins inside a word, and none takes up a word from the one before. -/
theorem tokens_keep_words (language : Language) (text : List Char) :
    ((language.grammar.tokens text).map Token.text).IsChain
        (fun left right => joins left.chars right.chars = false)
      ∧ ∀ token ∈ language.grammar.tokens text, splitsWord text token.text.start = false := by
  have hstart := isBoundary_zero text
  have hstop : isBoundary text (0 + byteLength text) = true := by
    rw [Nat.zero_add]
    exact isBoundary_byteLength text
  have hfirst : splitsWord text 0 = false := splitsWord_append [] text
  have hlast : splitsWord text (0 + byteLength text) = false := by
    rw [Nat.zero_add, ← List.append_nil text, byteLength_append, byteLength_nil, Nat.add_zero,
      splitsWord_append, joins_nil_right]
  let whole : Range := .ofLength 0 (byteLength text)
  have hchain : Chain text 0 ((language.grammar.tokens text).map Token.text) _ :=
    Grammar.chain_tokensIn _ none whole hstart hstop
  have hwords : ∀ token ∈ language.grammar.tokens text, splitsWord text token.text.start = false :=
    Grammar.splitsWord_tokensIn language.keepsWords_table _ none whole hstart hstop
      hfirst hlast
  refine ⟨isChain_of_chain hchain fun fragment hfragment => ?_, hwords⟩
  obtain ⟨token, htoken, rfl⟩ := List.mem_map.1 hfragment
  exact hwords token htoken

/-- Words keep whole: no word goes on from one leaf into the next, and no leaf begins inside a
word. -/
theorem leaves_keep_words (language : Language) (analysis : Bool) (text : List Char) :
    ((language.parse analysis text).root.leaves.IsChain fun left right =>
      ¬ (left.content.getLast?.any isIdentifier = true
        ∧ right.content.head?.any isIdentifier = true))
    ∧ ∀ leaf ∈ (language.parse analysis text).root.leaves,
        splitsWord (language.prepare text) leaf.range.start = false := by
  obtain ⟨hchain, hstarts⟩ := language.tokens_keep_words (language.prepare text)
  rw [← language.tokens_parse analysis] at hchain hstarts
  constructor
  · have hcontent : (language.parse analysis text).root.leaves.map Node.content =
        (language.parse analysis text).root.tokens.map (·.text.chars) := by
      rw [Node.tokens, List.map_map]
      refine List.map_congr_left fun leaf hleaf => ?_
      obtain ⟨_, _, htext, _⟩ := language.of_mem_leaves analysis text hleaf
      simp only [Node.content, Function.comp_apply, htext, Option.getD_some]
    rw [List.isChain_map] at hchain
    have hjoins : (((language.parse analysis text).root.leaves.map Node.content).IsChain
        fun left right => joins left right = false) := by
      rw [hcontent, List.isChain_map]
      exact hchain
    rw [List.isChain_map] at hjoins
    refine hjoins.imp fun left right hapart hword => ?_
    rw [joins, hword.1, hword.2] at hapart
    cases hapart
  · intro leaf hleaf
    exact hstarts leaf.token (List.mem_map_of_mem hleaf)

end Language

end ConcreteSyntax
