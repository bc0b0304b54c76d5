import ConcreteSyntax.Proofs.CFamily.Functions

/-!
# Bodies of functions

Inside a function definition that it has just made, the pass for functions looks for functions once
more.  A colon behind the parameters is a boundary, so that words, a name and parentheses behind it
are taken for another function, together with the body.  This happens exactly where such a header
stands behind a colon (`Language.keepsBody_iff`); no later pass changes anything.
-/

namespace ConcreteSyntax

namespace CFamily

open Plan

variable {isNew : NodeId → Bool} {kinds front back words : List Kind} {kind : Kind} {n : Nat}

/-! ## From the parameters to the body -/

/-- What stands between the parameters of a function and its body, and the body. -/
inductive EndsInBody : List Kind → Prop
  | body : EndsInBody [.braces]
  | value {next : Kind} {rest : List Kind} (hnext : next ∈ [Kind.number, .defaultKw, .deleteKw])
      (hrest : EndsInBody rest) : EndsInBody (.equal :: next :: rest)
  | part {kind : Kind} {rest : List Kind} (hkind : functionTrailer.contains kind = true)
      (hrest : EndsInBody rest) : EndsInBody (kind :: rest)

/-- Kinds of what stands behind the parameters of a function definition. -/
def bodyKinds : KindSet :=
  functionTrailer ∪ .ofList [.equal, .number, .defaultKw, .deleteKw, .braces]

theorem endsInBody_take (h : functionEndPlan n kinds = some (.functionDefinition, back.length)) :
    EndsInBody (kinds.take back.length) := by
  generalize back.length = m at h
  fun_induction functionEndPlan n kinds generalizing m with
  | case1 => cases h
  | case2 rest =>
      obtain ⟨-, rfl⟩ := Prod.mk.inj (Option.some.inj h)
      exact .body
  | case3 head rest hbraces hend => cases (Prod.mk.inj (Option.some.inj h)).1
  | case4 head rest hbraces hend hvalue ih =>
      obtain ⟨⟨found, count⟩, hcount, hshift⟩ := Option.map_eq_some_iff.1 h
      obtain ⟨rfl, rfl⟩ := Prod.mk.inj hshift
      obtain ⟨next, hnext, hkind⟩ := (Option.any_eq_true _ _).1 hvalue.2
      obtain ⟨rest, rfl⟩ := List.head?_eq_some_iff.1 hnext
      rw [hvalue.1, Nat.add_comm, List.take_succ_cons, List.take_succ_cons]
      exact .value (by simpa using hkind) (ih _ hcount)
  | case5 head rest hbraces hend hvalue htrailer ih =>
      obtain ⟨⟨found, count⟩, hcount, hshift⟩ := Option.map_eq_some_iff.1 h
      obtain ⟨rfl, rfl⟩ := Prod.mk.inj hshift
      rw [Nat.add_comm, List.take_succ_cons]
      exact .part htrailer (ih _ hcount)
  | case6 => cases h

namespace EndsInBody

theorem mem (h : EndsInBody kinds) : ∀ kind ∈ kinds, bodyKinds.contains kind = true := by
  induction h with
  | body => simp [bodyKinds]
  | value hnext _ ih =>
      rw [List.forall_mem_cons, List.forall_mem_cons]
      refine ⟨by decide, ?_, ih⟩
      simp only [List.mem_cons, List.not_mem_nil, or_false] at hnext
      rcases hnext with rfl | rfl | rfl <;> decide
  | part hkind _ ih =>
      rw [List.forall_mem_cons]
      exact ⟨KindSet.contains_of_subset (by decide) hkind, ih⟩

theorem getLast?_eq (h : EndsInBody kinds) : kinds.getLast? = some .braces := by
  induction h with
  | body => rfl
  | value _ _ ih => rw [List.getLast?_cons, List.getLast?_cons, ih]; rfl
  | part _ _ ih => rw [List.getLast?_cons, ih]; rfl

/-- Whatever number of words a function has, its end is found at its body. -/
theorem functionEndPlan_eq (h : EndsInBody kinds) (n : Nat) :
    functionEndPlan n kinds = some (.functionDefinition, kinds.length) := by
  induction h with
  | body => simp [functionEndPlan]
  | @value next rest hnext _ ih =>
      rw [functionEndPlan, if_neg (by decide), if_neg (by simp),
        if_pos ⟨rfl, by simpa using hnext⟩, List.tail_cons, ih]
      simp [shift, Nat.add_comm 2]
  | @part kind rest hkind _ ih =>
      have hother : kind ≠ .braces ∧ kind ≠ .semicolon ∧ kind ≠ .equal := by
        refine ⟨?_, ?_, ?_⟩ <;>
        · rintro rfl
          exact absurd hkind (by decide)
      rw [functionEndPlan, if_neg hother.1, if_neg fun hboth => hother.2.1 hboth.1,
        if_neg fun hboth => hother.2.2 hboth.1, if_pos hkind, ih]
      simp [shift, Nat.add_comm]

/-- Each of the kinds is the body, part of a value, or a part behind which the body is the end. -/
theorem split (h : EndsInBody (front ++ kind :: back)) :
    kind = .braces ∧ back = [] ∨ kind ∈ [Kind.equal, .number, .defaultKw, .deleteKw]
      ∨ functionTrailer.contains kind = true ∧ EndsInBody back := by
  generalize hkinds : front ++ kind :: back = kinds at h
  induction h generalizing front with
  | body =>
      cases front with
      | nil =>
          obtain ⟨rfl, rfl⟩ := List.cons.inj hkinds
          exact .inl ⟨rfl, rfl⟩
      | cons first front => simp at hkinds
  | @value next rest hnext hrest ih =>
      rcases front with - | ⟨first, - | ⟨second, front⟩⟩
      · exact .inr (.inl (by simp [(List.cons.inj hkinds).1]))
      · obtain ⟨rfl, -⟩ := List.cons.inj (List.cons.inj hkinds).2
        exact .inr (.inl (List.mem_cons_of_mem _ hnext))
      · exact ih (List.cons.inj (List.cons.inj hkinds).2).2
  | @part other rest hother hrest ih =>
      cases front with
      | nil =>
          obtain ⟨rfl, rfl⟩ := List.cons.inj hkinds
          exact .inr (.inr ⟨hother, hrest⟩)
      | cons first front => exact ih (List.cons.inj hkinds).2

end EndsInBody

/-- Whether words, the last of them an identifier, and parentheses stand behind a colon. -/
def HoldsHeader (kinds : List Kind) : Prop :=
  ∃ front words back, kinds = front ++ .colon :: (words ++ .parenthesis :: back) ∧ AreWords words

theorem byKinds_function : ByKinds functionPlan := by
  rintro ⟨_, _, _, _, _⟩ ⟨_, _, _, _, _⟩ rfl rfl rfl
  rfl

/-- From behind the colon on, a header in front of the body is found as a function. -/
theorem functionPlan_of_header (scene : Scene) (hwords : AreWords words)
    (hkinds : scene.kinds = words ++ .parenthesis :: back) (hback : EndsInBody back)
    (hprevious : scene.previous = some .colon) (hparent : scene.parent = .functionDefinition) :
    functionPlan scene ≠ none := by
  rw [functionPlan_of_words hwords hkinds (by rw [hprevious]; rfl) (by rw [hparent]; decide)
    (by rw [hparent]; decide), hback.functionEndPlan_eq]
  exact Option.some_ne_none _

/-- Where nothing is found behind the first word of a definition, no header stands behind its
parameters. -/
theorem not_holdsHeader {first : Kind} {rest trailer : List Kind} (hwords : AreWords words)
    (hkinds : first :: rest = words ++ .parenthesis :: trailer) (htrailer : EndsInBody trailer)
    (hsilent : functionPlan.Silent .functionDefinition (some first) rest []) :
    ¬HoldsHeader trailer := by
  rintro ⟨front, inner, back, rfl, hinner⟩
  have hback : EndsInBody back := by
    rw [← List.cons_append, ← List.append_assoc] at htrailer
    obtain ⟨hbraces, -⟩ | hvalue | ⟨-, hback⟩ := htrailer.split
    · cases hbraces
    · exact absurd hvalue (by decide)
    · exact hback
  obtain ⟨word, words, rfl⟩ := List.exists_cons_of_ne_nil hwords.ne_nil
  obtain ⟨head, inner, rfl⟩ := List.exists_cons_of_ne_nil hinner.ne_nil
  obtain ⟨rfl, rfl⟩ := List.cons.inj hkinds
  have hplace : words.append (.parenthesis :: (front ++ .colon :: (head :: inner ++ .parenthesis
      :: back))) = (words ++ .parenthesis :: (front ++ [.colon])) ++ head :: (inner
        ++ .parenthesis :: back) := by
    change words ++ _ = _
    simp
  rw [hplace] at hsilent
  refine functionPlan_of_header ⟨.functionDefinition, some .colon,
    head :: inner ++ .parenthesis :: back, none, []⟩ hinner rfl hback rfl rfl ?_
  refine hsilent.at_place rfl ?_ ?_
  · rw [← List.cons_append, ← List.append_assoc, List.getLast?_concat]
    rfl
  · rw [List.append_nil]
    rfl

/-- What is found inside a definition is a header behind a colon, and goes on to the body. -/
theorem holdsHeader_of_found {scene : Scene} {previous : Kind} {passed trailer : List Kind}
    (hwords : AreWords words) (htrailer : EndsInBody trailer)
    (hkinds : passed ++ previous :: scene.kinds = words ++ .parenthesis :: trailer)
    (hprevious : scene.previous = some previous) (hfound : functionPlan scene = some (kind, n)) :
    (∃ front, passed = words ++ .parenthesis :: front
        ∧ trailer = front ++ .colon :: scene.kinds)
      ∧ HoldsHeader trailer ∧ previous = .colon ∧ kind = .functionDefinition
      ∧ n = scene.kinds.length := by
  obtain ⟨inner, back, m, hinner, hscene, hboundary, -, -⟩ := exists_words hfound
  rw [hprevious] at hboundary
  have hboundary : boundary.contains previous = true := hboundary
  -- no boundary stands in front of the parameters
  obtain ⟨front, hpassed, hfront⟩ : ∃ front, passed = words ++ .parenthesis :: front
      ∧ trailer = front ++ previous :: scene.kinds := by
    rcases List.append_eq_append_iff.1 hkinds with ⟨mid, rfl, hmid⟩ | ⟨mid, rfl, hmid⟩
    · cases mid with
      | nil =>
          obtain ⟨rfl, -⟩ := List.cons.inj hmid
          exact absurd hboundary (by decide)
      | cons other mid =>
          obtain ⟨rfl, -⟩ := List.cons.inj hmid
          have hdeclared := hwords.word previous (by simp)
          rw [KindSet.not_contains_of_disjoint (by decide) hdeclared] at hboundary
          cases hboundary
    · cases mid with
      | nil =>
          obtain ⟨rfl, -⟩ := List.cons.inj hmid
          exact absurd hboundary (by decide)
      | cons other mid =>
          obtain ⟨rfl, hrest⟩ := List.cons.inj hmid
          exact ⟨mid, rfl, hrest⟩
  have hsplit := htrailer
  rw [hfront] at hsplit
  have hcolon : previous = .colon := by
    obtain ⟨-, hnil⟩ | hvalue | ⟨hpart, -⟩ := hsplit.split
    · rw [hscene] at hnil
      simp at hnil
    · simp only [List.mem_cons, List.not_mem_nil, or_false] at hvalue
      rcases hvalue with rfl | rfl | rfl | rfl <;> exact absurd hboundary (by decide)
    · by_contra hother
      have htrailers : functionTrailer.toList.all (fun kind =>
          !boundary.contains kind || kind == .colon) = true := by decide +kernel
      have hkind := List.all_eq_true.1 htrailers previous (KindSet.mem_toList.2 hpart)
      rw [hboundary] at hkind
      exact hother (by simpa using hkind)
  refine ⟨⟨front, hpassed, hcolon ▸ hfront⟩,
    ⟨front, inner, back, by rw [hfront, hscene, hcolon], hinner⟩, hcolon, ?_⟩
  have hmem : ∀ other, scene.kinds[n - 1]? = some other → bodyKinds.contains other = true := by
    intro other hother
    refine htrailer.mem other ?_
    rw [hfront]
    exact List.mem_append_right _ (List.mem_cons_of_mem _ (List.mem_of_getElem? hother))
  obtain ⟨hpos, hle, ⟨hlast, hkind⟩ | ⟨hlast, -⟩⟩ := function_spec hfound
  · refine ⟨hkind, ?_⟩
    -- nothing stands behind the braces
    obtain ⟨hlt, hget⟩ := List.getElem?_eq_some_iff.1 hlast
    have hbraces : trailer = (front ++ previous :: scene.kinds.take (n - 1))
        ++ .braces :: scene.kinds.drop (n - 1 + 1) := by
      rw [hfront, List.append_assoc, List.cons_append, ← hget, ← List.drop_eq_getElem_cons hlt,
        List.take_append_drop]
    rw [hbraces] at htrailer
    obtain ⟨-, hnil⟩ | hvalue | ⟨hpart, -⟩ := htrailer.split
    · rw [List.drop_eq_nil_iff] at hnil
      omega
    · exact absurd hvalue (by decide)
    · exact absurd hpart (by decide)
  · exact absurd (hmem _ hlast) (by decide)

/-! ## Definitions -/

/-- Kinds of what stands behind the parameters of a definition after analysis. -/
def definitionKinds : KindSet := bodyKinds ∪ .ofList [.functionDefinition]

/-- What a function definition holds, by the siblings that it was put over. -/
def Bodied (isNew : NodeId → Bool) (node : Node) : Prop :=
  ∃ words trailer rest, AreWords words ∧ EndsInBody trailer
    ∧ significantKinds (node.children.flatMap (Node.erase isNew)) =
      words ++ .parenthesis :: trailer
    ∧ significantKinds node.children = words ++ .parenthesis :: rest
    ∧ (∀ kind ∈ rest, definitionKinds.contains kind = true)
    ∧ (HoldsHeader trailer ∧ node.children.getLast?.map (·.kind) = some .functionDefinition
      ∨ ¬HoldsHeader trailer ∧ node.children.getLast?.map (·.kind) = some .braces
        ∧ .functionDefinition ∉ rest)

/-- What a definition is put over is old. -/
theorem old_of_made {made : KindSet} {children : List Node} {trailer : List Kind}
    (hstaged : ∀ child ∈ children, child.Staged isNew made) (hwords : AreWords words)
    (htrailer : EndsInBody trailer)
    (hkinds : significantKinds children = words ++ .parenthesis :: trailer) :
    ∀ child ∈ children, isNew child.id = false := by
  intro child hchild
  refine (hstaged child hchild).isNew_eq_false ?_
  by_contra hsynthesized
  have hkind : KindSet.synthesized.contains child.kind = true := Bool.not_eq_false _ ▸ hsynthesized
  have hmem : child.kind ∈ significantKinds children :=
    List.mem_map_of_mem (List.mem_filter.2
      ⟨hchild, Kind.isSignificant_of_synthesized hkind⟩)
  rw [hkinds, List.mem_append, List.mem_cons] at hmem
  rcases hmem with hword | hparenthesis | hrest
  · exact hsynthesized (KindSet.not_contains_of_disjoint (by decide)
      (hwords.word _ hword))
  · rw [hparenthesis] at hkind
    exact absurd hkind (by decide)
  · exact hsynthesized (KindSet.not_contains_of_disjoint (by decide)
      (htrailer.mem _ hrest))

/-- A definition ends with its body. -/
theorem getLast?_kind_of_endsInBody {children : List Node} {last : Node} {trailer : List Kind}
    (hlast : children.getLast? = some last) (hsignificant : last.kind.isSignificant = true)
    (htrailer : EndsInBody trailer)
    (hkinds : significantKinds children = words ++ .parenthesis :: trailer) :
    children.getLast?.map (·.kind) = some .braces := by
  have hlabel := Node.getLast?_significantLabels hlast hsignificant
  have hkind : (significantKinds children).getLast? = some last.kind := by
    rw [← map_kind_significantLabels, List.getLast?_map, hlabel]
    rfl
  rw [hkinds, List.getLast?_append, List.getLast?_cons, htrailer.getLast?_eq] at hkind
  rw [hlast, Option.map_some, ← hkind]
  rfl

/-- What is found among the siblings of a definition, behind the first of them, goes on to its end
from a colon on. -/
theorem exists_colon_of_found {first node : Node} {front inner after : List Node}
    {trailer : List Kind} (hwords : AreWords words) (htrailer : EndsInBody trailer)
    (hfirst : first.kind.isSignificant = true) (hnode : node.kind.isSignificant = true)
    (hlast : ∀ last, (first :: (front ++ (node :: inner ++ after))).getLast? = some last →
      last.kind.isSignificant = true)
    (hkinds : significantKinds (first :: (front ++ (node :: inner ++ after))) =
      words ++ .parenthesis :: trailer)
    (hcloses : Closes n (node :: inner))
    (hfound : functionPlan (Lookahead.atAnchor .functionDefinition (front.reverse ++ [first])
      (node :: inner ++ after)).scene = some (kind, n)) :
    after = [] ∧ kind = .functionDefinition ∧ HoldsHeader trailer
      ∧ ∃ passed behind, significantKinds (first :: front) =
        words ++ .parenthesis :: (passed ++ [.colon]) ∧ trailer = passed ++ .colon :: behind := by
  have hscene : (Lookahead.atAnchor .functionDefinition (front.reverse ++ [first])
      (node :: inner ++ after)).scene.kinds = significantKinds (node :: inner ++ after) := by
    rw [List.cons_append, Plan.scene_atAnchor hnode, significantKinds_cons hnode]
    rfl
  have hbefore : (Lookahead.atAnchor .functionDefinition (front.reverse ++ [first])
      (node :: inner ++ after)).scene.previous = (significantKinds (first :: front)).getLast? := by
    rw [← map_kind_significantLabels, ← Node.find?_kinds_reverse, List.reverse_cons]
    rfl
  obtain ⟨passed, previous, hpassed⟩ : ∃ passed previous,
      significantKinds (first :: front) = passed ++ [previous] := by
    rw [significantKinds_cons hfirst]
    exact ⟨_, _, (List.dropLast_append_getLast (List.cons_ne_nil _ _)).symm⟩
  rw [hpassed, List.getLast?_concat] at hbefore
  have hrun : passed ++ previous :: (Lookahead.atAnchor .functionDefinition
      (front.reverse ++ [first]) (node :: inner ++ after)).scene.kinds =
        words ++ .parenthesis :: trailer := by
    rw [hscene, ← hkinds, ← List.cons_append, significantKinds_append (first :: front), hpassed,
      List.append_assoc]
    rfl
  obtain ⟨⟨front', hwordsFront, htail⟩, hheader, rfl, rfl, hlength⟩ :=
    holdsHeader_of_found hwords htrailer hrun hbefore hfound
  refine ⟨Node.significantLabels_eq_nil ?_ ?_, rfl, hheader, front', _, ?_, htail⟩
  · cases hend : after.getLast? with
    | none => rfl
    | some other => exact hlast other (by
        rw [List.getLast?_cons, List.getLast?_append, List.getLast?_append, hend]
        rfl)
  · -- the run goes on to the body, so nothing is left behind it
    have hcount : (significantKinds (node :: inner)).length = n := by
      rw [significantKinds, List.length_map, hcloses.length_filter]
    rw [hscene, significantKinds_append, List.length_append, hcount] at hlength
    have hnil : (significantKinds after).length = 0 := by omega
    rw [← map_kind_significantLabels, List.length_map] at hnil
    exact List.length_eq_zero_iff.1 hnil
  · rw [hpassed, hwordsFront]
    simp

theorem bodied_of_made {made : KindSet} {label : Label} {children children' : List Node}
    (hmade : functionPlan.Made .functionDefinition children)
    (hstaged : ∀ child ∈ children, child.Staged isNew made)
    (hturns : functionPlan.Turns isNew .functionDefinition children children') :
    Bodied isNew ⟨label, children'⟩ := by
  obtain ⟨words, trailer, hwords, hkinds, hend⟩ := exists_words_of_made hmade
  have htrailer : EndsInBody trailer := by
    have htake := endsInBody_take hend
    rwa [List.take_length] at htake
  have hold := old_of_made hstaged hwords htrailer hkinds
  have herase : significantKinds (children'.flatMap (Node.erase isNew)) =
      words ++ .parenthesis :: trailer := by
    rw [hturns.erase_eq, ← hkinds, ← map_kind_significantLabels,
      Node.significantLabels_erase hold, map_kind_significantLabels]
  obtain ⟨last, hlast, hsignificant⟩ := hmade.getLast_significant
  obtain ⟨first, rest, lines, next, next', out, rfl, hfirst, hlevels, hnew, hout⟩ :=
    hturns.exists_made sound_function exact_function hmade
  have hkindsOut : significantKinds children' = significantKinds (first :: out) := by
    rw [← map_kind_significantLabels, Node.significantLabels_of_resembles hout,
      map_kind_significantLabels]
  have hlastOut : children'.getLast?.map (·.kind) = (first :: out).getLast?.map (·.kind) := by
    rw [← List.getLast?_map, ← List.getLast?_map, Node.map_kind_of_resembles hout]
  obtain ⟨rfl, hsilent⟩ | ⟨front, node, inner, after, kind, n, index, mid, before', out', rfl,
    hnode, hcloses, hfound, rfl, hbeyond⟩ :=
    hlevels.silent_or_wrap byKinds_function (List.cons_ne_nil _ _)
  · have hprevious : ([first].map (·.kind)).find? (·.isSignificant) = some first.kind := by
      simp [hfirst]
    rw [hprevious] at hsilent
    refine ⟨words, trailer, trailer, hwords, htrailer, herase, hkindsOut.trans hkinds,
      fun kind hkind => ?_, .inr ⟨?_, ?_, ?_⟩⟩
    · exact KindSet.contains_of_subset (by decide) (htrailer.mem kind hkind)
    · exact not_holdsHeader hwords ((significantKinds_cons hfirst _).symm.trans hkinds) htrailer
        hsilent
    · exact hlastOut.trans (getLast?_kind_of_endsInBody hlast hsignificant htrailer hkinds)
    · exact fun hmem => absurd (htrailer.mem _ hmem) (by decide)
  · obtain ⟨rfl, rfl, hheader, passed, behind, hpassed, rfl⟩ :=
      exists_colon_of_found hwords htrailer hfirst hnode
        (fun other hother => by
          obtain rfl := Option.some.inj (hlast.symm.trans hother)
          exact hsignificant) hkinds hcloses hfound
    cases hbeyond
    refine ⟨words, _, passed ++ [.colon, .functionDefinition], hwords, htrailer, herase, ?_,
      fun kind hkind => ?_, .inl ⟨hheader, ?_⟩⟩
    · have hwrap : significantKinds [Node.wrap lines (.fresh index) .functionDefinition
          (node :: inner)] = [.functionDefinition] := by
        have hkind : (Node.wrap lines (.fresh index) .functionDefinition (node :: inner)).kind =
          .functionDefinition := rfl
        rw [significantKinds_cons (by rw [hkind]; decide), hkind]
        rfl
      refine hkindsOut.trans ?_
      rw [← List.cons_append, significantKinds_append, hpassed, hwrap]
      simp
    · rw [List.mem_append] at hkind
      rcases hkind with hkind | hkind
      · exact KindSet.contains_of_subset (by decide)
          (htrailer.mem kind (List.mem_append_left _ hkind))
      · simp only [List.mem_cons, List.not_mem_nil, or_false] at hkind
        rcases hkind with rfl | rfl <;> decide
    · refine hlastOut.trans ?_
      rw [← List.cons_append, List.getLast?_concat]
      rfl

/-! ## Later passes -/

/-- Kinds of all that a definition holds after analysis. -/
def heldKinds : KindSet := declarationWords ∪ .ofList [.parenthesis] ∪ definitionKinds

theorem Bodied.held {node : Node} (h : Bodied isNew node) :
    ∀ kind ∈ significantKinds node.children, heldKinds.contains kind = true := by
  obtain ⟨words, trailer, rest, hwords, -, -, hkinds, hrest, -⟩ := h
  intro kind hkind
  rw [hkinds, List.mem_append, List.mem_cons] at hkind
  rcases hkind with hword | rfl | hkind
  · exact KindSet.contains_of_subset (by decide) (hwords.word kind hword)
  · decide
  · exact KindSet.contains_of_subset (by decide) (hrest kind hkind)

/-- A pass that finds nothing in a definition leaves what it holds as it is. -/
theorem upholds_bodied {plan : Plan} {made : KindSet} (hmakes : plan.Makes made)
    (hother : made.contains .functionDefinition = false)
    (hsilent : ∀ {front}, (∀ kind ∈ front, heldKinds.contains kind = true) →
      plan.Silent .functionDefinition none front []) :
    plan.Upholds isNew (fun node => node.kind = .functionDefinition → Bodied isNew node)
      fun node => node.kind = .functionDefinition → Bodied isNew node := by
  have hiff : (fun node : Node => node.kind = .functionDefinition → Bodied isNew node) =
      fun node => (KindSet.ofList [.functionDefinition]).contains node.kind = true →
        Bodied isNew node := by
    simp
  rw [hiff]
  refine upholds_of_kinds (fun scene kind n hfound => ?_) ?_
  · by_contra hkind
    have hkind : kind = .functionDefinition := by simpa using hkind
    rw [hkind] at hfound
    rw [hmakes hfound] at hother
    cases hother
  · intro label children children' hkind hbodied hturns
    have hlabel : label.kind = .functionDefinition := by simpa using hkind
    have hout : List.Forall₂ (Node.Resembles isNew) children children' := by
      refine hturns.resembles ?_
      rw [hlabel, map_kind_significantLabels]
      exact hsilent hbodied.held
    obtain ⟨words, trailer, rest, hwords, htrailer, herase, hkinds, hrest, hends⟩ := hbodied
    refine ⟨words, trailer, rest, hwords, htrailer, ?_, ?_, hrest, ?_⟩
    · change significantKinds (children'.flatMap (Node.erase isNew)) = _
      rw [hturns.erase_eq]
      exact herase
    · change significantKinds children' = _
      rw [← map_kind_significantLabels, Node.significantLabels_of_resembles hout,
        map_kind_significantLabels]
      exact hkinds
    · change _ ∧ children'.getLast?.map (·.kind) = _ ∨ _ ∧ children'.getLast?.map (·.kind) = _ ∧ _
      rw [← List.getLast?_map, Node.map_kind_of_resembles hout, List.getLast?_map]
      exact hends

/-- No statement begins in a definition: there is no semicolon that could end it. -/
theorem silent_flow_of_held (h : ∀ kind ∈ front, heldKinds.contains kind = true) :
    flowPlan.Silent .functionDefinition none front [] := by
  refine silent_of_forall (fun kind hkind scene _ hhead hsub => ?_) none
  obtain ⟨rest, hrest⟩ := List.head?_eq_some_iff.1 hhead
  rw [List.append_nil] at hsub
  by_cases hword : flowWords.contains kind = true
  · have hjumps : heldKinds.toList.all (fun kind =>
        !flowWords.contains kind || kind == .throwKw || kind == .deleteKw) = true := by
      decide +kernel
    have hjump := List.all_eq_true.1 hjumps kind (KindSet.mem_toList.2 (h kind hkind))
    have hnone : statementLength scene.kinds = none := by
      have hsemicolon : Kind.semicolon ∉ scene.kinds := fun hmem =>
        absurd (h _ (hsub hmem)) (by decide)
      rw [hrest] at hsemicolon ⊢
      rw [hword] at hjump
      simp only [Bool.not_true, Bool.false_or, Bool.or_eq_true, beq_iff_eq] at hjump
      rcases hjump with rfl | rfl <;>
      · rw [statementLength_cons (by decide) (by decide) (by decide)]
        exact through_eq_none _ hsemicolon
    rw [flowPlan_eq, if_neg, flowStatementPlan, hnone]
    · cases flowKindOf scene <;> rfl
    · rw [hhead]
      rintro ⟨⟩
      exact absurd (h _ hkind) (by decide)
  · exact flowPlan_eq_none hrest (Bool.not_eq_true _ ▸ hword)

theorem upholds_bodied_function {made : KindSet}
    (hdisjoint : functionKinds.IsDisjoint made) :
    functionPlan.Upholds isNew (Node.Staged isNew made)
      fun node => node.kind = .functionDefinition → Bodied isNew node := by
  have hiff : (fun node : Node => node.kind = .functionDefinition → Bodied isNew node) =
      fun node => (KindSet.ofList [.functionDefinition]).contains node.kind = true →
        Bodied isNew node := by
    simp
  rw [hiff]
  refine upholds_of_made (fun node hstaged => ?_) ?_
  · have hnone : functionKinds.contains node.kind = false :=
      hstaged.not_later (by decide) hdisjoint
    by_contra hkind
    have hkind : node.kind = .functionDefinition := by simpa using hkind
    rw [hkind] at hnone
    exact absurd hnone (by decide)
  · intro label children children' _ hkind hmade hstaged hturns
    have hlabel : label.kind = .functionDefinition := by simpa using hkind
    rw [hlabel] at hmade hturns
    exact bodied_of_made hmade hstaged hturns

end CFamily

namespace Language

variable {language : Language}

/-- Bodies of functions.  In the tree of a text of a C-family language, let a node be a function
definition.  Words of a declaration and the parameters are its first children, and what it was put
over goes on from the parameters to a body.  Its last child is the body, and no child is a function
definition, exactly if no colon behind the parameters is followed by words, an identifier and
parentheses.  If there is such a colon, its last child is a function definition. -/
theorem keepsBody_iff (hlanguage : language ∈ cFamily) (text : List Char) {node : Node}
    (hnode : node ∈ (language.parse true text).root.descendants)
    (hkind : node.kind = .functionDefinition) :
    ∃ words trailer rest, CFamily.AreWords words ∧ CFamily.EndsInBody trailer
      ∧ CFamily.significantKinds (node.children.flatMap (Node.erase (language.isAdded text))) =
        words ++ .parenthesis :: trailer
      ∧ CFamily.significantKinds node.children = words ++ .parenthesis :: rest
      ∧ ((node.children.getLast?.map (·.kind) = some .braces
        ∧ ∀ child ∈ node.children, child.kind ≠ .functionDefinition)
          ↔ ¬CFamily.HoldsHeader trailer)
      ∧ (CFamily.HoldsHeader trailer →
        node.children.getLast?.map (·.kind) = some .functionDefinition) := by
  have hnone {front : List Kind} (h : ∀ kind ∈ front, CFamily.heldKinds.contains kind = true) :
      ∀ kind ∈ front, CFamily.messageWords.contains kind = false := fun kind hkind =>
    KindSet.not_contains_of_disjoint (by decide) (h kind hkind)
  obtain ⟨words, trailer, rest, hwords, htrailer, herase, hkinds, -, hends⟩ :=
    all_parse_of_function hlanguage text
      (CFamily.upholds_bodied_function (by decide))
      (CFamily.upholds_bodied CFamily.makes_flow (by decide) CFamily.silent_flow_of_held)
      (CFamily.upholds_bodied CFamily.makes_labels (by decide) fun _ =>
        CFamily.silent_labels (by decide))
      (CFamily.upholds_bodied CFamily.makes_call (by decide) fun _ =>
        CFamily.silent_call_of_without (by decide))
      (CFamily.upholds_bodied CFamily.makes_messages (by decide) fun hheld =>
        CFamily.silent_messages_of_without (by decide) (hnone hheld))
      node hnode hkind
  refine ⟨words, trailer, rest, hwords, htrailer, herase, hkinds, ?_, ?_⟩
  · obtain ⟨hheader, hlast⟩ | ⟨hheader, hlast, hrest⟩ := hends
    · simp [hlast, hheader]
    · refine iff_of_true ⟨hlast, fun child hchild hdefinition => hrest ?_⟩ hheader
      have hmem : child.kind ∈ CFamily.significantKinds node.children :=
        List.mem_map_of_mem (List.mem_filter.2 ⟨hchild, by rw [hdefinition]; decide⟩)
      rw [hkinds, hdefinition, List.mem_append, List.mem_cons] at hmem
      rcases hmem with hword | hparenthesis | hmem
      · exact absurd (hwords.word _ hword) (by decide)
      · cases hparenthesis
      · exact hmem
  · intro hheader
    obtain ⟨-, hlast⟩ | ⟨hnot, -⟩ := hends
    · exact hlast
    · exact absurd hheader hnot

/-- A body behind a qualifier. -/
theorem keepsBody_iff_const :
    Language.c ∈ cFamily
      ∧ ∃ node ∈ (Language.c.parse true "int f() const {}".toList).root.descendants,
        node.kind = .functionDefinition ∧ node.children.getLast?.map (·.kind) = some .braces
          ∧ ∃ words trailer rest, CFamily.AreWords words ∧ CFamily.EndsInBody trailer
            ∧ CFamily.significantKinds (node.children.flatMap
              (Node.erase (Language.c.isAdded "int f() const {}".toList))) =
                words ++ .parenthesis :: trailer
            ∧ CFamily.significantKinds node.children = words ++ .parenthesis :: rest
            ∧ ((node.children.getLast?.map (·.kind) = some .braces
              ∧ ∀ child ∈ node.children, child.kind ≠ .functionDefinition)
                ↔ ¬CFamily.HoldsHeader trailer)
            ∧ (CFamily.HoldsHeader trailer →
              node.children.getLast?.map (·.kind) = some .functionDefinition) := by
  have hlanguage : Language.c ∈ cFamily := by decide
  obtain ⟨node, hnode, hkind, hlast⟩ :
      ∃ node ∈ (Language.c.parse true "int f() const {}".toList).root.descendants,
        node.kind = .functionDefinition
          ∧ node.children.getLast?.map (·.kind) = some .braces := by
    decide +kernel
  exact ⟨hlanguage, node, hnode, hkind, hlast, keepsBody_iff hlanguage _ hnode hkind⟩

/-- An initialiser behind a colon is taken for a function, and takes the body away. -/
theorem keepsBody_iff_initialiser :
    ∃ node ∈ (Language.cpp.parse true "void f() : a(b) {}".toList).root.descendants,
      node.kind = .functionDefinition
        ∧ node.children.getLast?.map (·.kind) = some .functionDefinition
        ∧ .braces ∉ node.children.map (·.kind) := by
  decide +kernel

end Language

end ConcreteSyntax
