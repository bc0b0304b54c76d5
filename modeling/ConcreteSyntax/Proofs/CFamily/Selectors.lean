import ConcreteSyntax.Proofs.CFamily.Keywords

/-!
# Selectors of messages

The selector of a message is read off the words in its brackets that have a colon right behind them.
All of these were written there, whatever analysis has put together around them, and a word in front
of the colon of a conditional is one of them, too (`Language.selector_of_message`).
-/

namespace ConcreteSyntax

namespace CFamily

/-! ## Messages as they were written -/

/-- A keyword of a message as it was written: a word, its colon, and the argument behind it. -/
structure Keyword where
  word : Node
  colon : Node
  argument : List Node
  isWord : word.kind = .text
  isColon : colon.kind = .colon

namespace Keyword

/-- What a keyword was written with. -/
def parts (keyword : Keyword) : List Node := keyword.word :: keyword.colon :: keyword.argument

/-- The part of the selector that a keyword is. -/
def name (keyword : Keyword) : List Char := keyword.word.content ++ [':']

/-- Whether no identifier stands right in front of a colon in the argument.  Such a colon is that of
a conditional. -/
def IsPlain (keyword : Keyword) : Prop :=
  ¬[.text, .colon] <:+: keyword.argument.map (·.kind)

/-- The kinds that keywords are written with, by those in their arguments. -/
def kindsOf (arguments : List (List Kind)) : List Kind :=
  arguments.flatMap fun argument => .text :: .colon :: argument

/-- Siblings are those of keywords if their kinds are. -/
theorem exists_of_kinds {nodes : List Node} {arguments : List (List Kind)}
    (h : nodes.map (·.kind) = kindsOf arguments) :
    ∃ keywords : List Keyword, nodes = keywords.flatMap parts
      ∧ keywords.map (fun keyword => keyword.argument.map (·.kind)) = arguments := by
  induction arguments generalizing nodes with
  | nil => exact ⟨[], List.map_eq_nil_iff.1 h, rfl⟩
  | cons argument arguments ih =>
      obtain ⟨word, _, rfl, hword, hmarked⟩ := List.map_eq_cons_iff.1 h
      obtain ⟨colon, _, rfl, hcolon, hrest⟩ := List.map_eq_cons_iff.1 hmarked
      obtain ⟨left, right, rfl, hleft, hright⟩ := List.map_eq_append_iff.1 hrest
      obtain ⟨keywords, rfl, hkeywords⟩ := ih hright
      exact ⟨⟨word, colon, left, hword, hcolon⟩ :: keywords, rfl, congrArg₂ _ hleft hkeywords⟩

end Keyword

end CFamily

namespace Node

open CFamily

/-- What was written between brackets, without the brackets themselves. -/
def writtenParts (isNew : NodeId → Bool) (brackets : Node) : List Node :=
  (brackets.written isNew).filter (·.kind != .delimiter)

/-- The keyword parts of a selector are the words in front of colons. -/
theorem keywordParts_eq (nodes : List Node) :
    keywordParts nodes = (keywordsOf kind nodes).flatMap fun word => word.content ++ [':'] := by
  fun_induction keywordsOf kind nodes with
  | case1 first second rest hkeyword ih =>
      rw [isKeyword] at hkeyword
      rw [keywordParts, if_pos hkeyword, ih, List.flatMap_cons]
  | case2 first second rest hkeyword ih =>
      rw [isKeyword] at hkeyword
      rw [keywordParts, if_neg hkeyword, ih, List.nil_append]
  | case3 nodes hnodes =>
      rcases nodes with - | ⟨first, - | ⟨second, rest⟩⟩
      · rfl
      · rfl
      · exact absurd rfl (hnodes first second rest)

theorem keywordParts_eq_nil_iff {nodes : List Node} :
    keywordParts nodes = [] ↔ ¬[.text, .colon] <:+: nodes.map (·.kind) := by
  rw [keywordParts_eq, ← keywordsOf_eq_nil_iff]
  cases keywordsOf kind nodes <;> simp

theorem Resembles.written_eq {isNew : NodeId → Bool} {node node' : Node}
    (h : node.Resembles isNew node') (hold : isNew node.id = false) :
    node'.written isNew = node.written isNew := by
  have hold' : isNew node'.id = false := by
    rw [show node'.id = node.id from congrArg Label.id h.label]
    exact hold
  have herase := h.erase
  rw [erase_of_old hold, erase_of_old hold', List.cons.injEq] at herase
  exact congrArg (List.filter (·.kind.isSignificant)) (Node.mk.inj herase.1).2

theorem keywordParts_eq_of_label {nodes nodes' : List Node}
    (h : keywordsOf Label.kind (nodes.map label) = keywordsOf Label.kind (nodes'.map label))
    (htext : ∀ node ∈ nodes, node.kind = .text → node.text?.isSome = true) :
    keywordParts nodes = keywordParts nodes' := by
  rw [keywordsOf_map, keywordsOf_map] at h
  change (keywordsOf kind nodes).map label = (keywordsOf kind nodes').map label at h
  have hwords : ∀ word ∈ keywordsOf kind nodes, word.text?.isSome = true := fun word hword =>
    htext word (mem_keywordsOf hword).1 (mem_keywordsOf hword).2
  rw [keywordParts_eq, keywordParts_eq]
  generalize keywordsOf kind nodes = words at h hwords
  generalize keywordsOf kind nodes' = words' at h
  induction words generalizing words' with
  | nil => rw [List.map_eq_nil_iff.1 h.symm]
  | cons word words ih =>
      obtain ⟨word', words', rfl, hlabel, hrest⟩ := List.map_eq_cons_iff.1 h.symm
      rw [List.forall_mem_cons] at hwords
      rw [List.flatMap_cons, List.flatMap_cons, content_eq_of_label hlabel.symm hwords.1,
        ih hwords.2 words' hrest.symm]

/-- The keyword parts of a message are the names of its keywords, with those in the arguments. -/
theorem keywordParts_keywords (keywords : List Keyword) :
    keywordParts (keywords.flatMap Keyword.parts) =
      keywords.flatMap fun keyword => keyword.name ++ keywordParts keyword.argument := by
  induction keywords with
  | nil => rfl
  | cons keyword rest ih =>
      have happend : ∀ last ∈ keyword.parts.getLast?,
          ∀ first ∈ (rest.flatMap Keyword.parts).head?,
            isKeyword last.kind first.kind = false := by
        intro last _ first hfirst
        cases rest with
        | nil => cases hfirst
        | cons next rest =>
            obtain rfl := Option.some.inj hfirst
            exact isKeyword_of_ne_colon (by rw [next.isWord]; decide)
      have hkeyword : isKeyword keyword.word.kind keyword.colon.kind = true := by
        rw [keyword.isWord, keyword.isColon]
        rfl
      have hcolon : keyword.colon.kind ≠ .text := by
        rw [keyword.isColon]
        decide
      rw [List.flatMap_cons, List.flatMap_cons, ← ih, keywordParts_eq, keywordParts_eq,
        keywordParts_eq, keywordsOf_append happend, List.flatMap_append, Keyword.parts, keywordsOf,
        if_pos hkeyword, keywordsOf_skip hcolon, List.flatMap_cons]
      rfl

/-- The attribute of a message is the selector that is read off its brackets. -/
theorem attributes_message {node brackets : Node} (hkind : node.kind = .objcMethodCall)
    (hchildren : node.children = [brackets]) (hbrackets : brackets.kind = .brackets)
    {selector : List Char}
    (hselector : keywordParts (afterReceiver (messageParts brackets)) = selector)
    (hne : selector ≠ []) : node.attributes = [.named "selector" selector] := by
  have hfind : node.children.find? (·.kind = .brackets) = some brackets := by
    simp [hchildren, hbrackets]
  rw [attributes_eq (by rw [hkind]; decide) (by rw [hkind]; decide), derived?, hkind]
  simp only [messageSelector?, hfind]
  rw [Option.bind_eq_bind, Option.bind_some, selector?, hselector,
    if_neg (by simpa using hne)]
  rfl

end Node

namespace CFamily

theorem flatMap_append_eq_iff {α β : Type} {name extra : α → List β} {list : List α} :
    (list.flatMap fun item => name item ++ extra item) = list.flatMap name ↔
      ∀ item ∈ list, extra item = [] := by
  have hle : ∀ list : List α, (list.flatMap name).length ≤
      (list.flatMap fun item => name item ++ extra item).length := by
    intro list
    induction list with
    | nil => exact Nat.le_refl _
    | cons item rest ih =>
        simp only [List.flatMap_cons, List.length_append]
        omega
  constructor
  · intro h
    induction list with
    | nil => simp
    | cons item rest ih =>
        rw [List.flatMap_cons, List.flatMap_cons, List.append_assoc,
          List.append_cancel_left_eq] at h
        have hlength := congrArg List.length h
        rw [List.length_append] at hlength
        have hnil : extra item = [] := List.length_eq_zero_iff.1 (by have := hle rest; omega)
        rw [hnil, List.nil_append] at h
        exact List.forall_mem_cons.2 ⟨hnil, ih h⟩
  · intro h
    exact List.flatMap_congr fun item hitem => by rw [h item hitem, List.append_nil]

/-! ## Messages in their brackets -/

/-- How a message with keywords was written in brackets: what stands between them is its receiver
and its keywords, and can be expressions. -/
structure WrittenMessage (isNew : NodeId → Bool) (brackets : Node) where
  receiver : List Node
  first : Keyword
  others : List Keyword
  isBrackets : brackets.kind = .brackets
  parts : brackets.writtenParts isNew = receiver ++ (first :: others).flatMap Keyword.parts
  isReceiver : IsReceiver (receiver.map (·.kind))
  areExpressions : AreExpressions ((brackets.written isNew).map (·.kind))

variable {isNew : NodeId → Bool} {brackets : Node}

namespace WrittenMessage

/-- The keywords of a message. -/
def keywords (message : WrittenMessage isNew brackets) : List Keyword :=
  message.first :: message.others

/-- A message is known by the kinds of what was written. -/
theorem exists_of_kinds {receiver argument : List Kind} {arguments : List (List Kind)}
    (hbrackets : brackets.kind = .brackets)
    (hparts : (brackets.writtenParts isNew).map (·.kind) =
      receiver ++ Keyword.kindsOf (argument :: arguments))
    (hreceiver : IsReceiver receiver)
    (hexpressions : AreExpressions ((brackets.written isNew).map (·.kind))) :
    ∃ message : WrittenMessage isNew brackets,
      message.keywords.map (fun keyword => keyword.argument.map (·.kind)) =
        argument :: arguments := by
  obtain ⟨left, right, hsplit, rfl, hright⟩ := List.map_eq_append_iff.1 hparts
  obtain ⟨keywords, rfl, hkeywords⟩ := Keyword.exists_of_kinds hright
  obtain ⟨first, others, rfl, -⟩ := List.map_eq_cons_iff.1 hkeywords
  exact ⟨⟨left, first, others, hbrackets, hsplit, hreceiver, hexpressions⟩, hkeywords⟩

/-- Analysis regroups what was written in the brackets of a message. -/
theorem regroups (message : WrittenMessage isNew brackets) (h : HoldsExpressions isNew brackets) :
    Regroups ((brackets.writtenParts isNew).map Node.label)
      ((messageParts brackets).map Node.label) := by
  have hsame : (writtenLabels isNew brackets).map (·.kind) =
      (brackets.written isNew).map (·.kind) := List.map_map
  have hregroups := (h.2 message.isBrackets (hsame ▸ message.areExpressions)).filter
  rw [writtenLabels, Node.significantLabels, Node.significantLabels, List.filter_map,
    List.filter_map] at hregroups
  exact hregroups

/-- What analysis has left of a message is read as it was written: behind a receiver, its keywords
stand in front of colons. -/
theorem exists_words (message : WrittenMessage isNew brackets)
    (h : HoldsExpressions isNew brackets) :
    ∃ word rest, afterReceiver (messageParts brackets) = word :: rest ∧ word.kind = .text
      ∧ word :: rest ⊆ brackets.children
      ∧ keywordsOf Label.kind ((word :: rest).map Node.label) =
        keywordsOf Label.kind ((message.keywords.flatMap Keyword.parts).map Node.label) := by
  have hregroups := message.regroups h
  have hkeywords := hregroups.keywordsOf_eq
  have hreceiver : IsReceiver ((message.receiver.map Node.label).map (·.kind)) := by
    rw [List.map_map]
    exact message.isReceiver
  have hfirst : message.first.word.label.kind = .text := message.first.isWord
  rw [message.parts, List.map_append] at hregroups hkeywords
  obtain ⟨front, rest, hmessage⟩ := hregroups.exists_isMessage
    ⟨rfl, hreceiver, hfirst, message.first.isColon⟩
  rw [hmessage.split, keywordsOf_receiver hmessage.receiver hfirst] at hkeywords
  change _ = keywordsOf Label.kind
    (message.receiver.map Node.label ++ message.first.word.label :: _) at hkeywords
  rw [keywordsOf_receiver hreceiver hfirst] at hkeywords
  obtain ⟨left, words, hsplit, rfl, hwords⟩ := List.map_eq_append_iff.1 hmessage.split
  obtain ⟨word, others, rfl, hlabel, hothers⟩ := List.map_eq_cons_iff.1 hwords
  have hword : word.kind = .text := (congrArg Label.kind hlabel).trans hfirst
  have hmark : isChainMark word = false := by
    rw [isChainMark, hword]
    rfl
  have hleft : IsReceiver (left.map (·.kind)) := by
    have hlabels := hmessage.receiver
    rwa [List.map_map] at hlabels
  refine ⟨word, others, by rw [hsplit, afterReceiver_append hleft hmark], hword, ?_, ?_⟩
  · intro part hpart
    have hmem : part ∈ messageParts brackets := by
      rw [hsplit]
      exact List.mem_append_right _ hpart
    exact List.mem_of_mem_filter (List.mem_of_mem_filter hmem)
  · rw [List.map_cons, hlabel, hothers]
    exact hkeywords

/-- Resembling brackets hold the same message. -/
def ofResembles {brackets' : Node} (message : WrittenMessage isNew brackets')
    (h : brackets.Resembles isNew brackets') (hold : isNew brackets.id = false) :
    WrittenMessage isNew brackets :=
  have hwritten := h.written_eq hold
  { message with
    isBrackets := h.kind.symm.trans message.isBrackets
    parts := by
      rw [Node.writtenParts, ← hwritten]
      exact message.parts
    areExpressions := hwritten ▸ message.areExpressions }

end WrittenMessage

/-- Brackets that hold a message are found if they do not follow what they could be a subscript
of. -/
theorem messagesPlan_of_written (message : WrittenMessage isNew brackets)
    (h : HoldsExpressions isNew brackets) {parent : Kind} {before rest : List Node}
    (hprevious : ((before.map (·.kind)).find? (·.isSignificant)).any subscripted.contains = false) :
    messagesPlan (Lookahead.atAnchor parent before (brackets :: rest)).scene =
      some (.objcMethodCall, 1) := by
  have hsignificant : brackets.kind.isSignificant = true := by
    rw [message.isBrackets]
    decide
  obtain ⟨word, others, hwords, hword, -, -⟩ := message.exists_words h
  have hkinds : dropMemberKinds
      (((brackets.significantChildren.map (·.kind)).filter (· != .delimiter)).drop 1) =
        (afterReceiver (messageParts brackets)).map (·.kind) := by
    rw [afterReceiver, map_dropMembers, List.map_drop, messageParts, List.filter_map]
    rfl
  rw [Plan.scene_atAnchor hsignificant, message.isBrackets]
  apply if_pos
  rw [seesMessage, hprevious, hkinds, hwords, List.map_cons, hword]
  exact ⟨rfl, List.cons_ne_nil _ _⟩

end CFamily

/-- At a node that a level leaves where it is, no run is found for a node of another kind than the
parent. -/
theorem Levels.parent_of_left {lines : LineIndex} {plan : Plan} {parent : Kind} {next next' : Nat}
    {before ahead out front behind : List Node} {node : Node} (hsound : plan.Sound)
    (h : Levels lines plan parent next before ahead next' out)
    (hout : out = front ++ node :: behind) (hnode : node.kind.isSignificant = true)
    (hold : KindSet.synthesized.contains node.kind = false) :
    node ∈ ahead ∧ ∃ rest, ∀ kind n,
      plan (Lookahead.atAnchor parent (front.reverse ++ before) (node :: rest)).scene =
        some (kind, n) → parent = kind := by
  induction h generalizing front with
  | done => cases front <;> cases hout
  | pass hnot _ ih =>
      cases front with
      | nil =>
          obtain ⟨rfl, -⟩ := List.cons.inj hout
          cases hnode.symm.trans hnot
      | cons first front =>
          obtain ⟨rfl, hrest⟩ := List.cons.inj hout
          obtain ⟨hmem, hfound⟩ := ih hrest
          exact ⟨List.mem_cons_of_mem _ hmem, by simpa using hfound⟩
  | @keep _ _ _ rest _ _ _ hkept _ ih =>
      cases front with
      | nil =>
          obtain ⟨rfl, -⟩ := List.cons.inj hout
          exact ⟨List.mem_cons_self .., rest, fun kind n hfound => (hkept kind n hfound).2.2⟩
      | cons first front =>
          obtain ⟨rfl, hrest⟩ := List.cons.inj hout
          obtain ⟨hmem, hfound⟩ := ih hrest
          exact ⟨List.mem_cons_of_mem _ hmem, by simpa using hfound⟩
  | wrap _ _ hfound _ _ ih =>
      cases front with
      | nil =>
          obtain ⟨rfl, -⟩ := List.cons.inj hout
          cases (hsound.synthesized hfound).symm.trans hold
      | cons first front =>
          obtain ⟨rfl, hrest⟩ := List.cons.inj hout
          obtain ⟨hmem, hleft⟩ := ih hrest
          exact ⟨List.mem_append_right _ hmem, by simpa using hleft⟩

namespace CFamily

variable {isNew : NodeId → Bool}

/-- A message is one sibling. -/
theorem eq_one_of_message {scene : Scene} {n : Nat}
    (h : messagesPlan scene = some (.objcMethodCall, n)) : n = 1 := by
  unfold messagesPlan Plan.dispatch at h
  generalize scene.kinds.head? = head at h
  unfold callAtPlan at h
  split at h
  case h_4 =>
    unfold bracketedPlan at h
    split at h
    · exact (Prod.mk.inj (Option.some.inj h)).2.symm
    · cases h
  case h_5 =>
    obtain ⟨-, hcall⟩ := Plan.guarded_eq_some_iff.1 h
    dsimp only at hcall
    split at hcall <;> cases hcall
  case h_1 => cases h
  all_goals
    unfold wordWithArgumentPlan at h
    split at h <;> cases h

/-- The node of a message is put over one sibling, and keeps it. -/
theorem exists_brackets {children children' : List Node}
    (hmade : messagesPlan.Made .objcMethodCall children)
    (hturns : messagesPlan.Turns isNew .objcMethodCall children children') :
    ∃ brackets, children' = [brackets] := by
  obtain ⟨parent, before, rest, n, hfound, hcloses⟩ := hmade.found
  obtain rfl := eq_one_of_message hfound
  obtain ⟨first, hhead, hfirst⟩ := (Option.any_eq_true _ _).1 hmade.first
  obtain ⟨others, rfl⟩ := List.head?_eq_some_iff.1 hhead
  have hsingle : Closes 1 [first] := .last hfirst
  obtain rfl : others = [] := hsingle.eq_nil_of_append hcloses
  obtain ⟨lines, next, next', out, hlevels, -, hout⟩ := hturns
  obtain ⟨out, rfl, hrest⟩ := hlevels.exists_keep hfirst fun kind n hagain => by
    have hle := sound_messages.le hagain
    have hpos := sound_messages.pos hagain
    rw [Plan.scene_atAnchor hfirst] at hle
    obtain rfl : n = 1 := by
      simp only [List.filter_nil, List.map_nil, List.length_singleton] at hle
      omega
    exact ⟨rfl, hsingle,
      (Plan.firm_of_found sound_messages hfirst hcloses hfound kind 1 hagain hsingle).symm⟩
  cases hrest
  obtain ⟨brackets, _, -, hnil, rfl⟩ := List.forall₂_cons_left_iff.1 hout
  cases hnil
  exact ⟨brackets, rfl⟩

/-- Siblings that others resemble split where these split. -/
theorem exists_of_resembles {nodes front behind : List Node} {node : Node}
    (h : List.Forall₂ (Node.Resembles isNew) nodes (front ++ node :: behind)) :
    ∃ front' node' behind', nodes = front' ++ node' :: behind'
      ∧ List.Forall₂ (Node.Resembles isNew) front' front ∧ node'.Resembles isNew node := by
  obtain ⟨node', behind', hnode, -, hdrop⟩ :=
    List.forall₂_cons_right_iff.1 (List.forall₂_drop_append nodes front (node :: behind) h)
  refine ⟨nodes.take front.length, node', behind', ?_, List.forall₂_take_append nodes front _ h,
    hnode⟩
  rw [← hdrop, List.take_append_drop]

/-- Where messages stand: a node of a message holds nothing but its brackets, and messages with
keywords stand in such nodes unless they follow what they could be a subscript of. -/
structure HoldsMessages (isNew : NodeId → Bool) (node : Node) : Prop where
  single : node.kind = .objcMethodCall → ∃ brackets, node.children = [brackets]
  found : ∀ front brackets behind, node.children = front ++ brackets :: behind →
    WrittenMessage isNew brackets →
      (significantKinds front).getLast?.any subscripted.contains = false →
        node.kind = .objcMethodCall

/-- In each node that it visits, the pass finds the messages. -/
theorem found_of_turns {made : KindSet} {label : Label} {children children' : List Node}
    (hchildren : ∀ child ∈ children, HoldsExpressions isNew child ∧ child.Staged isNew made)
    (hturns : messagesPlan.Turns isNew label.kind children children')
    {front behind : List Node} {brackets : Node} (hsplit : children' = front ++ brackets :: behind)
    (message : WrittenMessage isNew brackets)
    (hprevious : (significantKinds front).getLast?.any subscripted.contains = false) :
    label.kind = .objcMethodCall := by
  obtain ⟨lines, next, next', out, hlevels, -, hout⟩ := hturns
  rw [hsplit] at hout
  obtain ⟨front', brackets', behind', hsplit', hfront, hsame⟩ := exists_of_resembles hout
  have hbrackets : brackets'.kind = .brackets := hsame.kind.symm.trans message.isBrackets
  have hold : KindSet.synthesized.contains brackets'.kind = false := by
    rw [hbrackets]
    decide
  have hsignificant : brackets'.kind.isSignificant = true := by
    rw [hbrackets]
    decide
  obtain ⟨hmem, rest, hleft⟩ := hlevels.parent_of_left sound_messages hsplit' hsignificant hold
  obtain ⟨hholds, hstaged⟩ := hchildren brackets' hmem
  apply hleft .objcMethodCall 1
  apply messagesPlan_of_written (message.ofResembles hsame (hstaged.isNew_eq_false hold)) hholds
  rw [List.append_nil, Node.find?_kinds_reverse, ← Node.significantLabels_of_resembles hfront,
    map_kind_significantLabels]
  exact hprevious

theorem upholds_holdsMessages {made : KindSet}
    (hdisjoint : (KindSet.ofList [.objcMethodCall]).IsDisjoint made) :
    messagesPlan.Upholds isNew
      (fun node => HoldsExpressions isNew node ∧ node.Staged isNew made
        ∧ Pass.HidesNone .brackets node)
      (HoldsMessages isNew) := by
  -- the earlier passes have made no messages
  have hnone : ∀ {node : Node}, node.Staged isNew made → node.kind ≠ .objcMethodCall := by
    intro node hstaged hkind
    have hnot : (KindSet.ofList [.objcMethodCall]).contains node.kind = false :=
      hstaged.not_later (by decide) hdisjoint
    rw [hkind] at hnot
    exact absurd hnot (by decide)
  have hturns : ∀ {label : Label} {children children' : List Node},
      (∀ child ∈ children, HoldsExpressions isNew child ∧ child.Staged isNew made
        ∧ Pass.HidesNone .brackets child) →
      messagesPlan.Turns isNew label.kind children children' →
      (label.kind = .objcMethodCall → ∃ brackets, children' = [brackets]) →
      HoldsMessages isNew ⟨label, children'⟩ := by
    intro label children children' hchildren hturned hsingle
    refine ⟨hsingle, fun front brackets behind hsplit message hprevious => ?_⟩
    exact found_of_turns (fun child hchild => ⟨(hchildren child hchild).1,
      (hchildren child hchild).2.1⟩) hturned hsplit message hprevious
  constructor
  · intro node hclosed hall below hbelow
    refine ⟨fun hkind => absurd hkind (hnone (hall below hbelow).2.1), ?_⟩
    intro front brackets behind hchildren message
    -- a closed node has no brackets in it
    have hmem : brackets ∈ node.descendants := by
      refine Node.mem_descendants_trans hbelow (Node.child_mem_descendants
        below.self_mem_descendants ?_)
      rw [hchildren]
      simp
    exact absurd message.isBrackets
      ((hall node node.self_mem_descendants).2.2 hclosed brackets hmem)
  · intro label children children' _ hself hchildren hturned
    exact hturns hchildren hturned fun hkind => absurd hkind (hnone hself.2.1)
  · intro label children children' _ _ hmade hchildren hturned
    refine hturns hchildren hturned fun hkind => ?_
    rw [hkind] at hmade hturned
    exact exists_brackets hmade hturned

end CFamily

namespace Language

open CFamily

theorem holdsMessages_parse (text : List Char) :
    (Language.objc.parse true text).root.All (HoldsMessages (Language.objc.isAdded text)) := by
  have hexpressions := holdsExpressions_analyse text 6
  have hstaged : ((Language.objc.stage 0 text).analyse (objcPasses.take 6)).root.All
      (Node.Staged (Language.objc.isAdded text)
        (declarationKinds ∪ functionKinds ∪ flowKinds ∪ labelKinds)) := by
    apply Language.objc.staged_analyse text
    simp only [objcPasses, List.take_succ_cons, List.take_zero, List.forall_mem_cons]
    exact ⟨⟨_, reads_conditional, sound_conditional, makes_conditional.mono (by decide)⟩,
      ⟨_, reads_classes, sound_classes, makes_classes.mono (by decide)⟩,
      ⟨_, reads_types, sound_types, makes_types.mono (by decide)⟩,
      ⟨_, reads_function, sound_function, makes_function.mono (by decide)⟩,
      ⟨_, reads_flow, sound_flow, makes_flow.mono (by decide)⟩,
      ⟨_, reads_labels, sound_labels, makes_labels.mono (by decide)⟩, by simp⟩
  have hhides : ((Language.objc.stage 0 text).analyse (objcPasses.take 6)).root.All
      (Pass.HidesNone .brackets) := hidesNone_of_outside (by decide) 6 text (by decide)
  exact all_analyse text (objcPasses.take 6) ⟨"calls", _⟩ []
    (fun node hnode => ⟨hexpressions node hnode, hstaged node hnode, hhides node hnode⟩)
    reads_messages sound_messages (upholds_holdsMessages (by decide)) (by simp)

/-- Selectors of messages.  In the tree of a text in Objective-C, let a message be written in
brackets: a receiver, and keywords with arguments that no statement ends in.  The brackets stand in
a node for the message exactly if they do not follow what they could be a subscript of, and there
they stand alone.  The selector of the message consists of its keywords, each with the words in its
argument that have a colon right behind them.  So it is made of the keywords alone if and only if
there are no such words, which a conditional has if a word stands in front of its colon. -/
theorem selector_of_message (text : List Char) {above brackets : Node} {front behind : List Node}
    (habove : above ∈ (Language.objc.parse true text).root.descendants)
    (hchildren : above.children = front ++ brackets :: behind)
    (message : WrittenMessage (Language.objc.isAdded text) brackets) :
    (above.kind = .objcMethodCall ↔
        (significantKinds front).getLast?.any subscripted.contains = false)
      ∧ (above.kind = .objcMethodCall → above.children = [brackets]
        ∧ above.attributes = [.named "selector" (message.keywords.flatMap fun keyword =>
            keyword.name ++ Node.keywordParts keyword.argument)]
        ∧ (above.attributes = [.named "selector" (message.keywords.flatMap Keyword.name)] ↔
            ∀ keyword ∈ message.keywords, keyword.IsPlain)) := by
  have hholds := holdsMessages_parse text above habove
  have hsingle : above.kind = .objcMethodCall → front = [] ∧ behind = [] := by
    intro hkind
    obtain ⟨child, hchild⟩ := hholds.single hkind
    rw [hchildren] at hchild
    cases front with
    | nil => exact ⟨rfl, (List.cons.inj hchild).2⟩
    | cons first front => simp at hchild
  refine ⟨⟨fun hkind => by rw [(hsingle hkind).1]; rfl,
    hholds.found front brackets behind hchildren message⟩, fun hkind => ?_⟩
  obtain ⟨rfl, rfl⟩ := hsingle hkind
  rw [List.nil_append] at hchildren
  have hbrackets : brackets ∈ (Language.objc.parse true text).root.descendants :=
    Node.child_mem_descendants habove (by rw [hchildren]; exact List.mem_singleton_self _)
  have hexpressions : HoldsExpressions (Language.objc.isAdded text) brackets :=
    holdsExpressions_analyse text 7 brackets hbrackets
  obtain ⟨word, rest, hwords, hword, hsub, hlabels⟩ := message.exists_words hexpressions
  have hparts : Node.keywordParts (afterReceiver (messageParts brackets)) =
      message.keywords.flatMap fun keyword =>
        keyword.name ++ Node.keywordParts keyword.argument := by
    rw [hwords, ← Node.keywordParts_keywords]
    apply Node.keywordParts_eq_of_label hlabels
    intro node hnode hnodeKind
    apply Language.objc.isSome_text? text (Node.child_mem_descendants hbrackets (hsub hnode))
    rw [hnodeKind]
    decide
  have hselector := Node.attributes_message hkind hchildren message.isBrackets hparts
    (by simp [WrittenMessage.keywords, Keyword.name])
  refine ⟨hchildren, hselector, ?_⟩
  have hnamed : Function.Injective fun selector => [Attribute.named "selector" selector] := by
    intro left right hsame
    simpa [Attribute.named] using hsame
  rw [hselector, hnamed.eq_iff, flatMap_append_eq_iff]
  exact forall₂_congr fun keyword _ => Node.keywordParts_eq_nil_iff

/-- A message to a member, with a conditional in an argument.  What stands in front of its colon is
in parentheses, so the selector is that of the two keywords. -/
theorem selector_of_message_parenthesized :
    ∃ above ∈ (Language.objc.parse true "[a.b k:x to:y ? (z) : w];".toList).root.descendants,
      ∃ brackets, above.children = [] ++ brackets :: []
        ∧ above.kind = .objcMethodCall
        ∧ above.attributes = [.named "selector" "k:to:".toList]
        ∧ ∃ message : WrittenMessage
            (Language.objc.isAdded "[a.b k:x to:y ? (z) : w];".toList) brackets,
          above.attributes = [.named "selector" (message.keywords.flatMap Keyword.name)] := by
  obtain ⟨above, habove, hsingle, hselector, brackets, hmem, hbrackets, hparts, hkinds⟩ :
      ∃ above ∈ (Language.objc.parse true "[a.b k:x to:y ? (z) : w];".toList).root.descendants,
        above.children.length = 1 ∧ above.attributes = [.named "selector" "k:to:".toList]
          ∧ ∃ brackets ∈ above.children, brackets.kind = .brackets
          ∧ (brackets.writtenParts
              (Language.objc.isAdded "[a.b k:x to:y ? (z) : w];".toList)).map (·.kind) =
              [.text, .dot, .text] ++ Keyword.kindsOf
                [[.text], [.text, .questionMark, .parenthesis, .colon, .text]]
          ∧ ∀ kind ∈ (brackets.written
              (Language.objc.isAdded "[a.b k:x to:y ? (z) : w];".toList)).map (·.kind),
                statementMarks.contains kind = false ∧ recordWords.contains kind = false := by
    decide +kernel
  obtain ⟨child, hchildren⟩ := List.length_eq_one_iff.1 hsingle
  obtain rfl : brackets = child := by simpa [hchildren] using hmem
  obtain ⟨message, hkeywords⟩ := WrittenMessage.exists_of_kinds hbrackets hparts
    (.member (.inl rfl) (.single .text)) (areExpressions_of_forall hkinds)
  have hsplit : above.children = [] ++ brackets :: [] := hchildren
  obtain ⟨hfound, hread⟩ := selector_of_message _ habove hsplit message
  have hkind : above.kind = .objcMethodCall := hfound.2 rfl
  refine ⟨above, habove, brackets, hsplit, hkind, hselector, message, ?_⟩
  apply (hread hkind).2.2.2
  intro keyword hkeyword
  have hargument := List.mem_map_of_mem (f := fun keyword => keyword.argument.map (·.kind)) hkeyword
  rw [hkeywords] at hargument
  have hplain : ∀ kinds ∈ [[Kind.text], [.text, .questionMark, .parenthesis, .colon, .text]],
      ¬[.text, .colon] <:+: kinds := by decide
  exact hplain _ hargument

/-- A word in front of the colon of a conditional is taken for a keyword. -/
theorem selector_of_message_conditional :
    ∃ above ∈ (Language.objc.parse true "[r k:x ? y : z];".toList).root.descendants,
      above.kind = .objcMethodCall ∧ ∃ brackets ∈ above.children, brackets.kind = .brackets
        ∧ (brackets.writtenParts (Language.objc.isAdded "[r k:x ? y : z];".toList)).map
            (fun part => (part.kind, part.content)) =
          [(.text, "r".toList), (.text, "k".toList), (.colon, ":".toList), (.text, "x".toList),
            (.questionMark, "?".toList), (.text, "y".toList), (.colon, ":".toList),
            (.text, "z".toList)]
        ∧ above.attributes = [.named "selector" "k:y:".toList]
        ∧ above.attributes ≠ [.named "selector" "k:".toList] := by
  decide +kernel

end Language

end ConcreteSyntax
