import ConcreteSyntax.Proofs.CFamily.DeclaredNames
import ConcreteSyntax.Proofs.CFamily.Typedefs

/-!
# Names of type definitions

The name of a type definition is its last word, or the last word in its first parentheses if it has
no word outside of parentheses.  A type definition of a function pointer is named by the word in its
first parentheses just if no identifier stands in its type: one that is left there by the last pass
is read as the name, and one that the pass takes for what is called hides the word in the
parentheses (`Language.name_of_pointer_typedef`).
-/

namespace ConcreteSyntax

namespace Node

variable {node : Node} {front behind : List Label} {label : Label}

/-- The last word of a node is read off the labels of its children. -/
theorem lastWord?_eq {words : List Node}
    (h : (significantLabels node.children).filter (·.kind = .text) = words.map Node.label)
    (htext : ∀ child ∈ node.children, child.kind = .text → child.text?.isSome = true) :
    node.lastWord? = words.getLast?.map content := by
  rw [significantLabels, List.filter_map] at h
  change (node.significantChildren.filter (·.kind = .text)).map Node.label = _ at h
  have hlast := congrArg List.getLast? h
  rw [List.getLast?_map, List.getLast?_map] at hlast
  unfold lastWord?
  cases hwords : words.getLast? with
  | none =>
      rw [hwords, Option.map_none, Option.map_eq_none_iff] at hlast
      rw [hlast]
  | some word =>
      rw [hwords, Option.map_some, Option.map_eq_some_iff] at hlast
      obtain ⟨child, hchild, hlabel⟩ := hlast
      obtain ⟨hmem, hkind⟩ := List.mem_filter.1 (List.mem_of_getLast? hchild)
      rw [hchild, Option.map_some, Option.map_some, content_eq_of_label hlabel
        (htext child (List.mem_of_mem_filter hmem) (of_decide_eq_true hkind))]

/-- The first parentheses among the children of a node are found by the labels of these. -/
theorem exists_find?_parenthesis (h : significantLabels node.children = front ++ label :: behind)
    (hfront : ∀ other ∈ front, other.kind ≠ .parenthesis) (hlabel : label.kind = .parenthesis) :
    ∃ child ∈ node.children, child.label = label
      ∧ node.children.find? (·.kind = .parenthesis) = some child := by
  obtain ⟨left, right, hchildren, hleft, hright⟩ := exists_of_significantLabels_eq_append h
  obtain ⟨trivia, child, others, rfl, htrivia, -, hchild, -⟩ :=
    exists_of_significantLabels_eq_cons hright
  have hkind : child.kind = .parenthesis := by rw [kind, hchild, hlabel]
  have hnone : (left ++ trivia).find? (·.kind = .parenthesis) = none := by
    rw [List.find?_eq_none]
    intro other hother hparenthesis
    have hparenthesis := of_decide_eq_true hparenthesis
    have hmem : other.label ∈ significantLabels (left ++ trivia) :=
      List.mem_map_of_mem (List.mem_filter.2 ⟨hother, by rw [hparenthesis]; decide⟩)
    rw [significantLabels_append, hleft, htrivia, List.append_nil] at hmem
    exact hfront other.label hmem hparenthesis
  rw [hchildren, ← List.append_assoc]
  exact ⟨child, by simp, hchild, by rw [List.find?_append, hnone]; simp [hkind]⟩

theorem attributes_typedef (h : node.kind = .typedefDeclaration) :
    node.attributes = (node.typeName?.map (.named "name")).toList := by
  rw [attributes_eq (by rw [h]; decide) (by rw [h]; decide), derived?, h]

end Node

namespace CFamily

variable {isNew : NodeId → Bool} {run : List Node} {node : Node}

/-- The type definition of a function pointer, `typedef type (*name)(parameters);`, from its first
word to its last. -/
structure PointerTypedef (run : List Node) where
  keyword : Node
  type : List Node
  declarator : Node
  name : Node
  parameters : Node
  semicolon : Node
  nodes : run.filter (·.kind.isSignificant) =
    keyword :: type ++ [declarator, parameters, semicolon]
  first : run.head? = some keyword
  last : run.getLast? = some semicolon
  keyword_kind : keyword.kind = .typedefKw
  type_kinds : ∀ part ∈ type, typeParts.contains part.kind = true
  declarator_kind : declarator.kind = .parenthesis
  parameters_kind : parameters.kind = .parenthesis
  semicolon_kind : semicolon.kind = .semicolon
  inside : declarator.significantChildren.map (·.kind) = declaratorKinds
  named : declarator.significantChildren[2]? = some name

namespace PointerTypedef

variable (typedef : PointerTypedef run)

/-- The identifiers in the type, but for one at its end, right in front of the name in
parentheses. -/
def words : List Node := typedef.type.dropLast.filter (·.kind = .text)

theorem significantLabels_run : Node.significantLabels run = typedef.keyword.label ::
    typedef.type.map Node.label ++ typedef.declarator.label ::
      [typedef.parameters.label, typedef.semicolon.label] := by
  rw [Node.significantLabels, typedef.nodes]
  simp

theorem arePointer : ArePointer typedef.keyword.label (typedef.type.map Node.label)
    typedef.declarator.label [typedef.parameters.label, typedef.semicolon.label] where
  keyword := typedef.keyword_kind
  type := List.forall_mem_map.2 typedef.type_kinds
  declarator := typedef.declarator_kind
  ending := congrArg₂ (fun first second => [first, second]) typedef.parameters_kind
    typedef.semicolon_kind

theorem kinds_run : (Node.significantLabels run).map (·.kind) =
    pointerKinds (typedef.type.map (·.kind)) := by
  rw [typedef.significantLabels_run, pointerKinds, List.cons_append, List.map_cons,
    List.map_append, List.map_cons, typedef.arePointer.keyword, typedef.arePointer.declarator,
    typedef.arePointer.ending, List.map_map]
  simp [Function.comp_def, Node.kind]

/-- What there is of it at the end of analysis: all that was written, or a call in place of an
identifier at the end of the type and the name in parentheses. -/
theorem significantLabels_node (hpointed : Pointed isNew node)
    (herase : node.children.flatMap (Node.erase isNew) = run) :
    ((∀ word ∈ typedef.type.getLast?, word.kind ≠ .text) ∧ Node.significantLabels node.children =
      typedef.keyword.label :: typedef.type.map Node.label ++ typedef.declarator.label ::
        [typedef.parameters.label, typedef.semicolon.label])
    ∨ ∃ front word call, typedef.type = front ++ [word] ∧ word.kind = .text
      ∧ call.kind = .functionCall ∧ Node.significantLabels node.children =
        typedef.keyword.label :: front.map Node.label ++ call ::
          [typedef.parameters.label, typedef.semicolon.label] := by
  obtain ⟨hkept, hcalled⟩ :=
    hpointed typedef.arePointer (herase ▸ typedef.significantLabels_run)
  by_cases hlast : ∀ word ∈ typedef.type.getLast?, word.kind ≠ .text
  · refine .inl ⟨hlast, hkept fun label hlabel => ?_⟩
    rw [List.getLast?_map] at hlabel
    obtain ⟨word, hword, rfl⟩ := Option.map_eq_some_iff.1 hlabel
    exact hlast word hword
  · push Not at hlast
    obtain ⟨word, hword, hkind⟩ := hlast
    obtain ⟨front, htype⟩ := List.getLast?_eq_some_iff.1 hword
    obtain ⟨call, hcall, hlabels⟩ :=
      hcalled (front.map Node.label) word.label (by simp [htype]) hkind
    exact .inr ⟨front, word, call, htype, hkind, hcall, hlabels⟩

/-- The words that are left beside the parentheses are the identifiers in the type, but for one at
its end. -/
theorem words_node (hpointed : Pointed isNew node)
    (herase : node.children.flatMap (Node.erase isNew) = run) :
    (Node.significantLabels node.children).filter (·.kind = .text) =
      typedef.words.map Node.label := by
  have hfilter (nodes : List Node) (label : Label) (hlabel : label.kind ≠ .text) :
      (typedef.keyword.label :: nodes.map Node.label ++ label ::
        [typedef.parameters.label, typedef.semicolon.label]).filter (·.kind = .text) =
          (nodes.filter (·.kind = .text)).map Node.label := by
    have hkeyword := typedef.arePointer.keyword
    have hparameters : typedef.parameters.label.kind = .parenthesis := typedef.parameters_kind
    have hsemicolon : typedef.semicolon.label.kind = .semicolon := typedef.semicolon_kind
    have hnodes : (nodes.map Node.label).filter (·.kind = .text) =
        (nodes.filter (·.kind = .text)).map Node.label := List.filter_map
    simp [hlabel, hkeyword, hparameters, hsemicolon, hnodes]
  obtain ⟨hlast, hlabels⟩ | ⟨front, word, call, htype, hword, hcall, hlabels⟩ :=
    typedef.significantLabels_node hpointed herase
  · rw [hlabels, hfilter _ _ (by rw [typedef.arePointer.declarator]; decide), words]
    rcases List.eq_nil_or_concat typedef.type with htype | ⟨front, word, htype⟩
    · rw [htype]
      rfl
    · have hword := hlast word (by simp [htype])
      simp [htype, hword]
  · rw [hlabels, hfilter _ _ (by rw [hcall]; decide), words, htype, List.dropLast_concat]

theorem ne_parenthesis : ∀ label ∈ typedef.keyword.label :: typedef.type.map Node.label,
    label.kind ≠ .parenthesis := by
  rw [List.forall_mem_cons, List.forall_mem_map]
  refine ⟨by rw [typedef.arePointer.keyword]; decide, fun part hpart hparenthesis => ?_⟩
  have hkind := typedef.type_kinds part hpart
  rw [show part.kind = .parenthesis from hparenthesis] at hkind
  exact absurd hkind (by decide)

/-- The first parentheses that are left are those of the parameters if an identifier ends the
type. -/
theorem exists_parenthesis (hpointed : Pointed isNew node)
    (herase : node.children.flatMap (Node.erase isNew) = run) :
    ∃ child ∈ node.children, node.children.find? (·.kind = .parenthesis) = some child
      ∧ child.label = if typedef.type.getLast?.any (·.kind = .text) then typedef.parameters.label
        else typedef.declarator.label := by
  obtain ⟨hlast, hlabels⟩ | ⟨front, word, call, htype, hword, hcall, hlabels⟩ :=
    typedef.significantLabels_node hpointed herase
  · obtain ⟨child, hchild, hlabel, hfind⟩ := Node.exists_find?_parenthesis hlabels
      typedef.ne_parenthesis typedef.declarator_kind
    refine ⟨child, hchild, hfind, hlabel.trans (if_neg ?_).symm⟩
    rw [Option.any_eq_true]
    rintro ⟨word, hword, hkind⟩
    exact hlast word hword (of_decide_eq_true hkind)
  · have hfront : ∀ label ∈ typedef.keyword.label :: front.map Node.label ++ [call],
        label.kind ≠ .parenthesis := by
      rw [List.forall_mem_append, List.forall_mem_singleton, hcall]
      refine ⟨fun label hlabel => typedef.ne_parenthesis label ?_, by decide⟩
      rw [htype, List.map_append, ← List.cons_append]
      exact List.mem_append_left _ hlabel
    obtain ⟨child, hchild, hlabel, hfind⟩ := Node.exists_find?_parenthesis
      (by rw [hlabels, List.append_assoc]; rfl) hfront typedef.parameters_kind
    exact ⟨child, hchild, hfind, hlabel.trans (if_pos (by simp [htype, hword])).symm⟩

/-- The only word in the first parentheses is the name. -/
theorem words_declarator :
    typedef.declarator.significantChildren.filter (·.kind = .text) = [typedef.name] := by
  have hinside := typedef.inside
  have hnamed := typedef.named
  generalize typedef.declarator.significantChildren = children at hinside hnamed ⊢
  obtain ⟨opening, others, rfl, hopening, hothers⟩ := List.map_eq_cons_iff.1 hinside
  obtain ⟨asterisk, others, rfl, hasterisk, hothers⟩ := List.map_eq_cons_iff.1 hothers
  obtain ⟨name, others, rfl, hname, hothers⟩ := List.map_eq_cons_iff.1 hothers
  obtain ⟨closing, others, rfl, hclosing, hothers⟩ := List.map_eq_cons_iff.1 hothers
  obtain rfl := List.map_eq_nil_iff.1 hothers
  obtain rfl := Option.some.inj hnamed
  simp [hopening, hasterisk, hname, hclosing]

theorem declarator_mem : typedef.declarator ∈ run :=
  List.mem_of_mem_filter (p := (·.kind.isSignificant)) (by rw [typedef.nodes]; simp)

theorem words_eq_nil (h : ∀ part ∈ typedef.type.dropLast, part.kind ≠ .text) :
    typedef.words = [] := by
  simpa [words] using h

end PointerTypedef

end CFamily

namespace Language

open CFamily

variable {language : Language} {node : Node}

/-- Before analysis, a node is known by its identity. -/
theorem eq_of_id_stage (language : Language) (text : List Char) {node' : Node}
    (h : node ∈ (language.stage 0 text).root.descendants)
    (h' : node' ∈ (language.stage 0 text).root.descendants) (hid : node.id = node'.id) :
    node = node' :=
  List.inj_on_of_nodup_map (language.wellLaid_stage 0 text).numbered.nodup h h' hid

/-- What was written below a node is there below the node with its label. -/
theorem erase_children_of_label (language : Language) (text : List Char) {run : List Node}
    {child written : Node} (hrun : ∀ part ∈ run, part ∈ (language.stage 0 text).root.descendants)
    (herase : node.children.flatMap (Node.erase (language.isAdded text)) = run)
    (hwritten : written ∈ run) (hchild : child ∈ node.children)
    (hlabel : child.label = written.label) :
    child.children.flatMap (Node.erase (language.isAdded text)) = written.children := by
  have hid : child.id = written.id := congrArg Label.id hlabel
  have hold : language.isAdded text child.id = false := by
    rw [hid]
    exact language.isAdded_stage text (hrun written hwritten)
  have hmem : ⟨child.label, child.children.flatMap (Node.erase (language.isAdded text))⟩ ∈ run := by
    rw [← herase]
    exact List.mem_flatMap.2 ⟨child, hchild, by simp [Node.erase_of_old hold]⟩
  exact congrArg Node.children
    (language.eq_of_id_stage text (hrun _ hmem) (hrun written hwritten) hid)

theorem lastWord?_parse (language : Language) (text : List Char) {words : List Node}
    (hnode : node ∈ (language.parse true text).root.descendants)
    (h : (Node.significantLabels node.children).filter (·.kind = .text) = words.map Node.label) :
    node.lastWord? = words.getLast?.map Node.content :=
  Node.lastWord?_eq h fun child hchild hkind => language.isSome_text? text
    (Node.child_mem_descendants hnode hchild) (by rw [hkind]; decide)

/-- The word in the first parentheses is still there at the end of analysis. -/
theorem lastWord?_declarator (hlanguage : language ∈ cFamily) (text : List Char)
    {run : List Node} (typedef : PointerTypedef run) {declarator : Node}
    (hnode : declarator ∈ (language.parse true text).root.descendants)
    (hlabel : declarator.label = typedef.declarator.label)
    (herase : declarator.children.flatMap (Node.erase (language.isAdded text)) =
      typedef.declarator.children) :
    declarator.lastWord? = some typedef.name.content := by
  have hunchanged := unchanged_declarator hlanguage text declarator hnode (by
    rw [Node.kind, hlabel, typedef.arePointer.declarator]
    decide)
  rw [Unchanged, herase, Node.map_kind_significantLabels] at hunchanged
  have hlabels := hunchanged typedef.inside
  have hwords : (Node.significantLabels typedef.declarator.children).filter (·.kind = .text) =
      (typedef.declarator.significantChildren.filter (·.kind = .text)).map Node.label :=
    List.filter_map
  rw [typedef.words_declarator] at hwords
  rw [language.lastWord?_parse text hnode (hlabels ▸ hwords)]
  rfl

/-- Names of type definitions.  In the token tree of a text of a C-family language, let the type
definition of a function pointer stand among the children of a node that passes come to.  At the end
of analysis it has a node of its own.  The name of that is the last identifier in the type that does
not stand right in front of the name in parentheses.  If there is none, it is the name in
parentheses, as long as no identifier stands in front of that either.  Otherwise the name is read
off the parameters. -/
theorem name_of_pointer_typedef (hlanguage : language ∈ cFamily) (text : List Char)
    {place : Node} (hplace : Pass.Reaches (language.stage 0 text).root place)
    (hopen : Pass.isOpen place.kind = true) {front run back : List Node}
    (hchildren : place.children = front ++ (run ++ back)) (typedef : PointerTypedef run) :
    ∃ node ∈ (language.parse true text).root.descendants,
      IsNodeOf (language.isAdded text) .typedefDeclaration run node
        ∧ (∀ word ∈ typedef.words.getLast?, node.attributes = [.named "name" word.content])
        ∧ ((∀ part ∈ typedef.type, part.kind ≠ .text) →
          node.attributes = [.named "name" typedef.name.content])
        ∧ ∀ leading word, typedef.type = leading ++ [word] → word.kind = .text →
          (∀ part ∈ leading, part.kind ≠ .text) →
            ∃ parameters ∈ node.children, parameters.label = typedef.parameters.label
              ∧ node.attributes = (parameters.lastWord?.map (.named "name")).toList := by
  have hfirst : run.head?.any (·.kind.isSignificant) = true := by
    rw [typedef.first, Option.any_some, typedef.keyword_kind]
    decide
  have hlast : run.getLast?.any (·.kind.isSignificant) = true := by
    rw [typedef.last, Option.any_some, typedef.semicolon_kind]
    decide
  obtain ⟨node, hnode, hof⟩ := exists_typedef hlanguage text hplace hopen hchildren
    typedef.kinds_run (List.forall_mem_map.2 typedef.type_kinds) hfirst hlast
  have herase : node.children.flatMap (Node.erase (language.isAdded text)) = run := by
    rw [← hof.erase, Node.erase_of_new hof.new]
  have hpointed : Pointed (language.isAdded text) node :=
    pointed_parse hlanguage text node hnode (by rw [hof.kind]; decide)
  have hword := language.lastWord?_parse text hnode (typedef.words_node hpointed herase)
  obtain ⟨child, hchild, hfind, hlabel⟩ := typedef.exists_parenthesis hpointed herase
  have hname : typedef.words = [] →
      node.attributes = (child.lastWord?.map (.named "name")).toList := by
    intro hwords
    rw [Node.attributes_typedef hof.kind, Node.typeName?, hword, hwords, hfind]
    rfl
  refine ⟨node, hnode, hof, fun word hlast => ?_, fun htype => ?_,
    fun leading word htype hkind hleading => ?_⟩
  · rw [Node.attributes_typedef hof.kind, Node.typeName?, hword, hlast]
    rfl
  · rw [if_neg] at hlabel
    · have hrun : ∀ part ∈ run, part ∈ (language.stage 0 text).root.descendants := by
        intro part hpart
        refine Node.child_mem_descendants hplace.mem_descendants ?_
        rw [hchildren]
        exact List.mem_append_right _ (List.mem_append_left _ hpart)
      have hwritten :=
        language.erase_children_of_label text hrun herase typedef.declarator_mem hchild hlabel
      rw [hname (typedef.words_eq_nil fun part hpart => htype part (List.dropLast_subset _ hpart)),
        lastWord?_declarator hlanguage text typedef (Node.child_mem_descendants hnode hchild)
          hlabel hwritten]
      rfl
    · rw [Option.any_eq_true]
      rintro ⟨word, hlast, hkind⟩
      exact htype word (List.mem_of_getLast? hlast) (of_decide_eq_true hkind)
  · refine ⟨child, hchild, hlabel.trans (if_pos (by simp [htype, hkind])), hname ?_⟩
    exact typedef.words_eq_nil (by rwa [htype, List.dropLast_concat])

/-- The name of a pointer to functions of a keyword type. -/
theorem name_of_pointer_typedef_int :
    Language.c ∈ cFamily
      ∧ ∃ place run, ∃ typedef : PointerTypedef run,
        Pass.Reaches (Language.c.stage 0 "typedef int(*N)(int);".toList).root place
          ∧ Pass.isOpen place.kind = true ∧ place.children = [] ++ (run ++ [])
          ∧ typedef.type.map (·.kind) = [.intKw] ∧ typedef.name.content = ['N']
          ∧ ∃ node ∈ (Language.c.parse true "typedef int(*N)(int);".toList).root.descendants,
            IsNodeOf (Language.c.isAdded "typedef int(*N)(int);".toList) .typedefDeclaration run
              node
              ∧ (∀ word ∈ typedef.words.getLast?, node.attributes = [.named "name" word.content])
              ∧ ((∀ part ∈ typedef.type, part.kind ≠ .text) →
                node.attributes = [.named "name" typedef.name.content])
              ∧ ∀ leading word, typedef.type = leading ++ [word] → word.kind = .text →
                (∀ part ∈ leading, part.kind ≠ .text) →
                  ∃ parameters ∈ node.children, parameters.label = typedef.parameters.label
                    ∧ node.attributes = (parameters.lastWord?.map (.named "name")).toList := by
  have hlanguage : Language.c ∈ cFamily := by decide
  obtain ⟨hopen, hkinds, hinside⟩ :
      Pass.isOpen (Language.c.stage 0 "typedef int(*N)(int);".toList).root.kind = true
        ∧ (Language.c.stage 0 "typedef int(*N)(int);".toList).root.children.map (·.kind) =
          [.typedefKw, .whitespace, .intKw, .parenthesis, .parenthesis, .semicolon]
        ∧ ∀ declarator ∈ (Language.c.stage 0 "typedef int(*N)(int);".toList).root.children[3]?,
          declarator.significantChildren.map (·.kind) = declaratorKinds
            ∧ declarator.significantChildren[2]?.map Node.content = some ['N'] := by
    decide +kernel
  obtain ⟨keyword, others, hchildren, hkeyword, hothers⟩ := List.map_eq_cons_iff.1 hkinds
  obtain ⟨space, others, rfl, hspace, hothers⟩ := List.map_eq_cons_iff.1 hothers
  obtain ⟨type, others, rfl, htype, hothers⟩ := List.map_eq_cons_iff.1 hothers
  obtain ⟨declarator, others, rfl, hdeclarator, hothers⟩ := List.map_eq_cons_iff.1 hothers
  obtain ⟨parameters, others, rfl, hparameters, hothers⟩ := List.map_eq_cons_iff.1 hothers
  obtain ⟨semicolon, others, rfl, hsemicolon, hothers⟩ := List.map_eq_cons_iff.1 hothers
  obtain rfl := List.map_eq_nil_iff.1 hothers
  rw [hchildren] at hinside
  obtain ⟨hdeclaratorKinds, hname⟩ := hinside declarator rfl
  obtain ⟨name, hname, hcontent⟩ := Option.map_eq_some_iff.1 hname
  have hnodes : [keyword, space, type, declarator, parameters, semicolon].filter
      (·.kind.isSignificant) = keyword :: [type] ++ [declarator, parameters, semicolon] := by
    rw [List.filter_cons_of_pos (by rw [hkeyword]; decide),
      List.filter_cons_of_neg (by rw [hspace]; decide), List.filter_eq_self.2]
    · rfl
    · simp only [List.forall_mem_cons, htype, hdeclarator, hparameters, hsemicolon]
      decide
  let typedef : PointerTypedef [keyword, space, type, declarator, parameters, semicolon] :=
    { keyword, type := [type], declarator, name, parameters, semicolon
      nodes := hnodes
      first := rfl
      last := rfl
      keyword_kind := hkeyword
      type_kinds := by
        rw [List.forall_mem_singleton, htype]
        decide
      declarator_kind := hdeclarator
      parameters_kind := hparameters
      semicolon_kind := hsemicolon
      inside := hdeclaratorKinds
      named := hname }
  have hsplit : (Language.c.stage 0 "typedef int(*N)(int);".toList).root.children =
      [] ++ ([keyword, space, type, declarator, parameters, semicolon] ++ []) := hchildren
  exact ⟨hlanguage, _, _, typedef, .here, hopen, hsplit, by simp [typedef, htype], hcontent,
    name_of_pointer_typedef hlanguage _ .here hopen hsplit typedef⟩

/-- An identifier in front of an asterisk: it is read as the name, and not the word in the
parentheses. -/
theorem name_of_pointer_typedef_identifier :
    ∃ node ∈ (Language.c.parse true "typedef T *(*N)(int);".toList).root.descendants,
      node.kind = .typedefDeclaration
        ∧ node.significantChildren.map (·.kind) = pointerKinds [.text, .asterisk]
        ∧ node.significantChildren.map (·.kind) =
          (node.written (Language.c.isAdded "typedef T *(*N)(int);".toList)).map (·.kind)
        ∧ ((node.children.find? (·.kind = .parenthesis)).bind Node.lastWord?) = some ['N']
        ∧ node.attributes = [.named "name" ['T']] := by
  decide +kernel

end Language

end ConcreteSyntax
