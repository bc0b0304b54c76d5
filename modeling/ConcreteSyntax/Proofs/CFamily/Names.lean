import ConcreteSyntax.Node.Attributes
import ConcreteSyntax.Proofs.CFamily.Functions
import ConcreteSyntax.Proofs.Tokens

/-!
# Names of functions

The name of a function is read off the words in front of its parameters.  It is the longest
qualified name there exactly if no further identifier, `::` or `~` stands in front of that
(`Language.name_of_function`).  Otherwise all of these are read together with it, the last
identifiers of a return type among them.
-/

namespace ConcreteSyntax

namespace CFamily

/-! ## Qualified names -/

/-- Whether kinds are those of identifiers with `::` between them, the last of which may have a `~`
in front. -/
def isPath : List Kind → Bool
  | [.text] | [.tilde, .text] => true
  | .text :: .doubleColon :: rest => isPath rest
  | _ => false

/-- Whether kinds are those of a qualified name, which may begin with `::`. -/
def isQualifiedName : List Kind → Bool
  | .doubleColon :: rest => isPath rest
  | kinds => isPath kinds

/-- Kinds of what a name is read from. -/
def nameParts : KindSet := .ofList [.text, .doubleColon, .tilde]

theorem isNamePart_eq (node : Node) : node.isNamePart = nameParts.contains node.kind := by
  simp [Node.isNamePart, nameParts, Bool.or_assoc]

theorem isAtomic_of_nameParts {kind : Kind} (h : nameParts.contains kind = true) :
    kind.isAtomic = true := by
  have hall : nameParts.toList.all Kind.isAtomic = true := by decide +kernel
  exact List.all_eq_true.1 hall kind (KindSet.mem_toList.2 h)

theorem nameParts_of_isPath {kinds : List Kind} (h : isPath kinds = true) :
    ∀ kind ∈ kinds, nameParts.contains kind = true := by
  fun_induction isPath kinds with
  | case1 => simp [nameParts]
  | case2 => simp [nameParts]
  | case3 rest ih =>
      rw [List.forall_mem_cons, List.forall_mem_cons]
      exact ⟨by decide, by decide, ih h⟩
  | case4 => cases h

theorem nameParts_of_isQualifiedName {kinds : List Kind} (h : isQualifiedName kinds = true) :
    ∀ kind ∈ kinds, nameParts.contains kind = true := by
  unfold isQualifiedName at h
  split at h
  · rw [List.forall_mem_cons]
    exact ⟨by decide, nameParts_of_isPath h⟩
  · exact nameParts_of_isPath h

/-- The longest qualified name at the end of some nodes. -/
def qualifiedName : List Node → List Node
  | [] => []
  | node :: rest =>
      if isQualifiedName ((node :: rest).map (·.kind)) then node :: rest else qualifiedName rest

theorem qualifiedName_suffix (nodes : List Node) : qualifiedName nodes <:+ nodes := by
  fun_induction qualifiedName nodes with
  | case1 => exact List.suffix_rfl
  | case2 node rest _ => exact List.suffix_rfl
  | case3 node rest _ ih => exact ih.trans (List.suffix_cons node rest)

/-- Where a qualified name stands at the end, there is a longest one. -/
theorem qualifiedName_longest {nodes name : List Node} (hname : name <:+ nodes)
    (h : isQualifiedName (name.map (·.kind)) = true) :
    isQualifiedName ((qualifiedName nodes).map (·.kind)) = true
      ∧ name.length ≤ (qualifiedName nodes).length := by
  fun_induction qualifiedName nodes with
  | case1 =>
      obtain rfl := List.suffix_nil.1 hname
      cases h
  | case2 node rest hwhole => exact ⟨hwhole, hname.length_le⟩
  | case3 node rest hwhole ih =>
      rcases List.suffix_cons_iff.1 hname with rfl | hrest
      · exact absurd h hwhole
      · exact ih hrest

end CFamily

namespace Node

open CFamily

variable {front name : List Node}

/-- A name is read on to the left from where a qualified name begins. -/
theorem takeWhile_isNamePart (front : List Node) (h : isQualifiedName (name.map (·.kind)) = true) :
    ((front ++ name).reverse.takeWhile isNamePart).reverse =
      (front.reverse.takeWhile isNamePart).reverse ++ name := by
  have hparts : ∀ part ∈ name.reverse, part.isNamePart = true := by
    intro part hpart
    rw [isNamePart_eq]
    exact nameParts_of_isQualifiedName h _ (List.mem_map_of_mem (List.mem_reverse.1 hpart))
  rw [List.reverse_append, List.takeWhile_append_of_pos hparts, List.reverse_append,
    List.reverse_reverse]

/-- Nothing more is read exactly if there is no part of a name right in front. -/
theorem takeWhile_isNamePart_eq_nil_iff :
    front.reverse.takeWhile isNamePart = [] ↔ front.getLast?.any isNamePart = false := by
  rw [List.takeWhile_eq_nil_iff, List.getLast?_eq_head?_reverse]
  cases front.reverse with
  | nil => simp
  | cons last rest => simp

theorem joined_append (left right : List Node) :
    joined (left ++ right) = joined left ++ joined right := List.flatMap_append ..

theorem joined_eq_nil {nodes : List Node} (h : ∀ node ∈ nodes, node.content ≠ []) :
    joined nodes = [] ↔ nodes = [] := by
  cases nodes with
  | nil => simp [joined]
  | cons node rest =>
      have hnode := h node (List.mem_cons_self ..)
      simp [joined, hnode]

theorem signature_append_behind {node : Node} (h : Signed node) :
    ∃ parameters behind, node.significantChildren = node.signature ++ parameters :: behind
      ∧ parameters.kind = .parenthesis ∧ AreWords (node.signature.map (·.kind)) := by
  obtain ⟨words, behind, hwords, hkinds⟩ := h
  have hchildren : node.significantChildren.map (·.kind) = words ++ .parenthesis :: behind :=
    hkinds
  obtain ⟨left, right, hsplit, rfl, hright⟩ := List.map_eq_append_iff.1 hchildren
  obtain ⟨parameters, rest, rfl, hparameters, -⟩ := List.map_eq_cons_iff.1 hright
  have hleft : ∀ part ∈ left, (part.kind != .parenthesis) = true := by
    intro part hpart
    have hword := hwords.word part.kind (List.mem_map_of_mem hpart)
    rw [bne_iff_ne]
    rintro heq
    rw [heq] at hword
    exact absurd hword (by decide)
  have hsignature : node.signature = left := by
    rw [signature, hsplit, List.takeWhile_append_of_pos hleft]
    simp [hparameters]
  rw [hsignature]
  exact ⟨parameters, rest, hsplit, hparameters, hwords⟩

/-- A node that is neither a tag nor an element has no attributes but the one that its construct
has. -/
theorem attributes_eq {node : Node} (htag : node.kind ≠ .tag)
    (helement : node.kind.isElement = false) : node.attributes = node.derived?.toList := by
  simp [attributes, tag?, htag, helement]

/-- The attribute of a function is what is read in front of its parameters. -/
theorem attributes_function {node : Node} (hkind : functionKinds.contains node.kind = true)
    (hname : (node.signature.reverse.takeWhile isNamePart).reverse ≠ []) :
    node.attributes =
      [.named "name" (joined (node.signature.reverse.takeWhile isNamePart).reverse)] := by
  have htag : node.kind ≠ .tag := by
    rintro htag
    rw [htag] at hkind
    exact absurd hkind (by decide)
  have hderived : node.derived? = node.functionName?.map (.named "name") := by
    have hfunction : node.kind = .functionDefinition ∨ node.kind = .functionPrototype := by
      simpa [functionKinds] using hkind
    rcases hfunction with hfunction | hfunction <;> · rw [derived?, hfunction]
  rw [attributes_eq htag (KindSet.not_contains_of_disjoint (by decide) hkind), hderived,
    functionName?, joined?, if_neg (by simpa using hname)]
  rfl

end Node

namespace Language

variable {language : Language}

/-- No part of a name is empty. -/
theorem content_ne_nil_of_nameParts (language : Language) (text : List Char) {node part : Node}
    (hnode : node ∈ (language.parse true text).root.descendants)
    (hpart : part ∈ node.significantChildren)
    (hkind : CFamily.nameParts.contains part.kind = true) : part.content ≠ [] :=
  language.content_ne_nil true text
    (Node.child_mem_descendants hnode (List.mem_of_mem_filter hpart))
    (CFamily.isAtomic_of_nameParts hkind)

/-- Names of functions.  In the tree of a text of a C-family language, let a node be a function
definition or a function prototype.  Words of a declaration stand in front of its first parentheses,
and at their end a longest qualified name.  The name of the function is that, with all identifiers,
`::` and `~` right in front of it, so that it is the qualified name itself exactly if none of these
stands right in front. -/
theorem name_of_function (hlanguage : language ∈ cFamily) (text : List Char) {node : Node}
    (hnode : node ∈ (language.parse true text).root.descendants)
    (hkind : node.kind = .functionDefinition ∨ node.kind = .functionPrototype) :
    ∃ parameters behind front name,
      node.significantChildren = front ++ name ++ parameters :: behind
        ∧ parameters.kind = .parenthesis
        ∧ (∀ word ∈ front ++ name, CFamily.declarationWords.contains word.kind = true)
        ∧ CFamily.isQualifiedName (name.map (·.kind)) = true
        ∧ (∀ other, other <:+ front ++ name →
          CFamily.isQualifiedName (other.map (·.kind)) = true → other.length ≤ name.length)
        ∧ node.attributes = [.named "name"
          (Node.joined ((front.reverse.takeWhile Node.isNamePart).reverse ++ name))]
        ∧ (node.attributes = [.named "name" (Node.joined name)]
          ↔ front.getLast?.any Node.isNamePart = false) := by
  have hfunction : CFamily.functionKinds.contains node.kind = true := by
    rcases hkind with hkind | hkind <;> · rw [hkind]; decide
  obtain ⟨parameters, behind, hchildren, hparameters, hwords⟩ :=
    Node.signature_append_behind (signed_parse hlanguage text hnode hfunction)
  -- the last word alone is a qualified name
  obtain ⟨last, hlast, hname⟩ : ∃ last, node.signature.getLast? = some last ∧ last.kind = .text :=
    Option.map_eq_some_iff.1 (List.getLast?_map ▸ hwords.name)
  have hsingle : [last] <:+ node.signature :=
    List.singleton_suffix_iff_getLast?_eq_some.2 hlast
  obtain ⟨hqualified, -⟩ :=
    CFamily.qualifiedName_longest hsingle (by simp [hname, CFamily.isQualifiedName, CFamily.isPath])
  obtain ⟨front, hfront⟩ := CFamily.qualifiedName_suffix node.signature
  have hread := Node.takeWhile_isNamePart front hqualified
  rw [hfront] at hread
  have hne : CFamily.qualifiedName node.signature ≠ [] := by
    intro hnil
    rw [hnil] at hqualified
    cases hqualified
  have hattributes := Node.attributes_function hfunction
    (by rw [hread]; exact List.append_ne_nil_of_right_ne_nil _ hne)
  rw [hread] at hattributes
  refine ⟨parameters, behind, front, CFamily.qualifiedName node.signature, ?_, hparameters, ?_,
    hqualified, ?_, hattributes, ?_⟩
  · rw [hfront, hchildren]
  · rw [hfront]
    exact fun word hword => hwords.word word.kind (List.mem_map_of_mem hword)
  · rw [hfront]
    exact fun other hother hpath => (CFamily.qualifiedName_longest hother hpath).2
  · have hfilled : ∀ part ∈ (front.reverse.takeWhile Node.isNamePart).reverse,
        part.content ≠ [] := by
      intro part hpart
      have hmem := List.mem_reverse.1 hpart
      have hfrontMem := List.mem_reverse.1 ((List.takeWhile_prefix _).subset hmem)
      refine language.content_ne_nil_of_nameParts text hnode ?_
        (CFamily.isNamePart_eq part ▸ List.mem_takeWhile_imp hmem)
      rw [hchildren, ← hfront]
      simp [hfrontMem]
    rw [hattributes, Node.joined_append, ← Node.takeWhile_isNamePart_eq_nil_iff,
      ← List.reverse_eq_nil_iff, ← Node.joined_eq_nil hfilled]
    simp [Attribute.named]

/-- The name of a destructor, behind a keyword. -/
theorem name_of_function_destructor :
    Language.cpp ∈ cFamily
      ∧ ∃ node ∈ (Language.cpp.parse true "void A::~B(){}".toList).root.descendants,
        node.kind = .functionDefinition ∧ node.attributes = [.named "name" "A::~B".toList]
          ∧ ∃ parameters behind front name,
            node.significantChildren = front ++ name ++ parameters :: behind
              ∧ parameters.kind = .parenthesis
              ∧ (∀ word ∈ front ++ name, CFamily.declarationWords.contains word.kind = true)
              ∧ CFamily.isQualifiedName (name.map (·.kind)) = true
              ∧ (∀ other, other <:+ front ++ name →
                CFamily.isQualifiedName (other.map (·.kind)) = true → other.length ≤ name.length)
              ∧ node.attributes = [.named "name"
                (Node.joined ((front.reverse.takeWhile Node.isNamePart).reverse ++ name))]
              ∧ (node.attributes = [.named "name" (Node.joined name)]
                ↔ front.getLast?.any Node.isNamePart = false) := by
  have hlanguage : Language.cpp ∈ cFamily := by decide
  obtain ⟨node, hnode, hkind, hname⟩ :
      ∃ node ∈ (Language.cpp.parse true "void A::~B(){}".toList).root.descendants,
        node.kind = .functionDefinition ∧ node.attributes = [.named "name" "A::~B".toList] := by
    decide +kernel
  exact ⟨hlanguage, node, hnode, hkind, hname, name_of_function hlanguage _ hnode (.inl hkind)⟩

/-- A name behind an identifier for a return type: both are read as the name. -/
theorem name_of_function_identifier :
    ∃ node ∈ (Language.c.parse true "T f(){}".toList).root.descendants,
      node.kind = .functionDefinition ∧ ∃ front name, node.signature = front ++ name
        ∧ CFamily.isQualifiedName (name.map (·.kind)) = true
        ∧ (∀ other, other <:+ node.signature →
          CFamily.isQualifiedName (other.map (·.kind)) = true → other.length ≤ name.length)
        ∧ Node.joined name = ['f'] ∧ node.attributes = [.named "name" ['T', 'f']] := by
  obtain ⟨node, hnode, hkind, hqualified, hname, hattributes⟩ :
      ∃ node ∈ (Language.c.parse true "T f(){}".toList).root.descendants,
        node.kind = .functionDefinition
          ∧ CFamily.isQualifiedName ((CFamily.qualifiedName node.signature).map (·.kind)) = true
          ∧ Node.joined (CFamily.qualifiedName node.signature) = ['f']
          ∧ node.attributes = [.named "name" ['T', 'f']] := by
    decide +kernel
  obtain ⟨front, hfront⟩ := CFamily.qualifiedName_suffix node.signature
  exact ⟨node, hnode, hkind, front, _, hfront.symm, hqualified,
    fun other hother hpath => (CFamily.qualifiedName_longest hother hpath).2, hname, hattributes⟩

end Language

end ConcreteSyntax
