import ConcreteSyntax.Proofs.CFamily.Names
import ConcreteSyntax.Proofs.CFamily.Sealed
import ConcreteSyntax.Proofs.CFamily.Stages

/-!
# Paths of inclusions

The path of an inclusion is read off all that stands behind the name of its directive.  So it is
what stands between the brackets or quotes exactly if no comment follows on the line
(`Language.path_of_inclusion`).  With a comment, path and comment are read together.
-/

namespace ConcreteSyntax

/-! ## White space at the ends of a text -/

namespace Text

variable {front rest : List Char} {c : Char}

theorem isWhitespace_of_isBlank (h : CFamily.isBlank c = true) : isWhitespace c = true := by
  simp only [CFamily.isBlank, Bool.or_eq_true, beq_iff_eq] at h
  rcases h with ((rfl | rfl) | rfl) | rfl <;> decide

theorem trimStart_append (hfront : ∀ c ∈ front, isWhitespace c = true)
    (hc : isWhitespace c = false) : trimStart (front ++ c :: rest) = c :: rest := by
  rw [trimStart, List.dropWhile_append_of_pos hfront, List.dropWhile_cons_of_neg (by simp [hc])]

/-- White space at the end goes, and what stands in front of it stays. -/
theorem trimEnd_append (hrest : ∀ c ∈ rest, isWhitespace c = true)
    (hc : isWhitespace c = false) : trimEnd (front ++ c :: rest) = front ++ [c] := by
  have hreverse : ∀ c ∈ rest.reverse, isWhitespace c = true :=
    fun c hmem => hrest c (List.mem_reverse.1 hmem)
  rw [trimEnd, List.reverse_append, List.reverse_cons, List.append_assoc,
    List.dropWhile_append_of_pos hreverse]
  simp [hc]

theorem trimEnd_ne_nil (hmem : c ∈ rest) (hc : isWhitespace c = false) : trimEnd rest ≠ [] := by
  rw [trimEnd, Ne, List.reverse_eq_nil_iff, List.dropWhile_eq_nil_iff]
  intro hall
  rw [hall c (List.mem_reverse.2 hmem)] at hc
  cases hc

/-- A text that is not all white space ends with the same behind others. -/
theorem trimEnd_append_of_mem (hmem : c ∈ rest) (hc : isWhitespace c = false) :
    trimEnd (front ++ rest) = front ++ trimEnd rest := by
  have hne := trimEnd_ne_nil hmem hc
  rw [trimEnd, Ne, List.reverse_eq_nil_iff, ← List.isEmpty_iff] at hne
  rw [trimEnd, List.reverse_append, List.dropWhile_append, if_neg hne, List.reverse_append,
    List.reverse_reverse, trimEnd]

end Text

namespace CFamily

/-! ## Inclusions as they are written -/

/-- How the path of an inclusion is marked. -/
inductive PathForm where
  | angled
  | quoted

namespace PathForm

def opening : PathForm → Char
  | angled => '<'
  | quoted => '"'

def closing : PathForm → Char
  | angled => '>'
  | quoted => '"'

theorem isWhitespace_opening (form : PathForm) : Text.isWhitespace form.opening = false := by
  cases form <;> decide

theorem isWhitespace_closing (form : PathForm) : Text.isWhitespace form.closing = false := by
  cases form <;> decide

end PathForm

/-- A directive that includes a file: blanks, the name of the directive, blanks, the path, blanks,
and a comment if there is one. -/
structure Inclusion where
  indent : List Char
  name : List Char
  gap : List Char
  form : PathForm
  path : List Char
  tail : List Char
  comment : List Char
  blank_indent : ∀ c ∈ indent, Text.isBlank c = true
  word : name = "include".toList ∨ name = "import".toList
  blank_gap : ∀ c ∈ gap, isBlank c = true
  path_ne : path ≠ []
  blank_tail : ∀ c ∈ tail, isBlank c = true
  slash : comment = [] ∨ comment.head? = some '/'

namespace Inclusion

/-- What stands behind the name of the directive. -/
def operand (line : Inclusion) : List Char :=
  line.gap ++ line.form.opening :: (line.path ++ line.form.closing :: (line.tail ++ line.comment))

/-- The directive as it is written. -/
def write (line : Inclusion) : List Char :=
  '#' :: (line.indent ++ (line.name ++ line.operand))

/-- The path with the comment, from the opening mark to the end of the comment. -/
def remarked (line : Inclusion) : List Char :=
  line.path ++ line.form.closing :: (line.tail ++ Text.trimEnd line.comment)

/-- What is read for a path when there is a comment: the comment belongs to it, and the marks go
only if the comment ends with the closing one. -/
def remarkedPath (line : Inclusion) : List Char :=
  if line.remarked.getLast? = some line.form.closing then line.remarked.dropLast
  else line.form.opening :: line.remarked

variable (line : Inclusion)

theorem isWord_name : IsWord line.name := by
  rcases line.word with h | h <;> rw [h] <;> decide

theorem head?_operand : line.operand.head?.any Text.isIdentifier = false := by
  have hopening : Text.isIdentifier line.form.opening = false := by
    cases line.form <;> decide
  rw [operand]
  cases hgap : line.gap with
  | nil => exact hopening
  | cons c gap =>
      have hblank := line.blank_gap c (by rw [hgap]; exact List.mem_cons_self ..)
      show Text.isIdentifier c = false
      simp only [isBlank, Bool.or_eq_true, beq_iff_eq] at hblank
      rcases hblank with ((rfl | rfl) | rfl) | rfl <;> decide

/-- Without a comment, the marks stand at the ends. -/
theorem trim_operand (h : line.comment = []) :
    Text.trim line.operand = line.form.opening :: (line.path ++ [line.form.closing]) := by
  have hgap : ∀ c ∈ line.gap, Text.isWhitespace c = true :=
    fun c hc => Text.isWhitespace_of_isBlank (line.blank_gap c hc)
  have htail : ∀ c ∈ line.tail, Text.isWhitespace c = true :=
    fun c hc => Text.isWhitespace_of_isBlank (line.blank_tail c hc)
  rw [Text.trim, operand, Text.trimStart_append hgap line.form.isWhitespace_opening, h,
    List.append_nil, ← List.cons_append, Text.trimEnd_append htail line.form.isWhitespace_closing,
    List.cons_append]

theorem mem_comment (h : line.comment ≠ []) : '/' ∈ line.comment :=
  List.mem_of_mem_head? (line.slash.resolve_left h)

/-- A comment stands behind the closing mark. -/
theorem trim_operand_of_comment (h : line.comment ≠ []) :
    Text.trim line.operand = line.form.opening :: line.remarked := by
  have hgap : ∀ c ∈ line.gap, Text.isWhitespace c = true :=
    fun c hc => Text.isWhitespace_of_isBlank (line.blank_gap c hc)
  rw [Text.trim, operand, Text.trimStart_append hgap line.form.isWhitespace_opening]
  have hsplit : line.form.opening :: (line.path ++ line.form.closing ::
      (line.tail ++ line.comment)) =
        (line.form.opening :: (line.path ++ line.form.closing :: line.tail)) ++ line.comment := by
    simp
  rw [hsplit, Text.trimEnd_append_of_mem (line.mem_comment h) (by decide),
    remarked]
  simp

theorem length_remarked (h : line.comment ≠ []) : line.path.length + 2 ≤ line.remarked.length := by
  have hend := Text.trimEnd_ne_nil (line.mem_comment h) (by decide)
  have hpos := List.length_pos_iff.2 hend
  simp only [remarked, List.length_append, List.length_cons]
  omega

/-- With a comment, more than the path is read. -/
theorem remarkedPath_ne (h : line.comment ≠ []) : line.remarkedPath ≠ line.path := by
  have hlength := line.length_remarked h
  intro heq
  have hsame := congrArg List.length heq
  unfold remarkedPath at hsame
  split at hsame
  · rw [List.length_dropLast] at hsame
    omega
  · rw [List.length_cons] at hsame
    omega

end Inclusion

end CFamily

namespace Node

open CFamily (PathForm Inclusion)

/-- The marks around a path go if both of them are there. -/
theorem between?_eq (opening closing : Char) (body : List Char) :
    includePath?.between? opening closing (opening :: body) =
      if body.getLast? = some closing then some body.dropLast else none := by
  have hprefix : [opening].isPrefixOf? (opening :: body) = some body := by
    simp [List.isPrefixOf?]
  rw [includePath?.between?, hprefix]
  show [closing].isSuffixOf? body = _
  split
  · rename_i hlast
    rw [List.isSuffixOf?_eq_some_iff_append_eq]
    exact List.dropLast_append_getLast? closing hlast
  · rename_i hlast
    rw [Option.eq_none_iff_forall_ne_some]
    intro path hpath
    rw [List.isSuffixOf?_eq_some_iff_append_eq] at hpath
    exact hlast (by simp [← hpath])

theorem between?_eq_none {opening closing c : Char} {body : List Char} (h : opening ≠ c) :
    includePath?.between? opening closing (c :: body) = none := by
  simp [includePath?.between?, List.isPrefixOf?, h]

/-- What is read for a path behind the name of a directive. -/
theorem includePath?_eq {node : Node} {form : PathForm} {body : List Char} (hne : 2 ≤ body.length)
    (h : Text.trim (joined (node.children.drop 1)) = form.opening :: body) :
    node.includePath? = some (if body.getLast? = some form.closing then body.dropLast
      else form.opening :: body) := by
  have hpath : ((includePath?.between? '<' '>' (form.opening :: body)).or
      (includePath?.between? '"' '"' (form.opening :: body))).getD (form.opening :: body) =
        if body.getLast? = some form.closing then body.dropLast else form.opening :: body := by
    cases form with
    | angled =>
        show ((includePath?.between? '<' '>' ('<' :: body)).or
          (includePath?.between? '"' '"' ('<' :: body))).getD ('<' :: body) = _
        rw [between?_eq, between?_eq_none (by decide), Option.or_none]
        split <;> simp_all [PathForm.closing, PathForm.opening]
    | quoted =>
        show ((includePath?.between? '<' '>' ('"' :: body)).or
          (includePath?.between? '"' '"' ('"' :: body))).getD ('"' :: body) = _
        rw [between?_eq_none (by decide), between?_eq, Option.none_or]
        split <;> simp_all [PathForm.closing, PathForm.opening]
  unfold includePath?
  simp only [h, hpath]
  rw [if_neg]
  split
  · rw [List.isEmpty_iff, ← List.length_eq_zero_iff, List.length_dropLast]
    omega
  · simp

/-! ## Directives as they are written -/

/-- Whether a node is a directive with a name: its first child is a pound sign with blanks and the
name behind it, and what stands behind the name does not go on it. -/
structure IsNamed (node : Node) (blanks name operand : List Char) : Prop where
  children : ∃ marker rest, node.children = marker :: rest
    ∧ marker.content = '#' :: (blanks ++ name) ∧ joined rest = operand
  blank : ∀ c ∈ blanks, Text.isBlank c = true
  word : CFamily.IsWord name
  stops : operand.head?.any Text.isIdentifier = false

variable {lines : LineIndex} {node : Node}

theorem content_eq_spelling (h : node.All (Fits lines True)) : node.content = node.spelling := by
  rw [content, h.self.text_eq]
  split
  · rw [Option.getD_some, spelling_eq_slice trivial h]
  · rfl

/-- The text of a container is that of its children. -/
theorem content_eq_joined (h : node.All (Fits lines True)) (hkind : node.kind.isAtomic = false) :
    node.content = joined node.children := by
  rw [content_eq_spelling h]
  obtain ⟨label, children⟩ := node
  have hlabel : label.kind.isAtomic = false := hkind
  rw [spelling_mk, hlabel, joined]
  simp only [Bool.false_eq_true, if_false, List.nil_append]
  exact List.flatMap_congr fun child hchild =>
    (content_eq_spelling (h.children child hchild)).symm

/-- What a node holds is a piece of the text, from its start on. -/
theorem exists_after {front rest : List Char} (h : node.All (Fits lines True))
    (htext : lines.text = front ++ rest) (hstart : node.range.start = Text.byteLength front) :
    ∃ after, rest = node.content ++ after := by
  obtain ⟨left, middle, after, hparts, hleft, hmiddle⟩ :=
    Text.exists_parts h.self.start h.self.stop node.range.start_le_stop
  obtain ⟨-, hrest⟩ := Text.append_inj_of_byteLength (htext.symm.trans hparts)
    (hstart.symm.trans hleft.symm)
  refine ⟨after, ?_⟩
  rw [hrest, content_eq_spelling h, spelling_eq_slice trivial h, hparts,
    Text.slice_eq_of_parts hleft hmiddle]

theorem IsNamed.content_eq {blanks name operand : List Char}
    (h : node.IsNamed blanks name operand) (hfits : node.All (Fits lines True))
    (hkind : node.kind.isAtomic = false) :
    node.content = '#' :: (blanks ++ (name ++ operand)) := by
  obtain ⟨marker, rest, hchildren, hmarker, hrest⟩ := h.children
  rw [content_eq_joined hfits hkind, hchildren, joined, List.flatMap_cons, hmarker,
    show rest.flatMap content = operand from hrest]
  simp

theorem head?_word {name : List Char} (h : CFamily.IsWord name) (rest : List Char) :
    (name ++ rest).head?.any Text.isBlank = false := by
  obtain ⟨c, name, rfl⟩ := List.exists_cons_of_ne_nil h.1
  have hc := h.2 c (List.mem_cons_self ..)
  show Text.isBlank c = false
  rw [Text.isBlank, Bool.or_eq_false_iff, beq_eq_false_iff_ne, beq_eq_false_iff_ne]
  constructor <;> rintro rfl <;> cases hc

/-- Blanks and a word in front of a text can be told apart from it. -/
theorem eq_of_written {blanks blanks' name name' operand operand' : List Char}
    (h : blanks ++ (name ++ operand) = blanks' ++ (name' ++ operand'))
    (hblanks : ∀ c ∈ blanks, Text.isBlank c = true)
    (hblanks' : ∀ c ∈ blanks', Text.isBlank c = true)
    (hname : CFamily.IsWord name) (hname' : CFamily.IsWord name')
    (hoperand : operand.head?.any Text.isIdentifier = false)
    (hoperand' : operand'.head?.any Text.isIdentifier = false) : operand = operand' := by
  have htake := congrArg (List.takeWhile Text.isBlank) h
  rw [CFamily.takeWhile_of_all hblanks (head?_word hname operand),
    CFamily.takeWhile_of_all hblanks' (head?_word hname' operand')] at htake
  rw [htake, List.append_cancel_left_eq] at h
  have hword := congrArg (List.takeWhile Text.isIdentifier) h
  rw [CFamily.takeWhile_of_all hname.2 hoperand,
    CFamily.takeWhile_of_all hname'.2 hoperand'] at hword
  rwa [hword, List.append_cancel_left_eq] at h

end Node

/-! ## Directives in a tree -/

/-- Nodes that passes do not look into stay as they are. -/
theorem Plan.upholds_unvisited {plan : Plan} {isNew : NodeId → Bool} {property : Node → Prop} :
    plan.Upholds isNew (fun node => Pass.isOpen node.kind = false → property node)
      fun node => Pass.isOpen node.kind = false → property node where
  unvisited _ h := h
  old hopen _ _ _ hclosed := by
    cases hopen.symm.trans hclosed
  new hopen _ _ _ _ hclosed := by
    cases hopen.symm.trans hclosed

namespace Language

open CFamily

variable {language : Language}

theorem isOpen_of_directive {kind : Kind} (h : KindSet.directives.contains kind = true) :
    Pass.isOpen kind = false := by
  rw [Pass.isOpen, h]
  simp

/-- The name of a directive is the whole word behind the pound sign. -/
theorem head?_behind_directive {name : String} (hname : IsWord name.toList) {left : LeftContext}
    {front behind : List Char}
    (h : directive name ⟨left, '#' :: (front ++ behind)⟩ = some (front.length + 1)) :
    behind.head?.any Text.isIdentifier = false := by
  obtain ⟨-, rest, hrest, hword, -⟩ := (directive_eq_some_iff hname).1 h
  obtain rfl : front ++ behind = rest := (List.cons.inj hrest).2
  obtain ⟨blanks, hblanks, rfl⟩ := front_of_directive hname h
  have hdrop : ((blanks ++ name.toList) ++ behind).dropWhile Text.isBlank =
      name.toList ++ behind := by
    have htake := Node.head?_word hname behind
    rw [List.append_assoc, List.dropWhile_append_of_pos hblanks]
    obtain ⟨c, rest, hc⟩ := List.exists_cons_of_ne_nil hname.1
    rw [hc] at htake ⊢
    exact List.dropWhile_cons_of_neg (by simpa using htake)
  rw [directiveWord, hdrop, List.takeWhile_append_of_pos hname.2, eq_comm,
    List.self_eq_append_right] at hword
  cases behind with
  | nil => rfl
  | cons c behind =>
      by_contra hc
      rw [List.takeWhile_cons_of_pos (by simpa using hc)] at hword
      cases hword

/-- In a paired text, a directive was found where it begins, and holds first what was found. -/
theorem exists_directive (h : language ∈ cFamily) (text : List Char) {node : Node}
    (hnode : node ∈ (Parse.build language.grammar text).root.descendants)
    (hkind : KindSet.directives.contains node.kind = true) :
    ∃ before name front behind marker rest, IsWord (String.toList name)
      ∧ text = before ++ '#' :: (front ++ behind)
      ∧ directive name ⟨.ofText before, '#' :: (front ++ behind)⟩ = some (front.length + 1)
      ∧ node.range.start = Text.byteLength before
      ∧ node.children = marker :: rest ∧ marker.content = '#' :: front := by
  have hspares := sparesDirectives_table h
  have hbelow := (Node.mem_descendants_iff.1 hnode).resolve_left fun hroot => by
    rw [hroot] at hkind
    change KindSet.directives.contains .root = true at hkind
    cases hkind
  obtain ⟨opening, interior, closing, hdelimited, hcontainer⟩ :=
    Parse.exists_delimited (markup_of_cFamily h) hspares (isolatesDirectives_table h) hnode hkind
      (children_of_directive h text hbelow hkind)
  obtain ⟨before, _, tail, _, _, _, -, htext, hfound, hopening⟩ :=
    Table.exists_of_mem_scan hdelimited
  obtain ⟨_, _, _, name, -, hdirective, -, hname, -, front, behind, rfl, rfl⟩ :=
    hspares.exists_of_directive hfound hkind
  obtain ⟨marker, rest, hmarkers, hmarker⟩ := hcontainer.opens.marker
  refine ⟨before.flatMap Span.chars, name, front, behind, marker, rest, hdirective.word, htext, ?_,
    ?_, hmarkers, ?_⟩
  · rw [← List.nil_append (before.flatMap Span.chars), LeftContext.ofText_append]
    exact hname
  · rw [hcontainer.opens.start, hopening]
  · rw [Node.content, hmarker.text, Option.getD_some, hopening]
    show ('#' :: (front ++ behind)).take _ = _
    rw [List.take_succ_cons, List.take_left]

/-- In a paired text, what a directive holds begins with its name. -/
theorem isNamed_build (h : language ∈ cFamily) (text : List Char) {node : Node}
    (hnode : node ∈ (Parse.build language.grammar text).root.descendants)
    (hkind : KindSet.directives.contains node.kind = true) :
    ∃ blanks name operand, node.IsNamed blanks name operand := by
  obtain ⟨before, name, front, behind, marker, rest, hword, htext, hname, hplace, hmarkers,
    hmarker⟩ := exists_directive h text hnode hkind
  have hfits : node.All (Node.Fits (LineIndex.ofText text) True) :=
    (Parse.wellLaid_build (fun _ => language.isSound_grammar) text).fits.below hnode
  have hjoined := Node.content_eq_joined hfits (Kind.isAtomic_of_directives hkind)
  have hstops := head?_behind_directive hword hname
  obtain ⟨blanks, hblanks, rfl⟩ := front_of_directive hword hname
  refine ⟨blanks, name.toList, Node.joined rest, ⟨marker, rest, hmarkers, hmarker, rfl⟩,
    hblanks, hword, ?_⟩
  -- the directive is a piece of the text, from its pound sign on
  obtain ⟨after, hafter⟩ := Node.exists_after hfits htext hplace
  rw [hjoined, hmarkers, Node.joined, List.flatMap_cons, hmarker] at hafter
  have hrest : behind = Node.joined rest ++ after := by
    simpa [Node.joined] using hafter
  cases hjoinedRest : Node.joined rest with
  | nil => rfl
  | cons c others =>
      rw [hrest, hjoinedRest] at hstops
      exact hstops

/-- What is true of the directives of a paired text is true of those of the analysed text, since
analysis leaves directives as they are. -/
theorem directives_parse (analysis : Bool) (text : List Char) {property : Node → Prop}
    (hbuilt : ∀ node ∈ (Parse.build language.grammar (language.prepare text)).root.descendants,
      KindSet.directives.contains node.kind = true → property node) :
    ∀ node ∈ (language.parse analysis text).root.descendants,
      KindSet.directives.contains node.kind = true → property node := by
  cases analysis with
  | false => exact hbuilt
  | true =>
      have hall : (language.parse true text).root.All fun node => Pass.isOpen node.kind = false →
          KindSet.directives.contains node.kind = true → property node := by
        rw [root_parse]
        refine all_analyse_of_all text (fun node hnode _ => hbuilt node hnode) fun pass hpass => ?_
        obtain ⟨plan, hreads, hsound⟩ := language.planned_passes pass hpass
        exact ⟨plan, hreads, hsound, Plan.upholds_unvisited⟩
      exact fun node hnode hkind => hall node hnode (isOpen_of_directive hkind) hkind

/-- What stands behind the name of an inclusion is what was written there. -/
theorem joined_of_inclusion (h : language ∈ cFamily) (text : List Char) {node : Node}
    (hnode : node ∈ (language.parse true text).root.descendants)
    (hkind : KindSet.directives.contains node.kind = true) {line : Inclusion}
    (hwritten : node.content = line.write) :
    Node.joined (node.children.drop 1) = line.operand := by
  have hlaid : (language.parse true text).WellLaid True := by
    rw [parse_eq_stage]
    exact language.wellLaid_stage _ text
  obtain ⟨blanks, name, operand, hnamed⟩ := directives_parse true text
    (fun node hnode hkind => isNamed_build h _ hnode hkind) node hnode hkind
  obtain ⟨marker, rest, hchildren, -, hrest⟩ := hnamed.children
  have hcontent := hnamed.content_eq (hlaid.fits.below hnode) (Kind.isAtomic_of_directives hkind)
  rw [hwritten, Inclusion.write, List.cons.injEq] at hcontent
  have hoperand := Node.eq_of_written hcontent.2 line.blank_indent hnamed.blank line.isWord_name
    hnamed.word line.head?_operand hnamed.stops
  rw [hchildren, List.drop_one, List.tail_cons, hrest, hoperand]

/-- Paths of inclusions.  In the tree of a text of a C-family language, let a directive that
includes a file be written with a path in angle brackets or quotes.  The path is read exactly if no
comment follows it on the line.  If one does, the comment is read for a part of the path. -/
theorem path_of_inclusion (hlanguage : language ∈ cFamily) (text : List Char) {node : Node}
    (hnode : node ∈ (language.parse true text).root.descendants)
    (hkind : node.kind = .preprocessorInclude ∨ node.kind = .preprocessorImport)
    {line : Inclusion} (hwritten : node.content = line.write) :
    (node.attributes = [.named "path" line.path] ↔ line.comment = [])
      ∧ (line.comment ≠ [] → node.attributes = [.named "path" line.remarkedPath]) := by
  have hdirective : KindSet.directives.contains node.kind = true := by
    rcases hkind with hkind | hkind <;> rw [hkind] <;> decide
  have hjoined := joined_of_inclusion hlanguage text hnode hdirective hwritten
  have hattributes : node.attributes = (node.includePath?.map (.named "path")).toList := by
    rcases hkind with hkind | hkind
    · rw [Node.attributes_eq (by rw [hkind]; decide) (by rw [hkind]; decide), Node.derived?, hkind]
    · rw [Node.attributes_eq (by rw [hkind]; decide) (by rw [hkind]; decide), Node.derived?, hkind]
  have hremarked : line.comment ≠ [] → node.attributes = [.named "path" line.remarkedPath] := by
    intro hcomment
    have htrim := line.trim_operand_of_comment hcomment
    rw [← hjoined] at htrim
    rw [hattributes, Node.includePath?_eq ?_ htrim]
    · rfl
    · have hlength := line.length_remarked hcomment
      omega
  refine ⟨⟨fun hpath => ?_, fun hcomment => ?_⟩, hremarked⟩
  · by_contra hcomment
    rw [hremarked hcomment] at hpath
    exact line.remarkedPath_ne hcomment (by simpa [Attribute.named] using hpath)
  · have htrim := line.trim_operand hcomment
    rw [← hjoined] at htrim
    rw [hattributes, Node.includePath?_eq ?_ htrim]
    · simp
    · have hpos := List.length_pos_iff.2 line.path_ne
      simp only [List.length_append, List.length_singleton]
      omega

/-- A path in quotes, with blanks behind it. -/
theorem path_of_inclusion_quoted :
    Language.objc ∈ cFamily
      ∧ ∃ node ∈ (Language.objc.parse true
          "int a;\n # import \"a/b.h\" \n".toList).root.descendants,
        node.kind = .preprocessorImport
          ∧ node.content = Inclusion.write ⟨[' '], "import".toList, [' '], .quoted, "a/b.h".toList,
            [' '], [], List.forall_mem_singleton.2 rfl, .inr rfl, List.forall_mem_singleton.2 rfl,
            by decide, List.forall_mem_singleton.2 rfl, .inl rfl⟩
          ∧ node.attributes = [.named "path" "a/b.h".toList] := by
  have hlanguage : Language.objc ∈ cFamily := by decide
  obtain ⟨node, hnode, hkind, hwritten⟩ :
      ∃ node ∈ (Language.objc.parse true
          "int a;\n # import \"a/b.h\" \n".toList).root.descendants,
        node.kind = .preprocessorImport
          ∧ node.content = Inclusion.write ⟨[' '], "import".toList, [' '], .quoted, "a/b.h".toList,
            [' '], [], List.forall_mem_singleton.2 rfl, .inr rfl, List.forall_mem_singleton.2 rfl,
            by decide, List.forall_mem_singleton.2 rfl, .inl rfl⟩ := by
    decide +kernel
  exact ⟨hlanguage, node, hnode, hkind, hwritten,
    (path_of_inclusion hlanguage _ hnode (.inr hkind) hwritten).1.2 rfl⟩

/-- A comment behind a path is read together with it. -/
theorem path_of_inclusion_comment :
    ∃ node ∈ (Language.c.parse true "#include <a.h> // c".toList).root.descendants,
      node.kind = .preprocessorInclude
        ∧ node.content = Inclusion.write ⟨[], "include".toList, [' '], .angled, "a.h".toList, [' '],
          "// c".toList, by simp, .inl rfl, List.forall_mem_singleton.2 rfl, by decide,
          List.forall_mem_singleton.2 rfl, .inr rfl⟩
        ∧ node.attributes = [.named "path" "<a.h> // c".toList]
        ∧ node.attributes ≠ [.named "path" "a.h".toList] := by
  decide +kernel

end Language

end ConcreteSyntax
