import ConcreteSyntax.Proofs.CFamily.Interiors

/-!
# What directives hold

The interior of a directive is scanned for a few kinds only, none of them of directives, and no
opener is of a kind of directives.  So in a paired text a directive holds nodes of those kinds
(`Language.confines_build`): a pass that does not look into directives misses no directive
(`Language.sealed_build`) and no block.
-/

namespace ConcreteSyntax

/-- Whether a span has no interior and is of an allowed kind. -/
def Span.IsFlat (allowed : Kind → Prop) : Span → Prop
  | .delimited _ _ _ _ => False
  | .leaf kind _ | .opener kind _ | .closer kind _ => allowed kind

/-- Whether a kind is not one of directives. -/
abbrev Kind.IsPlain (kind : Kind) : Prop := KindSet.directives.contains kind = false

/-- Whether a directive that a span makes has only nodes of allowed kinds in it. -/
def Span.Confines (allowed : Kind → Prop) (table : Table) (text : List Char) : Span → Prop
  | .opener kind _ => kind.IsPlain
  | .delimited kind _ interior _ =>
      ∀ span ∈ table.scanInterior text kind interior, span.IsFlat allowed
  | .leaf _ _ | .closer _ _ => True

/-- Whether a directive has only nodes of allowed kinds in it. -/
def Node.Confines (allowed : Kind → Prop) (node : Node) : Prop :=
  KindSet.directives.contains node.kind = true →
    ∀ below ∈ node.children.flatMap Node.descendants, allowed below.kind

/-- Whether no directive stands in a directive. -/
def Node.IsSealed (node : Node) : Prop :=
  KindSet.directives.contains node.kind = true →
    ∀ below ∈ node.children.flatMap Node.descendants, below.kind.IsPlain

theorem Node.confines_of_isPlain {allowed : Kind → Prop} {node : Node} (h : node.kind.IsPlain) :
    node.Confines allowed := by
  intro hdirective
  rw [show KindSet.directives.contains node.kind = false from h] at hdirective
  cases hdirective

namespace Grouping

variable {lines : LineIndex} {table : Table} {text : List Char} {group : Grouping}
  {around : List Kind} {stop : Nat} {nodes : List Node} {node : Node}

/-- The nodes of a container around others, and those behind it. -/
theorem mem_descendants_container {label : Label} {first : Node} {below last others : List Node} :
    node ∈ (Node.mk label (first :: (below ++ last)) :: others).flatMap Node.descendants ↔
      node = ⟨label, first :: (below ++ last)⟩ ∨ node ∈ first.descendants
        ∨ node ∈ below.flatMap Node.descendants ∨ node ∈ last.flatMap Node.descendants
        ∨ node ∈ others.flatMap Node.descendants := by
  rw [List.flatMap_cons, Node.descendants_mk, List.mem_append, List.mem_cons, List.flatMap_cons,
    List.flatMap_append, List.mem_append, List.mem_append, or_assoc, or_assoc, or_assoc]

theorem eq_of_mem_marker {index : Nat} {text : Fragment}
    (h : node ∈ (text.marker lines index).descendants) : node = text.marker lines index := by
  simpa [Fragment.marker, Node.descendants_mk] using h

/-- A node without children is a marker, or shows a leaf. -/
theorem kind_of_childless (hshows : group.Shows lines stop nodes)
    (hnode : node ∈ nodes.flatMap Node.descendants) (hchildren : node.children = []) :
    node.kind = .delimiter ∨ ∃ text, .leaf node.kind text ∈ group.allSpans := by
  have hmarker : ∀ {index : Nat} {text : Fragment},
      node ∈ (text.marker lines index).descendants → node.kind = .delimiter := by
    intro index text hnode
    rw [eq_of_mem_marker hnode]
    rfl
  induction group generalizing stop nodes with
  | nil =>
      obtain rfl : nodes = [] := hshows
      cases hnode
  | leaf kind text rest ih =>
      obtain ⟨index, others, rfl, hothers⟩ := hshows
      rw [List.flatMap_cons, Node.descendants_mk, List.mem_append, List.flatMap_nil,
        List.mem_singleton] at hnode
      rcases hnode with rfl | hnode
      · exact .inr ⟨text, List.mem_cons_self⟩
      · exact (ih hothers hnode).imp_right fun ⟨text, htext⟩ =>
          ⟨text, List.mem_cons_of_mem _ htext⟩
  | stray kind text rest ih =>
      obtain ⟨index, others, rfl, hothers⟩ := hshows
      rw [List.flatMap_cons, List.mem_append] at hnode
      rcases hnode with hnode | hnode
      · exact .inl (hmarker hnode)
      · exact (ih hothers hnode).imp_right fun ⟨text, htext⟩ =>
          ⟨text, List.mem_cons_of_mem _ htext⟩
  | delimited kind opening interior closing inside rest ihInside ihRest =>
      obtain ⟨index, first, last, below, others, rfl, hbelow, hothers⟩ := hshows
      rcases mem_descendants_container.1 hnode with rfl | hnode | hnode | hnode | hnode
      · cases hchildren
      · exact .inl (hmarker hnode)
      · exact (ihInside hbelow hnode).imp_right fun ⟨text, htext⟩ =>
          ⟨text, by simp [allSpans, htext]⟩
      · split at hnode
        · cases hnode
        · rw [List.flatMap_singleton] at hnode
          exact .inl (hmarker hnode)
      · exact (ihRest hothers hnode).imp_right fun ⟨text, htext⟩ =>
          ⟨text, by simp [allSpans, htext]⟩
  | closed kind opening inside closing rest ihInside ihRest =>
      obtain ⟨index, first, last, below, others, rfl, hbelow, hothers⟩ := hshows
      rcases mem_descendants_container.1 hnode with rfl | hnode | hnode | hnode | hnode
      · cases hchildren
      · exact .inl (hmarker hnode)
      · exact (ihInside hbelow hnode).imp_right fun ⟨text, htext⟩ =>
          ⟨text, by simp [allSpans, htext]⟩
      · rw [List.flatMap_singleton] at hnode
        exact .inl (hmarker hnode)
      · exact (ihRest hothers hnode).imp_right fun ⟨text, htext⟩ =>
          ⟨text, by simp [allSpans, htext]⟩
  | unclosed kind opening inside ih =>
      obtain ⟨index, first, below, rfl, hbelow⟩ := hshows
      rw [← List.append_nil below, mem_descendants_container, List.append_nil] at hnode
      rcases hnode with rfl | hnode | hnode | hnode | hnode
      · cases hchildren
      · exact .inl (hmarker hnode)
      · exact (ih hbelow hnode).imp_right fun ⟨text, htext⟩ =>
          ⟨text, List.mem_cons_of_mem _ htext⟩
      · cases hnode
      · cases hnode

/-- Nodes that show spans without interiors are of the kinds of the spans, or markers. -/
theorem kind_of_isFlat {allowed : Kind → Prop} (hdelimiter : allowed .delimiter)
    (hspans : ∀ span ∈ group.spans, span.IsFlat allowed) (hshows : group.Shows lines stop nodes)
    (hnode : node ∈ nodes.flatMap Node.descendants) : allowed node.kind := by
  have hmarker : ∀ {index : Nat} {text : Fragment},
      node ∈ (text.marker lines index).descendants → allowed node.kind := by
    intro index text hnode
    rw [eq_of_mem_marker hnode]
    exact hdelimiter
  induction group generalizing stop nodes with
  | nil =>
      obtain rfl : nodes = [] := hshows
      cases hnode
  | leaf kind text rest ih =>
      rw [spans, List.forall_mem_cons] at hspans
      obtain ⟨index, others, rfl, hothers⟩ := hshows
      rw [List.flatMap_cons, Node.descendants_mk, List.mem_append, List.flatMap_nil,
        List.mem_singleton] at hnode
      rcases hnode with rfl | hnode
      · exact hspans.1
      · exact ih hspans.2 hothers hnode
  | stray kind text rest ih =>
      rw [spans, List.forall_mem_cons] at hspans
      obtain ⟨index, others, rfl, hothers⟩ := hshows
      rw [List.flatMap_cons, List.mem_append] at hnode
      rcases hnode with hnode | hnode
      · exact hmarker hnode
      · exact ih hspans.2 hothers hnode
  | delimited kind opening interior closing inside rest ihInside ihRest =>
      rw [spans, List.forall_mem_cons] at hspans
      exact absurd hspans.1 id
  | closed kind opening inside closing rest ihInside ihRest =>
      rw [spans, List.forall_mem_cons, List.forall_mem_append, List.forall_mem_cons] at hspans
      obtain ⟨hkind, hinside, -, hrest⟩ := hspans
      obtain ⟨index, first, last, below, others, rfl, hbelow, hothers⟩ := hshows
      rcases mem_descendants_container.1 hnode with rfl | hnode | hnode | hnode | hnode
      · exact hkind
      · exact hmarker hnode
      · exact ihInside hinside hbelow hnode
      · rw [List.flatMap_singleton] at hnode
        exact hmarker hnode
      · exact ihRest hrest hothers hnode
  | unclosed kind opening inside ih =>
      rw [spans, List.forall_mem_cons] at hspans
      obtain ⟨index, first, below, rfl, hbelow⟩ := hshows
      rw [← List.append_nil below, mem_descendants_container, List.append_nil] at hnode
      rcases hnode with rfl | hnode | hnode | hnode | hnode
      · exact hspans.1
      · exact hmarker hnode
      · exact ih hspans.2 hbelow hnode
      · cases hnode
      · cases hnode

/-- Where the spans confine directives, so do the nodes that show them. -/
theorem confines_of_spans {allowed : Kind → Prop} (hplain : ∀ kind, allowed kind → kind.IsPlain)
    (hdelimiter : allowed .delimiter) (hsound : group.Sound table text around)
    (hspans : ∀ span ∈ group.spans, span.Confines allowed table text)
    (hshows : group.Shows lines stop nodes) (hnode : node ∈ nodes.flatMap Node.descendants) :
    node.Confines allowed := by
  have hmarker : ∀ {index : Nat} {text : Fragment},
      node ∈ (text.marker lines index).descendants → node.Confines allowed := by
    intro index text hnode
    rw [eq_of_mem_marker hnode]
    exact Node.confines_of_isPlain (hplain _ hdelimiter)
  induction group generalizing around stop nodes with
  | nil =>
      obtain rfl : nodes = [] := hshows
      cases hnode
  | leaf kind text rest ih =>
      rw [spans, List.forall_mem_cons] at hspans
      obtain ⟨index, others, rfl, hothers⟩ := hshows
      rw [List.flatMap_cons, Node.descendants_mk, List.mem_append, List.flatMap_nil,
        List.mem_singleton] at hnode
      rcases hnode with rfl | hnode
      · exact fun _ _ hbelow => absurd hbelow List.not_mem_nil
      · exact ih hsound hspans.2 hothers hnode
  | stray kind text rest ih =>
      rw [spans, List.forall_mem_cons] at hspans
      obtain ⟨index, others, rfl, hothers⟩ := hshows
      rw [List.flatMap_cons, List.mem_append] at hnode
      rcases hnode with hnode | hnode
      · exact hmarker hnode
      · exact ih hsound.2 hspans.2 hothers hnode
  | delimited kind opening interior closing inside rest ihInside ihRest =>
      rw [spans, List.forall_mem_cons] at hspans
      obtain ⟨hinside, -, hrest⟩ := hsound
      obtain ⟨index, first, last, below, others, rfl, hbelow, hothers⟩ := hshows
      have hlast : ∀ {node}, node ∈ (if closing.chars.isEmpty then []
          else [closing.marker lines last]).flatMap Node.descendants →
            node = closing.marker lines last := by
        intro node hnode
        split at hnode
        · cases hnode
        · rw [List.flatMap_singleton] at hnode
          exact eq_of_mem_marker hnode
      have hbelow : ∀ node ∈ below.flatMap Node.descendants, allowed node.kind :=
        fun node => kind_of_isFlat hdelimiter (hinside ▸ hspans.1) hbelow
      rcases mem_descendants_container.1 hnode with rfl | hnode | hnode | hnode | hnode
      · intro _ node hnode
        rw [Node.children, List.flatMap_cons, List.flatMap_append, List.mem_append,
          List.mem_append] at hnode
        rcases hnode with hnode | hnode | hnode
        · rw [eq_of_mem_marker hnode]
          exact hdelimiter
        · exact hbelow node hnode
        · rw [hlast hnode]
          exact hdelimiter
      · exact hmarker hnode
      · exact Node.confines_of_isPlain (hplain _ (hbelow node hnode))
      · rw [hlast hnode]
        exact Node.confines_of_isPlain (hplain _ hdelimiter)
      · exact ihRest hrest hspans.2 hothers hnode
  | closed kind opening inside closing rest ihInside ihRest =>
      rw [spans, List.forall_mem_cons, List.forall_mem_append, List.forall_mem_cons] at hspans
      obtain ⟨hkind, hinside, -, hrest⟩ := hspans
      obtain ⟨-, hsoundInside, hsoundRest⟩ := hsound
      obtain ⟨index, first, last, below, others, rfl, hbelow, hothers⟩ := hshows
      rcases mem_descendants_container.1 hnode with rfl | hnode | hnode | hnode | hnode
      · exact Node.confines_of_isPlain hkind
      · exact hmarker hnode
      · exact ihInside hsoundInside hinside hbelow hnode
      · rw [List.flatMap_singleton] at hnode
        exact hmarker hnode
      · exact ihRest hsoundRest hrest hothers hnode
  | unclosed kind opening inside ih =>
      rw [spans, List.forall_mem_cons] at hspans
      obtain ⟨index, first, below, rfl, hbelow⟩ := hshows
      rw [← List.append_nil below, mem_descendants_container, List.append_nil] at hnode
      rcases hnode with rfl | hnode | hnode | hnode | hnode
      · exact Node.confines_of_isPlain hspans.1
      · exact hmarker hnode
      · exact ih hsound hspans.2 hbelow hnode
      · cases hnode
      · cases hnode

end Grouping

/-- A scan for a few kinds, none of them of directives, finds no delimited containers. -/
theorem Table.IsolatesDirectives.isFlat {table : Table} (h : table.IsolatesDirectives)
    {allowed : Kind → Prop} (hplain : ∀ kind, allowed kind → kind.IsPlain) {kinds : KindSet}
    (htext : allowed .text) (hkinds : ∀ kind, kinds.contains kind = true → allowed kind)
    {offset : Nat} {left : LeftContext} {rest : List Char} :
    ∀ span ∈ table.scanFrom (some kinds) offset left rest, span.IsFlat allowed := by
  have hallowed := @kind_scanFrom table allowed (some kinds) htext
    (fun spec _ hsought => hkinds _ (by simpa using hsought))
  intro span hspan
  have hkind := hallowed offset left rest span hspan
  cases span with
  | leaf | opener | closer => exact hkind
  | delimited kind opening interior closing =>
      obtain ⟨_, hleaf⟩ | ⟨spec, hspec, hsame, hshape⟩ := exists_spec_of_mem_scanFrom hspan
      · cases hleaf
      · have hdirective := (h spec hspec hshape).1
        have hother := hplain _ hkind
        rw [hsame] at hother
        rw [Kind.IsPlain, hdirective] at hother
        cases hother

/-- Whether all delimited containers of a table are scanned for what a directive is scanned for. -/
def Table.ScansDirectives (table : Table) : Prop :=
  ∀ spec ∈ table.candidates, spec.shape = .delimitedContainer →
    (table.spec? spec.kind).bind (·.interior) = some CFamily.directiveInterior

theorem Table.scansDirectives_ofCatalogue {specs : List Spec}
    (h : specs.all (fun spec => spec.shape != .delimitedContainer
      || (specs.find? (·.kind == spec.kind)).bind (·.interior) ==
        some CFamily.directiveInterior) = true) : (ofCatalogue specs).ScansDirectives := by
  intro spec hspec hshape
  have hall := List.all_eq_true.1 h spec (mem_of_mem_candidates hspec)
  rw [hshape, Bool.or_eq_true] at hall
  rw [spec?, specs_ofCatalogue]
  exact eq_of_beq (hall.resolve_left (by decide))

namespace Language

variable {language : Language}

theorem scansDirectives_table (h : language ∈ cFamily) :
    language.grammar.table.ScansDirectives := by
  cases language with
  | c | cpp | objc | objcpp =>
      exact Table.scansDirectives_ofCatalogue (by decide +kernel)
  | html | xml | feed | propertyList => exact absurd h (by decide)

/-- In a paired text, a directive holds at least its marker. -/
theorem children_of_directive (h : language ∈ cFamily) (text : List Char) {node : Node}
    (hnode : node ∈ (Parse.build language.grammar text).root.children.flatMap Node.descendants)
    (hkind : KindSet.directives.contains node.kind = true) : node.children ≠ [] := by
  intro hchildren
  obtain ⟨group, hcovers⟩ := Grouping.exists_covers language.grammar (markup_of_cFamily h) text
  have hatomic : node.kind.isAtomic = true := by
    rcases Grouping.kind_of_childless hcovers.shows hnode hchildren with hmarker | ⟨token, hleaf⟩
    · rw [hmarker]
      decide
    · obtain ⟨spans, hspans, hleaf⟩ := hcovers.exists_scan hleaf
      obtain ⟨_, _, _, _, rfl⟩ := hspans.exists_scanFrom
      exact Table.suits_scanFrom (fun _ => language.isSound_grammar.table) _ _ _ _ _ hleaf trivial
  rw [Kind.isAtomic_of_directives hkind] at hatomic
  cases hatomic

/-- In a paired text of a C-family language, a directive holds texts, markers, and nodes of the
kinds that its interior is scanned for. -/
theorem confines_build (h : language ∈ cFamily) (text : List Char) {allowed : Kind → Prop}
    (hplain : ∀ kind, allowed kind → kind.IsPlain) (htext : allowed .text)
    (hdelimiter : allowed .delimiter)
    (hinterior : ∀ kind ∈ CFamily.directiveInterior.toList, allowed kind) :
    (Parse.build language.grammar text).root.All (Node.Confines allowed) := by
  have hspares := sparesDirectives_table h
  have hisolates := isolatesDirectives_table h
  obtain ⟨group, hcovers⟩ :=
    Grouping.exists_covers language.grammar (markup_of_cFamily h) text
  intro node hnode
  rcases Node.mem_descendants_iff.1 hnode with rfl | hbelow
  · exact Node.confines_of_isPlain (show Kind.root.IsPlain by decide)
  have hspans : ∀ span ∈ group.spans, span.Confines allowed language.grammar.table text := by
    intro span hspan
    have hscans : language.grammar.table.Scans text group.spans :=
      hcovers.scans.2 ⟨_, List.mem_cons_self .., rfl⟩
    obtain ⟨restrict, offset, left, rest, hscan⟩ := hscans.exists_scanFrom
    rw [hscan] at hspan
    cases span with
    | leaf | closer => trivial
    | opener kind text => exact hspares.kind_opener hspan
    | delimited kind opening interior closing =>
        obtain ⟨_, hleaf⟩ | ⟨spec, hspec, hsame, hshape⟩ := Table.exists_spec_of_mem_scanFrom hspan
        · cases hleaf
        change kind = spec.kind at hsame
        intro span hinside
        rw [Table.scanInterior, hsame, scansDirectives_table h spec hspec hshape] at hinside
        refine hisolates.isFlat hplain htext (fun kind hkind => ?_) span hinside
        exact hinterior kind (KindSet.mem_toList.2 hkind)
  exact Grouping.confines_of_spans hplain hdelimiter hcovers.stands.sound hspans hcovers.shows
    hbelow

/-- In a paired text of a C-family language, no directive stands in another. -/
theorem sealed_build (h : language ∈ cFamily) (text : List Char) :
    (Parse.build language.grammar text).root.All Node.IsSealed :=
  confines_build h text (fun _ => id) (by decide) (by decide) (by decide +kernel)

end Language

end ConcreteSyntax
