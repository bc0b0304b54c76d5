import ConcreteSyntax.Diagnostic
import ConcreteSyntax.Node.Basic
import ConcreteSyntax.Proofs.Text.Gap

/-!
# Trees with a directive cut out

A `Cutout` is what is seen of a tree by who looks away from the interior of one directive: all
nodes with their kinds, places, lines and texts, but none below that directive, and places are
counted with the gap closed up.  Of the diagnostics those are seen that do not stand in the gap.
-/

namespace ConcreteSyntax

/-- What is seen of a tree outside a gap. -/
inductive Cutout where
  | mk (kind : Kind) (extent : Extent) (lines : LineSpan) (text? : Option (List Char))
      (children : List Cutout)

/-- What is seen of a diagnostic outside a gap. -/
structure Sighting where
  severity : Severity
  problem : Problem
  extent : Extent
deriving DecidableEq

/-- What is seen of a diagnostic outside a gap; nothing if it stands in the gap. -/
def Diagnostic.cut? (gap : Gap) (note : Diagnostic) : Option Sighting :=
  (gap.extent note.range).start.map fun _ => ⟨note.severity, note.problem, gap.extent note.range⟩

/-- Whether a label is that of the directive around a gap. -/
def Label.hides (gap : Gap) (label : Label) : Bool :=
  KindSet.directives.contains label.kind && gap.isWithin label.range

namespace Node

mutual

/-- What is seen of a tree outside a gap. -/
def cut (gap : Gap) : Node → Cutout
  | ⟨label, children⟩ =>
      ⟨label.kind, gap.extent label.range, label.lines, label.text?,
        if label.hides gap then [] else cutAll gap children⟩

/-- What is seen of several trees outside a gap. -/
def cutAll (gap : Gap) : List Node → List Cutout
  | [] => []
  | node :: rest => cut gap node :: cutAll gap rest

end

theorem cutAll_eq (gap : Gap) (nodes : List Node) : cutAll gap nodes = nodes.map (cut gap) := by
  induction nodes with
  | nil => rfl
  | cons node rest ih => rw [cutAll, ih, List.map_cons]

theorem cut_mk (gap : Gap) (label : Label) (children : List Node) :
    cut gap ⟨label, children⟩ =
      ⟨label.kind, gap.extent label.range, label.lines, label.text?,
        if label.hides gap then [] else children.map (cut gap)⟩ := by
  rw [cut, cutAll_eq]

end Node

/-- Two labels that are the same outside gaps. -/
structure Label.Alike (gap gap' : Gap) (label label' : Label) : Prop where
  kind : label.kind = label'.kind
  extent : gap.extent label.range = gap'.extent label'.range
  lines : label.lines = label'.lines
  text : label.text? = label'.text?

variable {gap gap' : Gap} {lines lines' : LineIndex} {label label' : Label} {node node' : Node}
  {nodes nodes' : List Node}

theorem Label.Alike.hides (hstart : gap.start = gap'.start) (h : label.Alike gap gap' label') :
    label.hides gap = label'.hides gap' := by
  rw [Label.hides, Label.hides, h.kind, Gap.isWithin_eq hstart h.extent]

namespace Node

theorem label_alike_of_cut (h : node.cut gap = node'.cut gap') :
    node.label.Alike gap gap' node'.label := by
  obtain ⟨label, children⟩ := node
  obtain ⟨label', children'⟩ := node'
  rw [cut_mk, cut_mk, Cutout.mk.injEq] at h
  exact ⟨h.1, h.2.1, h.2.2.1, h.2.2.2.1⟩

theorem children_of_cut (h : node.cut gap = node'.cut gap') (hshown : node.label.hides gap = false)
    (hstart : gap.start = gap'.start) :
    node.children.map (cut gap) = node'.children.map (cut gap') := by
  have hshown' := (label_alike_of_cut h).hides hstart
  obtain ⟨label, children⟩ := node
  obtain ⟨label', children'⟩ := node'
  replace hshown : label.hides gap = false := hshown
  replace hshown' : label'.hides gap' = false := hshown'.symm.trans hshown
  rw [cut_mk, cut_mk, Cutout.mk.injEq, hshown, hshown'] at h
  exact h.2.2.2.2

theorem cut_eq (hstart : gap.start = gap'.start) (hlabel : label.Alike gap gap' label')
    (hchildren : nodes.map (cut gap) = nodes'.map (cut gap')) :
    cut gap ⟨label, nodes⟩ = cut gap' ⟨label', nodes'⟩ := by
  rw [cut_mk, cut_mk, hlabel.kind, hlabel.extent, hlabel.lines, hlabel.text, hlabel.hides hstart,
    hchildren]

/-- Nothing is seen of what is below the directive around a gap. -/
theorem cut_eq_of_hides (hstart : gap.start = gap'.start) (hlabel : label.Alike gap gap' label')
    (hhides : label.hides gap = true) : cut gap ⟨label, nodes⟩ = cut gap' ⟨label', nodes'⟩ := by
  have hhides' := hlabel.hides hstart
  rw [hhides] at hhides'
  rw [cut_mk, cut_mk, hlabel.kind, hlabel.extent, hlabel.lines, hlabel.text, if_pos hhides,
    if_pos hhides'.symm]

theorem kind_of_cut (h : node.cut gap = node'.cut gap') : node.kind = node'.kind :=
  (label_alike_of_cut h).kind

theorem extent_of_cut (h : node.cut gap = node'.cut gap') :
    gap.extent node.range = gap'.extent node'.range :=
  (label_alike_of_cut h).extent

theorem text?_of_cut (h : node.cut gap = node'.cut gap') : node.text? = node'.text? :=
  (label_alike_of_cut h).text

/-- What nodes that look the same outside gaps agree on, siblings that look the same agree on. -/
theorem map_of_cut {α : Type} {f f' : Node → α}
    (hf : ∀ {node node' : Node}, node.cut gap = node'.cut gap' → f node = f' node')
    (h : nodes.map (cut gap) = nodes'.map (cut gap')) : nodes.map f = nodes'.map f' := by
  induction nodes generalizing nodes' with
  | nil =>
      obtain rfl := List.map_eq_nil_iff.1 h.symm
      rfl
  | cons node rest ih =>
      obtain ⟨node', rest', rfl, hnode, hrest⟩ := List.map_eq_cons_iff.1 h.symm
      rw [List.map_cons, List.map_cons, hf hnode.symm, ih hrest.symm]

theorem kinds_of_cut (h : nodes.map (cut gap) = nodes'.map (cut gap')) :
    nodes.map (·.kind) = nodes'.map (·.kind) :=
  map_of_cut kind_of_cut h

end Node

/-- Labels of containers over the same stretch are the same. -/
theorem Label.alike_ofRange (h : gap.Alike gap' lines lines') {kind : Kind}
    (hkind : kind.isAtomic = false) (id id' : NodeId) {range range' : Range}
    (hextent : gap.extent range = gap'.extent range') :
    (Label.ofRange lines id kind range).Alike gap gap' (.ofRange lines' id' kind range') where
  kind := rfl
  extent := hextent
  lines := h.span hextent
  text := by
    simp only [ofRange, hkind]
    rfl

theorem Diagnostic.cut?_eq {note note' : Diagnostic} (hseverity : note.severity = note'.severity)
    (hproblem : note.problem = note'.problem)
    (hextent : gap.extent note.range = gap'.extent note'.range) : note.cut? gap = note'.cut? gap' := by
  rw [cut?, cut?, hseverity, hproblem, hextent]

end ConcreteSyntax
