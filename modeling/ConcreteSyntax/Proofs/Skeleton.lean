import ConcreteSyntax.Analysis.Pass
import ConcreteSyntax.Proofs.Analysis.Plan

/-!
# Skeletons

The skeleton of a tree is the tree without layout: without trivia, and without comments
except for those in directives.  Passes can be run on skeletons.  A plan sees the same in a
skeleton as in a tree.
-/

namespace ConcreteSyntax

/-- A tree of kinds and of the texts of leaves. -/
inductive Skeleton where
  | mk (kind : Kind) (text? : Option (List Char)) (children : List Skeleton)

namespace Node

/-- Whether a node only lays a text out.  Comments in directives do more. -/
def isLayout (inDirective : Bool) (node : Node) : Bool :=
  node.kind.isTrivia || (!inDirective && node.kind.isComment)

mutual

/-- The skeleton of a node that may stand in a directive. -/
def skeletonIn (inDirective : Bool) : Node → Skeleton
  | ⟨label, children⟩ =>
      ⟨label.kind, label.text?,
        skeletonAll (inDirective || KindSet.directives.contains label.kind) children⟩

/-- The skeletons of several nodes, those that only lay a text out left out. -/
def skeletonAll (inDirective : Bool) : List Node → List Skeleton
  | [] => []
  | node :: rest =>
      if node.isLayout inDirective then skeletonAll inDirective rest
      else skeletonIn inDirective node :: skeletonAll inDirective rest

end

/-- The skeleton of a tree. -/
def skeleton (node : Node) : Skeleton := skeletonIn false node

theorem skeletonAll_eq (inDirective : Bool) (nodes : List Node) :
    skeletonAll inDirective nodes =
      (nodes.filter (!·.isLayout inDirective)).map (skeletonIn inDirective) := by
  induction nodes with
  | nil => rfl
  | cons node rest ih =>
      unfold skeletonAll
      cases h : node.isLayout inDirective <;> simp [h, ih]

/-- Outside directives, skeletons keep what analysis looks at. -/
theorem isLayout_false (node : Node) : (!node.isLayout false) = node.kind.isSignificant := by
  simp [isLayout, Kind.isSignificant]

/-- The skeletons of siblings outside directives. -/
def skeletons (nodes : List Node) : List Skeleton :=
  (nodes.filter (·.kind.isSignificant)).map skeleton

@[simp] theorem skeletons_nil : skeletons [] = [] := rfl

theorem skeletons_cons_of_significant {node : Node} (h : node.kind.isSignificant = true)
    (rest : List Node) : skeletons (node :: rest) = node.skeleton :: skeletons rest := by
  simp [skeletons, h]

theorem skeletons_cons_of_not {node : Node} (h : node.kind.isSignificant = false)
    (rest : List Node) : skeletons (node :: rest) = skeletons rest := by
  simp [skeletons, h]

theorem skeletons_append (left right : List Node) :
    skeletons (left ++ right) = skeletons left ++ skeletons right := by
  simp [skeletons]

theorem skeleton_mk {label : Label} (children : List Node)
    (h : KindSet.directives.contains label.kind = false) :
    skeleton ⟨label, children⟩ = ⟨label.kind, label.text?, skeletons children⟩ := by
  have hkept : (fun node : Node => !node.isLayout false) = fun node => node.kind.isSignificant :=
    funext isLayout_false
  rw [skeleton, skeletonIn, h, Bool.or_false, skeletonAll_eq, hkept]
  rfl

end Node

namespace Skeleton

/-- The kind of the topmost node. -/
def kind : Skeleton → Kind
  | ⟨kind, _, _⟩ => kind

/-- The text of a leaf. -/
def text? : Skeleton → Option (List Char)
  | ⟨_, text, _⟩ => text

/-- The kinds of the significant nodes right below. -/
def inner : Skeleton → List Kind
  | ⟨_, _, children⟩ => (children.map kind).filter (·.isSignificant)

/-- What a plan sees from the first of some siblings. -/
def scene (parent : Kind) (previous : Option Kind) (first : Skeleton) (rest : List Skeleton) :
    Scene where
  parent
  previous
  kinds := first.kind :: rest.map kind
  text? := first.text?
  inner := first.inner

/-- What a pass makes of siblings, by the plan of its rule. -/
def level (plan : Plan) (parent : Kind) (previous : Option Kind) : List Skeleton → List Skeleton
  | [] => []
  | first :: rest =>
      match plan (scene parent previous first rest) with
      | some (kind, n) =>
          if previous = none ∧ n = rest.length + 1 ∧ parent = kind then
            first :: level plan parent (some first.kind) rest
          else
            ⟨kind, none, (first :: rest).take n⟩ ::
              level plan parent (some kind) (rest.drop (n - 1))
      | none => first :: level plan parent (some first.kind) rest
termination_by siblings => siblings.length
decreasing_by
  all_goals
    simp only [List.length_drop, List.length_cons]
    omega

/-- Visits a node and, after it, its children, down to the depth of `fuel`. -/
def visit (plan : Plan) : Nat → Skeleton → Skeleton
  | 0, skeleton => skeleton
  | fuel + 1, ⟨kind, text, children⟩ =>
      if Pass.isOpen kind then ⟨kind, text, (level plan kind none children).map (visit plan fuel)⟩
      else ⟨kind, text, children⟩

end Skeleton

namespace Node

@[simp] theorem kind_skeletonIn (inDirective : Bool) (node : Node) :
    (node.skeletonIn inDirective).kind = node.kind := by
  cases node
  rfl

@[simp] theorem kind_skeleton (node : Node) : node.skeleton.kind = node.kind :=
  kind_skeletonIn false node

theorem text?_skeleton (node : Node) : node.skeleton.text? = node.text? := by
  cases node
  rfl

/-- What a plan sees below a node it sees in the skeleton too, in a directive or not. -/
theorem inner_skeleton (node : Node) :
    node.skeleton.inner = node.significantChildren.map (·.kind) := by
  obtain ⟨label, children⟩ := node
  have hkinds : ∀ inDirective, ((skeletonAll inDirective children).map Skeleton.kind).filter
      (·.isSignificant) = (children.filter (·.kind.isSignificant)).map (·.kind) := by
    intro inDirective
    induction children with
    | nil => rfl
    | cons node rest ih =>
        cases hlayout : node.isLayout inDirective with
        | true =>
            have hsignificant : node.kind.isSignificant = false := by
              simp only [isLayout, Bool.or_eq_true, Bool.and_eq_true] at hlayout
              rcases hlayout with htrivia | ⟨_, hcomment⟩ <;> simp [Kind.isSignificant, *]
            simp [skeletonAll, hlayout, hsignificant, ih]
        | false =>
            cases hsignificant : node.kind.isSignificant <;>
              simp [skeletonAll, hlayout, hsignificant, ih]
  exact hkinds _

theorem map_kind_skeletons (nodes : List Node) :
    (skeletons nodes).map Skeleton.kind =
      (nodes.filter (·.kind.isSignificant)).map (·.kind) := by
  simp [skeletons, Function.comp_def]

end Node

end ConcreteSyntax
