import ConcreteSyntax.Proofs.Language
import ConcreteSyntax.Proofs.Tree.WellFormed

/-!
# Nothing of a text is lost

At every stage of parsing the tree is laid out over the whole prepared text without gaps, and
its leaves spell the text.
-/

namespace ConcreteSyntax

/-- What holds of a parsed text at every stage: its nodes are numbered, they fit the text, and
the root takes all of it. -/
structure Parse.WellLaid (parse : Parse) (sound : Prop) : Prop where
  numbered : parse.root.Numbered parse.next
  fits : parse.root.All (Node.Fits parse.lines sound)
  kind : parse.root.kind = .root
  range : parse.root.range = .ofLength 0 (Text.byteLength parse.lines.text)

namespace Parse

variable {parse : Parse} {sound : Prop}

theorem wellLaid_build {grammar : Grammar} (hgrammar : sound → grammar.IsSound)
    (text : List Char) : (build grammar text).WellLaid sound where
  numbered := .of_eq ((grammar.ids_pair _).trans (by
    rw [freshIds, Nat.sub_zero, ← List.range_eq_range']
    rfl))
  fits := Grammar.fits_pair hgrammar _
  kind := rfl
  range := rfl

/-- A tree that has grown from one is laid out as well. -/
theorem WellLaid.grows {kinds : Kind → Prop} (h : parse.WellLaid sound) {after : Parse}
    (hlines : after.lines = parse.lines)
    (hgrows : Grows parse.lines kinds parse.next parse.root after.next after.root)
    (hkinds : sound → ∀ kind, kinds kind → kind.isAtomic = false) : after.WellLaid sound where
  numbered := hgrows.numbered h.numbered
  fits := hlines ▸ hgrows.fits hkinds h.fits
  kind := (congrArg Label.kind hgrows.label_eq).trans h.kind
  range := hlines ▸ (congrArg Label.range hgrows.label_eq).trans h.range

theorem analyse_append (parse : Parse) (early late : List Pass) :
    parse.analyse (early ++ late) = (parse.analyse early).analyse late := by
  rw [analyse, Pass.runAll, List.foldl_append]
  rfl

theorem WellLaid.analyse (h : parse.WellLaid sound) {passes : List Pass}
    (hkinds : sound → ∀ pass ∈ passes, ∀ look found, pass.rule.found? look = some found →
      found.kind.isAtomic = false) : (parse.analyse passes).WellLaid sound := by
  have hgrows : Grows parse.lines (fun kind => sound → kind.isAtomic = false) parse.next
      parse.root (parse.analyse passes).next (parse.analyse passes).root :=
    Pass.grows_runAll
      (fun pass hpass look found hfound hs => hkinds hs pass hpass look found hfound)
      parse.next parse.root
  exact h.grows rfl hgrows fun hs kind hkind => hkind hs

/-- What is known of all trees, those of unsound grammars among them. -/
theorem WellLaid.weaken (h : parse.WellLaid sound) : parse.WellLaid False :=
  { h with fits := fun node hnode => (h.fits node hnode).mono False.elim }

theorem WellLaid.linked (h : parse.WellLaid sound) {tree : Tree}
    (hrepresents : tree.Represents parse) : tree.Linked :=
  hrepresents.linked h.numbered h.fits

theorem WellLaid.wellFormed (h : parse.WellLaid sound) (hsound : sound) {tree : Tree}
    (hrepresents : tree.Represents parse) : tree.WellFormed :=
  hrepresents.wellFormed h.numbered h.fits hsound

theorem WellLaid.spells (h : parse.WellLaid sound) (hsound : sound) {tree : Tree}
    (hrepresents : tree.Represents parse) : tree.Spells parse.lines.text :=
  hrepresents.spells h.numbered h.fits hsound h.kind h.range

theorem WellLaid.represents (h : parse.WellLaid sound) : (Tree.ofParse parse).Represents parse :=
  Tree.represents_ofParse h.numbered

end Parse

namespace Language

/-- A text after pairing and the first `count` passes of its language. -/
def stage (language : Language) (count : Nat) (text : List Char) : Parse :=
  (Parse.build language.grammar (language.prepare text)).analyse
    (language.grammar.passes.take count)

theorem stage_zero (language : Language) (text : List Char) :
    language.stage 0 text = Parse.build language.grammar (language.prepare text) := rfl

/-- Parsing ends at the first stage or at the last one. -/
theorem parse_eq_stage (language : Language) (analysis : Bool) (text : List Char) :
    language.parse analysis text =
      language.stage (if analysis then language.grammar.passes.length else 0) text := by
  cases analysis with
  | false => rfl
  | true =>
      rw [stage, if_pos rfl, List.take_length]
      rfl

theorem wellLaid_stage (language : Language) (count : Nat) (text : List Char) :
    (language.stage count text).WellLaid True := by
  have hbuilt : (Parse.build language.grammar (language.prepare text)).WellLaid True :=
    Parse.wellLaid_build (fun _ => language.isSound_grammar) _
  refine hbuilt.analyse fun _ pass hpass look found hfound => ?_
  have hplanned := language.planned_passes pass (List.mem_of_mem_take hpass)
  exact Kind.isAtomic_of_synthesized (hplanned.synthesized hfound)

/-- At every stage the tree is well-formed and spells the whole prepared text, so parsing what
a tree spells gives the same tree again. -/
theorem lossless (language : Language) (text : List Char) :
    (∀ count, (Tree.ofParse (language.stage count text)).WellFormed
      ∧ (Tree.ofParse (language.stage count text)).Spells (language.prepare text))
    ∧ ∀ analysis, (Tree.ofParse (language.parse analysis text)).WellFormed
      ∧ (Tree.ofParse (language.parse analysis text)).Spells (language.prepare text)
      ∧ language.parse analysis (Tree.ofParse (language.parse analysis text)).text =
          language.parse analysis text := by
  have hstages : ∀ count, (Tree.ofParse (language.stage count text)).WellFormed
      ∧ (Tree.ofParse (language.stage count text)).Spells (language.prepare text) := fun count =>
    have hlaid := language.wellLaid_stage count text
    ⟨hlaid.wellFormed trivial hlaid.represents, hlaid.spells trivial hlaid.represents⟩
  refine ⟨hstages, fun analysis => ?_⟩
  obtain ⟨hformed, hspells⟩ := hstages (if analysis then language.grammar.passes.length else 0)
  rw [← parse_eq_stage] at hformed hspells
  refine ⟨hformed, hspells, ?_⟩
  rw [hspells.spelling, parse, prepare_prepare]
  rfl

end Language

end ConcreteSyntax
