import Sveltify.Proofs.Component.Closure

/-! Manual review in a generated component. The script is complete when its markup is built, and no
marker is given out before. So the markers in the markup are numbered from one on without a gap, and
the blocks of the script that carry a number are those of the markers, in the same order. -/

namespace Sveltify

open Script (Node)

namespace Transformation

variable {files : FileSystem} {text : String} {options : Options}
variable (t : Transformation files text options)

/-- The expression that the component returns, and what is known before its markup is built. -/
def scripted : Option Part × Draft :=
  (collectScript t.setting t.items t.component).run {}

/-- The markup of the component, and what is known after it is built. -/
def shown : Markup.Body Markup.Node × Draft :=
  t.scripted.1.elim ({}, t.scripted.2) fun root => (Markup.tree t.setting root).run t.scripted.2

def markers : List Nat :=
  Markup.markersOf t.shown.1.nodes

theorem collectItems_run : (collectItems t.setting t.items t.component).run {} =
    (t.shown.1.layout, t.shown.2) := by
  have hbuild : ∀ (root : Option Part) (d : Draft),
      StateT.run (root.elim (pure []) (Markup.build t.setting)) d =
        let result := root.elim (({} : Markup.Body Markup.Node), d)
          fun root => (Markup.tree t.setting root).run d
        (result.1.layout, result.2) := by
    intro root d
    cases root with
    | none => rfl
    | some =>
      rw [Option.elim_some, Markup.build_eq]
      rfl
  rw [collectItems_eq]
  exact hbuild _ _

theorem scripted_unmarked : t.scripted.2.Tied ∧ ({} : Draft).Numbers [] t.scripted.2 ∧
    ∀ root ∈ t.scripted.1, ∃ n, root = Part.ofNode t.source n := by
  have hcovers : (Policy.unmarked (· ∈ t.component.source.methodNames)).CoversScript t.source
      t.items t.component :=
    coversScript_of_permits ⟨fun _ => trivial, fun _ _ _ => trivial⟩ trivial fun _ h => h
  obtain ⟨hrun, hroot, -⟩ := yields_collectScript t.setting hcovers Draft.tied_empty
  refine ⟨hrun.tied Draft.tied_empty, hrun.numbers id, fun root hmem => ?_⟩
  obtain ⟨n, hn, -⟩ := hroot root hmem
  exact ⟨n, hn⟩

theorem numbers_shown : t.scripted.2.Numbers t.markers t.shown.2 := by
  obtain ⟨htied, -, hroot⟩ := t.scripted_unmarked
  unfold markers shown
  cases hscripted : t.scripted.1 with
  | none => exact .refl _
  | some root =>
    obtain ⟨n, rfl⟩ := hroot root hscripted
    exact (Markup.accounted_tree t.setting n htied).numbers

/-- The markers of the markup and the blocks for manual review correspond. -/
structure NumbersBlocks : Prop where
  inOrder : t.markers = List.range' 1 t.markers.length
  /-- As many expressions are left to manual review as there are markers. -/
  count : t.scripted.2.markers = 0 ∧ t.shown.2.markers = t.markers.length
  added : ∃ added, t.shown.2.reviewBlocks = t.scripted.2.reviewBlocks ++ added ∧
    added.filterMap (ReviewBlock.markerIn? ·.reason) = t.markers
  markup : t.document.markup = String.ofList t.shown.1.layout
  blocks : t.document.script.reviewBlocks.filterMap (ReviewBlock.markerIn? ·.reason) = t.markers
  /-- Whatever expression is shown, and whatever is known before. -/
  everywhere : ∀ (root : Node) (d : Draft), d.Tied →
    let result := (Markup.tree t.setting (Part.ofNode t.source root)).run d
    d.Numbers (Markup.markersOf result.1.nodes) result.2

/-- The markers of manual review are numbered from one on in the order in which they stand in the
markup, and for every one of them there is one block that carries its number, in the same order. -/
theorem markers_match_blocks : t.NumbersBlocks := by
  have hitems := t.collectItems_run
  have hshown := t.numbers_shown
  obtain ⟨-, hscripted, -⟩ := t.scripted_unmarked
  have hzero : t.scripted.2.markers = 0 := hscripted.count
  have hall := hscripted.append hshown
  refine ⟨?_, ⟨hzero, ?_⟩, hshown.blocks, ?_, ?_, fun root d hd => ?_⟩
  · have horder := hshown.inOrder
    rwa [hzero] at horder
  · rw [hshown.count, hzero, Nat.zero_add]
  · have hmarkup := (convertItems_run t.setting t.items t.component {}).1
    rw [hitems] at hmarkup
    exact congrArg String.ofList hmarkup
  · obtain ⟨added, hadded, hnumbers⟩ := hall.blocks
    have hcollected : t.collected = t.shown.2 := congrArg Prod.snd hitems
    have hblocks : t.document.script.reviewBlocks = added :=
      t.finishes.reviewBlocks.trans ((congrArg (·.reviewBlocks) hcollected).trans hadded)
    rw [hblocks, hnumbers, List.nil_append]
  · exact (Markup.accounted_tree t.setting root hd).numbers

example : (Transformation.of? {} ("export default () => <ul>\x7b...rows\x7d<li />" ++
      "\x7bopen ? <p /> : items.map(show)\x7d</ul>;\n") {}).map
    (fun t => (t.markers, t.document.script.reviewBlocks.map (·.reason))) =
      some ([1, 2], ["spread children #1", "markup expression #2"]) := by
  decide +kernel

end Transformation

end Sveltify
