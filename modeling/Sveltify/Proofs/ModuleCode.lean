import Sveltify.Proofs.Component.Closure
import Sveltify.Proofs.Component.Locality
import Sveltify.Proofs.Document

/-! The code of a module around its component. The items that do not belong to the component are
taken in their order: a statement is kept, an export that gives nothing to the component is left to
manual review, and imports and lists of exports are dropped. The conversion of the component itself
adds to neither. A statement in which nothing is rewritten keeps the content of its lines. -/

namespace Sveltify

open List
open Script (Node)
open Script.Tree Policy Draft
open Text (contentLines)

/-! What becomes of an item. -/

namespace Script.Tree

variable {α : Type}

def unexported (item : Script.Tree α) : Script.Tree α :=
  match item with
  | .node _ .exportDecl _ [declaration] => declaration
  | item => item

def kept? (item : Script.Tree α) : Option (Script.Tree α) :=
  if item.isBoundary then none else some item.unexported

/-- An export that is left to manual review if it does not belong to the component. -/
def leftExport? (item : Script.Tree α) : Option (Script.Tree α) :=
  match item.kind with
  | .exportDefaultDecl | .exportDefaultExpr | .typeExport => some item
  | _ => none

def isObject (t : Script.Tree α) : Bool :=
  match t.kind with
  | .object => true
  | _ => false

def isStatic (member : Option String) (value : Script.Tree α) : Bool :=
  if member = some "defaultProps" then value.isObject else member.any ignoredStatics.contains

def isStaticOf (component : String) (item : Script.Tree α) : Bool :=
  match item with
  | .node _ .expression _ [expression] =>
    match expression.unparen with
    | .node _ (.assign "=") _ [target, value] =>
      (target.memberObject?.any fun object => object.unparen.ident? == some component) &&
        isStatic target.memberName? value.unparen
    | _ => false
  | _ => false

section

variable {β : Type} (f : Script.Tree α → List (Script.Tree β) → β)

theorem unexported_relabel (item : Script.Tree α) :
    (item.relabel f).unexported = item.unexported.relabel f := by
  obtain ⟨l, kind, span, kids⟩ := item
  have hnode := relabel_node f l kind span kids
  rw [hnode]
  cases kind
  case exportDecl =>
    rcases kids with _ | ⟨k, _ | ⟨_, _⟩⟩
    · exact hnode.symm
    · rfl
    · exact hnode.symm
  all_goals exact hnode.symm

theorem isBoundary_relabel (item : Script.Tree α) :
    (item.relabel f).isBoundary = item.isBoundary := by
  unfold isBoundary
  rw [kind_relabel]

theorem kept?_relabel (item : Script.Tree α) :
    (item.relabel f).kept? = item.kept?.map (relabel f) := by
  unfold kept?
  rw [isBoundary_relabel, unexported_relabel]
  split <;> rfl

theorem leftExport?_eq_none {statement} {item : Script.Tree α}
    (h : item.kept? = some statement) : item.leftExport? = none := by
  unfold kept? isBoundary at h
  unfold leftExport?
  split
  all_goals simp_all

theorem leftExport?_relabel (item : Script.Tree α) :
    (item.relabel f).leftExport? = item.leftExport?.map (relabel f) := by
  unfold leftExport?
  rw [kind_relabel]
  split <;> rfl

end

end Script.Tree

theorem convertModuleItem_eq (source : Source) (item : Part) : convertModuleItem source item =
    match item.kept?, item.leftExport? with
    | some statement, _ => do
      let code ← renderDedented source statement
      modify (·.addModuleCode (String.ofList code))
    | none, some item => reviewPart source exportReason item
    | none, none => pure () := by
  obtain ⟨l, kind, _, kids⟩ := item
  cases kind
  case exportDecl => rcases kids with _ | ⟨k, _ | ⟨_, _⟩⟩ <;> rfl
  all_goals rfl

/-! What the conversion of the component leaves alone. -/

namespace Draft

def exports (d : Draft) : List String :=
  (d.reviewBlocks.filter (·.reason == exportReason)).map (·.code)

theorem exports_review (d : Draft) (source : Source) (reason code : String) (offset : Nat) :
    (d.review source reason code offset).exports =
      d.exports ++ if reason = exportReason then [code] else [] := by
  unfold exports review report
  by_cases h : reason = exportReason <;> simp [h]

/-- The code of the module and its exports are the same. -/
structure Spares (d d' : Draft) : Prop where
  moduleCode : d'.moduleCode = d.moduleCode
  exports : d'.exports = d.exports

variable {source : Source} {p : Policy} {d d' d'' : Draft}

theorem Spares.refl (d : Draft) : d.Spares d :=
  ⟨rfl, rfl⟩

theorem Spares.trans (h : d.Spares d') (h' : d'.Spares d'') : d.Spares d'' :=
  ⟨h'.moduleCode.trans h.moduleCode, h'.exports.trans h.exports⟩

theorem Change.spares (hp : ¬ p.takesItems) (h : Change source p d d') : d.Spares d' := by
  cases h with
  | moduleCode hitems => exact absurd hitems hp
  | review _ hreason =>
    refine ⟨rfl, ?_⟩
    rw [exports_review, if_neg fun heq => hp (hreason.1 heq), append_nil]
  | reactive =>
    unfold addReactive
    split
    · exact .refl d
    · exact ⟨rfl, rfl⟩
  | _ => exact ⟨rfl, rfl⟩

theorem Run.spares (hp : ¬ p.takesItems) (h : Run source p d d') : d.Spares d' := by
  induction h with
  | refl => exact .refl d
  | tail _ hstep ih => exact ih.trans (hstep.spares hp)

end Draft

/-! Items in their turn. -/

section

open Conversion

variable {d : Draft}

def Draft.codeOf (source : Source) (d : Draft) (n : Node) : String :=
  String.ofList ((renderDedented source (Part.ofNode source n)).run d).1

def Draft.afterItem (source : Source) (d : Draft) (item : Node) : Draft :=
  ((convertModuleItem source (Part.ofNode source item)).run d).2

/-- What is written of the items of which `pick` takes something, each with the draft of its turn. -/
def Draft.inTurn (source : Source) (pick : Node → Option Node) : Draft → List Node → List String
  | _, [] => []
  | d, item :: rest => ((pick item).map (d.codeOf source)).toList ++
      inTurn source pick (d.afterItem source item) rest

theorem spares_renderDedented (source : Source) (hd : d.Tied) (n : Node) :
    let e := ((renderDedented source (Part.ofNode source n)).run d).2
    e.Tied ∧ d.Spares e := by
  have hadmits : (free (fun _ => True) False).Admits source d (Part.ofNode source n) :=
    free_admits n
  have hrun := (yields_renderDedented hadmits hd).1
  exact ⟨hrun.tied hd, hrun.spares id⟩

theorem Draft.afterItem_eq (source : Source) (hd : d.Tied) (item : Node) :
    (d.afterItem source item).Tied ∧
    (d.afterItem source item).moduleCode =
      d.moduleCode ++ (item.kept?.map (d.codeOf source)).toList ∧
    (d.afterItem source item).exports =
      d.exports ++ (item.leftExport?.map (d.codeOf source)).toList := by
  unfold afterItem
  rw [convertModuleItem_eq, Part.ofNode, kept?_relabel, leftExport?_relabel]
  cases hkept : item.kept? with
  | some statement =>
    obtain ⟨htied, hspares⟩ := spares_renderDedented source hd statement
    rw [leftExport?_eq_none hkept]
    refine ⟨⟨htied.setters, htied.hookRefs⟩, ?_, ?_⟩
    · exact congrArg (· ++ [d.codeOf source statement]) hspares.moduleCode
    · exact hspares.exports.trans (append_nil _).symm
  | none =>
    cases hleft : item.leftExport? with
    | none => exact ⟨hd, (append_nil _).symm, (append_nil _).symm⟩
    | some left =>
      obtain ⟨htied, hspares⟩ := spares_renderDedented source hd left
      refine ⟨⟨htied.setters, htied.hookRefs⟩, ?_, ?_⟩
      · exact hspares.moduleCode.trans (append_nil _).symm
      · refine (exports_review _ _ _ _ _).trans ?_
        exact congrArg (· ++ [d.codeOf source left]) hspares.exports

theorem Draft.afterItems_eq (source : Source) (hd : d.Tied) (items : List Node) :
    let e := items.foldl (afterItem source) d
    e.Tied ∧ e.moduleCode = d.moduleCode ++ d.inTurn source kept? items ∧
      e.exports = d.exports ++ d.inTurn source leftExport? items := by
  induction items generalizing d with
  | nil => exact ⟨hd, (append_nil _).symm, (append_nil _).symm⟩
  | cons item _ ih =>
    obtain ⟨htied, hcode, hexports⟩ := afterItem_eq source hd item
    obtain ⟨htied', hcode', hexports'⟩ := ih htied
    refine ⟨htied', ?_, ?_⟩
    · rw [foldl_cons, hcode', hcode, inTurn, append_assoc]
    · rw [foldl_cons, hexports', hexports, inTurn, append_assoc]

end

/-! Statements in which nothing is rewritten. -/

def Draft.leaves (d : Draft) (n : Node) : Bool :=
  n.every fun m => d.isPlain m && (d.replacement? m).isNone

section

variable {d : Draft} {n : Node}

theorem Draft.replacements_of_leaves (h : d.leaves n) : d.replacements n = [] := by
  refine eq_nil_iff_forall_not_mem.2 fun e he => ?_
  obtain ⟨m, hm, -, htext⟩ := exists_of_mem_replacements he
  have hnone := hm.of_every h
  simp [htext] at hnone

theorem Draft.isWalked_of_leaves (h : d.leaves n) : n.every d.isWalked := by
  induction n using inside_induction with
  | h n ih =>
    have hkid : ∀ k ∈ n.kids, d.leaves k := fun k hk => (every_node_iff.1 h).2 k hk
    refine every_node_iff.2 ⟨?_, fun k hk => ih k (inside_of_mem_kids hk) (hkid k hk)⟩
    unfold isWalked
    split
    · next kids hkids =>
      rw [List.isEmpty_iff, replacementsAll_eq, flatMap_eq_nil_iff]
      exact fun k hk => replacements_of_leaves (hkid k hk)
    · next test body _ hkids =>
      have hbody := (every_node_iff.1 (hkid body (by simp [hkids]))).1
      exact (Bool.and_eq_true_iff.1 hbody).2
    · rfl

theorem render_of_leaves (source : Source) (h : d.leaves n) :
    (render source (Part.ofNode source n) d).1 = source.slice n.span := by
  have hplain : n.every d.isPlain := every_imp (fun m hm => (Bool.and_eq_true_iff.1 hm).1) h
  rw [render_of_isPlain hplain (isWalked_of_leaves h), replacements_of_leaves h]
  rfl

theorem contentLines_codeOf (source : Source) (h : d.leaves n) :
    contentLines (d.codeOf source n).toList = contentLines (source.slice n.span) := by
  have hcode : (d.codeOf source n).toList =
      dedented (source.slice n.span) (source.lineIndent n.span.start).length := by
    have hleaves : (d.cut [(Part.ofNode source n).span.start]).leaves n := h
    rw [← render_of_leaves source hleaves, ← span_relabel (Visit.ofNode source) n]
    exact String.toList_ofList
  rw [hcode, dedented, Text.contentLines_tidyBlankLines, Text.contentLines_reindent]

end

/-! Assignments to members of the component. -/

section

open Conversion

theorem filterM_run {α : Type} {g} {f : α → Conversion Bool}
    (h : ∀ a d, ((f a).run d).1 = g a) (l : List α) (d : Draft) :
    ((l.filterM f).run d).1 = l.filter g := by
  have haux : ∀ (acc : List α) (d : Draft), ((l.filterAuxM f acc).run d).1 =
      (l.filter g).reverse ++ acc := by
    induction l with
    | nil => exact fun _ _ => rfl
    | cons a l ih =>
      intro acc d
      have hstep : (((a :: l).filterAuxM f acc).run d).1 =
          ((l.filterAuxM f (bif ((f a).run d).1 then a :: acc else acc)).run ((f a).run d).2).1 := rfl
      rw [hstep, ih, h]
      cases hg : g a <;> simp [hg]
  have hrun : ((l.filterM f).run d).1 = ((l.filterAuxM f []).run d).1.reverse := rfl
  rw [hrun, haux, append_nil, reverse_reverse]

theorem convertStatic_run (source : Source) (component : String) (item : Part) (d : Draft) :
    ((convertStatic source component item).run d).1 = item.isStaticOf component := by
  unfold convertStatic
  split
  · next l span expression =>
    unfold isStaticOf
    dsimp only
    generalize expression.unparen = assignment
    split
    · next l' span' target value =>
      change _ = (target.memberObject?.any (fun object => object.unparen.ident? == some component) &&
        isStatic target.memberName? value.unparen)
      split
      · next hobject =>
        rw [hobject]
        unfold isStatic
        split
        · next hmember hvalue =>
          rw [if_pos hmember, hvalue]
          rfl
        · next hmember hvalue =>
          rw [if_pos hmember]
          generalize value.unparen = object at hvalue
          obtain ⟨_, kind, _, _⟩ := object
          cases kind
          case object => exact (hvalue _ _ _ rfl).elim
          all_goals rfl
        · next name hname hmember _ =>
          rw [hmember, if_neg fun heq => hname (Option.some.inj heq)]
          rfl
        · next hmember =>
          rw [hmember]
          rfl
      · next hobject =>
        rw [Bool.eq_false_iff.2 hobject]
        rfl
    · next hassign =>
      split
      · exact absurd rfl (hassign _ _ _ _)
      · rfl
  · next hitem =>
    unfold isStaticOf
    split
    · exact absurd rfl (hitem _ _ _)
    · rfl

theorem convertStatics_run (source : Source) (component : Option String)
    (items : List (Part × Nat)) (d : Draft) :
    ((convertStatics source component items).run d).1 =
      (items.filter fun item => component.any item.1.isStaticOf).map (·.2) := by
  cases component with
  | none => exact (congrArg (List.map (·.2)) (filter_false items)).symm
  | some name =>
    exact congrArg (List.map (·.2))
      (filterM_run (fun item d => convertStatic_run source name item.1 d) items d)

end

/-! The items of the component. -/

/-- The item declares the component, is the default export that it is, or is the one that names
it. -/
def LocatedComponent.Owns {α : Type} (component : LocatedComponent α) (item : Script.Tree α) :
    Prop :=
  (∃ name, component.name = some name ∧ (name, component.source) ∈ itemComponents item) ∨
  defaultExport? item = some (component.name, .inline component.source) ∨
  ∃ given name, component.name = some name ∧ defaultExport? item = some (given, .named name)

theorem owns_of_locateComponent? {α : Type} {component} {items : List (Script.Tree α)} (h : locateComponent? items = some component) :
    ∀ i ∈ component.items, ∃ item, items[i]? = some item ∧ component.Owns item := by
  obtain ⟨item, i, _, hitem, heq, hfound, hrest⟩ := locateComponent?_cases h
  intro k hk
  rw [heq] at hk
  obtain rfl | hk := mem_cons.1 hk
  · refine ⟨item, hitem, ?_⟩
    rcases hfound with hexport | hdeclared
    · exact .inr (.inl hexport)
    · exact .inl hdeclared
  · obtain ⟨other, given, name, hother, hname, hexport⟩ := hrest k hk
    exact ⟨other, hother, .inr (.inr ⟨given, name, hname, hexport⟩)⟩

theorem forM_run {α : Type} (f : α → Conversion Unit) (l : List α) (d : Draft) :
    ((l.forM f).run d).2 = l.foldl (fun d a => ((f a).run d).2) d := by
  induction l generalizing d with
  | nil => rfl
  | cons a l ih => exact ih ((f a).run d).2

def convertRoot (setting : Markup.Setting) (component : ComponentSource Visit) :
    Conversion Text := do
  match ← convertComponent setting.source component with
  | some root => Markup.build setting root
  | none => pure []

theorem yields_convertRoot (setting : Markup.Setting) {p d component} (hmarks : p.marks)
    (h : p.Converts setting.source component) :
    Conversion.Yields setting.source p d (convertRoot setting component) Conversion.anything := by
  refine .bind (yields_convertComponent h) fun markup e _ hmarkup => ?_
  cases markup with
  | none => exact .of_pure trivial
  | some part =>
    obtain ⟨n, rfl, hshows⟩ := hmarkup.1 part rfl
    exact (Markup.yields_build hmarks hshows).weaken

namespace Transformation

variable {files : FileSystem} {text : String} {options : Options}
variable (t : Transformation files text options)

/-- The assignments to members of the component that are taken over or ignored, by their places, and
what is known after them. -/
def statics : List Nat × Draft :=
  (convertStatics t.source t.component.name t.items.zipIdx).run {}

def own : List Nat :=
  t.component.items ++ t.statics.1

def others : List Node :=
  (t.module.kids.zipIdx.filter fun item => !t.own.contains item.2).map (·.1)

theorem mem_own_iff {i} : i ∈ t.own ↔ i ∈ t.component.items ∨
    ∃ item name, t.items[i]? = some item ∧ t.component.name = some name ∧ item.isStaticOf name := by
  unfold own statics
  rw [mem_append, convertStatics_run, mem_map]
  refine or_congr_right ⟨?_, ?_⟩
  · rintro ⟨⟨item, i⟩, hmem, rfl⟩
    obtain ⟨hmem, hstatic⟩ := mem_filter.1 hmem
    obtain ⟨name, hname, hstatic⟩ := (Option.any_eq_true _ _).1 hstatic
    exact ⟨item, name, mem_zipIdx_iff_getElem?.1 hmem, hname, hstatic⟩
  · rintro ⟨item, _, hitem, hname, _⟩
    refine ⟨(item, i), mem_filter.2 ⟨mem_zipIdx_iff_getElem?.2 hitem, ?_⟩, rfl⟩
    rwa [hname]

theorem convertModuleCode_run :
    ((convertModuleCode t.source t.own t.items.zipIdx).run t.statics.2).2 =
      t.others.foldl (afterItem t.source) t.statics.2 := by
  unfold convertModuleCode others items
  rw [forM_run, zipIdx_map, filter_map, foldl_map, foldl_map]
  rfl

theorem spares_statics : t.statics.2.Tied ∧ ({} : Draft).Spares t.statics.2 := by
  have hadmits : ∀ item ∈ t.items.zipIdx, item.1.kind = .expression →
      (free (fun _ => True) False).Admits t.source {} item.1 := by
    intro item hitem _
    have hmem : item.1 ∈ t.items := (mem_zipIdx' hitem).2 ▸ getElem_mem _
    obtain ⟨n, -, hn⟩ := mem_map.1 hmem
    rw [← hn]
    exact free_admits n
  have hrun : ({} : Draft).Run t.source _ t.statics.2 :=
    (yields_convertStatics hadmits tied_empty).1
  exact ⟨hrun.tied tied_empty, hrun.spares id⟩

theorem spares_collected :
    (t.others.foldl (afterItem t.source) t.statics.2).Spares t.collected := by
  have htied := (afterItems_eq t.source t.spares_statics.1 t.others).1
  have hcollected : t.collected = ((convertRoot t.setting t.component.source).run
      (t.others.foldl (afterItem t.source) t.statics.2)).2 := by
    rw [← convertModuleCode_run]
    rfl
  obtain ⟨n, hof⟩ := t.exists_component
  have hconverts : (free (· ∈ t.component.source.methodNames) False).Converts t.source
      t.component.source := free_converts hof
  rw [hcollected]
  exact (yields_convertRoot t.setting trivial hconverts htied).1.spares id

/-- The code around the component is kept. -/
structure KeepsModule : Prop where
  own : ∀ i, i ∈ t.own ↔ i ∈ t.component.items ∨
    ∃ item name, t.items[i]? = some item ∧ t.component.name = some name ∧ item.isStaticOf name
  component : ∀ i ∈ t.component.items, ∃ item, t.items[i]? = some item ∧ t.component.Owns item
  statements : t.document.script.moduleCode = t.statics.2.inTurn t.source kept? t.others
  /-- All other default exports and exports of types, in their order, once each. -/
  exports : (t.document.script.reviewBlocks.filter (·.reason == exportReason)).map (·.code) =
    t.statics.2.inTurn t.source leftExport? t.others
  /-- Code in which nothing is rewritten has the same lines, but for blank ones and indentation. -/
  unchanged : ∀ (d : Draft) (n : Node), d.leaves n →
    contentLines (d.codeOf t.source n).toList = contentLines (t.source.slice n.span)
  /-- The generated component has the lines of its parts, but for blank ones and indentation. -/
  written : contentLines t.converted.code.toList = t.document.content

/-- The items of a module that do not belong to its component are kept or left to manual review in
their order and once each, and the lines of code in which nothing is rewritten keep their content. -/
theorem module_kept : t.KeepsModule := by
  obtain ⟨htied, hstatics⟩ := t.spares_statics
  obtain ⟨-, hcode, hexports⟩ := Draft.afterItems_eq t.source htied t.others
  have hcollected := t.spares_collected
  refine ⟨fun i => t.mem_own_iff, owns_of_locateComponent? t.locates, ?_, ?_, ?_, ?_⟩
  · calc t.document.script.moduleCode = t.collected.moduleCode := t.finishes.moduleCode
      _ = ([] : List String) ++ t.statics.2.inTurn t.source kept? t.others := by
        rw [hcollected.moduleCode, hcode, hstatics.moduleCode]
  · calc t.draft.exports = t.collected.exports := by
          unfold Draft.exports
          rw [t.finishes.reviewBlocks]
      _ = ([] : List String) ++ t.statics.2.inTurn t.source leftExport? t.others := by
        rw [hcollected.exports, hexports, hstatics.exports]
        rfl
  · exact fun d n => contentLines_codeOf t.source
  · exact t.document.contentLines_code

/-- The lines inside a template are shifted with the others, and a declaration that holds the
component is dropped with all it declares. -/
theorem module_not_verbatim :
    (Transformation.of? {} "const T = \x60a\nb\x60;\nexport default () => <p>\x7bT\x7d</p>;\n" {}).map
        (fun t => (t.others.all t.statics.2.leaves, t.converted.code)) =
      some (true, "<script>\n  const T = \x60a\n  b\x60;\n</script>\n\n<p>\x7bT\x7d</p>\n") ∧
    (Transformation.of? {} "const A = () => <p />, B = 1;\nexport default A;\n" {}).map
        (·.converted.code) = some "<p />\n" := by
  decide +kernel

end Transformation

end Sveltify
