import Sveltify.Proofs.Component.Closure
import Sveltify.Proofs.Component.Hops

/-! What becomes of `this`. A walk reports every `this` that it comes to. It passes over those in
the callee of an update call that it defers, but then the statement around the call is dropped. So
a `this` is left in silence only where the source is written into the component without a walk. -/

namespace Sveltify

open Script (Node Kind)
open Script.Tree
open Output (All)

def ReportsThis (source : Source) (diagnostics : List Diagnostic) (offset : Nat) : Prop :=
  ⟨.unresolvedThis, "`this` reference could not be rewritten", (source.lineColumn offset).1,
    (source.lineColumn offset).2⟩ ∈ diagnostics

/-! The end of a walk. -/

namespace Walk

variable {source : Source} {w : Walk}

theorem drops_defer {span} (h : w.statements.head? = some span) (call : Node) :
    (w.defer source call).Drops source span := by
  unfold defer
  rw [h]
  dsimp only
  split
  · next hany => exact .inl hany
  · exact .inl (by simp)

theorem dropped_leave {span} (h : w.Drops source span) :
    ⟨source.statementRange span, []⟩ ∈ (w.leave source span).edits.edits := by
  unfold leave
  split
  · next hfind =>
    rcases h with hany | hedit
    · obtain ⟨entry, hentry, hspan⟩ := List.any_eq_true.1 hany
      exact absurd hspan (List.find?_eq_none.1 hfind entry hentry)
    · exact hedit
  · simp [replace, EditSet.replace]

/-- All that the walk has found and edited is there in the end; if it drops the statement around the
node `n`, then that statement of `root` is gone in the end. -/
structure Ends (source : Source) (root : Node) (e : Draft) (es : List Edit) (n : Node) (w : Walk) :
    Prop where
  draft : w.draft.Grows e
  edits : w.edits.edits ⊆ es
  dropped : ∀ span, w.statements.head? = some span → w.Drops source span →
    ∃ s : Node, s.Within root ∧ n.Within s ∧ ⟨source.statementRange s.span, []⟩ ∈ es

variable {root n : Node} {e : Draft} {es : List Edit}

theorem Ends.before {w'} (h : w'.Ends source root e es n) (hw : w.Leads source w')
    (hd : w.draft.Grows w'.draft) : w.Ends source root e es n :=
  ⟨hd.trans h.draft, fun _ hx => h.edits (hw.edits hx), fun span hspan hdrops =>
    h.dropped span (hw.statements ▸ hspan) (hw.drops span hdrops)⟩

theorem Ends.within {m} (h : w.Ends source root e es n) (hm : m.Within n) :
    w.Ends source root e es m := by
  refine ⟨h.draft, h.edits, fun span hspan hdrops => ?_⟩
  obtain ⟨s, hs, hn, hedit⟩ := h.dropped span hspan hdrops
  exact ⟨s, hs, hm.trans hn, hedit⟩

theorem Ends.statement {s} (h : (w.listed source s).Ends source root e es n)
    (hs : s.Within root) : ((w.enter s.span).visit source s).Ends source root e es s := by
  refine ⟨(w.draft_listed s).1.trans h.draft, fun _ hx => h.edits (edits_leave _ _ hx),
    fun span hspan hdrops => ?_⟩
  obtain rfl : s.span = span := by
    rw [(leads_visit _ s).statements] at hspan
    exact Option.some.inj hspan
  exact ⟨s, hs, .self, h.edits (dropped_leave hdrops)⟩

end Walk

/-! The code that a walk makes. -/

/-- A `this` has no parts, and the statements of a case stand in a list. -/
def Script.Tree.isGrammatical {α : Type} (t : Script.Tree α) : Bool :=
  t.every fun m => m.isListedCase && match m.kind with
    | .this => m.kids.isEmpty
    | _ => true

/-- A `this` in the code that is made of `root`, if there is one, is reported, or the statement in
which it stands is removed. -/
inductive ThisSettled (source : Source) (diagnostics : List Diagnostic) (es : List Edit)
    (root : Node) (q : Output) : Prop
  | other (h : q.kind ≠ .this)
  | reported (h : ReportsThis source diagnostics q.span.start)
  | removed {s m : Node} (hs : s.Within root) (hm : m.Within s) (hq : q = .untouched m)
      (h : ⟨source.statementRange s.span, []⟩ ∈ es)

section

variable {source : Source} {root : Node} {e : Draft} {es : List Edit}

variable {w : Walk} {n : Node}

/-- The callee of a deferred call is left as it stands, and the statement around it is removed. -/
theorem ThisSettled.of_besides {call} (hends : (w.defer source call).Ends source root e es call)
    (hhead : w.statements.head?.isSome) : ∀ p ∈ call.besides, ∀ k : Node, k.Within p →
      ThisSettled source e.diagnostics es root (.untouched k) := by
  intro p hp k hk
  obtain ⟨span, hspan⟩ := Option.isSome_iff_exists.1 hhead
  have hafter : (w.defer source call).statements.head? = some span := by
    rw [(Walk.leads_defer w call).statements, hspan]
  obtain ⟨s, hs, hcall, hedit⟩ := hends.dropped span hafter (Walk.drops_defer hspan call)
  exact .removed hs ((hk.trans (within_of_mem_besides hp)).trans hcall) rfl hedit

theorem ThisSettled.of_visit (hroot : root.isGrammatical) (hn : n.Within root)
    (hends : (w.visit source n).draft.Grows e) (hkind : n.kind = .this) :
    ∀ k : Node, k.Within n → ThisSettled source e.diagnostics es root (.untouched k) := by
  have hat := Bool.and_eq_true_iff.1 (hn.of_every hroot)
  obtain ⟨⟨⟩, kind, _, kids⟩ := n
  obtain rfl : kind = .this := hkind
  obtain rfl : kids = [] := by simpa using hat.2
  intro k hk
  cases hk with
  | self =>
    rw [Walk.visit_this] at hends
    refine .reported (hends.diagnostics ?_)
    simp [Walk.withDraft, Draft.report]
  | kid hmem => simp at hmem

theorem Walk.Ends.retraces (hroot : root.isGrammatical) :
    Walk.Retraces source e (fun k => ThisSettled source e.diagnostics es root (.untouched k))
      fun n w => n.Within root ∧ w.Ends source root e es n where
  draft h := h.2.draft
  before h hw hd := ⟨h.1, h.2.before hw hd⟩
  within h hm := ⟨hm.trans h.1, h.2.within hm⟩
  statement h hs := ⟨hs.trans h.1, h.2.statement (hs.trans h.1)⟩
  this h hkind := ThisSettled.of_visit hroot h.1 h.2.draft hkind
  besides h _ hhead := ThisSettled.of_besides h.2 hhead

/-- Every `this` in the code that a walk makes of a node is reported, or it is removed. -/
theorem Rewrites.all_settled (hroot : root.isGrammatical) {o}
    (h : Rewrites source w root o) (htied : w.draft.Tied)
    (hends : (w.visit source root).Ends source root e es root) :
    All (ThisSettled source e.diagnostics es root) o := by
  intro q hq
  cases h.allStem_of_retraces (Walk.Ends.retraces hroot) htied (.refl _) ⟨.self, hends⟩ q hq with
  | @kept w m os _ _ hp =>
    refine .other fun hkind => ?_
    simp [Walk.passes, show m.kind = .this from hkind] at hp
  | untouched _ h => exact h
  | @caseBody _ _ body _ hm =>
    refine .other fun hkind => ?_
    have hat := hm.of_every hroot
    simp [isListedCase, show body.kind = .this from hkind] at hat
  | frame h | glue h => exact .other (by rintro rfl; cases h)
  | name | assignment | gone => exact .other (by simp [Output.name, Output.assignment, Output.gone])
  | bag | next | word | bound | lines => exact .other (by simp)

theorem ThisSettled.imp {ds ds' q}
    (h : ThisSettled source ds es root q) (hds : ds ⊆ ds') : ThisSettled source ds' es root q := by
  cases h with
  | other hkind => exact .other hkind
  | reported hreport => exact .reported (hds hreport)
  | removed hs hm hq hedit => exact .removed hs hm hq hedit

end

/-! The codes of a component. -/

namespace Script.Tree

variable {α : Type}

/-- The parts of a node that are written into a component without a walk through them: the value of
an attribute that is no expression, the parameters of a callback, and a pattern in a pattern. -/
def unwalked (t : Script.Tree α) : List (Script.Tree α) :=
  t.transcribed ++ match t.kind, t.kids with
    | .patternProperty, [_, value] => [value]
    | _, _ => []

def holdsThis (t : Script.Tree α) : Bool :=
  t.any fun
    | .this => true
    | _ => false

end Script.Tree

/-- The policy that permits the nodes of a module, each in its place, the names that they spell and
cuts at their ends. -/
def Policy.ofModule (module : Node) : Policy where
  renders _ n := n.Within module
  visits _ n := n.Within module
  copies v := ∃ m : Node, m.Within module ∧ v ∈ m.unwalked
  methods _ := True
  takesItems := True
  names name := ∃ n : Node, n.Within module ∧ n.Calls name
  cuts offset := ∃ n : Node, n.Within module ∧ (offset = n.span.start ∨ offset = n.span.stop)
  renders_grows _ h := h
  visits_grows _ h := h
  renders_within hm h := hm.trans h
  visits_within hm h := hm.trans h
  visits_of_renders h := h
  renders_declaration h _ _ := h
  copies_value h := ⟨_, h, by simp [unwalked]⟩
  names_of_calls hn hcalls := ⟨_, hn, hcalls⟩
  cuts_of_visits hn := ⟨⟨_, hn, .inl rfl⟩, _, hn, .inr rfl⟩

theorem Transformation.ofModule_covers {files text options}
    (t : Transformation files text options) :
    (Policy.ofModule t.module).Covers t.source t.items t.component :=
  ⟨coversScript_of_permits ⟨fun h => h, fun hm _ hv => ⟨_, hm, List.mem_append_left _ hv⟩⟩ trivial
    fun _ _ => trivial, trivial⟩

namespace Code

def edits (source : Source) : Code → List Edit
  | .rendered w n => (w.visit source n).edits.edits
  | .deferred w call => (w.visits source call.arguments).edits.edits
  | .copied _ => []

/-- Every `this` in the code is reported, or the statement in which it stands is removed. -/
def SettlesThis (source : Source) (diagnostics : List Diagnostic) (c : Code) : Prop :=
  c.node.isGrammatical →
    c.Spells source (All (ThisSettled source diagnostics (c.edits source) c.node))

/-- The code is a part of the module that has a `this` in it and is written as it stands. -/
def CopiesThis (module : Node) (c : Code) : Prop :=
  ∃ m v : Node, m.Within module ∧ v ∈ m.unwalked ∧ v.holdsThis ∧ c = .copied v

variable {source : Source} {module : Node} {e : Draft}

theorem SettlesThis.imp {ds ds'} {c : Code} (h : c.SettlesThis source ds)
    (hds : ds ⊆ ds') : c.SettlesThis source ds' := by
  intro hgrammatical
  obtain ⟨o, hbecomes, hall, htext⟩ := h hgrammatical
  exact ⟨o, hbecomes, fun q hq => (hall q hq).imp hds, htext⟩

theorem settlesThis_rendered {w n} (hw : w = { draft := w.draft })
    (hknown : (rendered w n).KnownTo source e) :
    (rendered w n).SettlesThis source e.diagnostics := by
  intro hgrammatical
  refine spells fun o ho => Rewrites.all_settled hgrammatical ho hknown.1
    ⟨hknown.2, fun _ h => h, fun span hspan _ => ?_⟩
  rw [(Walk.leads_visit w _).statements, hw] at hspan
  simp at hspan

theorem settlesThis_copied {v} (hv : v.holdsThis = false) (ds : List Diagnostic) :
    (copied v).SettlesThis source ds := by
  intro _
  refine spells fun o ho => ?_
  obtain rfl := ho
  refine All.of_untouched fun k hk => .other fun hkind => ?_
  have hany : k.holdsThis := any_node_iff.2 (.inl (by simp [← Output.kind_untouched k, hkind]))
  simp [holdsThis, any_of_within hk hany] at hv

theorem settlesThis_or_copiesThis {c} (h : (Policy.ofModule module).Allows source e c) :
    c.SettlesThis source e.diagnostics ∨ c.CopiesThis module := by
  obtain ⟨hknown, hpermits⟩ := h
  cases c with
  | rendered w => exact .inl (settlesThis_rendered hpermits.1 hknown)
  | deferred => exact hpermits.elim
  | copied v =>
    obtain ⟨m, hm, hv⟩ := hpermits
    cases hthis : v.holdsThis with
    | true => exact .inr ⟨m, v, hm, hv, hthis, rfl⟩
    | false => exact .inl (settlesThis_copied hthis _)

end Code

/-- The script of a document, but for the code for manual review, and its markup are made of codes
that satisfy `A`; the tags are those of the module. -/
structure Document.MadeOf (source : Source) (module : Node) (A : Code → Prop)
    (document : Document) : Prop where
  functions : ∀ t ∈ document.script.functions, IsRoutine source A t
  reactive : ∀ t ∈ document.script.reactive, IsReaction source A (fun _ => True) t
  moduleCode : ∀ t ∈ document.script.moduleCode, IsModuleCode source A t
  declarations : ∀ x ∈ document.script.declarations, x.keyword ≠ .const →
    ∀ v ∈ x.value, v = "undefined" ∨ IsValue source A x.name v
  markup : document.markup = "" ∨ ∃ root nodes indent, root.Within module ∧
    Markup.Made source root A nodes ∧ Markup.Tagged source root nodes ∧ document.markup =
      String.ofList (Text.trimEnd (Text.reindent (Markup.writeAll nodes) indent []))

theorem Document.MadeOf.imp {source module} {A B : Code → Prop}
    {document : Document} (h : document.MadeOf source module A) (hA : ∀ c, A c → B c) :
    document.MadeOf source module B := by
  refine ⟨fun t ht => (h.functions t ht).imp hA,
    fun t ht => (h.reactive t ht).imp hA (fun _ h => h), fun t ht => (h.moduleCode t ht).imp hA,
    fun x hx hconst v hv => (h.declarations x hx hconst v hv).imp_right (·.imp hA),
    h.markup.imp_right ?_⟩
  rintro ⟨root, nodes, indent, hroot, hmade, htagged, htext⟩
  exact ⟨root, nodes, indent, hroot, Markup.everyNode_imp (fun _ ht => ht.imp hA)
    (fun _ ht => ht.imp hA) hmade, htagged, htext⟩

namespace Transformation

variable {files : FileSystem} {text : String} {options : Options}

theorem madeOf (t : Transformation files text options) : t.document.MadeOf t.source t.module
    ((Policy.ofModule t.module).Allows t.source t.collected) := by
  have hwritten := written t.ofModule_covers
  refine ⟨hwritten.functions, fun s hs => (hwritten.reactive s hs).imp (fun _ h => h)
    (fun _ _ => trivial), hwritten.moduleCode, hwritten.declarations, ?_⟩
  obtain ⟨-, ⟨root, hmarkup⟩, -⟩ :=
    yields_collectItems t.setting t.ofModule_covers Draft.tied_empty
  unfold document
  rw [(convertItems_run t.setting t.items t.component {}).1]
  rcases hmarkup with hempty | ⟨hshows, nodes, indent, hmade, htagged, htext⟩
  · rw [hempty]
    exact .inl rfl
  · rw [htext]
    exact .inr ⟨root, nodes, indent, (hshows root .self).1, hmade, htagged, rfl⟩

def outcome (text : String) : Option (Bool × String × List Diagnostic) :=
  (of? {} text {}).map fun t =>
    (t.module.isGrammatical, t.converted.code, t.converted.diagnostics)

end Transformation

end Sveltify
