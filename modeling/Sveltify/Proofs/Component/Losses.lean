import Sveltify.Proofs.Component.Names

/-! Bindings of a component that a conversion does not keep as code. A name that a dropped declaration
or a parameter binds is a variable, the setter of one, the target of a reactive statement, or reported,
apart from `lostNames`; a statement of the constructor has an effect on the variables or is left over.
What is known of the names at the end of a conversion is in the generated component. -/

namespace Sveltify

open List
open Script (Node)
open Script.Tree
open Conversion

/-! Declarations in code. -/

/-- A statement that may be dropped from code: it declares no name that is lost but `lostNames`, is an
update that changes nothing, or stands in a block for manual review. -/
inductive Draft.Excuses (source : Source) (d : Draft) (m : Node) : Prop
  | declaration {word : String} (hkind : m.kind = .variableDecl word)
      (h : ∀ q ∈ (Part.ofNode source m).kids, d.Binds source q q.boundNames q.lostNames)
  | update {call : Node} {u : Visit.Update Unit} (hcall : call.Within m)
      (h : Visit.isUpdateCall call) (hu : Visit.update? call.arguments = some u)
      (hentries : u.entries = []) (hcallback : u.callback = none)
  | review {reason code : String} (h : d.Reviews source reason code m.span.start)

section

variable {source : Source} {e : Draft}

theorem binds_of_consumes {m word} {w : Walk} (htied : w.draft.Tied)
    (hkind : m.kind = .variableDecl word) (h : Walk.consumes w.draft.scope m.kids)
    (he : (w.visit source m).draft.Grows e) :
    ∀ q ∈ (Part.ofNode source m).kids, e.Binds source q q.boundNames q.lostNames := by
  obtain ⟨⟨⟩, kind, _, kids⟩ := m
  obtain rfl : kind = .variableDecl word := hkind
  rw [kids_node] at h
  rw [Walk.visit_consumed h] at he
  have hadmits : ∀ q ∈ kids.map (Part.ofNode source),
      (Policy.free (fun _ => True) True).Admits source w.draft q := by
    intro q hq
    obtain ⟨n, -, rfl⟩ := mem_map.1 hq
    exact free_admits n
  have hbinds := (yields_consumeDeclaration (fun _ => hadmits) htied).2.2
  have hrun : (consumeDeclaration source (kids.map (Part.ofNode source))).run w.draft =
      (true, Walk.registered source w.draft kids) :=
    (Walk.consumeDeclaration_run w.draft kids).trans (if_pos h)
  rw [hrun] at hbinds
  intro q hq
  rw [Part.ofNode, relabel_node] at hq
  exact (hbinds rfl q hq).grows ((Draft.grows_cut _ _).trans he)

theorem Dropped.excuses {range} {n : Node} (h : Dropped source e n range) :
    ∃ m : Node, m.Within n ∧ range = source.statementRange m.span ∧ e.Excuses source m := by
  cases h with
  | declaration hm htied hkind hconsumes he =>
    exact ⟨_, hm, rfl, .declaration hkind (binds_of_consumes htied hkind hconsumes he)⟩
  | update hm hcall h hu hentries hcallback =>
    exact ⟨_, hm, rfl, .update hcall h hu hentries hcallback⟩
  | review hm h => exact ⟨_, hm, rfl, .review h⟩

theorem excuses_of_gone {d} {U : Node → Prop} {n range} {o q : Output}
    (h : AllStem source d e U n o) (hq : q.Within o) (hlabel : q.label = .gone range) :
    ∃ m : Node, m.Within n ∧ range = source.statementRange m.span ∧ e.Excuses source m := by
  have hstem := h q hq
  cases hstem with
  | gone hdropped =>
    obtain rfl := Layout.gone.inj hlabel
    exact hdropped.excuses
  | untouched => simp [Output.label_untouched] at hlabel
  | _ => simp [label, Output.name, Output.assignment] at hlabel

end

/-! The variable block. -/

namespace SymbolTable

variable {t : SymbolTable}

/-- A name is declared as something else than a state variable with a value of its own. -/
def preempts (t : SymbolTable) (name : String) : Bool :=
  t.isProp name || t.styleConstants.any (·.1 == name) || Symbol.known name t.initialState ||
    t.isRef name

theorem mem_declarations_of_state (h : t.Distinct) {s} (hs : s ∈ t.state) :
    ⟨.let, s.name, s.value⟩ ∈ t.propDeclarations ++ t.internalDeclarations ∨ t.preempts s.name := by
  by_cases hpreempts : t.preempts s.name
  · exact .inr hpreempts
  simp only [preempts, Bool.not_eq_true, Bool.or_eq_false_iff] at hpreempts
  obtain ⟨⟨⟨hprop, hconstant⟩, hinitial⟩, href⟩ := hpreempts
  refine .inl (t.mem_declarations_iff.2 (.inr ⟨hprop, ?_⟩))
  have hstate : t.state.find? (·.name == s.name) = some s := by
    have hsome : (t.state.find? (·.name == s.name)).isSome := find?_isSome.2 ⟨s, hs, by simp⟩
    obtain ⟨s', hs'⟩ := Option.isSome_iff_exists.1 hsome
    have hname : s'.name = s.name := by simpa using find?_some hs'
    rw [hs', inj_on_of_nodup_map h.state (mem_of_find?_eq_some hs') hs hname]
  rw [internalCandidates, find?_append, find?_eq_none.2, find?_map]
  · exact congrArg (Option.map _) hstate
  intro x hx hname
  obtain hname : x.name = s.name := by simpa using hname
  rcases mem_append.1 hx with hx | hx
  · rcases mem_append.1 hx with hx | hx
    · obtain ⟨entry, hentry, rfl⟩ := mem_map.1 hx
      exact any_eq_false.1 hconstant entry hentry (beq_iff_eq.2 hname)
    · obtain ⟨initial, hmem, rfl⟩ := mem_map.1 hx
      exact any_eq_false.1 hinitial initial hmem (beq_iff_eq.2 hname)
  · obtain ⟨name, hmem, rfl⟩ := mem_map.1 hx
    obtain rfl : name = s.name := hname
    simp [isRef, hmem] at href

end SymbolTable

namespace Transformation

variable {files : FileSystem} {text : String} {options : Options}

/-- What is known when the markup has been built is in the generated component. -/
structure Publishes (t : Transformation files text options) : Prop where
  declares : ∀ name, t.collected.symbols.contains name →
    name ∈ t.document.script.declarations.map (·.name) ∨
      (name = "children" ∧ t.collected.dropsChildren)
  values : ∀ s ∈ t.collected.symbols.state,
    ⟨.let, s.name, s.value⟩ ∈ t.document.script.declarations ∨ t.draft.symbols.preempts s.name
  reactive : t.document.script.reactive = t.collected.reactive
  reviewBlocks : t.document.script.reviewBlocks = t.collected.reviewBlocks
  diagnostics : t.collected.diagnostics ⊆ t.converted.diagnostics

theorem publishes (t : Transformation files text options) : t.Publishes where
  declares _ h := (t.finishes.contains h).imp_left SymbolTable.mem_declaredNames
  values _ hs := SymbolTable.mem_declarations_of_state t.distinct (t.finishes.state ▸ hs)
  reactive := t.finishes.reactive
  reviewBlocks := t.finishes.reviewBlocks
  diagnostics _ hx := mem_append_right _ (t.finishes.diagnostics hx)

end Transformation

end Sveltify
