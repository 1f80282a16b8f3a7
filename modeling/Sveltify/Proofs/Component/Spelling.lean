import Sveltify.Proofs.Component.SelfReferences
import Sveltify.Proofs.Script.Places
import Sveltify.Proofs.Source.Boundaries

/-! Where the names of variables are spelled, and where the source is cut: a step that registers a
variable takes its name from a node of the module, and one that cuts the source cuts it at the end of
a node or after the blanks that follow one. -/

namespace Sveltify

open Script (Node Kind)
open Script.Tree SymbolTable
open Draft (Change Run)

/-- The names of the variables and the offsets of the cuts are those that a policy permits. The name
of an element reference may also be the code of an attribute. -/
structure Draft.Named (source : Source) (p : Policy) (d : Draft) : Prop where
  props : ∀ name, d.symbols.isProp name → p.names name
  state : ∀ name, d.symbols.isState name → p.names name
  refs : ∀ name ∈ d.symbols.refs, p.names name ∨ Markup.isIdentifier name.toList
  constants : d.symbols.styleConstants = []
  cuts : ∀ offset ∈ d.cuts, p.mayCut source offset

section

variable {source : Source} {p : Policy} {d d' : Draft}

theorem Draft.named_empty : ({} : Draft).Named source p := by
  constructor <;> simp [isProp, isState, Symbol.known]

theorem Symbol.of_known_register {P : String → Prop} {name other value symbols} (hold : known name symbols → P name) (hnew : P other)
    (h : known name (register other value symbols)) : P name := by
  rw [known_register, Bool.or_eq_true, beq_iff_eq] at h
  rcases h with h | rfl
  · exact hold h
  · exact hnew

theorem Draft.Change.named (h : Change source p d d') (hd : d.Named source p) :
    d'.Named source p := by
  have hstate : ∀ name, Symbol.known name d.symbols.initialState ∨
      Symbol.known name d.symbols.state → p.names name := by
    simpa [isState] using hd.state
  obtain ⟨hprops, hall, hrefs, hconstants, hcuts⟩ := hd
  cases h with
  | prop hname =>
    exact ⟨fun name => Symbol.of_known_register (hprops name) hname, hall, hrefs, hconstants,
      hcuts⟩
  | initialState hname =>
    refine ⟨hprops, fun name h => ?_, hrefs, hconstants, hcuts⟩
    rcases Bool.or_eq_true_iff.1 h with h | h
    · exact Symbol.of_known_register (fun h => hstate name (.inl h)) hname h
    · exact hstate name (.inr h)
  | state hname =>
    refine ⟨hprops, fun name h => ?_, hrefs, hconstants, hcuts⟩
    rcases Bool.or_eq_true_iff.1 h with h | h
    · exact hstate name (.inl h)
    · exact Symbol.of_known_register (fun h => hstate name (.inr h)) hname h
  | @ref added hname =>
    have hsame : (d.symbols.addRef added).props = d.symbols.props ∧
        (d.symbols.addRef added).initialState = d.symbols.initialState ∧
        (d.symbols.addRef added).state = d.symbols.state ∧
        (d.symbols.addRef added).styleConstants = d.symbols.styleConstants ∧
        (d.symbols.addRef added).refs ⊆ d.symbols.refs ++ [added] := by
      unfold addRef
      split <;> exact ⟨rfl, rfl, rfl, rfl, by simp⟩
    obtain ⟨hsameProps, hsameInitial, hsameState, hsameConstants, hadded⟩ := hsame
    refine ⟨fun name h => hprops name ?_, fun name h => hall name ?_, fun name h => ?_,
      hsameConstants.trans hconstants, hcuts⟩
    · simpa [isProp, Draft.withSymbols, hsameProps] using h
    · simpa [isState, Draft.withSymbols, hsameInitial, hsameState] using h
    · rcases List.mem_append.1 (hadded h) with h | h
      · exact hrefs name h
      · exact List.mem_singleton.1 h ▸ hname
  | reactive =>
    obtain ⟨_, heq, -⟩ := d.exists_addReactive _
    exact heq ▸ ⟨hprops, hall, hrefs, hconstants, hcuts⟩
  | cut hoffsets =>
    refine ⟨hprops, hall, hrefs, hconstants, fun offset h => ?_⟩
    rcases List.mem_append.1 h with h | h
    · exact hoffsets offset h
    · exact hcuts offset h
  | _ => exact ⟨hprops, hall, hrefs, hconstants, hcuts⟩

theorem Draft.Run.named (h : Run source p d d') (hd : d.Named source p) : d'.Named source p := by
  induction h with
  | refl => exact hd
  | tail _ hstep ih => exact hstep.named ih

end

namespace Transformation

variable {files : FileSystem} {text : String} {options : Options}

theorem named (t : Transformation files text options) :
    t.collected.Named t.source (Policy.ofModule t.module) :=
  (run t.ofModule_covers).named Draft.named_empty

theorem placed_of_within (t : Transformation files text options) {n}
    (hn : n.Within t.module) : Script.Tree.Placed (Script.body text.toList) n := by
  have hreads := t.reads
  unfold readComponent at hreads
  split at hreads
  · next parsed hparsed =>
    obtain ⟨-, hmodule⟩ : parsed.faulty = false ∧ parsed.module = t.module := by
      split at hreads <;> simp_all
    exact Script.placed_of_parse hparsed (hmodule ▸ hn)
  · simp at hreads

end Transformation

end Sveltify
