import Sveltify.Proofs.Component.Closure

/-! The variable block of a generated script. Every name that is registered is declared there once: a
prop as a prop, whatever else it is, and any other name by the first of its registrations. -/

namespace Sveltify

open List
open Draft (Change Run)
open Declaration Symbol

/-! Names of symbols. -/

theorem Symbol.known_iff {name symbols} :
    known name symbols ↔ name ∈ symbols.map (·.name) := by
  simp [known]

theorem Symbol.map_name_register (name : String) (value : Option String) (symbols : List Symbol) :
    (register name value symbols).map (·.name) =
      if name ∈ symbols.map (·.name) then symbols.map (·.name)
      else symbols.map (·.name) ++ [name] := by
  induction symbols with
  | nil => rfl
  | cons s rest ih =>
    rw [register]
    by_cases hname : s.name = name
    · have hkept : (if s.value.isNone then (⟨s.name, value⟩ : Symbol) else s).name = name := by
        split <;> exact hname
      rw [if_pos (beq_iff_eq.2 hname), map_cons, hkept, map_cons, hname]
      simp
    · have hother : name ≠ s.name := fun h => hname h.symm
      by_cases hmem : name ∈ rest.map (·.name)
      · simp [hname, ih, hmem]
      · simp [hname, ih, hother, hmem]

theorem Symbol.nodup_register {name value symbols}
    (h : (symbols.map (·.name)).Nodup) : ((register name value symbols).map (·.name)).Nodup := by
  rw [map_name_register]
  split
  · exact h
  · next hnew =>
    refine nodup_append.2 ⟨h, by simp, fun a ha b hb => ?_⟩
    obtain rfl := mem_singleton.1 hb
    exact fun heq => hnew (heq ▸ ha)

/-! Steps register a symbol once. -/

/-- The props share no name, and neither do the state variables. -/
structure SymbolTable.Distinct (t : SymbolTable) : Prop where
  props : (t.props.map (·.name)).Nodup
  state : (t.state.map (·.name)).Nodup

section

variable {source : Source} {p : Policy} {d d' : Draft}

theorem Draft.Change.distinct (h : Change source p d d') (hd : d.symbols.Distinct) :
    d'.symbols.Distinct := by
  cases h with
  | prop => exact ⟨nodup_register hd.props, hd.state⟩
  | state => exact ⟨hd.props, nodup_register hd.state⟩
  | initialState => exact ⟨hd.props, hd.state⟩
  | @ref name =>
    have hsame : (d.symbols.addRef name).props = d.symbols.props ∧
        (d.symbols.addRef name).state = d.symbols.state := by
      unfold SymbolTable.addRef
      split <;> exact ⟨rfl, rfl⟩
    exact ⟨hsame.1 ▸ hd.props, hsame.2 ▸ hd.state⟩
  | reactive =>
    obtain ⟨_, heq, -⟩ := d.exists_addReactive _
    exact heq ▸ hd
  | _ => exact hd

theorem Draft.Run.distinct (h : Run source p d d') (hd : d.symbols.Distinct) :
    d'.symbols.Distinct := by
  induction h with
  | refl => exact hd
  | tail _ hstep ih => exact hstep.distinct ih

theorem Draft.Finishes.distinct {final} (h : d.Finishes final)
    (hd : d.symbols.Distinct) : final.symbols.Distinct := by
  refine ⟨?_, h.state ▸ hd.state⟩
  rw [h.props]
  unfold settled
  split
  · exact hd.props.sublist (filter_sublist.map _)
  · exact hd.props

end

/-! Declarations. -/

namespace Declaration

theorem sort_perm (xs : List Declaration) : (sort xs).Perm xs :=
  mergeSort_perm xs _

theorem nodup_distinct (seen : List String) (xs : List Declaration) :
    ((distinct seen xs).map (·.name)).Nodup := by
  induction xs generalizing seen with
  | nil => simp [distinct]
  | cons _ _ ih =>
    rw [distinct]
    split
    · exact ih seen
    · refine nodup_cons.2 ⟨fun hmem => ?_, ih _⟩
      obtain ⟨x, hx, hname⟩ := mem_map.1 hmem
      exact (mem_distinct_iff.1 hx).1 (by simp [hname])

end Declaration

namespace SymbolTable

variable (t : SymbolTable)

theorem nodup_declaredNames (h : (t.props.map (·.name)).Nodup) : t.declaredNames.Nodup := by
  have hprops : (t.propDeclarations.map (·.name)).Perm (t.props.map (·.name)) := by
    refine ((sort_perm _).map _).trans ?_
    simp [Function.comp_def]
  have hinternal := (sort_perm
    (distinct (t.props.map (·.name)) t.internalCandidates)).map (·.name)
  rw [declaredNames, map_append]
  refine nodup_append.2 ⟨hprops.nodup_iff.2 h,
    hinternal.nodup_iff.2 (nodup_distinct _ _), ?_⟩
  rintro _ hname _ hother rfl
  obtain ⟨x, hx, rfl⟩ := mem_map.1 (hinternal.mem_iff.1 hother)
  exact (mem_distinct_iff.1 hx).1 (hprops.mem_iff.1 hname)

/-- A declaration is that of a prop, or the first registration of a name that is no prop. -/
theorem mem_declarations_iff {x} :
    x ∈ t.propDeclarations ++ t.internalDeclarations ↔
      (∃ s ∈ t.props, x = ⟨.exportLet, s.name, some (s.value.getD "undefined")⟩) ∨
      (t.isProp x.name = false ∧ t.internalCandidates.find? (·.name == x.name) = some x) := by
  have hprop : t.isProp x.name = false ↔ x.name ∉ t.props.map (·.name) := by
    rw [← known_iff, Bool.not_eq_true]
    rfl
  rw [mem_append, propDeclarations, internalDeclarations, mem_sort,
    mem_sort, mem_distinct_iff, hprop]
  simp [eq_comm]

theorem mem_declaredNames_iff {name} :
    name ∈ t.declaredNames ↔ t.contains name ∨ name ∈ t.styleConstants.map (·.1) := by
  constructor
  · intro h
    obtain ⟨x, hx, rfl⟩ := mem_map.1 h
    rcases t.mem_declarations_iff.1 hx with ⟨s, hs, rfl⟩ | ⟨-, hfind⟩
    · have hprop : t.isProp s.name := known_iff.2 (mem_map_of_mem hs)
      exact .inl (by simp [contains, hprop])
    · have hmem := mem_of_find?_eq_some hfind
      simp only [internalCandidates, mem_append, mem_map] at hmem
      rcases hmem with ((⟨entry, hentry, rfl⟩ | ⟨s, hs, rfl⟩) | ⟨name, hname, rfl⟩) | ⟨s, hs, rfl⟩
      · exact .inr (mem_map_of_mem hentry)
      · have hstate : known s.name t.initialState := known_iff.2 (mem_map_of_mem hs)
        exact .inl (by simp [contains, isState, hstate])
      · have href : t.isRef name := contains_iff_mem.2 hname
        exact .inl (by simp [contains, href])
      · have hstate : known s.name t.state := known_iff.2 (mem_map_of_mem hs)
        exact .inl (by simp [contains, isState, hstate])
  · rintro (h | h)
    · exact mem_declaredNames h
    · obtain ⟨entry, hentry, rfl⟩ := mem_map.1 h
      have hmem : (⟨.const, entry.1, some s!"'{entry.2}'"⟩ : Declaration) ∈ t.internalCandidates := by
        simp only [internalCandidates, mem_append, mem_map]
        exact .inl (.inl (.inl ⟨entry, hentry, rfl⟩))
      exact mem_declaredNames_of_candidate hmem

theorem keyword_ne_exportLet {x} (h : x ∈ t.internalCandidates) :
    x.keyword ≠ .exportLet := by
  simp only [internalCandidates, mem_append, mem_map] at h
  rcases h with ((⟨_, -, rfl⟩ | ⟨s, -, rfl⟩) | ⟨_, -, rfl⟩) | ⟨s, -, rfl⟩ <;> simp

end SymbolTable

theorem Transformation.distinct {files text options}
    (t : Transformation files text options) : t.draft.symbols.Distinct :=
  t.finishes.distinct ((run t.free_covers).distinct ⟨by simp, by simp⟩)

/-- The variable block declares every name that is registered, and declares it once. A name that is a
prop is declared as one, also if it is state, a reference or a style constant as well; any other name
gets the first of its registrations. -/
theorem Transformation.variables_declared_once {files : FileSystem} {text : String}
    {options : Options} (t : Transformation files text options) :
    (t.document.script.declarations.map (·.name)).Nodup ∧
    (∀ name, name ∈ t.document.script.declarations.map (·.name) ↔
      t.draft.symbols.contains name ∨ name ∈ t.draft.symbols.styleConstants.map (·.1)) ∧
    ∀ x ∈ t.document.script.declarations,
      (x.keyword = .exportLet ↔ t.draft.symbols.isProp x.name) ∧
      (t.draft.symbols.isProp x.name = false →
        t.draft.symbols.internalCandidates.find? (·.name == x.name) = some x) := by
  refine ⟨t.draft.symbols.nodup_declaredNames t.distinct.props,
    fun name => t.draft.symbols.mem_declaredNames_iff, fun x hx => ?_⟩
  rcases t.draft.symbols.mem_declarations_iff.1 hx with ⟨s, hs, rfl⟩ | ⟨hprop, hfind⟩
  · have hprop : t.draft.symbols.isProp s.name := Symbol.known_iff.2 (List.mem_map_of_mem hs)
    exact ⟨by simp [hprop], by simp [hprop]⟩
  · have hkeyword := t.draft.symbols.keyword_ne_exportLet (List.mem_of_find?_eq_some hfind)
    exact ⟨by simp [hkeyword, hprop], fun _ => hfind⟩

/-- A name that is read as a prop and as state: both become one variable, and nothing is reported. -/
theorem Transformation.prop_and_state_merge_unreported :
    (Transformation.of? {} ("class A extends React.Component \x7b state = \x7b n: 1 \x7d; " ++
      "render() \x7b return <p>\x7bthis.props.n\x7d\x7bthis.state.n\x7d</p>; \x7d \x7d")
      {}).map (fun t => (t.document.script.declarations.map (·.line), t.document.markup,
        t.converted.diagnostics)) =
        some (["export let n = undefined;"], "<p>\x7bn\x7d\x7bn\x7d</p>", []) := by
  decide +kernel

end Sveltify
