import Sveltify.Proofs.Component.Stems
import Sveltify.Proofs.Provenance

/-! Names that generated code writes are declared. Whatever a walk writes in the place of a prop, a
state variable or a member of `this` is known then, and stays known; in the end every variable that
is known has a declaration, unless it is the prop that holds the children. -/

namespace Sveltify

open List
open Script (Node Kind)
open Script.Tree

/-- The code has the name of a variable in a place where the source has something else. -/
def Output.Writes (o : Output) (name : String) : Prop :=
  ∃ q : Output, q.Within o ∧ q.label = .word name.toList ∧ ∃ id, q.kind = .ident id

/-- The names of the methods of a class and of its fields that hold a function. -/
def ComponentSource.methodNames {α : Type} : ComponentSource α → List String
  | .ofMembers members => members.filterMap methodName?
  | .function _ _ => []

variable {name : String} {n : Node}

theorem knows_of_writes {source d e} {U : Node → Prop} {o}
    (h : AllStem source d e U n o) (hname : o.Writes name) : e.Knows name := by
  obtain ⟨q, hq, hlabel, _, hkind⟩ := hname
  have hstem := h q hq
  cases hstem with
  | name =>
    have heq : String.toList _ = name.toList := Layout.word.inj hlabel
    rwa [← String.toList_inj.1 heq]
  | bag =>
    have heq : String.toList _ = name.toList := Layout.word.inj hlabel
    exact .inr (.inr (by simp [freeNames, ← String.toList_inj.1 heq]))
  | untouched => simp [Output.label_untouched] at hlabel
  | word | bound => simp at hkind
  | _ => simp [label, Output.assignment, Output.gone] at hlabel

/-! Every variable that is known is declared. -/

theorem Symbol.exists_of_known {symbols} (h : known name symbols) :
    ∃ s ∈ symbols, s.name = name := by
  simpa [known] using h

variable {x : Declaration}

theorem Declaration.mem_distinct_iff {seen xs} :
    x ∈ distinct seen xs ↔ x.name ∉ seen ∧ xs.find? (·.name == x.name) = some x := by
  induction xs generalizing seen with
  | nil => simp [distinct]
  | cons first _ ih =>
    rw [distinct]
    by_cases hname : first.name = x.name
    · by_cases hseen : first.name ∈ seen
      · rw [if_pos (contains_iff_mem.2 hseen), ih]
        simp [hname ▸ hseen]
      · rw [if_neg (by simpa using hseen), mem_cons, ih]
        simpa [hname, eq_comm] using fun _ => hname ▸ hseen
    · have hne : x ≠ first := fun h => hname (h ▸ rfl)
      have hne' : x.name ≠ first.name := fun h => hname h.symm
      by_cases hseen : first.name ∈ seen
      · rw [if_pos (contains_iff_mem.2 hseen), ih]
        simp [hname]
      · rw [if_neg (by simpa using hseen), mem_cons, ih]
        simp [hname, hne, hne']

theorem Declaration.exists_mem_distinct {seen xs} (hx : x ∈ xs)
    (hseen : x.name ∉ seen) : ∃ y ∈ distinct seen xs, y.name = x.name := by
  have hsome : (xs.find? (·.name == x.name)).isSome := find?_isSome.2 ⟨x, hx, by simp⟩
  obtain ⟨y, hy⟩ := Option.isSome_iff_exists.1 hsome
  have hname : y.name = x.name := by simpa using find?_some hy
  exact ⟨y, mem_distinct_iff.2 ⟨hname ▸ hseen, hname ▸ hy⟩, hname⟩

namespace SymbolTable

variable {t : SymbolTable} {name : String}

def declaredNames (t : SymbolTable) : List String :=
  (t.propDeclarations ++ t.internalDeclarations).map (·.name)

theorem mem_declaredNames_of_prop (h : t.isProp name) : name ∈ t.declaredNames := by
  obtain ⟨s, hs, rfl⟩ := Symbol.exists_of_known h
  have hmem : (⟨.exportLet, s.name, some (s.value.getD "undefined")⟩ : Declaration) ∈
      t.propDeclarations :=
    Declaration.mem_sort.2 (mem_map_of_mem (f := fun p : Symbol => _) hs)
  exact mem_map.2 ⟨_, mem_append_left _ hmem, rfl⟩

theorem mem_declaredNames_of_candidate (h : x ∈ t.internalCandidates) :
    x.name ∈ t.declaredNames := by
  by_cases hprop : x.name ∈ t.props.map (·.name)
  · obtain ⟨s, hs, hname⟩ := mem_map.1 hprop
    refine mem_declaredNames_of_prop (any_eq_true.2 ⟨s, hs, ?_⟩)
    simp [hname]
  · obtain ⟨y, hy, hname⟩ := Declaration.exists_mem_distinct h hprop
    exact mem_map.2 ⟨y, mem_append_right _ (Declaration.mem_sort.2 hy), hname⟩

theorem mem_declaredNames (h : t.contains name) : name ∈ t.declaredNames := by
  simp only [contains, isState, Bool.or_eq_true] at h
  rcases h with (hprop | href) | hinitial | hstate
  · exact mem_declaredNames_of_prop hprop
  · have hmem : (⟨.let, name, none⟩ : Declaration) ∈ t.internalCandidates := by
      simp only [internalCandidates, mem_append, mem_map]
      exact .inl (.inr ⟨name, contains_iff_mem.1 href, rfl⟩)
    exact mem_declaredNames_of_candidate hmem
  · obtain ⟨s, hs, rfl⟩ := Symbol.exists_of_known hinitial
    have hmem : (⟨.let, s.name, s.value⟩ : Declaration) ∈ t.internalCandidates := by
      simp only [internalCandidates, mem_append, mem_map]
      exact .inl (.inl (.inr ⟨s, hs, rfl⟩))
    exact mem_declaredNames_of_candidate hmem
  · obtain ⟨s, hs, rfl⟩ := Symbol.exists_of_known hstate
    have hmem : (⟨.let, s.name, s.value⟩ : Declaration) ∈ t.internalCandidates := by
      simp only [internalCandidates, mem_append, mem_map]
      exact .inr ⟨s, hs, rfl⟩
    exact mem_declaredNames_of_candidate hmem

end SymbolTable

theorem Draft.Finishes.contains {d final : Draft} (h : d.Finishes final)
    (hname : d.symbols.contains name) :
    final.symbols.contains name ∨ (name = "children" ∧ d.dropsChildren) := by
  simp only [SymbolTable.contains, SymbolTable.isState, SymbolTable.isRef, SymbolTable.isProp,
    h.refs, h.initialState, h.state, h.props, Bool.or_eq_true] at hname ⊢
  by_cases hdrops : d.dropsChildren
  · by_cases hchildren : name = "children"
    · exact .inr ⟨hchildren, hdrops⟩
    · refine .inl (hname.imp_left (Or.imp_left fun hprop => ?_))
      obtain ⟨s, hs, hs'⟩ := any_eq_true.1 hprop
      rw [settled, if_pos hdrops]
      have hkept : s.name ≠ "children" := by
        rw [beq_iff_eq.1 hs']
        exact hchildren
      exact any_eq_true.2 ⟨s, mem_filter.2 ⟨hs, by simpa using hkept⟩, hs'⟩
  · rw [settled, if_neg hdrops]
    exact .inl hname

/-! Policies that permit all nodes of a module. -/

/-- Every node of the module may become code, and what stands in markup as it is may be copied. -/
structure Policy.Permits (p : Policy) (module : Node) : Prop where
  renders : ∀ {d : Draft} {n : Node}, n.Within module → p.renders d n
  copies : ∀ {m : Node}, m.Within module → ∀ v ∈ m.transcribed, p.copies v

namespace Policy.Permits

variable {p : Policy} {module : Node} {source : Source} {d : Draft}

theorem admits (h : p.Permits module) (hn : n.Within module) :
    p.Admits source d (Part.ofNode source n) :=
  ⟨n, rfl, h.renders hn⟩

theorem shows (h : p.Permits module) (hn : n.Within module) : p.Shows d n := by
  intro m hm
  have hwithin := hm.trans hn
  exact ⟨p.visits_of_renders (h.renders hwithin), fun _ => h.renders hwithin,
    fun e he => h.renders ((within_of_mem_embedded he).trans hwithin), h.copies hwithin⟩

theorem converts (h : p.Permits module) {component item}
    (hitem : item.Within module) (hof : component.Of (Part.ofNode source item))
    (hmethods : ∀ name ∈ component.methodNames, p.methods name) : p.Converts source component := by
  have hadmits : ∀ {part whole : Part} {e : Draft}, whole ∈ component.parts → part.Within whole →
      p.Admits source e part := by
    intro part whole e hwhole hpart
    obtain ⟨n, hn, rfl⟩ := hof.exists_within hwhole hpart
    exact h.admits (hn.trans hitem)
  have hshows : ∀ {part whole : Part} {e : Draft}, whole ∈ component.parts → part.Within whole →
      ∃ n, part = Part.ofNode source n ∧ p.Shows e n := by
    intro part _ e hwhole hpart
    obtain ⟨n, hn, rfl⟩ := hof.exists_within hwhole hpart
    exact ⟨n, rfl, h.shows (hn.trans hitem)⟩
  cases component with
  | ofMembers members =>
    refine .members (fun m hm name hname => ?_) (fun e _ m hm => .inl (hadmits hm .self))
      fun e _ part hpart => ?_
    · exact hmethods name (mem_filterMap.2 ⟨m, hm, hname⟩)
    · obtain ⟨_, hmember, hwithin⟩ := hpart.within
      exact hshows hmember hwithin
  | function params body =>
    have hbody : body ∈ (ComponentSource.function params body).parts := mem_cons_self
    refine .function (fun q hq e => ?_) (fun _ ds hds e _ q hq => ?_)
      (fun _ e _ s hs => .inl (hadmits hbody (.kid hs .self)))
      fun e _ part hpart => hshows hbody hpart.within
    · exact hadmits (mem_cons_of_mem _ (mem_of_head? hq)) .self
    · obtain ⟨s, hs, hds⟩ := mem_filterMap.1 hds
      obtain ⟨rfl, -⟩ := kids_of_hookDeclarators? hds
      exact hadmits hbody (.kid hs (.kid hq .self))

end Policy.Permits

section

variable {source : Source} {d : Draft} {methods : String → Prop} {takesItems : Prop}

theorem free_permits (module : Node) : (Policy.free methods takesItems).Permits module :=
  ⟨fun _ => trivial, fun _ _ _ => trivial⟩

theorem free_admits (n : Node) :
    (Policy.free methods takesItems).Admits source d (Part.ofNode source n) :=
  (free_permits n).admits .self

theorem free_converts {component item} (hof : component.Of (Part.ofNode source item)) :
    (Policy.free (· ∈ component.methodNames) takesItems).Converts source component :=
  (free_permits item).converts .self hof fun _ h => h

end

namespace Transformation

variable {files : FileSystem} {text : String} {options : Options}

variable {t : Transformation files text options}

theorem coversScript_of_permits {p : Policy} (h : p.Permits t.module) (hitems : p.takesItems)
    (hmethods : ∀ name ∈ t.component.source.methodNames, p.methods name) :
    p.CoversScript t.source t.items t.component := by
  have hnode : ∀ item ∈ t.items, ∃ n : Node, n.Within t.module ∧ item = Part.ofNode t.source n := by
    intro item hitem
    obtain ⟨n, hn, rfl⟩ := mem_map.1 hitem
    exact ⟨n, .kid hn .self, rfl⟩
  have hadmits : ∀ item ∈ t.items, p.Admits t.source {} item := by
    intro item hitem
    obtain ⟨n, hn, rfl⟩ := hnode item hitem
    exact h.admits hn
  obtain ⟨item, hitem, hof⟩ := of_locateComponent? t.locates
  obtain ⟨n, hn, rfl⟩ := hnode item hitem
  exact ⟨fun item hitem _ => hadmits item hitem,
    fun item hitem _ => .inl (hadmits item.1 ((mem_zipIdx' hitem).2 ▸ getElem_mem _)),
    h.converts hn hof hmethods, hitems⟩

theorem free_covers (t : Transformation files text options) :
    (Policy.free (· ∈ t.component.source.methodNames) True).Covers t.source t.items t.component :=
  ⟨coversScript_of_permits (free_permits _) trivial fun _ h => h, trivial⟩

/-- A name that the generated component may write: it is declared in the variable block, is the
name of a method, needs no declaration, or is that of the children when their prop is forgotten. -/
def Provides (t : Transformation files text options) (name : String) : Prop :=
  name ∈ t.document.script.declarations.map (·.name) ∨ name ∈ t.component.source.methodNames ∨
    name ∈ freeNames ∨ (name = "children" ∧ t.collected.dropsChildren)

theorem provides_of_contains {name : String} (h : t.collected.symbols.contains name) :
    t.Provides name := by
  rcases t.finishes.contains h with hfinal | hchildren
  · exact .inl (SymbolTable.mem_declaredNames hfinal)
  · exact .inr (.inr (.inr hchildren))

theorem provides_of_knows {name} (h : t.collected.Knows name) : t.Provides name := by
  rcases h with hknown | hmethod | hfree
  · exact provides_of_contains hknown
  · exact .inr (.inl ((sourced t.free_covers).methods name hmethod))
  · exact .inr (.inr (.inl hfree))

end Transformation

end Sveltify
