import Sveltify.Proofs.Markup.Sourcing

/-! Where the texts of a generated component come from. The steps of a conversion keep every text of
the draft made of codes that the policy permits, and the last steps only drop a prop and declare the
constants of the style module. So the same holds of the document. -/

namespace Sveltify

open List
open Script (Node)
open Script.Tree ComponentSource Source Part
open Draft (Change Run)

/-! Drafts. -/

/-- Every text of a draft is made of codes that the policy permits. -/
structure Draft.Sourced (source : Source) (p : Policy) (d : Draft) : Prop where
  functions : ∀ t ∈ d.functions, IsRoutine source (p.Allows source d) t
  reactive : ∀ t ∈ d.reactive, IsReaction source (p.Allows source d) (d.symbols.isProp ·) t
  moduleCode : ∀ t ∈ d.moduleCode, IsModuleCode source (p.Allows source d) t
  props : ∀ s ∈ d.symbols.props, ∀ v ∈ s.value, IsValue source (p.Allows source d) s.name v
  initialState : ∀ s ∈ d.symbols.initialState, ∀ v ∈ s.value,
    IsValue source (p.Allows source d) s.name v
  state : ∀ s ∈ d.symbols.state, ∀ v ∈ s.value, IsValue source (p.Allows source d) s.name v
  reviews : ∀ b ∈ d.reviewBlocks, IsReview source (Code.KnownTo source d) b.code
  methods : ∀ name ∈ d.scope.methods, p.methods name

section

variable {source : Source} {p : Policy} {d d' : Draft}

theorem Symbol.mem_register {name value symbols s} (h : s ∈ register name value symbols) :
    s ∈ symbols ∨ (s.name = name ∧ s.value = value) := by
  induction symbols with
  | nil => exact .inr (by simp [mem_singleton.1 h])
  | cons _ _ ih =>
    rw [register] at h
    split at h
    · next hname =>
      obtain rfl | hmem := mem_cons.1 h
      · split
        · exact .inr ⟨by simpa using hname, rfl⟩
        · exact .inl (by simp)
      · exact .inl (mem_cons_of_mem _ hmem)
    · obtain rfl | hmem := mem_cons.1 h
      · exact .inl (by simp)
      · exact (ih hmem).imp_left (mem_cons_of_mem _)

theorem IsValue.of_register {A : Code → Prop} {name value symbols} (hold : ∀ s ∈ symbols, ∀ v ∈ s.value, IsValue source A s.name v)
    (hnew : ∀ v ∈ value, IsValue source A name v) :
    ∀ s ∈ Symbol.register name value symbols, ∀ v ∈ s.value, IsValue source A s.name v := by
  intro s hs v hv
  rcases Symbol.mem_register hs with hs | ⟨rfl, rfl⟩
  · exact hold s hs v hv
  · exact hnew v hv

theorem Draft.Sourced.later (h : d.Sourced source p) (hd : d.Grows d') :
    (∀ t ∈ d.functions, IsRoutine source (p.Allows source d') t) ∧
    (∀ t ∈ d.reactive, IsReaction source (p.Allows source d') (d'.symbols.isProp ·) t) ∧
    (∀ t ∈ d.moduleCode, IsModuleCode source (p.Allows source d') t) ∧
    (∀ s ∈ d.symbols.props, ∀ v ∈ s.value, IsValue source (p.Allows source d') s.name v) ∧
    (∀ s ∈ d.symbols.initialState, ∀ v ∈ s.value,
      IsValue source (p.Allows source d') s.name v) ∧
    (∀ s ∈ d.symbols.state, ∀ v ∈ s.value, IsValue source (p.Allows source d') s.name v) ∧
    (∀ b ∈ d.reviewBlocks, IsReview source (Code.KnownTo source d') b.code) := by
  have hA : ∀ c, p.Allows source d c → p.Allows source d' c := fun _ hc => hc.grows hd
  exact ⟨fun t ht => (h.functions t ht).imp hA,
    fun t ht => (h.reactive t ht).imp hA hd.symbols.props,
    fun t ht => (h.moduleCode t ht).imp hA,
    fun s hs v hv => (h.props s hs v hv).imp hA,
    fun s hs v hv => (h.initialState s hs v hv).imp hA,
    fun s hs v hv => (h.state s hs v hv).imp hA,
    fun b hb => (h.reviews b hb).imp fun _ hc => hc.grows hd⟩

theorem Draft.exists_addReactive (d : Draft) (text : String) :
    ∃ statements, d.addReactive text = { d with reactive := statements } ∧
      ∀ t ∈ statements, t ∈ d.reactive ∨ t = text := by
  unfold addReactive
  split
  · exact ⟨d.reactive, rfl, fun t ht => .inl ht⟩
  · exact ⟨_, rfl, by simp⟩

theorem Draft.Change.sourced (h : Change source p d d') (hd : d.Sourced source p) :
    d'.Sourced source p := by
  have hgrows := h.grows
  have hA : ∀ c, p.Allows source d c → p.Allows source d' c := fun _ hc => hc.grows hgrows
  obtain ⟨hfunctions, hreactive, hmodule, hprops, hinitial, hstate, hreviews⟩ := hd.later hgrows
  cases h with
  | prop _ hvalue =>
    exact ⟨hfunctions, hreactive, hmodule, .of_register hprops fun v hv => (hvalue v hv).imp hA,
      hinitial, hstate, hreviews, hd.methods⟩
  | initialState _ hvalue =>
    exact ⟨hfunctions, hreactive, hmodule, hprops,
      .of_register hinitial fun v hv => (hvalue v hv).imp hA, hstate, hreviews, hd.methods⟩
  | state _ hvalue =>
    exact ⟨hfunctions, hreactive, hmodule, hprops, hinitial,
      .of_register hstate fun v hv => (hvalue v hv).imp hA, hreviews, hd.methods⟩
  | @ref name =>
    have hsame : (d.symbols.addRef name).props = d.symbols.props ∧
        (d.symbols.addRef name).initialState = d.symbols.initialState ∧
        (d.symbols.addRef name).state = d.symbols.state := by
      unfold SymbolTable.addRef
      split <;> exact ⟨rfl, rfl, rfl⟩
    exact ⟨hfunctions, hreactive, hmodule, fun s hs => hprops s (hsame.1 ▸ hs),
      fun s hs => hinitial s (hsame.2.1 ▸ hs), fun s hs => hstate s (hsame.2.2 ▸ hs), hreviews,
      hd.methods⟩
  | method hname =>
    refine ⟨hfunctions, hreactive, hmodule, hprops, hinitial, hstate, hreviews, fun m hm => ?_⟩
    obtain rfl | hm := mem_cons.1 hm
    · exact hname
    · exact hd.methods m hm
  | reactive htext =>
    obtain ⟨_, heq, hmem⟩ := d.exists_addReactive _
    rw [heq] at hgrows hA hfunctions hreactive hmodule hprops hinitial hstate hreviews ⊢
    refine ⟨hfunctions, fun t ht => ?_, hmodule, hprops, hinitial, hstate, hreviews, hd.methods⟩
    rcases hmem t ht with ht | rfl
    · exact hreactive t ht
    · exact htext.imp hA hgrows.symbols.props
  | function htext =>
    refine ⟨fun t ht => ?_, hreactive, hmodule, hprops, hinitial, hstate, hreviews, hd.methods⟩
    rcases mem_append.1 ht with ht | ht
    · exact hfunctions t ht
    · obtain rfl := mem_singleton.1 ht
      exact htext.imp hA
  | moduleCode _ htext =>
    refine ⟨hfunctions, hreactive, fun t ht => ?_, hprops, hinitial, hstate, hreviews, hd.methods⟩
    rcases mem_append.1 ht with ht | ht
    · exact hmodule t ht
    · obtain rfl := mem_singleton.1 ht
      exact htext.imp hA
  | review _ _ hcode =>
    refine ⟨hfunctions, hreactive, hmodule, hprops, hinitial, hstate, fun b hb => ?_, hd.methods⟩
    rcases mem_append.1 hb with hb | hb
    · exact hreviews b hb
    · obtain rfl := mem_singleton.1 hb
      exact hcode.imp fun _ hc => hc.grows hgrows
  | _ => exact ⟨hfunctions, hreactive, hmodule, hprops, hinitial, hstate, hreviews, hd.methods⟩

theorem Draft.Run.sourced (h : Run source p d d') (hd : d.Sourced source p) :
    d'.Sourced source p := by
  induction h with
  | refl => exact hd
  | tail _ hstep ih => exact hstep.sourced ih

theorem Draft.sourced_empty : ({} : Draft).Sourced source p := by
  constructor <;> simp

theorem Draft.tied_empty : ({} : Draft).Tied := by
  constructor <;> simp

end

/-! The parts of a component stand in the items of its module. -/

section

variable {α : Type}

def ComponentSource.parts : ComponentSource α → List (Script.Tree α)
  | .ofMembers members => members
  | .function params body => body :: params

def ComponentSource.Of (t : Script.Tree α) (c : ComponentSource α) : Prop :=
  ∀ part ∈ c.parts, part.Within t

variable {c : ComponentSource α} {t : Script.Tree α}

theorem ComponentSource.Of.within {u} (h : c.Of t) (ht : t.Within u) : c.Of u :=
  fun part hpart => (h part hpart).trans ht

theorem ComponentSource.of_ofFunction? (h : ofFunction? t = some c) : c.Of t := by
  unfold ofFunction? at h
  split at h
  · split at h
    · simp at h
    obtain rfl := Option.some.inj h
    intro _ hpart
    obtain rfl | hpart := mem_cons.1 hpart
    · exact .kid (by simp) .self
    · obtain ⟨q, hq, rfl⟩ := mem_map.1 hpart
      exact (parameterPattern_within q).trans (.kid mem_cons_self (.kid hq .self))
  · simp at h

theorem ComponentSource.of_ofClass? (h : ofClass? t = some c) : c.Of t := by
  unfold ofClass? at h
  split at h
  · next l span x l' k' s' members rest =>
    obtain rfl := Option.some.inj h
    intro _ hpart
    exact .kid (k := .node l' k' s' members) (by simp) (.kid hpart .self)
  · simp at h

theorem of_exportedComponent? (h : exportedComponent? t = some (.inline c)) : c.Of t := by
  fun_induction exportedComponent? t with
  | case1 l span inner ih | case2 l span _ ih => exact (ih h).within (.kid (by simp) .self)
  | case3 => simp at h
  | case4 l _ span l' _ s' params body rest =>
    obtain rfl : function params body = c := by simpa using h
    intro _ hpart
    obtain rfl | hpart := mem_cons.1 hpart
    · exact .kid (by simp) .self
    · exact .kid mem_cons_self (.kid hpart .self)
  | case5 l span x =>
    obtain ⟨c', hc, heq⟩ := Option.map_eq_some_iff.1 h
    obtain rfl : c' = c := by simpa using heq
    exact (of_ofFunction? hc).within (.kid (by simp) .self)
  | case6 l span x =>
    obtain ⟨c', hc, heq⟩ := Option.map_eq_some_iff.1 h
    obtain rfl : c' = c := by simpa using heq
    exact (of_ofClass? hc).within (.kid (by simp) .self)
  | case7 l _ x l' s' argument rest y ih =>
    exact (ih h).within (.kid (k := .node l' .list s' (argument :: rest)) (by simp)
      (.kid mem_cons_self .self))
  | case8 => simp at h

theorem of_declaredComponents {name} (h : (name, c) ∈ declaredComponents t) : c.Of t := by
  unfold declaredComponents at h
  split at h
  · obtain ⟨c', hc, heq⟩ := Option.map_eq_some_iff.1 (Option.mem_toList.1 h)
    obtain rfl := (Prod.mk.inj heq).2
    exact (of_ofClass? hc).within (.kid (by simp) .self)
  · obtain ⟨_, hc, heq⟩ := Option.map_eq_some_iff.1 (Option.mem_toList.1 h)
    obtain rfl := (Prod.mk.inj heq).2
    exact (of_ofFunction? hc).within (.kid (by simp) .self)
  · obtain ⟨_, hmem, hdeclared⟩ := mem_filterMap.1 h
    unfold declaredComponent? at hdeclared
    split at hdeclared
    · split at hdeclared
      · next hvalue =>
        obtain ⟨rfl, rfl⟩ : _ ∧ _ := by simpa using hdeclared
        exact (of_exportedComponent? hvalue).within (.kid hmem (.kid (by simp) .self))
      · simp at hdeclared
    · simp at hdeclared
  · simp at h

theorem of_itemComponents {name} (h : (name, c) ∈ itemComponents t) : c.Of t := by
  unfold itemComponents at h
  split at h
  · exact (of_declaredComponents h).within (.kid (by simp) .self)
  · exact of_declaredComponents h

theorem of_defaultExport? {name} (h : defaultExport? t = some (name, .inline c)) : c.Of t := by
  unfold defaultExport? at h
  split at h
  · next l s l' s' x body =>
    obtain ⟨c', hc, heq⟩ := Option.map_eq_some_iff.1 h
    obtain rfl : c' = c := by simpa using (Prod.mk.inj heq).2
    exact (of_ofClass? hc).within
      (.kid (k := .node l' .classExpr s' [x, body]) (by simp) (.kid (by simp) .self))
  · next l s l' s' x function =>
    obtain ⟨c', hc, heq⟩ := Option.map_eq_some_iff.1 h
    obtain rfl : c' = c := by simpa using (Prod.mk.inj heq).2
    exact (of_ofFunction? hc).within
      (.kid (k := .node l' .functionExpr s' [x, function]) (by simp) (.kid (by simp) .self))
  · obtain ⟨_, hvalue, heq⟩ := Option.map_eq_some_iff.1 h
    obtain rfl := (Prod.mk.inj heq).2
    exact (of_exportedComponent? hvalue).within (.kid (by simp) .self)
  · simp at h

/-- How the component of a module is found: its first item is the default export that it is, or
declares it; any other item is a default export that names it. -/
theorem locateComponent?_cases {component} {items : List (Script.Tree α)}
    (h : locateComponent? items = some component) :
    ∃ item i rest, items[i]? = some item ∧ component.items = i :: rest ∧
      (defaultExport? item = some (component.name, .inline component.source) ∨
        ∃ name, component.name = some name ∧ (name, component.source) ∈ itemComponents item) ∧
      ∀ k ∈ rest, ∃ other given name, items[k]? = some other ∧ component.name = some name ∧
        defaultExport? other = some (given, .named name) := by
  have hplace : ∀ {item : Script.Tree α} {i : Nat}, (item, i) ∈ items.zipIdx → items[i]? = some item :=
    fun hmem => mem_zipIdx_iff_getElem?.1 hmem
  unfold locateComponent? at h
  simp only [Option.orElse_eq_orElse, Option.orElse_eq_or, Option.or_eq_some_iff] at h
  rcases h with h | ⟨-, h | ⟨-, h⟩⟩
  · obtain ⟨⟨item, i⟩, hmem, hfound⟩ := exists_of_findSome?_eq_some h
    dsimp only at hfound
    split at hfound
    · next hexport =>
      obtain rfl := Option.some.inj hfound
      exact ⟨item, i, [], hplace hmem, rfl, .inl hexport, by simp⟩
    · simp at hfound
  · obtain ⟨⟨name, k⟩, hname, h⟩ := Option.bind_eq_some_iff.1 h
    obtain ⟨⟨item, i⟩, hmem, hfound⟩ := exists_of_findSome?_eq_some h
    obtain ⟨⟨declared, c⟩, hfind, rfl⟩ := Option.map_eq_some_iff.1 hfound
    obtain rfl : declared = name := by simpa using find?_some hfind
    obtain ⟨⟨other, k'⟩, hmem', hexport⟩ := mem_filterMap.1 (mem_of_getLast? hname)
    dsimp only at hexport
    split at hexport
    · next given name' heq =>
      obtain ⟨rfl, rfl⟩ := Prod.mk.inj (Option.some.inj hexport)
      refine ⟨item, i, [k'], hplace hmem, rfl,
        .inr ⟨name', rfl, mem_of_find?_eq_some hfind⟩, fun k hk => ?_⟩
      obtain rfl := mem_singleton.1 hk
      exact ⟨other, given, name', hplace hmem', rfl, heq⟩
    · simp at hexport
  · obtain ⟨⟨item, i⟩, hmem, hfound⟩ := exists_of_findSome?_eq_some h
    obtain ⟨⟨name, c⟩, hfind, rfl⟩ := Option.map_eq_some_iff.1 hfound
    exact ⟨item, i, [], hplace hmem, rfl, .inr ⟨name, rfl, mem_of_find?_eq_some hfind⟩, by simp⟩

theorem of_locateComponent? {component} {items : List (Script.Tree α)}
    (h : locateComponent? items = some component) : ∃ item ∈ items, component.source.Of item := by
  obtain ⟨item, i, _, hitem, -, hfound, -⟩ := locateComponent?_cases h
  refine ⟨item, mem_of_getElem? hitem, ?_⟩
  rcases hfound with hexport | ⟨_, -, hmem⟩
  · exact of_defaultExport? hexport
  · exact of_itemComponents hmem

end

section

variable {source : Source} {component : ComponentSource Visit} {item : Node}

variable {part : Part}

theorem ComponentSource.Of.exists_within (h : component.Of (ofNode source item))
    {whole} (hwhole : whole ∈ component.parts) (hpart : part.Within whole) :
    ∃ n : Node, n.Within item ∧ part = ofNode source n :=
  Policy.exists_within_relabel (hpart.trans (h whole hwhole))

theorem ComponentSource.Of.exists_node (h : component.Of (ofNode source item)) {whole}
    (hwhole : whole ∈ component.parts) (hpart : part.Within whole) :
    ∃ n, part = ofNode source n := by
  obtain ⟨n, -, hn⟩ := h.exists_within hwhole hpart
  exact ⟨n, hn⟩

theorem ComponentSource.Of.exists_node_shown {members}
    (h : (ofMembers members).Of (ofNode source item))
    (hpart : FromMember members part) : ∃ n, part = ofNode source n := by
  obtain ⟨_, hmember, hwithin⟩ := hpart.within
  exact h.exists_node hmember hwithin

end

/-! The steps of a whole conversion. -/

section

open Conversion

variable {source : Source} {p : Policy}

/-- What a policy has to permit so that a component is converted under it. The references that the
members of a class create are known then, and those that the hooks of a function hold. -/
inductive Policy.Converts (source : Source) (p : Policy) : ComponentSource Visit → Prop
  | members {members : List Part}
      (hmethods : ∀ m ∈ members, ∀ name ∈ m.methodName?, p.methods name)
      (htakes : ∀ e : Draft, (∀ m ∈ members, ∀ name ∈ createdRefs m, e.symbols.isRef name) →
        ∀ m ∈ members, p.TakesMember source e m)
      (hshows : ∀ e : Draft, (∀ m ∈ members, ∀ name ∈ createdRefs m, e.symbols.isRef name) →
        ∀ part, FromMember members part → ∃ n, part = ofNode source n ∧ p.Shows e n) :
      Converts source p (.ofMembers members)
  | function {params : List Part} {body : Part}
      (hparam : ∀ q ∈ params.head?, ∀ e, p.Admits source e q)
      (hhooks : body.kind = .block → ∀ ds ∈ body.kids.filterMap hookDeclarators?, ∀ e : Draft,
        (!ds.isEmpty && ds.all fun q => (declaratorRole? e.scope q).isSome) →
          ∀ q ∈ ds, p.Admits source e q)
      (htakes : body.kind = .block → ∀ e : Draft, (∀ ds ∈ body.kids.filterMap hookDeclarators?,
        ∀ name ∈ consumedHooks ds, name ∈ e.scope.hookRefs) → ∀ s ∈ body.kids, p.Takes source e s)
      (hshows : ∀ e : Draft, (body.kind = .block → ∀ ds ∈ body.kids.filterMap hookDeclarators?,
        ∀ name ∈ consumedHooks ds, name ∈ e.scope.hookRefs) →
        ∀ part, FromFunction body part → ∃ n, part = ofNode source n ∧ p.Shows e n) :
      Converts source p (.function params body)

/-- What a component declares without keeping its code is lost from no draft: references, the
statements of the constructor, the parameter, and the declarations in a body. -/
def Draft.Settles (source : Source) (d : Draft) : ComponentSource Visit → Prop
  | .ofMembers members => ∀ m ∈ members,
      d.Records source m ∧ ∀ name ∈ createdRefs m, d.symbols.isRef name
  | .function params body => (∀ q ∈ params.head?, d.Receives source q) ∧
      (body.kind = .block → d.Unpacks source "component logic" body.kids)

theorem Draft.Settles.grows {component} {d d' : Draft}
    (h : d.Settles source component) (hd : d.Grows d') : d'.Settles source component := by
  cases component with
  | ofMembers =>
    exact fun m hm => ⟨(h m hm).1.grows hd, fun name hname => hd.symbols.isRef ((h m hm).2 name hname)⟩
  | function =>
    exact ⟨fun q hq => (h.1 q hq).imp_right (·.grows hd), fun hkind => (h.2 hkind).grows hd⟩

theorem yields_convertComponent {component d} (h : p.Converts source component) :
    Yields source p d (convertComponent source component) fun markup e =>
      (∀ part ∈ markup, ∃ n, part = ofNode source n ∧ p.Shows e n) ∧
        e.Settles source component := by
  cases h with
  | members hmethods htakes hshows =>
    refine (yields_convertClass hmethods htakes).mono fun markup e _ h => ?_
    obtain ⟨hknown, hmarkup, hrecords⟩ := h
    exact ⟨fun part hpart => hshows e hknown part (hmarkup part hpart),
      fun m hm => ⟨hrecords m hm, hknown m hm⟩⟩
  | function hparam hhooks htakes hshows =>
    refine (yields_convertFunction (fun q hq => hparam q hq d) hhooks htakes).mono
      fun markup e _ h => ?_
    obtain ⟨hknown, hmarkup, hreceives, hunpacks⟩ := h
    exact ⟨fun part hpart => hshows e hknown part (hmarkup part hpart), hreceives, hunpacks⟩

/-- What a policy has to permit so that the script of a module is converted under it. -/
structure Policy.CoversScript (p : Policy) (source : Source) (items : List Part)
    (component : LocatedComponent Visit) : Prop where
  statics : ∀ item ∈ items, item.kind = .expression → p.Admits source {} item
  others : ∀ item ∈ items.zipIdx, item.2 ∉ component.items → p.TakesItem source {} item.1
  component : p.Converts source component.source
  takesItems : p.takesItems

/-- What a policy has to permit so that a module is converted under it. -/
structure Policy.Covers (p : Policy) (source : Source) (items : List Part)
    (component : LocatedComponent Visit) : Prop extends p.CoversScript source items component where
  marks : p.marks

def collectItems (setting : Markup.Setting) (items : List Part)
    (component : LocatedComponent Visit) : Conversion Text := do
  let statics ← convertStatics setting.source component.name items.zipIdx
  convertModuleCode setting.source (component.items ++ statics) items.zipIdx
  match ← convertComponent setting.source component.source with
  | some root => Markup.build setting root
  | none => pure []

theorem convertItems_eq (setting : Markup.Setting) (items : List Part)
    (component : LocatedComponent Visit) :
    convertItems setting items component = do
      let markup ← collectItems setting items component
      dropChildrenProp
      setting.style.forM fun style => declareStyleConstants setting.source style markup
      return markup := by
  unfold convertItems collectItems
  simp only [bind_assoc]
  refine bind_congr fun statics => bind_congr fun _ => bind_congr fun markup => ?_
  cases markup <;> rfl

/-- All but the markup of a module: what is left to show is the expression that is answered. -/
def collectScript (setting : Markup.Setting) (items : List Part)
    (component : LocatedComponent Visit) : Conversion (Option Part) := do
  let statics ← convertStatics setting.source component.name items.zipIdx
  convertModuleCode setting.source (component.items ++ statics) items.zipIdx
  convertComponent setting.source component.source

theorem collectItems_eq (setting : Markup.Setting) (items : List Part)
    (component : LocatedComponent Visit) : collectItems setting items component =
      collectScript setting items component >>= (·.elim (pure []) (Markup.build setting)) := by
  unfold collectItems collectScript
  simp only [bind_assoc]
  refine bind_congr fun statics => bind_congr fun _ => bind_congr fun markup => ?_
  cases markup <;> rfl

theorem yields_collectScript (setting : Markup.Setting) {items component} (h : p.CoversScript setting.source items component) :
    Yields setting.source p {} (collectScript setting items component) fun markup e =>
      (∀ part ∈ markup, ∃ n, part = ofNode setting.source n ∧ p.Shows e n) ∧
        e.Settles setting.source component.source := by
  have hstatics : ∀ item ∈ items.zipIdx, item.1.kind = .expression →
      p.Admits setting.source {} item.1 :=
    fun item hitem => h.statics _ ((mem_zipIdx' hitem).2 ▸ getElem_mem _)
  refine .bind (yields_convertStatics hstatics) fun statics d hd _ => ?_
  refine .bind (yields_convertModuleCode h.takesItems fun item hitem hown => ?_)
    fun _ d' hd' _ => ?_
  · exact (h.others item hitem fun hmem => hown (mem_append_left _ hmem)).grows hd
  · exact yields_convertComponent h.component

theorem yields_collectItems (setting : Markup.Setting) {items} {component : LocatedComponent Visit} (h : p.Covers setting.source items component) :
    Yields setting.source p {} (collectItems setting items component) fun text e =>
      (∃ root, Markup.IsMarkup setting p root text e) ∧
        e.Settles setting.source component.source := by
  rw [collectItems_eq]
  refine .bind (yields_collectScript setting h.toCoversScript) fun markup e _ hmarkup => ?_
  obtain ⟨hmarkup, hsettles⟩ := hmarkup
  cases markup with
  | none => exact .of_pure ⟨⟨default, .inl rfl⟩, hsettles⟩
  | some part =>
    obtain ⟨n, rfl, hshows⟩ := hmarkup part rfl
    exact (Markup.yields_build h.marks hshows).mono fun _ _ he htext => ⟨⟨n, htext⟩, hsettles.grows he⟩

end

/-! The last steps. -/

def Draft.bare (d : Draft) : Draft :=
  { d with diagnostics := [], symbols := { d.symbols with styleConstants := [] } }

/-- The children prop is forgotten: a slot stands for the children, and the script does not mention
them. -/
def Draft.dropsChildren (d : Draft) : Bool :=
  d.usesSlot && !d.mentions "children"

def Draft.settled (d : Draft) : Draft :=
  if d.dropsChildren then d.withSymbols (·.removeProp "children") else d

def Draft.Ends (d d' : Draft) : Prop :=
  d'.bare = d.bare ∧ d.diagnostics ⊆ d'.diagnostics

section

open Conversion

theorem obeys_declareStyleConstants (source : Source) (style : StyleImport) (markup : Text) :
    Obeys Draft.Ends (declareStyleConstants source style markup) := by
  have : Std.Refl Draft.Ends := ⟨fun _ => ⟨rfl, fun _ h => h⟩⟩
  have : IsTrans Draft Draft.Ends :=
    ⟨fun _ _ _ h h' => ⟨h'.1.trans h.1, fun _ hx => h'.2 (h.2 hx)⟩⟩
  refine .of_forM fun entry _ d => ?_
  have hconstant : ∀ value, (d.withSymbols (·.addStyleConstant entry.1 value)).bare = d.bare := by
    intro _
    unfold Draft.withSymbols
    dsimp only
    unfold SymbolTable.addStyleConstant
    split <;> rfl
  change d.Ends (StateT.run (ite _ _ _ : Conversion Unit) d).2
  split
  · split
    · exact ⟨hconstant _, fun _ h => h⟩
    · exact ⟨rfl, fun _ h => mem_append_left _ h⟩
  · exact ⟨rfl, fun _ h => h⟩

theorem convertItems_run (setting : Markup.Setting) (items : List Part)
    (component : LocatedComponent Visit) (d : Draft) :
    ((convertItems setting items component).run d).1 =
        ((collectItems setting items component).run d).1 ∧
      ((collectItems setting items component).run d).2.settled.Ends
        ((convertItems setting items component).run d).2 := by
  rw [convertItems_eq]
  refine ⟨rfl, ?_⟩
  cases hstyle : setting.style with
  | none => exact ⟨rfl, fun _ h => h⟩
  | some style => exact obeys_declareStyleConstants setting.source style _ _

end

/-! Documents. -/

/-- Every text of a document is made of codes: those of the component satisfy `A`, and those for
manual review satisfy `R`. The reactive statements read the props `N`. -/
structure Document.Written (source : Source) (A R : Code → Prop) (N : String → Prop)
    (document : Document) : Prop where
  functions : ∀ t ∈ document.script.functions, IsRoutine source A t
  reactive : ∀ t ∈ document.script.reactive, IsReaction source A N t
  moduleCode : ∀ t ∈ document.script.moduleCode, IsModuleCode source A t
  declarations : ∀ x ∈ document.script.declarations, x.keyword ≠ .const →
    ∀ v ∈ x.value, v = "undefined" ∨ IsValue source A x.name v
  reviews : ∀ b ∈ document.script.reviewBlocks, IsReview source R b.code
  markup : document.markup = "" ∨ ∃ root nodes indent, Markup.Made source root A nodes ∧
    document.markup =
      String.ofList (Text.trimEnd (Text.reindent (Markup.writeAll nodes) indent []))

section

variable {source : Source}

theorem Document.Written.imp {A A' R R' : Code → Prop} {N N' : String → Prop}
    {document : Document} (h : document.Written source A R N) (hA : ∀ c, A c → A' c)
    (hR : ∀ c, R c → R' c) (hN : ∀ name, N name → N' name) : document.Written source A' R' N' := by
  refine ⟨fun t ht => (h.functions t ht).imp hA, fun t ht => (h.reactive t ht).imp hA hN,
    fun t ht => (h.moduleCode t ht).imp hA,
    fun x hx hconst v hv => (h.declarations x hx hconst v hv).imp_right (·.imp hA),
    fun b hb => (h.reviews b hb).imp hR, h.markup.imp_right ?_⟩
  rintro ⟨root, nodes, indent, hnodes, htext⟩
  exact ⟨root, nodes, indent, Markup.everyNode_imp (fun _ ht => ht.imp hA) (fun _ ht => ht.imp hA)
    hnodes, htext⟩

variable {x : Declaration}

theorem Declaration.mem_sort {xs} : x ∈ sort xs ↔ x ∈ xs :=
  mem_mergeSort

theorem Declaration.mem_of_mem_distinct {seen xs} (h : x ∈ distinct seen xs) : x ∈ xs := by
  induction xs generalizing seen with
  | nil => simp [distinct] at h
  | cons _ _ ih =>
    rw [distinct] at h
    split at h
    · exact mem_cons_of_mem _ (ih h)
    · obtain rfl | h := mem_cons.1 h
      · exact mem_cons_self
      · exact mem_cons_of_mem _ (ih h)

theorem SymbolTable.of_mem_declarations {t : SymbolTable}
    (h : x ∈ t.propDeclarations ++ t.internalDeclarations) (hconst : x.keyword ≠ .const)
    {v} (hv : v ∈ x.value) : v = "undefined" ∨
      ∃ s ∈ t.props ++ t.initialState ++ t.state, s.name = x.name ∧ s.value = some v := by
  rcases mem_append.1 h with h | h
  · obtain ⟨s, hs, rfl⟩ := mem_map.1 (Declaration.mem_sort.1 h)
    cases hvalue : s.value with
    | none => exact .inl (by simpa [hvalue, eq_comm] using hv)
    | some =>
      exact .inr ⟨s, by simp [hs], rfl, by simpa [hvalue] using hv⟩
  · have hcandidate := Declaration.mem_of_mem_distinct (Declaration.mem_sort.1 h)
    simp only [internalCandidates, mem_append, mem_map] at hcandidate
    rcases hcandidate with ((⟨_, -, rfl⟩ | ⟨s, hs, rfl⟩) | ⟨_, -, rfl⟩) | ⟨s, hs, rfl⟩
    · exact (hconst rfl).elim
    · exact .inr ⟨s, by simp [hs], rfl, hv⟩
    · simp at hv
    · exact .inr ⟨s, by simp [hs], rfl, hv⟩

theorem Draft.settled_eq (d : Draft) : ∃ props, d.settled =
    { d with symbols := { d.symbols with props } } ∧ ∀ s ∈ props, s ∈ d.symbols.props := by
  unfold settled
  split
  · exact ⟨_, rfl, fun s hs => (mem_filter.1 hs).1⟩
  · exact ⟨d.symbols.props, rfl, fun _ hs => hs⟩

/-- The last steps change no text, and of the variables only a prop may be gone. -/
structure Draft.Finishes (d final : Draft) : Prop where
  functions : final.functions = d.functions
  reactive : final.reactive = d.reactive
  moduleCode : final.moduleCode = d.moduleCode
  reviewBlocks : final.reviewBlocks = d.reviewBlocks
  props : final.symbols.props = d.settled.symbols.props
  initialState : final.symbols.initialState = d.symbols.initialState
  refs : final.symbols.refs = d.symbols.refs
  state : final.symbols.state = d.symbols.state
  diagnostics : d.diagnostics ⊆ final.diagnostics
  cuts : final.cuts = d.cuts

theorem Draft.finishes_of_ends {d final : Draft} (hends : d.settled.Ends final) :
    d.Finishes final := by
  obtain ⟨props, hsettled, -⟩ := d.settled_eq
  obtain ⟨h, hdiagnostics⟩ := hends
  rw [hsettled] at h hdiagnostics
  refine ⟨congrArg (·.functions) h, congrArg (·.reactive) h, congrArg (·.moduleCode) h,
    congrArg (·.reviewBlocks) h, ?_, congrArg (·.symbols.initialState) h,
    congrArg (·.symbols.refs) h, congrArg (·.symbols.state) h, hdiagnostics, congrArg (·.cuts) h⟩
  rw [hsettled]
  exact congrArg (·.symbols.props) h

theorem Draft.Sourced.written {d final} {p : Policy} (h : d.Sourced source p)
    (hfinal : d.Finishes final) (imports : ImportOutcome) (language : Script.Language)
    {style root markup}
    (hmarkup : Markup.IsMarkup ⟨source, style⟩ p root markup d) :
    (documentOf final imports language markup).Written source (p.Allows source d)
      (Code.KnownTo source d) (d.symbols.isProp ·) := by
  obtain ⟨props, hsettled, hprops⟩ := d.settled_eq
  have hfinalProps := hfinal.props
  rw [hsettled] at hfinalProps
  refine ⟨fun t ht => h.functions t (hfinal.functions ▸ ht),
    fun t ht => h.reactive t (hfinal.reactive ▸ ht),
    fun t ht => h.moduleCode t (hfinal.moduleCode ▸ ht), fun x hx hconst v hv => ?_,
    fun b hb => h.reviews b (hfinal.reviewBlocks ▸ hb), ?_⟩
  · refine (SymbolTable.of_mem_declarations hx hconst hv).imp_right ?_
    rintro ⟨s, hs, hname, hvalue⟩
    rw [hfinalProps, hfinal.initialState, hfinal.state, mem_append, mem_append] at hs
    rw [← hname]
    rcases hs with (hs | hs) | hs
    · exact h.props s (hprops s hs) v hvalue
    · exact h.initialState s hs v hvalue
    · exact h.state s hs v hvalue
  · rcases hmarkup with rfl | ⟨-, nodes, indent, hnodes, -, rfl⟩
    · exact .inl rfl
    · exact .inr ⟨root, nodes, indent, hnodes, rfl⟩

end

/-! Components that are converted. -/

/-- A component that is converted, with what is found on the way. -/
structure Transformation (files : FileSystem) (text : String) (options : Options) where
  module : Node
  imports : ImportOutcome
  component : LocatedComponent Visit
  reads : readComponent (ofString text).text options.filename.toString = .ok module
  processes : processImports ⟨files, ofString text, options⟩ module.kids = .ok imports
  locates : locateComponent? (module.kids.map (ofNode (ofString text))) = some component

namespace Transformation

variable {files : FileSystem} {text : String} {options : Options}

def of? (files : FileSystem) (text : String) (options : Options) :
    Option (Transformation files text options) :=
  match hreads : readComponent (ofString text).text options.filename.toString with
  | .error _ => none
  | .ok module =>
    match hprocesses : processImports ⟨files, ofString text, options⟩ module.kids with
    | .error _ => none
    | .ok imports =>
      match hlocates : locateComponent? (module.kids.map (ofNode (ofString text))) with
      | none => none
      | some component => some ⟨module, imports, component, hreads, hprocesses, hlocates⟩

variable (t : Transformation files text options)

def source (_ : Transformation files text options) : Source :=
  ofString text

def items : List Part :=
  t.module.kids.map (ofNode t.source)

def setting : Markup.Setting :=
  ⟨t.source, t.imports.style⟩

def collected : Draft :=
  ((collectItems t.setting t.items t.component).run {}).2

def draft : Draft :=
  ((convertItems t.setting t.items t.component).run {}).2

def document : Document :=
  documentOf t.draft t.imports (Script.Language.ofFilename options.filename.toString)
    ((convertItems t.setting t.items t.component).run {}).1

def converted : Converted :=
  let name := componentName options.filename
  { componentName := name
    outputPath := options.outputDir.join (Path.ofString s!"{name}.svelte")
    code := t.document.code
    diagnostics := t.imports.diagnostics ++ t.draft.diagnostics }

theorem convert_eq : convert files text options =
    match t.draft.cuts.find? (!t.source.isBoundary ·) with
    | some offset => .error (.insideCharacter offset)
    | none => .ok t.converted := by
  unfold convert
  simp only [t.reads, t.processes, t.locates, bind, Except.bind]
  unfold converted document draft items setting source
  obtain ⟨_, draft⟩ := (convertItems ⟨ofString text, t.imports.style⟩
    (t.module.kids.map (ofNode (ofString text))) t.component).run {}
  dsimp only
  cases draft.cuts.find? (!(ofString text).isBoundary ·) <;> rfl

theorem convert_cases (files : FileSystem) (text : String) (options : Options) :
    Nonempty (Transformation files text options) ∨ ∃ e, convert files text options = .error e ∧
      (readComponent (ofString text).text options.filename.toString = .error e ∨
        (∃ items, processImports ⟨files, ofString text, options⟩ items = .error e) ∨
        e = .noComponent options.filename.toString) := by
  unfold convert
  dsimp only [bind, Except.bind]
  split
  · next e hreads => exact .inr ⟨e, rfl, .inl hreads⟩
  next module hreads =>
  split
  · next e hprocesses => exact .inr ⟨e, rfl, .inr (.inl ⟨_, hprocesses⟩)⟩
  next imports hprocesses =>
  split
  · exact .inr ⟨_, rfl, .inr (.inr rfl)⟩
  · next component hlocates =>
    exact .inl ⟨⟨module, imports, component, hreads, hprocesses, hlocates⟩⟩

theorem exists_of_convert {converted} (h : convert files text options = .ok converted) :
    ∃ t : Transformation files text options, converted = t.converted := by
  obtain ⟨⟨t⟩⟩ | ⟨e, herror, -⟩ := convert_cases files text options
  · have heq := h.symm.trans t.convert_eq
    split at heq
    · simp at heq
    · exact ⟨t, Except.ok.inj heq⟩
  · simp [herror] at h

theorem finishes : t.collected.Finishes t.draft :=
  Draft.finishes_of_ends (convertItems_run t.setting t.items t.component {}).2

theorem exists_component : ∃ n : Node, t.component.source.Of (ofNode t.source n) := by
  obtain ⟨_, hitem, hof⟩ := of_locateComponent? t.locates
  obtain ⟨n, -, rfl⟩ := mem_map.1 hitem
  exact ⟨n, hof⟩

variable {t} {p : Policy}

section

variable (h : p.Covers t.source t.items t.component)

include h

theorem run : ({} : Draft).Run t.source p t.collected :=
  (yields_collectItems t.setting h Draft.tied_empty).1

theorem sourced : t.collected.Sourced t.source p :=
  (t.run h).sourced Draft.sourced_empty

theorem settles : t.collected.Settles t.source t.component.source :=
  (yields_collectItems t.setting h Draft.tied_empty).2.2

theorem written : t.document.Written t.source (p.Allows t.source t.collected)
      (Code.KnownTo t.source t.collected) (t.collected.symbols.isProp ·) := by
  obtain ⟨hrun, ⟨_, hmarkup⟩, -⟩ := yields_collectItems t.setting h Draft.tied_empty
  unfold document
  rw [(convertItems_run t.setting t.items t.component {}).1]
  exact (hrun.sourced Draft.sourced_empty).written t.finishes t.imports _ hmarkup

end

end Transformation

end Sveltify
