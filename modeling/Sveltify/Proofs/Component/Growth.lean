import Sveltify.Proofs.Component.Steps

/-! Drafts only grow: whatever is done to a draft, the names, statements and findings that it holds
stay in it. -/

namespace Sveltify

open List
open Script (Node Kind)
open Script.Tree Symbol

/-! Symbols. -/

namespace Symbol

theorem known_register (name other : String) (value : Option String) (symbols : List Symbol) :
    known name (register other value symbols) = (known name symbols || other == name) := by
  induction symbols with
  | nil => simp [known, register]
  | cons s _ ih =>
    unfold known at ih ⊢
    rw [register]
    split
    · next h =>
      obtain rfl : s.name = other := by simpa using h
      split <;> simp [Bool.or_comm]
    · rw [any_cons, any_cons, ih, Bool.or_assoc]

theorem known_of_known {name symbols} (h : known name symbols)
    (other : String) (value : Option String) : known name (register other value symbols) := by
  rw [known_register, h, Bool.true_or]

theorem known_register_self (name : String) (value : Option String) (symbols : List Symbol) :
    known name (register name value symbols) := by
  rw [known_register, beq_self_eq_true, Bool.or_true]

theorem mem_register_of_value {s symbols} (h : s ∈ symbols)
    (hvalue : s.value.isSome) (name : String) (value : Option String) :
    s ∈ register name value symbols := by
  induction symbols with
  | nil => simp at h
  | cons _ _ ih =>
    rw [register]
    obtain rfl | h := mem_cons.1 h
    · have hkept : s.value.isNone = false := by simpa using hvalue
      split <;> simp [hkept]
    · split
      · exact mem_cons_of_mem _ h
      · exact mem_cons_of_mem _ (ih h)

theorem mem_register_self (name value : String) (symbols : List Symbol) :
    ⟨name, some value⟩ ∈ register name (some value) symbols ∨ ∃ old, ⟨name, some old⟩ ∈ symbols := by
  induction symbols with
  | nil => exact .inl (by simp [register])
  | cons first _ ih =>
    rw [register]
    split
    · next hname =>
      obtain rfl : first.name = name := by simpa using hname
      cases hold : first.value with
      | none => exact .inl (by simp)
      | some old => exact .inr ⟨old, by simp [← hold]⟩
    · exact ih.imp (mem_cons_of_mem _) fun ⟨old, h⟩ => ⟨old, mem_cons_of_mem _ h⟩

end Symbol

namespace SymbolTable

/-- What one table knows, the other knows too. -/
structure Grows (t t' : SymbolTable) : Prop where
  props : ∀ name, t.isProp name → t'.isProp name
  state : ∀ name, t.isState name → t'.isState name
  refs : t.refs ⊆ t'.refs
  values : ∀ s ∈ t.state, s.value.isSome → s ∈ t'.state

theorem Grows.refl (t : SymbolTable) : Grows t t :=
  ⟨fun _ h => h, fun _ h => h, fun _ h => h, fun _ h _ => h⟩

variable {t' : SymbolTable}

theorem Grows.trans {t t''} (h : Grows t t') (h' : Grows t' t'') : Grows t t'' :=
  ⟨fun name hn => h'.props name (h.props name hn), fun name hn => h'.state name (h.state name hn),
    fun _ hn => h'.refs (h.refs hn), fun s hs hv => h'.values s (h.values s hs hv) hv⟩

theorem Grows.isRef {t name} (h : Grows t t') (hn : t.isRef name) :
    t'.isRef name := by
  rw [SymbolTable.isRef, contains_iff_mem] at *
  exact h.refs hn

theorem Grows.contains {t name} (h : Grows t t') (hn : t.contains name) :
    t'.contains name := by
  simp only [SymbolTable.contains, Bool.or_eq_true] at *
  exact hn.imp (Or.imp (h.props name) h.isRef) (h.state name)

variable (t : SymbolTable) (name : String) (value : Option String)

theorem grows_addProp : t.Grows (t.addProp name value) :=
  ⟨fun _ h => known_of_known h name value, fun _ h => h, fun _ h => h, fun _ h _ => h⟩

theorem grows_addState : t.Grows (t.addState name value) := by
  refine ⟨fun _ h => h, fun other h => ?_, fun _ h => h,
    fun s hs hv => mem_register_of_value hs hv name value⟩
  simp only [isState, Bool.or_eq_true] at h ⊢
  exact h.imp_right fun h => known_of_known h name value

theorem grows_addInitialState : t.Grows (t.addInitialState name value) := by
  refine ⟨fun _ h => h, fun other h => ?_, fun _ h => h, fun _ h _ => h⟩
  simp only [isState, Bool.or_eq_true] at h ⊢
  exact h.imp_left fun h => known_of_known h name value

theorem grows_addRef : t.Grows (t.addRef name) := by
  unfold addRef
  split
  · exact .refl t
  · exact ⟨fun _ h => h, fun _ h => h, fun _ h => mem_append_left _ h, fun _ h _ => h⟩

theorem isProp_addProp : (t.addProp name value).isProp name :=
  known_register_self name value t.props

theorem isState_addState : (t.addState name value).isState name := by
  simp [isState, addState, known_register_self]

theorem isState_addInitialState : (t.addInitialState name value).isState name := by
  simp [isState, addInitialState, known_register_self]

theorem isRef_addRef : (t.addRef name).isRef name := by
  unfold addRef
  split
  · assumption
  · simp [isRef]

end SymbolTable

theorem Table.isSome_get?_insert {α : Type} {key} {table : Table α}
    (h : (table.get? key).isSome) (other : String) (value : α) :
    ((table.insert other value).get? key).isSome := by
  rw [get?_insert]
  split
  · rfl
  · exact h

theorem Table.isSome_get?_insert_self {α : Type} (table : Table α) (key : String) (value : α) :
    ((table.insert key value).get? key).isSome := by
  rw [get?_insert, if_pos rfl]
  rfl

/-! Drafts. -/

/-- What one scope knows, the other knows too. -/
structure ComponentScope.Grows (s s' : ComponentScope) : Prop where
  methods : s.methods ⊆ s'.methods
  hookRefs : s.hookRefs ⊆ s'.hookRefs
  setters : ∀ key, (s.setters.get? key).isSome → (s'.setters.get? key).isSome

theorem ComponentScope.Grows.refl (s : ComponentScope) : Grows s s :=
  ⟨fun _ h => h, fun _ h => h, fun _ h => h⟩

/-- What one draft holds, the other holds too. -/
structure Draft.Grows (d d' : Draft) : Prop where
  symbols : d.symbols.Grows d'.symbols
  scope : d.scope.Grows d'.scope
  reactive : d.reactive ⊆ d'.reactive
  diagnostics : d.diagnostics ⊆ d'.diagnostics
  reviewBlocks : d.reviewBlocks ⊆ d'.reviewBlocks

variable (source : Source)

namespace Draft

theorem Grows.refl (d : Draft) : d.Grows d :=
  ⟨.refl _, .refl _, fun _ h => h, fun _ h => h, fun _ h => h⟩

variable {d' : Draft}

theorem Grows.trans {d d'' : Draft} (h : d.Grows d') (h' : d'.Grows d'') : d.Grows d'' where
  symbols := h.symbols.trans h'.symbols
  scope := ⟨fun _ hx => h'.scope.methods (h.scope.methods hx),
    fun _ hx => h'.scope.hookRefs (h.scope.hookRefs hx),
    fun key hx => h'.scope.setters key (h.scope.setters key hx)⟩
  reactive _ hx := h'.reactive (h.reactive hx)
  diagnostics _ hx := h'.diagnostics (h.diagnostics hx)
  reviewBlocks _ hx := h'.reviewBlocks (h.reviewBlocks hx)

variable (d : Draft)

theorem grows_withSymbols {f} (h : ∀ t, SymbolTable.Grows t (f t)) :
    d.Grows (d.withSymbols f) :=
  ⟨h _, .refl _, fun _ h => h, fun _ h => h, fun _ h => h⟩

theorem grows_withScope {f} (h : ∀ s, ComponentScope.Grows s (f s)) :
    d.Grows (d.withScope f) :=
  ⟨.refl _, h _, fun _ h => h, fun _ h => h, fun _ h => h⟩

theorem grows_addReactive (statement : String) : d.Grows (d.addReactive statement) := by
  unfold addReactive
  split
  · exact .refl d
  · exact ⟨.refl _, .refl _, fun _ h => mem_append_left _ h, fun _ h => h, fun _ h => h⟩

theorem mem_addReactive (statement : String) : statement ∈ (d.addReactive statement).reactive := by
  unfold addReactive
  split
  · next h => exact contains_iff_mem.1 h
  · simp

theorem grows_addFunction (text : String) : d.Grows (d.addFunction text) :=
  ⟨.refl _, .refl _, fun _ h => h, fun _ h => h, fun _ h => h⟩

theorem grows_addModuleCode (text : String) : d.Grows (d.addModuleCode text) :=
  ⟨.refl _, .refl _, fun _ h => h, fun _ h => h, fun _ h => h⟩

variable (name : String)

theorem grows_addHelper : d.Grows (d.addHelper name) :=
  ⟨.refl _, .refl _, fun _ h => h, fun _ h => h, fun _ h => h⟩

theorem grows_report (finding : Finding) (message : String) (offset : Nat) :
    d.Grows (d.report source finding message offset) :=
  ⟨.refl _, .refl _, fun _ h => h, fun _ h => mem_append_left _ h, fun _ h => h⟩

theorem grows_review (reason code : String) (offset : Nat) :
    d.Grows (d.review source reason code offset) :=
  ⟨.refl _, .refl _, fun _ h => h, fun _ h => mem_append_left _ h,
    fun _ h => mem_append_left _ h⟩

def Reviews (source : Source) (d : Draft) (reason code : String) (offset : Nat) : Prop :=
  ⟨reason, code⟩ ∈ d.reviewBlocks ∧ ⟨.manualReview, s!"{reason} needs manual review",
    (source.lineColumn offset).1, (source.lineColumn offset).2⟩ ∈ d.diagnostics

theorem reviews_review (reason code : String) (offset : Nat) :
    (d.review source reason code offset).Reviews source reason code offset := by
  constructor <;> simp [review, report]

theorem Reviews.grows {source reason code offset} {d : Draft}
    (h : d.Reviews source reason code offset) (hd : d.Grows d') :
    d'.Reviews source reason code offset :=
  ⟨hd.reviewBlocks h.1, hd.diagnostics h.2⟩

theorem grows_insertSetter (setter name : String) :
    d.Grows (d.withScope fun s => { s with setters := s.setters.insert setter name }) :=
  d.grows_withScope fun _ =>
    ⟨fun _ h => h, fun _ h => h, fun _ h => Table.isSome_get?_insert h setter name⟩

theorem grows_addHookRef :
    d.Grows (d.withScope fun s => { s with hookRefs := name :: s.hookRefs }) :=
  d.grows_withScope fun _ => ⟨fun _ h => h, fun _ h => mem_cons_of_mem _ h, fun _ h => h⟩

theorem grows_addMethod : d.Grows (d.withScope fun s => { s with methods := name :: s.methods }) :=
  d.grows_withScope fun _ => ⟨fun _ h => mem_cons_of_mem _ h, fun _ h => h, fun _ h => h⟩

theorem grows_setPropsBag : d.Grows (d.withScope fun s => { s with propsBag := some name }) :=
  d.grows_withScope fun _ => ⟨fun _ h => h, fun _ h => h, fun _ h => h⟩

variable {d}

theorem grows_cut (d : Draft) (offsets : List Nat) : d.Grows (d.cut offsets) :=
  ⟨.refl _, .refl _, fun _ h => h, fun _ h => h, fun _ h => h⟩

theorem Grows.step {source} {P : String → Prop} (h : Step source P d d') : d.Grows d' := by
  cases h with
  | prop name value => exact d.grows_withSymbols fun t => t.grows_addProp name value
  | state name value => exact d.grows_withSymbols fun t => t.grows_addState name value
  | ref => exact d.grows_withSymbols fun t => t.grows_addRef _
  | setter => exact d.grows_insertSetter _ _
  | hookRef => exact d.grows_addHookRef _
  | reactive => exact d.grows_addReactive _
  | helper => exact d.grows_addHelper _
  | report => exact d.grows_report source _ _ _
  | review => exact d.grows_review source _ _ _
  | cut => exact d.grows_cut _

end Draft

theorem Walk.grows_visit (w : Walk) (n : Node) : w.draft.Grows (w.visit source n).draft := by
  have hreaches : Draft.Reaches source w.draft.scope.propsBag (fun _ => True) w.draft
      (w.visit source n).draft :=
    reaches_visit n (fun _ _ _ _ _ _ _ _ _ _ _ => trivial) w
  exact hreaches.preserves (fun _ _ hstep hd => hd.trans (.step hstep)) rfl (.refl _)

end Sveltify
