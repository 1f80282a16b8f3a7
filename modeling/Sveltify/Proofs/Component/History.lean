import Mathlib.Data.List.DropRight
import Sveltify.Proofs.Component.Names

/-! The variable block over every history of a symbol table. Each of the five lists of a table is a
record of what happened to its names: a name is given, perhaps with a value, or it is forgotten. From
the record alone it follows which names are declared, in which order and with which values. -/

namespace Sveltify

open List Symbol

namespace Symbol

/-! Records of names. -/

/-- What happens to a name in a list of symbols. -/
inductive Event where
  | give (name : String) (value : Option String)
  | forget (name : String)
deriving DecidableEq

def Event.gift? (name : String) : Event → Option (Option String)
  | .give other value => if other = name then some value else none
  | .forget _ => none

def since (name : String) (events : List Event) : List Event :=
  events.rtakeWhile (· != .forget name)

/-- What the name was given since it was last forgotten, one entry for every registration. -/
def gifts (name : String) (events : List Event) : List (Option String) :=
  (since name events).filterMap (·.gift? name)

/-- The first value that the name was given since it was last forgotten. -/
def firstValue (name : String) (events : List Event) : Option String :=
  (gifts name events).findSome? id

/-- The number of events before the one that created the name, which is the first to register it since
it was last forgotten. -/
def created (name : String) (events : List Event) : Nat :=
  events.length - (since name events).length +
    (since name events).findIdx fun e => (e.gift? name).isSome

def record (symbols : List Symbol) : Event → List Symbol
  | .give name value => register name value symbols
  | .forget name => symbols.filter (·.name != name)

def recorded (events : List Event) : List Symbol :=
  events.foldl record []

section

variable {name : String} {events : List Event}

theorem since_append (e : Event) : since name (events ++ [e]) =
    if e = .forget name then [] else since name events ++ [e] := by
  rw [since, rtakeWhile_concat]
  by_cases he : e = .forget name <;> simp [since]

theorem length_since_le : (since name events).length ≤ events.length :=
  (rtakeWhile_suffix _ _).length_le

theorem gifts_append_give (other : String) (value : Option String) :
    gifts name (events ++ [.give other value]) =
      gifts name events ++ if other = name then [value] else [] := by
  rw [gifts, since_append, gifts]
  by_cases h : other = name <;> simp [Event.gift?, h]

theorem gifts_append_forget (other : String) :
    gifts name (events ++ [.forget other]) = if other = name then [] else gifts name events := by
  rw [gifts, since_append]
  by_cases h : other = name <;> simp [Event.gift?, h, gifts]

theorem gifts_ne_nil_iff : gifts name events ≠ [] ↔
    ∃ e ∈ since name events, (e.gift? name).isSome := by
  rw [gifts]
  simp [Option.isSome_iff_ne_none]

theorem created_lt (h : gifts name events ≠ []) : created name events < events.length := by
  have hlt := findIdx_lt_length.2 (gifts_ne_nil_iff.1 h)
  have hle : (since name events).length ≤ events.length := length_since_le
  unfold created
  omega

theorem created_append (h : gifts name events ≠ []) {e} (he : e ≠ .forget name) :
    created name (events ++ [e]) = created name events := by
  have hlt := findIdx_lt_length.2 (gifts_ne_nil_iff.1 h)
  simp only [created, since_append, if_neg he, length_append, findIdx_append, hlt, if_true]
  omega

theorem created_append_give (h : gifts name events = []) (value : Option String) :
    created name (events ++ [.give name value]) = events.length := by
  have hle : (since name events).length ≤ events.length := length_since_le
  have hnone : (since name events).findIdx (fun e => (e.gift? name).isSome) =
      (since name events).length := by
    rw [findIdx_eq_length]
    intro e he
    rw [← Bool.not_eq_true]
    exact fun hsome => gifts_ne_nil_iff.2 ⟨e, he, hsome⟩ h
  simp only [created, since_append, reduceCtorEq, if_false, findIdx_append, hnone]
  simp [Event.gift?]
  omega

theorem recorded_append (e : Event) : recorded (events ++ [e]) = record (recorded events) e := by
  simp [recorded]

theorem names_recorded (events : List Event) :
    (∀ name, name ∈ (recorded events).map (·.name) ↔ gifts name events ≠ []) ∧
    ((recorded events).map (·.name)).Pairwise fun a b => created a events < created b events := by
  induction events using List.reverseRecOn with
  | nil => simp [recorded, gifts, since]
  | append_singleton events e ih =>
    obtain ⟨hmem, hpairwise⟩ := ih
    -- The names that stay keep their place.
    have hkept : ∀ {names : List String}, names.Sublist ((recorded events).map (·.name)) →
        (∀ a ∈ names, e ≠ .forget a) →
        names.Pairwise fun a b => created a (events ++ [e]) < created b (events ++ [e]) := by
      intro _ hsub he
      refine (hpairwise.sublist hsub).imp_of_mem fun {a b} ha hb hab => ?_
      rwa [created_append ((hmem a).1 (hsub.mem ha)) (he a ha),
        created_append ((hmem b).1 (hsub.mem hb)) (he b hb)]
    rw [recorded_append]
    cases e with
    | give name =>
      rw [record, map_name_register]
      by_cases hname : name ∈ (recorded events).map (·.name)
      · rw [if_pos hname]
        refine ⟨fun other => ?_, hkept (List.Sublist.refl _) (by simp)⟩
        rw [hmem, gifts_append_give]
        by_cases h : name = other
        · simp [(hmem other).1 (h ▸ hname)]
        · simp [h]
      · have hnone : gifts name events = [] := by simpa using mt (hmem name).2 hname
        rw [if_neg hname]
        refine ⟨fun other => ?_, ?_⟩
        · rw [mem_append, hmem, gifts_append_give]
          rcases eq_or_ne name other with rfl | h
          · simp
          · simp [h, h.symm]
        · refine pairwise_append.2 ⟨hkept (List.Sublist.refl _) (by simp), by simp, ?_⟩
          intro a ha b hb
          obtain rfl := mem_singleton.1 hb
          have hgifts := (hmem a).1 ha
          rw [created_append_give hnone, created_append hgifts (by simp)]
          exact created_lt hgifts
    | forget name =>
      have hnames : (record (recorded events) (.forget name)).map (·.name) =
          ((recorded events).map (·.name)).filter (· != name) := by
        simp [record, filter_map, Function.comp_def]
      rw [hnames]
      refine ⟨fun other => ?_, hkept filter_sublist fun a ha => ?_⟩
      · rw [mem_filter, hmem, gifts_append_forget]
        rcases eq_or_ne name other with rfl | h
        · simp
        · simp [h, h.symm]
      · have := (mem_filter.1 ha).2
        simp only [ne_eq, Event.forget.injEq]
        rintro rfl
        simp at this

theorem nodup_recorded (events : List Event) : ((recorded events).map (·.name)).Nodup :=
  (names_recorded events).2.imp fun h heq => by simp [heq] at h

variable {symbols : List Symbol}

/-- Registering a name leaves the others as they are; the name itself takes the value if it has
none. -/
theorem mem_register_iff (hnames : (symbols.map (·.name)).Nodup) {value s} : s ∈ register name value symbols ↔
      if s.name = name then
        (name ∉ symbols.map (·.name) ∧ s.value = value) ∨
          ∃ old, ⟨name, old⟩ ∈ symbols ∧ s.value = old.or value
      else s ∈ symbols := by
  induction symbols with
  | nil =>
    obtain ⟨n, v⟩ := s
    simp [register]
  | cons first rest ih =>
    obtain ⟨hfirst, hrest⟩ := nodup_cons.1 hnames
    obtain ⟨n, v⟩ := first
    obtain ⟨m, u⟩ := s
    have ih := @ih hrest
    rw [register]
    by_cases hn : n = name
    · subst hn
      have hother : ∀ old, (⟨n, old⟩ : Symbol) ∉ rest :=
        fun old hold => hfirst (mem_map_of_mem (f := (·.name)) hold)
      by_cases hm : m = n
      · subst hm
        cases v <;> simp [hother]
      · cases v <;> simp [hm]
    · by_cases hm : m = name
      · subst hm
        have hne : ¬ m = n := fun h => hn h.symm
        simpa [hn, hne] using ih
      · simp [hn, hm, ih]

theorem register_of_notMem (h : name ∉ symbols.map (·.name)) (value : Option String) :
    register name value symbols = symbols ++ [⟨name, value⟩] := by
  induction symbols with
  | nil => rfl
  | cons _ _ ih =>
    simp only [map_cons, mem_cons, not_or] at h
    rw [register, if_neg (by simpa using Ne.symm h.1), ih h.2, cons_append]

theorem register_of_mem {value} (h : name ∈ symbols.map (·.name))
    (hvalue : ∀ s ∈ symbols, s.value.isNone → value = none) :
    register name value symbols = symbols := by
  induction symbols with
  | nil => simp at h
  | cons first rest ih =>
    obtain ⟨n, v⟩ := first
    simp only [mem_cons, forall_eq_or_imp] at hvalue
    rw [register]
    by_cases hname : n = name
    · cases v with
      | none => simp [hname, hvalue.1 rfl]
      | some => simp [hname]
    · have hrest : name ∈ rest.map (·.name) := by
        simpa [Ne.symm hname] using h
      simp [hname, ih hrest hvalue.2]

theorem mem_recorded_iff {s} : s ∈ recorded events ↔
    gifts s.name events ≠ [] ∧ s.value = firstValue s.name events := by
  induction events using List.reverseRecOn generalizing s with
  | nil => simp [recorded, gifts, since]
  | append_singleton events e ih =>
    rw [recorded_append]
    cases e with
    | give name =>
      rw [record, mem_register_iff (nodup_recorded events), (names_recorded events).1,
        firstValue, gifts_append_give]
      rcases eq_or_ne s.name name with rfl | hname
      · by_cases hnone : gifts s.name events = []
        · simp [ih, hnone]
        · simp [ih, hnone, firstValue]
      · simp [hname, hname.symm, ih, firstValue]
    | forget name =>
      rw [record, mem_filter, ih, firstValue, firstValue,
        gifts_append_forget]
      rcases eq_or_ne s.name name with rfl | hname
      · simp
      · simp [hname, hname.symm]

end

end Symbol

variable (t : SymbolTable)

namespace SymbolTable

/-! Histories of a table. -/

/-- An operation on a symbol table. -/
inductive Operation where
  | addProp (name : String) (default : Option String)
  | removeProp (name : String)
  | addInitialState (name : String) (value : Option String)
  | addState (name : String) (value : Option String)
  | addRef (name : String)
  | addStyleConstant (name value : String)

def Operation.apply (t : SymbolTable) : Operation → SymbolTable
  | .addProp name default => t.addProp name default
  | .removeProp name => t.removeProp name
  | .addInitialState name value => t.addInitialState name value
  | .addState name value => t.addState name value
  | .addRef name => t.addRef name
  | .addStyleConstant name value => t.addStyleConstant name value

def after (history : List Operation) : SymbolTable :=
  history.foldl Operation.apply {}

/-- The lists of a table. -/
inductive Section where
  | props
  | styleConstants
  | initialState
  | refs
  | state
deriving DecidableEq

namespace Section

def order : List Section :=
  [.props, .styleConstants, .initialState, .refs, .state]

def rank : Section → Nat
  | .props => 0
  | .styleConstants => 1
  | .initialState => 2
  | .refs => 3
  | .state => 4

def declaration (s : Section) (symbol : Symbol) : Declaration :=
  match s with
  | .props => ⟨.exportLet, symbol.name, some (symbol.value.getD "undefined")⟩
  | .styleConstants => ⟨.const, symbol.name, symbol.value.map fun value => s!"'{value}'"⟩
  | .initialState | .refs | .state => ⟨.let, symbol.name, symbol.value⟩

@[simp] theorem name_declaration (s : Section) (symbol : Symbol) :
    (s.declaration symbol).name = symbol.name := by
  cases s <;> rfl

end Section

def Operation.event? : Section → Operation → Option Event
  | .props, .addProp name default => some (.give name default)
  | .props, .removeProp name => some (.forget name)
  | .styleConstants, .addStyleConstant name value => some (.give name (some value))
  | .initialState, .addInitialState name value => some (.give name value)
  | .refs, .addRef name => some (.give name none)
  | .state, .addState name value => some (.give name value)
  | _, _ => none

def events (s : Section) (history : List Operation) : List Event :=
  history.filterMap (·.event? s)

def entries (t : SymbolTable) : Section → List Symbol
  | .props => t.props
  | .styleConstants => t.styleConstants.map fun c => ⟨c.1, some c.2⟩
  | .initialState => t.initialState
  | .refs => t.refs.map fun name => ⟨name, none⟩
  | .state => t.state

def Keeps (history : List Operation) (s : Section) (name : String) : Prop :=
  gifts name (events s history) ≠ []

instance (history : List Operation) (s : Section) (name : String) :
    Decidable (Keeps history s name) :=
  inferInstanceAs (Decidable (_ ≠ _))

def home? (history : List Operation) (name : String) : Option Section :=
  Section.order.find? fun s => decide (Keeps history s name)

/-- The symbol of a name in a list after a history: it has the first value recorded there. -/
def symbolOf (history : List Operation) (s : Section) (name : String) : Symbol :=
  ⟨name, firstValue name (events s history)⟩

/-- One name comes before another: it is in an earlier list, or it was created earlier in the same
list. -/
def Earlier (history : List Operation) (a b : String) : Prop :=
  ∃ s s', home? history a = some s ∧ home? history b = some s' ∧
    (s.rank < s'.rank ∨ (s = s' ∧
      created a (events s history) < created b (events s history)))

/-! The lists of a table are records. -/

theorem entries_addRef (name : String) :
    (t.addRef name).entries .refs = register name none (t.entries .refs) := by
  have hnames : (t.entries .refs).map (·.name) = t.refs := by simp [entries, Function.comp_def]
  rw [addRef]
  split
  · next hknown =>
    rw [register_of_mem (hnames ▸ contains_iff_mem.1 hknown) (by simp)]
  · next hnew =>
    rw [register_of_notMem (by simpa [hnames] using hnew)]
    simp [entries]

theorem entries_addStyleConstant (name value : String) :
    (t.addStyleConstant name value).entries .styleConstants =
      register name (some value) (t.entries .styleConstants) := by
  have hnames : (t.entries .styleConstants).map (·.name) = t.styleConstants.map (·.1) := by
    simp [entries]
  rw [addStyleConstant]
  split
  · next hknown =>
    refine (register_of_mem (hnames ▸ by simpa using hknown) fun symbol hsymbol => ?_).symm
    obtain ⟨_, -, rfl⟩ := mem_map.1 hsymbol
    simp
  · next hnew =>
    rw [register_of_notMem (by simpa [hnames] using hnew)]
    simp [entries]

theorem entries_apply (op : Operation) (s : Section) :
    (op.apply t).entries s = (op.event? s).elim (t.entries s) (record (t.entries s)) := by
  cases op with
  | addRef name =>
    cases s with
    | refs => exact t.entries_addRef name
    | _ => simp only [Operation.apply, addRef]; split <;> rfl
  | addStyleConstant name value =>
    cases s with
    | styleConstants => exact t.entries_addStyleConstant name value
    | _ => simp only [Operation.apply, addStyleConstant]; split <;> rfl
  | _ => cases s <;> rfl

theorem entries_after (history : List Operation) (s : Section) :
    (after history).entries s = recorded (events s history) := by
  induction history using List.reverseRecOn with
  | nil => cases s <;> rfl
  | append_singleton history op ih =>
    have hstep : after (history ++ [op]) = op.apply (after history) := by simp [after]
    rw [hstep, entries_apply, ih]
    cases hevent : op.event? s with
    | none => simp [events, hevent]
    | some => simp [events, hevent, recorded]

variable {history : List Operation}

variable {s : Section}

theorem mem_entries_iff {symbol} :
    symbol ∈ (after history).entries s ↔
      Keeps history s symbol.name ∧ symbol = symbolOf history s symbol.name := by
  rw [entries_after, mem_recorded_iff, Keeps, symbolOf]
  obtain ⟨_, _⟩ := symbol
  simp

theorem mem_names_iff {name} :
    name ∈ ((after history).entries s).map (·.name) ↔ Keeps history s name := by
  rw [entries_after]
  exact (names_recorded _).1 name

/-! The declarations of a table. -/

def candidates (t : SymbolTable) (s : Section) : List Declaration :=
  (t.entries s).map s.declaration

theorem propDeclarations_eq : t.propDeclarations = Declaration.sort (t.candidates .props) :=
  rfl

theorem internalDeclarations_eq :
    t.internalDeclarations = Declaration.sort (Declaration.distinct
      ((t.entries .props).map (·.name)) (Section.order.tail.flatMap t.candidates)) := by
  have hcandidates : t.internalCandidates = Section.order.tail.flatMap t.candidates := by
    simp only [internalCandidates, Section.order, tail_cons, flatMap_cons,
      flatMap_nil, append_nil, append_assoc, candidates, entries, map_map]
    rfl
  rw [internalDeclarations, hcandidates]
  rfl

theorem names_candidates (s : Section) :
    (t.candidates s).map (·.name) = (t.entries s).map (·.name) := by
  simp [candidates]

theorem mem_candidates_iff {x} :
    x ∈ (after history).candidates s ↔
      Keeps history s x.name ∧ x = s.declaration (symbolOf history s x.name) := by
  rw [candidates, mem_map]
  constructor
  · rintro ⟨_, hsymbol, rfl⟩
    obtain ⟨hkeeps, heq⟩ := mem_entries_iff.1 hsymbol
    rw [Section.name_declaration, ← heq]
    exact ⟨hkeeps, rfl⟩
  · rintro ⟨hkeeps, heq⟩
    exact ⟨symbolOf history s x.name, mem_entries_iff.2 ⟨hkeeps, rfl⟩, heq.symm⟩

theorem pairwise_candidates (history : List Operation) (s : Section) :
    ((after history).candidates s).Pairwise fun x y =>
      created x.name (events s history) < created y.name (events s history) := by
  have hpairwise := (names_recorded (events s history)).2
  rw [← entries_after, ← names_candidates] at hpairwise
  rwa [pairwise_map] at hpairwise

end SymbolTable

namespace Declaration

theorem distinct_congr {seen seen'} (h : ∀ name, name ∈ seen ↔ name ∈ seen')
    (xs : List Declaration) : distinct seen xs = distinct seen' xs := by
  induction xs generalizing seen seen' with
  | nil => rfl
  | cons first _ ih =>
    have hsame : seen.contains first.name = seen'.contains first.name := by
      rw [Bool.eq_iff_iff, contains_iff_mem, contains_iff_mem, h]
    have hmore : ∀ name, name ∈ first.name :: seen ↔ name ∈ first.name :: seen' := by simp [h]
    rw [distinct, distinct, hsame, ih h, ih hmore]

theorem distinct_append (seen : List String) (xs ys : List Declaration) :
    distinct seen (xs ++ ys) = distinct seen xs ++ distinct (seen ++ xs.map (·.name)) ys := by
  induction xs generalizing seen with
  | nil => simp [distinct]
  | cons _ _ ih =>
    rw [cons_append, distinct, distinct]
    split
    · next hseen =>
      have hmem := contains_iff_mem.1 hseen
      rw [ih]
      congr 1
      refine distinct_congr (fun name => ?_) ys
      simp only [mem_append, map_cons, mem_cons]
      exact ⟨Or.imp_right .inr, by rintro (h | rfl | h) <;> simp [*]⟩
    · rw [ih]
      congr 2
      refine distinct_congr (fun name => ?_) ys
      simp only [mem_append, map_cons, mem_cons]
      tauto

theorem distinct_sublist (seen : List String) (xs : List Declaration) :
    (distinct seen xs).Sublist xs := by
  induction xs generalizing seen with
  | nil => exact List.Sublist.refl _
  | cons first _ ih =>
    rw [distinct]
    split
    · exact (ih seen).cons first
    · exact (ih _).cons_cons first

theorem goesBefore_iff {a b : Declaration} :
    (!decide (b.sortKey < a.sortKey)) = true ↔ ¬ b.sortKey < a.sortKey := by
  rw [Bool.not_eq_true', decide_eq_false_iff_not]

theorem goesBefore_trans (a b c : Declaration) (hab : (!decide (b.sortKey < a.sortKey)))
    (hbc : (!decide (c.sortKey < b.sortKey))) : (!decide (c.sortKey < a.sortKey)) := by
  rw [goesBefore_iff] at *
  exact List.not_lt.2 (List.le_trans (List.not_lt.1 hab) (List.not_lt.1 hbc))

theorem goesBefore_total (a b : Declaration) :
    (!decide (b.sortKey < a.sortKey) || !decide (a.sortKey < b.sortKey)) := by
  rw [Bool.or_eq_true, goesBefore_iff, goesBefore_iff]
  exact (List.le_total a.sortKey b.sortKey).imp List.not_lt.2 List.not_lt.2

theorem mem_distinct_of_nodup {seen xs x}
    (h : (xs.map (·.name)).Nodup) : x ∈ distinct seen xs ↔ x.name ∉ seen ∧ x ∈ xs := by
  have hsub := (distinct_sublist seen xs).subset
  refine ⟨fun hx => ⟨(mem_distinct_iff.1 hx).1, hsub hx⟩, fun ⟨hseen, hx⟩ => ?_⟩
  obtain ⟨y, hy, hname⟩ := exists_mem_distinct hx hseen
  rwa [inj_on_of_nodup_map h (hsub hy) hx hname] at hy

theorem filter_sort (xs : List Declaration) (key : Text) :
    (sort xs).filter (·.sortKey = key) = xs.filter (·.sortKey = key) := by
  have hsub : (xs.filter (·.sortKey = key)).Sublist (sort xs) := by
    refine sublist_mergeSort goesBefore_trans goesBefore_total ?_ filter_sublist
    refine pairwise_of_forall_mem_list fun a ha b hb => ?_
    have ha : a.sortKey = key := by simpa using (mem_filter.1 ha).2
    have hb : b.sortKey = key := by simpa using (mem_filter.1 hb).2
    rw [goesBefore_iff, ha, hb]
    exact List.lt_irrefl key
  have hfilter := hsub.filter (·.sortKey = key)
  simp only [filter_filter, Bool.and_self] at hfilter
  exact (hfilter.eq_of_length ((sort_perm xs).symm.filter _).length_eq).symm

/-- Declarations in the order of their keys, those of one key in the order that `R` gives. -/
def Before (R : String → String → Prop) (x y : Declaration) : Prop :=
  x.sortKey < y.sortKey ∨ (x.sortKey = y.sortKey ∧ R x.name y.name)

theorem pairwise_sort {R : String → String → Prop} {xs : List Declaration}
    (h : xs.Pairwise fun x y => R x.name y.name) : (sort xs).Pairwise (Before R) := by
  have hsorted : (sort xs).Pairwise fun x y => ¬ y.sortKey < x.sortKey :=
    (pairwise_mergeSort goesBefore_trans goesBefore_total xs).imp fun h => goesBefore_iff.1 h
  rw [pairwise_iff_forall_sublist] at hsorted h ⊢
  intro x y hxy
  by_cases hlt : x.sortKey < y.sortKey
  · exact .inl hlt
  · have heq : x.sortKey = y.sortKey :=
      List.le_antisymm (List.not_lt.1 (hsorted hxy)) (List.not_lt.1 hlt)
    have hsame : [x, y].Sublist (xs.filter (·.sortKey = x.sortKey)) := by
      rw [← filter_sort]
      simpa [heq] using hxy.filter (·.sortKey = x.sortKey)
    exact .inr ⟨heq, h (hsame.trans filter_sublist)⟩

end Declaration

namespace SymbolTable

variable {history : List Operation}

theorem pairwise_order : Section.order.Pairwise fun s s' => s.rank < s'.rank := by
  decide

/-- The home of a name is the list that it is in while it is in none before. -/
theorem home?_eq_some_iff {before rest s name}
    (horder : Section.order = before ++ s :: rest) : home? history name = some s ↔
      Keeps history s name ∧ ∀ s' ∈ before, ¬ Keeps history s' name := by
  have hnotMem : s ∉ before := by
    intro hs
    have hpairwise := pairwise_order
    rw [horder] at hpairwise
    exact Nat.lt_irrefl _ ((pairwise_append.1 hpairwise).2.2 s hs s (by simp))
  constructor
  · intro h
    have hs : decide (Keeps history s name) :=
      find?_some (p := fun s => decide (Keeps history s name)) h
    refine ⟨of_decide_eq_true hs, fun s' hs' hkeeps => hnotMem ?_⟩
    have hsome : (before.find? fun s => decide (Keeps history s name)).isSome :=
      find?_isSome.2 ⟨s', hs', decide_eq_true hkeeps⟩
    obtain ⟨_, hfound⟩ := Option.isSome_iff_exists.1 hsome
    rw [home?, horder, find?_append, hfound] at h
    exact Option.some.inj h ▸ mem_of_find?_eq_some hfound
  · rintro ⟨hs, hbefore⟩
    have hnone : (before.find? fun s => decide (Keeps history s name)) = none := by
      simpa using hbefore
    rw [home?, horder, find?_append, hnone, Option.none_or, find?_cons, decide_eq_true hs]

/-- Of the declarations of some lists, those of names that no list before has: each is in its home,
and they stand in order. -/
theorem distinct_candidates {before rest seen} (horder : Section.order = before ++ rest)
    (hseen : ∀ name, name ∈ seen ↔ ∃ s ∈ before, Keeps history s name) :
    (∀ x, x ∈ Declaration.distinct seen (rest.flatMap (after history).candidates) ↔
      ∃ s ∈ rest, home? history x.name = some s ∧
        x = s.declaration (symbolOf history s x.name)) ∧
    (Declaration.distinct seen (rest.flatMap (after history).candidates)).Pairwise
      fun x y => Earlier history x.name y.name := by
  induction rest generalizing before seen with
  | nil => simp [Declaration.distinct]
  | cons s _ ih =>
    have hnames : ((after history).candidates s).map (·.name) =
        ((after history).entries s).map (·.name) := names_candidates _ s
    have hfirst : ∀ x, x ∈ Declaration.distinct seen ((after history).candidates s) ↔
        home? history x.name = some s ∧ x = s.declaration (symbolOf history s x.name) := by
      intro x
      rw [Declaration.mem_distinct_of_nodup, mem_candidates_iff, home?_eq_some_iff horder, hseen]
      · simp only [not_exists]
        tauto
      · rw [hnames, entries_after]
        exact nodup_recorded _
    obtain ⟨hmem, hpairwise⟩ := @ih (before ++ [s])
      (seen ++ ((after history).candidates s).map (·.name)) (by simpa using horder) (by
        intro _
        rw [hnames, mem_append, hseen, mem_names_iff]
        simp)
    rw [flatMap_cons, Declaration.distinct_append]
    refine ⟨fun x => ?_, pairwise_append.2 ⟨?_, hpairwise, fun x hx y hy => ?_⟩⟩
    · rw [mem_append, hfirst, hmem]
      simp
    · have hsub := Declaration.distinct_sublist seen ((after history).candidates s)
      refine ((pairwise_candidates history s).sublist hsub).imp_of_mem fun {x y} hx hy h => ?_
      exact ⟨s, s, ((hfirst x).1 hx).1, ((hfirst y).1 hy).1, .inr ⟨rfl, h⟩⟩
    · obtain ⟨s', hs', hhome, -⟩ := (hmem y).1 hy
      have hrank := pairwise_order
      rw [horder] at hrank
      exact ⟨s, s', ((hfirst x).1 hx).1, hhome,
        .inl ((pairwise_cons.1 (pairwise_append.1 hrank).2.1).1 s' hs')⟩

theorem keeps_styleConstants_iff {name} :
    Keeps history .styleConstants name ↔ ∃ value, .addStyleConstant name value ∈ history := by
  have hsince : since name (events .styleConstants history) =
      events .styleConstants history := by
    rw [since, rtakeWhile_eq_self_iff]
    intro e he
    obtain ⟨op, -, hop⟩ := mem_filterMap.1 he
    cases op <;> simp [Operation.event?] at hop
    simp [← hop]
  rw [Keeps, gifts_ne_nil_iff, hsince]
  constructor
  · rintro ⟨e, he, hgift⟩
    obtain ⟨op, hmem, hop⟩ := mem_filterMap.1 he
    cases op <;> simp [Operation.event?] at hop
    next other value =>
    obtain rfl : other = name := by
      by_contra hne
      simp [← hop, Event.gift?, hne] at hgift
    exact ⟨value, hmem⟩
  · rintro ⟨value, hmem⟩
    exact ⟨.give name (some value), mem_filterMap.2 ⟨_, hmem, rfl⟩, by simp [Event.gift?]⟩

end SymbolTable

end Sveltify
