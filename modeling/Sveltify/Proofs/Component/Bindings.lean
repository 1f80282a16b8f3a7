import Sveltify.Proofs.Component.Growth

/-! Names that declarations bind, and what becomes of them when a declaration only feeds the symbol
table: a variable, the setter of one, or the target of a reactive statement. -/

namespace Sveltify

open Script.Tree

/-! Names that are bound and lost. -/

namespace Script.Tree

variable {α : Type}

def boundNames (declarator : Script.Tree α) : List String :=
  match declarator.kids with
  | target :: _ => target.bindingNames
  | [] => []

/-- The names that are lost from a property of a pattern that unpacks the props: those of a pattern
with a default. -/
def lostFromProp (property : Script.Tree α) : List String :=
  match property with
  | .node _ .defaulted _ [.node _ (.ident _) _ _, _] => []
  | .node _ .rest _ [.node _ (.ident _) _ _] => []
  | .node _ .patternProperty _ [key, .node _ .assignPattern _ [target, _]] =>
    if key.keyName?.isSome && target.ident?.isNone then target.bindingNames else []
  | .node _ .patternProperty _ [_, _] => []
  | other => other.bindingNames

/-- The names that are lost from a property of a pattern that unpacks the state: all but the key. -/
def lostFromState (property : Script.Tree α) : List String :=
  property.bindingNames.filter fun name => unpackedState? property != some name

/-- The names that are lost from the pattern of a state hook: all but the variable and its
setter. -/
def lostFromHook (pattern : Script.Tree α) : List String :=
  match pattern.kids.dropLast.map ident? with
  | some first :: rest => pattern.bindingNames.filter fun name =>
      name != first && rest.head?.join != some name
  | _ => pattern.bindingNames

/-- The names that are lost when a declarator only feeds the symbol table. -/
def lostNames (declarator : Script.Tree α) : List String :=
  match declarator.kids with
  | [target, value] =>
    match target.kind with
    | .objectPattern =>
      if value.unparen.isThisMember "state" then target.kids.flatMap lostFromState
      else target.kids.flatMap lostFromProp
    | .arrayPattern => lostFromHook target
    | _ => []
  | _ => declarator.boundNames

def lostFromParameter (pattern : Script.Tree α) : List String :=
  match pattern with
  | .node _ .objectPattern _ properties => properties.flatMap lostFromProp
  | .node _ .assignPattern _ (target :: _) =>
    match target.kind with
    | .objectPattern => target.kids.flatMap lostFromProp
    | _ => target.bindingNames
  | other => other.bindingNames

def isRoutine (declarator : Script.Tree α) : Bool :=
  match declarator.kids with
  | [_, value] => value.unparen.isFunction || value.unparen.isCallOf "useCallback"
  | _ => false

variable {t : Script.Tree α}

theorem bindingNames_objectPattern (h : t.kind = .objectPattern) :
    t.bindingNames = allBindingNames t.kids := by
  obtain ⟨l, kind, _, _⟩ := t
  obtain rfl : kind = .objectPattern := h
  rw [bindingNames, kids_node]

theorem bindingNames_of_ident? {name} (h : t.ident? = some name) :
    t.bindingNames = [name] := by
  obtain ⟨l, kind, _, _⟩ := t
  cases kind <;> simp [ident?] at h
  rw [bindingNames, h]

theorem ident?_of_kind {name} (h : t.kind = .ident name) : t.ident? = some name := by
  obtain ⟨l, kind, _, _⟩ := t
  obtain rfl : kind = .ident name := h
  rfl

theorem kids_of_role {scope role}
    (h : declaratorRole? scope t = some role) : ∃ target value, t.kids = [target, value] := by
  unfold declaratorRole? at h
  split at h
  · next target value hkids => exact ⟨target, value, hkids⟩
  · simp at h

theorem target_of_role {scope target value role} (h : declaratorRole? scope t = some role)
    (hkids : t.kids = [target, value]) :
    match role with
    | .props => target.kind = .objectPattern ∧ value.unparen.isThisMember "state" = false
    | .state => target.kind = .objectPattern ∧ value.unparen.isThisMember "state"
    | .stateHook => target.kind = .arrayPattern
    | .refHook | .ref => ∃ name, target.kind = .ident name := by
  unfold declaratorRole? at h
  simp only [hkids] at h
  split at h
  · next hkind =>
    split at h
    · next hprops =>
      obtain rfl := Option.some.inj h
      refine ⟨hkind, ?_⟩
      simp only [isThisMember, beq_iff_eq] at hprops
      simp [isThisMember, hprops]
    split at h
    · next hbag =>
      obtain rfl := Option.some.inj h
      refine ⟨hkind, ?_⟩
      generalize value.unparen = init at hbag
      obtain ⟨l, kind, _, _⟩ := init
      cases kind <;> simp [ident?] at hbag
      simp [isThisMember, thisMember?, memberObject?]
    split at h
    · next hstate =>
      obtain rfl := Option.some.inj h
      exact ⟨hkind, hstate⟩
    · simp at h
  · next hkind =>
    split at h
    · obtain rfl := Option.some.inj h
      exact hkind
    · simp at h
  · next name hkind =>
    split at h
    · obtain rfl := Option.some.inj h
      exact ⟨name, hkind⟩
    split at h
    · obtain rfl := Option.some.inj h
      exact ⟨name, hkind⟩
    · simp at h
  · simp at h

end Script.Tree

/-! What becomes of a name. -/

/-- A reactive statement that sets a variable. -/
inductive Sets (source : Source) (name : String) : String → Prop
  | rename (prop : String) : Sets source name s!"$: {name} = {prop};"
  | unpack {pattern : Part} (prop : String) (h : name ∈ pattern.bindingNames) :
      Sets source name s!"$: ({source.sliceString pattern.span} = {prop});"

namespace Draft

variable {α : Type} {source : Source} {d d' : Draft}

/-- A name is a variable, the setter of one, or set by a reactive statement. -/
def Accounts (source : Source) (d : Draft) (name : String) : Prop :=
  d.symbols.contains name ∨ (d.scope.setters.get? name).isSome ∨
    ∃ text ∈ d.reactive, Sets source name text

def Flags (source : Source) (d : Draft) (t : Script.Tree α) : Prop :=
  ∃ key : Script.Tree α, key.Within t ∧ key.keyName? = none ∧
    ⟨.manualReview, "computed prop destructuring needs manual review",
      (source.lineColumn key.span.start).1, (source.lineColumn key.span.start).2⟩ ∈ d.diagnostics

def Binds (source : Source) (d : Draft) (t : Script.Tree α) (names lost : List String) : Prop :=
  ∀ name ∈ names, name ∈ lost ∨ d.Accounts source name ∨ d.Flags source t

/-- No name of a declaration is lost, but for the functions that it declares. -/
def Declares (source : Source) (d : Draft) (declaration : Script.Tree α) : Prop :=
  ∀ q ∈ declaration.kids, q.isRoutine ∨ d.Binds source q q.boundNames q.lostNames

variable {t : Script.Tree α} {names lost : List String} {name : String}

theorem Accounts.grows (h : d.Accounts source name) (hd : d.Grows d') :
    d'.Accounts source name := by
  refine h.imp hd.symbols.contains (Or.imp (hd.scope.setters name) ?_)
  rintro ⟨text, htext, hsets⟩
  exact ⟨text, hd.reactive htext, hsets⟩

theorem Flags.grows (h : d.Flags source t) (hd : d.Grows d') : d'.Flags source t := by
  obtain ⟨key, hkey, hname, hreport⟩ := h
  exact ⟨key, hkey, hname, hd.diagnostics hreport⟩

theorem Flags.within {u} (h : d.Flags source t) (ht : t.Within u) :
    d.Flags source u := by
  obtain ⟨key, hkey, hname, hreport⟩ := h
  exact ⟨key, hkey.trans ht, hname, hreport⟩

theorem accounts_of_isProp (h : d.symbols.isProp name) : d.Accounts source name :=
  .inl (by simp [SymbolTable.contains, h])

theorem accounts_of_isState (h : d.symbols.isState name) : d.Accounts source name :=
  .inl (by simp [SymbolTable.contains, h])

theorem accounts_of_isRef (h : d.symbols.isRef name) : d.Accounts source name :=
  .inl (by simp [SymbolTable.contains, h])

theorem Binds.grows (h : d.Binds source t names lost) (hd : d.Grows d') :
    d'.Binds source t names lost :=
  fun name hname => (h name hname).imp_right (Or.imp (·.grows hd) (·.grows hd))

theorem Declares.grows (h : d.Declares source t) (hd : d.Grows d') : d'.Declares source t :=
  fun q hq => (h q hq).imp_right (·.grows hd)

theorem Binds.within {u} (h : d.Binds source t names lost) (ht : t.Within u) :
    d.Binds source u names lost :=
  fun name hname => (h name hname).imp_right (Or.imp_right (·.within ht))

theorem binds_of_accounts (h : ∀ name ∈ names, d.Accounts source name) :
    d.Binds source t names lost :=
  fun name hname => .inr (.inl (h name hname))

theorem Binds.all {ts f}
    (hts : ∀ u ∈ ts, u.Within t) (h : ∀ u ∈ ts, d.Binds source u u.bindingNames (f u)) :
    d.Binds source t (allBindingNames ts) (ts.flatMap f) := by
  intro name hname
  obtain ⟨u, hu, hname⟩ := exists_of_mem_allBindingNames hname
  rcases h u hu name hname with hlost | haccounts | hflags
  · exact .inl (List.mem_flatMap.2 ⟨u, hu, hlost⟩)
  · exact .inr (.inl haccounts)
  · exact .inr (.inr (hflags.within (hts u hu)))

end Draft

end Sveltify
