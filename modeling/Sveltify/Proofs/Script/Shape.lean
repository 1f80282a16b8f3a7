import Sveltify.Script.Parse
import Sveltify.Script.Shape

/-! Shapes of trees: they do not depend on labels, and what is found in a node stands in it. -/

namespace Sveltify.Script.Tree

open List

variable {α β : Type} (f : Tree α → List (Tree β) → β) (t : Tree α)

@[simp] theorem kind_node (label : α) (kind : Kind) (span : Span) (kids : List (Tree α)) :
    (node label kind span kids).kind = kind :=
  rfl

@[simp] theorem span_node (label : α) (kind : Kind) (span : Span) (kids : List (Tree α)) :
    (node label kind span kids).span = span :=
  rfl

@[simp] theorem kids_node (label : α) (kind : Kind) (span : Span) (kids : List (Tree α)) :
    (node label kind span kids).kids = kids :=
  rfl

theorem relabelAll_eq (ts : List (Tree α)) : relabelAll f ts = ts.map (relabel f) := by
  induction ts with
  | nil => rfl
  | cons t _ ih => rw [relabelAll, ih, map_cons]

theorem relabel_node (label : α) (kind : Kind) (span : Span) (kids : List (Tree α)) :
    relabel f (.node label kind span kids) =
      .node (f (.node label kind span kids) (kids.map (relabel f))) kind span
        (kids.map (relabel f)) := by
  rw [relabel, relabelAll_eq]

@[simp] theorem kind_relabel : (t.relabel f).kind = t.kind := by
  cases t
  rfl

@[simp] theorem span_relabel : (t.relabel f).span = t.span := by
  cases t
  rfl

@[simp] theorem kids_relabel : (t.relabel f).kids = t.kids.map (relabel f) := by
  cases t
  rw [relabel_node, kids, kids]

@[simp] theorem ident?_relabel : (t.relabel f).ident? = t.ident? := by
  cases t with
  | node _ kind => cases kind <;> rfl

@[simp] theorem keyName?_relabel : (t.relabel f).keyName? = t.keyName? := by
  cases t with
  | node _ kind => cases kind <;> rfl

@[simp] theorem isFunction_relabel : (t.relabel f).isFunction = t.isFunction := by
  simp [isFunction]

@[simp] theorem unparen_relabel : (t.relabel f).unparen = t.unparen.relabel f := by
  fun_induction unparen t with
  | case1 label span inner ih => simp [relabel_node, unparen, ih]
  | case2 t h =>
    obtain ⟨label, _, _, kids⟩ := t
    rw [relabel_node, unparen]
    rintro _ _ _ heq
    obtain ⟨-, rfl, rfl, hkids⟩ := node.inj heq
    obtain ⟨inner', rest, rfl⟩ : ∃ inner' rest, kids = inner' :: rest := by
      cases kids with
      | nil => simp at hkids
      | cons inner' rest => exact ⟨inner', rest, rfl⟩
    have : rest = [] := by simpa using (List.cons.inj hkids).2
    exact h label _ inner' (by rw [this])

/-! Of the node itself only the label differs from what it is read as. -/

section

variable (l : β) (l' : α) (kind : Kind) (span : Span) (kids : List (Tree α))

theorem memberName?_node : (node l kind span (kids.map (relabel f))).memberName? =
    (node l' kind span kids).memberName? := by
  cases kind
  case member =>
    rcases kids with _ | ⟨_, _ | ⟨⟨_, name, _, _⟩, _ | ⟨_, _⟩⟩⟩
    · rfl
    · rfl
    all_goals cases name <;> rfl
  all_goals rfl

theorem memberObject?_node : (node l kind span (kids.map (relabel f))).memberObject? =
    (node l' kind span kids).memberObject?.map (relabel f) := by
  rcases kids with _ | ⟨_, _ | ⟨_, _ | ⟨_, _⟩⟩⟩ <;> cases kind <;> rfl

theorem callee?_node : (node l kind span (kids.map (relabel f))).callee? =
    (node l' kind span kids).callee?.map (relabel f) := by
  rcases kids with _ | ⟨_, _⟩ <;> cases kind <;> rfl

theorem arguments_node : (node l kind span (kids.map (relabel f))).arguments =
    (node l' kind span kids).arguments.map (relabel f) := by
  cases kind
  case call | new =>
    rcases kids with _ | ⟨_, _ | ⟨⟨_, sort, _, _⟩, _ | ⟨_, _ | ⟨_, _⟩⟩⟩⟩
    · rfl
    · rfl
    · cases sort <;> rfl
    · cases sort
      case list => simp [relabel_node, arguments]
      all_goals rfl
    · cases sort <;> rfl
  all_goals rfl

theorem calleeMember?_node : (node l kind span (kids.map (relabel f))).calleeMember? =
    (node l' kind span kids).calleeMember?.map (relabel f) := by
  simp only [calleeMember?, callee?_node f l l']
  cases (node l' kind span kids).callee? with
  | none => rfl
  | some =>
    simp only [Option.map_some, unparen_relabel, Option.filter_some, kind_relabel]
    split <;> rfl

end

@[simp] theorem memberName?_relabel : (t.relabel f).memberName? = t.memberName? := by
  obtain ⟨_, _, _, _⟩ := t
  rw [relabel_node, memberName?_node]

@[simp] theorem memberObject?_relabel :
    (t.relabel f).memberObject? = t.memberObject?.map (relabel f) := by
  obtain ⟨_, _, _, _⟩ := t
  rw [relabel_node, memberObject?_node]

@[simp] theorem isThis_relabel : (t.relabel f).isThis = t.isThis := by
  simp [isThis]

@[simp] theorem thisMember?_relabel : (t.relabel f).thisMember? = t.thisMember? := by
  simp [thisMember?, Option.any_map]

@[simp] theorem isThisMember_relabel (name : String) (t : Tree α) :
    (t.relabel f).isThisMember name = t.isThisMember name := by
  simp [isThisMember]

@[simp] theorem callee?_relabel :
    (t.relabel f).callee? = t.callee?.map (relabel f) := by
  obtain ⟨_, _, _, _⟩ := t
  rw [relabel_node, callee?_node]

@[simp] theorem arguments_relabel :
    (t.relabel f).arguments = t.arguments.map (relabel f) := by
  obtain ⟨_, _, _, _⟩ := t
  rw [relabel_node, arguments_node]

@[simp] theorem calleeMember?_relabel :
    (t.relabel f).calleeMember? = t.calleeMember?.map (relabel f) := by
  obtain ⟨_, _, _, _⟩ := t
  rw [relabel_node, calleeMember?_node]

@[simp] theorem spreadValue_relabel :
    (t.relabel f).spreadValue = t.spreadValue.relabel f := by
  rcases t with ⟨_, kind, _, _ | ⟨_, _ | ⟨_, _⟩⟩⟩ <;> cases kind <;>
    simp [relabel_node, spreadValue]

theorem calledName?_eq : t.calledName? = t.callee?.bind fun callee =>
    callee.unparen.ident?.or (if callee.unparen.memberObject?.any fun object =>
      object.unparen.ident?.isSome then callee.unparen.memberName? else none) := by
  unfold calledName?
  cases t.callee? with
  | none => rfl
  | some callee =>
    simp only [Option.map_some, Option.bind_some]
    rcases callee.unparen with ⟨_, kind, _, _⟩
    cases kind <;> rfl

@[simp] theorem calledName?_relabel : (t.relabel f).calledName? = t.calledName? := by
  simp [calledName?_eq, Option.bind_map, Option.any_map, Function.comp_def]

@[simp] theorem isCallOf_relabel (name : String) (t : Tree α) :
    (t.relabel f).isCallOf name = t.isCallOf name := by
  simp [isCallOf]

/-! Where the parts that are looked for stand. -/

/-- `m` is `n` or stands somewhere in it. -/
inductive Within (m : Tree α) : Tree α → Prop
  | self : Within m m
  | kid {n k : Tree α} (hk : k ∈ n.kids) (h : Within m k) : Within m n

def Inside (m n : Tree α) : Prop :=
  ∃ k ∈ n.kids, m.Within k

variable {a : Tree α}

theorem Within.trans {b c} (hab : a.Within b) (hbc : b.Within c) : a.Within c := by
  induction hbc with
  | self => exact hab
  | kid hk _ ih => exact .kid hk ih

variable {n m t : Tree α} {p : Tree α → Bool} {ts : List (Tree α)}

theorem Inside.within (h : m.Inside n) : m.Within n := by
  obtain ⟨k, hk, hm⟩ := h
  exact .kid hk hm

theorem Inside.trans_within {b c} (hab : a.Inside b) (hbc : b.Within c) : a.Inside c := by
  induction hbc with
  | self => exact hab
  | kid hk h => exact ⟨_, hk, hab.within.trans h⟩

theorem Within.trans_inside {b c} (hab : a.Within b) (hbc : b.Inside c) : a.Inside c :=
  hbc.imp fun _ hk => ⟨hk.1, hab.trans hk.2⟩

theorem inside_of_mem_kids {k} (h : k ∈ n.kids) : k.Inside n :=
  ⟨k, h, .self⟩

theorem Within.sizeOf_le (h : m.Within n) : sizeOf m ≤ sizeOf n := by
  induction h with
  | self => exact Nat.le_refl _
  | @kid n k hk =>
    obtain ⟨l, _, _, _⟩ := n
    have := sizeOf_lt_of_mem hk
    simp only [kids_node, node.sizeOf_spec] at *
    omega

theorem Inside.sizeOf_lt (h : m.Inside n) : sizeOf m < sizeOf n := by
  obtain ⟨k, hk, hm⟩ := h
  have := hm.sizeOf_le
  obtain ⟨l, _, _, _⟩ := n
  have := sizeOf_lt_of_mem hk
  simp only [kids_node, node.sizeOf_spec] at *
  omega

/-- Induction over everything that stands in a node. -/
@[elab_as_elim] theorem inside_induction {motive : Tree α → Prop}
    (h : ∀ n, (∀ m, m.Inside n → motive m) → motive n) (n : Tree α) : motive n := by
  induction hsize : sizeOf n using Nat.strongRecOn generalizing n with
  | ind _ ih => exact h n fun m hm => ih (sizeOf m) (hsize ▸ hm.sizeOf_lt) m rfl

theorem unparen_unparen (n : Tree α) : n.unparen.unparen = n.unparen := by
  fun_induction unparen n with
  | case1 l _ _ ih => exact ih
  | case2 n h => rw [unparen]; exact h

theorem isThis_unparen (n : Tree α) : n.unparen.isThis = n.isThis := by
  rw [isThis, isThis, unparen_unparen]

theorem unparen_within (n : Tree α) : n.unparen.Within n := by
  fun_induction unparen n with
  | case1 l _ _ ih => exact .kid (by simp) ih
  | case2 => exact .self

theorem unparen_within_statement (l : α) (span : Span) (e : Tree α) :
    e.unparen.Within (.node l .expression span [e]) :=
  (unparen_within e).trans (.kid (by simp) .self)

theorem inside_of_mem_arguments (h : a ∈ n.arguments) : a.Inside n := by
  fun_cases arguments n with
  | case1 l span callee l' span' args types =>
    exact ⟨.node l' .list span' args, by simp, .kid h .self⟩
  | case2 l _ _ l' span' args =>
    exact ⟨.node l' .list span' args, by simp, .kid h .self⟩
  | case3 => simp [arguments] at h

theorem callee?_mem_kids {callee} (h : n.callee? = some callee) : callee ∈ n.kids := by
  fun_cases callee? n with
  | case1 l _ c =>
    obtain rfl : c = callee := by simpa [callee?] using h
    simp
  | case2 => simp [callee?] at h

theorem memberObject?_mem_kids {object} (h : n.memberObject? = some object) :
    object ∈ n.kids := by
  fun_cases memberObject? n with
  | case1 l _ o =>
    obtain rfl : o = object := by simpa [memberObject?] using h
    simp
  | case2 => simp [memberObject?] at h

theorem kind_of_callee? {callee} (h : n.callee? = some callee) : n.kind = .call := by
  fun_cases callee? n with
  | case1 => rfl
  | case2 => simp [callee?] at h

theorem kind_of_memberObject? {object} (h : n.memberObject? = some object) :
    n.kind = .member := by
  fun_cases memberObject? n with
  | case1 => rfl
  | case2 => simp [memberObject?] at h

theorem exists_of_calleeMember? {member} (h : n.calleeMember? = some member) :
    ∃ callee, n.callee? = some callee ∧ callee.unparen = member := by
  obtain ⟨h, -⟩ := Option.filter_eq_some_iff.1 h
  obtain ⟨callee, hcallee, rfl⟩ := Option.map_eq_some_iff.1 h
  exact ⟨callee, hcallee, rfl⟩

theorem calleeMember?_inside {member} (h : n.calleeMember? = some member) :
    member.Inside n := by
  obtain ⟨callee, hcallee, rfl⟩ := exists_of_calleeMember? h
  exact ⟨callee, callee?_mem_kids hcallee, unparen_within callee⟩

theorem spreadValue_within (n : Tree α) : n.spreadValue.Within n := by
  fun_cases spreadValue n with
  | case1 => exact .kid (by simp) .self
  | case2 => exact .self

mutual

def every (p : Tree α → Bool) : Tree α → Bool
  | .node l kind span kids => p (.node l kind span kids) && everyOf p kids

def everyOf (p : Tree α → Bool) : List (Tree α) → Bool
  | [] => true
  | t :: ts => every p t && everyOf p ts

end

theorem everyOf_iff : everyOf p ts ↔ ∀ t ∈ ts, t.every p := by
  induction ts with
  | nil => simp [everyOf]
  | cons t _ ih => simp [everyOf, ih]

theorem every_node_iff : t.every p ↔ p t ∧ ∀ k ∈ t.kids, k.every p := by
  obtain ⟨l, _, _, _⟩ := t
  rw [every, Bool.and_eq_true, everyOf_iff, kids_node]

theorem Within.every (h : m.Within n) (hn : n.every p) : m.every p := by
  induction h with
  | self => exact hn
  | kid hk _ ih => exact ih ((every_node_iff.1 hn).2 _ hk)

theorem every_imp {q} (h : ∀ m, p m → q m) (hn : n.every p) : n.every q := by
  induction n using inside_induction with
  | h n ih =>
    obtain ⟨hroot, hkids⟩ := every_node_iff.1 hn
    exact every_node_iff.2 ⟨h n hroot, fun k hk => ih k (inside_of_mem_kids hk) (hkids k hk)⟩

theorem Within.of_every (h : m.Within n) (hn : n.every p) : p m :=
  (every_node_iff.1 (h.every hn)).1

theorem every_relabel {p q} (h : ∀ m, p (m.relabel f) = q m)
    (n : Tree α) : (n.relabel f).every p = n.every q := by
  induction n using inside_induction with
  | h n ih =>
    rw [Bool.eq_iff_iff, every_node_iff, every_node_iff, h, kids_relabel]
    refine and_congr_right fun _ => ⟨fun hall k hk => ?_, fun hall k hk => ?_⟩
    · rw [← ih k (inside_of_mem_kids hk)]
      exact hall _ (mem_map_of_mem hk)
    · obtain ⟨m, hm, rfl⟩ := mem_map.1 hk
      rw [ih m (inside_of_mem_kids hm)]
      exact hall m hm

theorem anyOf_iff {p} : anyOf p ts ↔ ∃ t ∈ ts, t.any p := by
  induction ts with
  | nil => simp [anyOf]
  | cons t _ ih => simp [anyOf, ih]

theorem any_node_iff {p} : t.any p ↔ p t.kind ∨ ∃ k ∈ t.kids, k.any p := by
  obtain ⟨l, _, _, _⟩ := t
  rw [any, Bool.or_eq_true, anyOf_iff, kind_node, kids_node]

theorem any_iff_within {p} : t.any p ↔ ∃ m : Tree α, m.Within t ∧ p m.kind := by
  constructor
  · intro h
    induction t using inside_induction with
    | h t ih =>
      rcases any_node_iff.1 h with h | ⟨k, hk, h⟩
      · exact ⟨t, .self, h⟩
      · obtain ⟨m, hm, hkind⟩ := ih k (inside_of_mem_kids hk) h
        exact ⟨m, .kid hk hm, hkind⟩
  · rintro ⟨m, hm, hkind⟩
    induction hm with
    | self => exact any_node_iff.2 (.inl hkind)
    | kid hk _ ih => exact any_node_iff.2 (.inr ⟨_, hk, ih⟩)

theorem any_of_within {p} (h : m.Within t) (hm : m.any p) : t.any p := by
  obtain ⟨k, hk, hkind⟩ := any_iff_within.1 hm
  exact any_iff_within.2 ⟨k, hk.trans h, hkind⟩

@[simp] theorem any_relabel (p : Kind → Bool) (t : Tree α) : (t.relabel f).any p = t.any p := by
  induction t using inside_induction with
  | h t ih =>
    rw [Bool.eq_iff_iff, any_node_iff, any_node_iff, kind_relabel, kids_relabel]
    refine or_congr_right ⟨?_, ?_⟩
    · rintro ⟨_, hmem, hany⟩
      obtain ⟨k, hk, rfl⟩ := mem_map.1 hmem
      exact ⟨k, hk, ih k (inside_of_mem_kids hk) ▸ hany⟩
    · rintro ⟨k, hk, hany⟩
      exact ⟨k.relabel f, mem_map_of_mem hk, (ih k (inside_of_mem_kids hk)).symm ▸ hany⟩

theorem exists_of_mem_allBindingNames {name} (h : name ∈ allBindingNames ts) :
    ∃ t ∈ ts, name ∈ t.bindingNames := by
  induction ts with
  | nil => simp [allBindingNames] at h
  | cons t _ ih =>
    rw [allBindingNames, mem_append] at h
    rcases h with h | h
    · exact ⟨t, by simp, h⟩
    · obtain ⟨u, hu, hname⟩ := ih h
      exact ⟨u, by simp [hu], hname⟩

theorem exists_of_mem_bindingNames {name} (h : name ∈ t.bindingNames) :
    ∃ m : Tree α, m.Within t ∧ m.ident? = some name := by
  induction t using inside_induction with
  | h t ih =>
    have hpart : ∀ k ∈ t.kids, name ∈ k.bindingNames →
        ∃ m : Tree α, m.Within t ∧ m.ident? = some name := by
      intro k hk hname
      obtain ⟨m, hm, hident⟩ := ih k (inside_of_mem_kids hk) hname
      exact ⟨m, .kid hk hm, hident⟩
    have hparts : name ∈ allBindingNames t.kids →
        ∃ m : Tree α, m.Within t ∧ m.ident? = some name := by
      intro hname
      obtain ⟨k, hk, hname⟩ := exists_of_mem_allBindingNames hname
      exact hpart k hk hname
    unfold bindingNames at h
    split at h
    · obtain rfl := mem_singleton.1 h
      exact ⟨_, .self, rfl⟩
    · exact hparts h
    · exact hparts h
    · exact hpart _ (by simp) h
    · exact hpart _ (by simp) h
    · exact hpart _ (by simp) h
    · exact hpart _ (by simp) h
    · simp at h

end Sveltify.Script.Tree

def Sveltify.Script.statements (text : String) : List Sveltify.Script.Node :=
  ((Sveltify.Script.parse {} text.toList).toOption.map (·.module.kids)).getD []

def Sveltify.Script.firstStatement (text : String) : Sveltify.Script.Node :=
  (Sveltify.Script.statements text).headD default
