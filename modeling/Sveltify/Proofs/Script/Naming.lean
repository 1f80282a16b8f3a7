import Sveltify.Proofs.Script.Shape

/-! The names that a node gives to variables. A name is spelled by a part of the node, as a word or as
a key in quotes; the names of elements and attributes are none. -/

namespace Sveltify.Script

/-- The names in a node of the kind are those of an element or an attribute. -/
def Kind.isTag : Kind → Bool
  | .jsxName | .jsxMember | .jsxNamespaced | .jsxAttribute => true
  | _ => false

def Kind.isKeyed : Kind → Bool
  | .property | .patternProperty | .classField _ => true
  | _ => false

namespace Tree

variable {α β : Type}

/-- A part of the node spells the name. -/
inductive Calls (t : Tree α) (name : String) : Prop
  | ident {part : Tree α} (hpart : part ∈ t.kids) (hname : part.kind = .ident name)
  | word {part : Tree α} (htag : t.kind.isTag = false) (hpart : part ∈ t.kids)
      (hname : part.kind = .word name)
  | quoted {key : Tree α} {rest : List (Tree α)} (hkeyed : t.kind.isKeyed = true)
      (hkids : t.kids = key :: rest) (hname : key.kind = .string name)

variable {name : String} {t : Tree α}

theorem kind_of_ident? (h : t.ident? = some name) : t.kind = .ident name := by
  obtain ⟨_, kind, _, _⟩ := t
  cases kind <;> simp [ident?] at h
  rw [h]
  rfl

theorem calls_of_ident? {part} (hpart : part ∈ t.kids) (h : part.ident? = some name) :
    t.Calls name :=
  .ident hpart (kind_of_ident? h)

theorem calls_of_keyName? {key rest} (hkeyed : t.kind.isKeyed)
    (hkids : t.kids = key :: rest) (h : key.keyName? = some name) : t.Calls name := by
  have htag : t.kind.isTag = false := by
    cases hkind : t.kind <;> simp [hkind, Kind.isKeyed] at hkeyed <;> rfl
  obtain ⟨_, kind, _, _⟩ := key
  cases kind <;> simp [keyName?] at h
  case word =>
    exact .word htag (by rw [hkids]; exact List.mem_cons_self) (by simp [h])
  case string => exact .quoted hkeyed hkids (by simp [h])

theorem calls_of_memberName? (h : t.memberName? = some name) : t.Calls name := by
  unfold memberName? at h
  split at h
  · next object label word span kids =>
    obtain rfl : word = name := by simpa using h
    have hpart : node label (.word word) span kids ∈ [object, node label (.word word) span kids] := by
      simp
    exact .word rfl hpart rfl
  · simp at h

theorem Calls.of_relabel {f : Tree α → List (Tree β) → β} (h : (t.relabel f).Calls name) :
    t.Calls name := by
  cases h with
  | ident hpart hname =>
    rw [kids_relabel] at hpart
    obtain ⟨own, hown, rfl⟩ := List.mem_map.1 hpart
    rw [kind_relabel] at hname
    exact .ident hown hname
  | word htag hpart hname =>
    rw [kind_relabel] at htag
    rw [kids_relabel] at hpart
    obtain ⟨_, hown, rfl⟩ := List.mem_map.1 hpart
    rw [kind_relabel] at hname
    exact .word htag hown hname
  | quoted hkeyed hkids hname =>
    rw [kind_relabel] at hkeyed
    rw [kids_relabel] at hkids
    obtain ⟨_, _, hparts, rfl, rfl⟩ := List.map_eq_cons_iff.1 hkids
    rw [kind_relabel] at hname
    exact .quoted hkeyed hparts hname

end Tree

end Sveltify.Script
