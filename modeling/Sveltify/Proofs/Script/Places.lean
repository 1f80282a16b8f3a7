import Sveltify.Proofs.Script.Naming
import Sveltify.Proofs.Source.Splice

/-! What is known of a syntax tree that was read: every node stands between two places of the script,
and the names that it gives are words, but for keys in quotes. -/

namespace Sveltify.Script

open List
open Text (isName)

def Tree.Quotes {α : Type} (t : Tree α) (name : String) : Prop :=
  t.kind.isKeyed = true ∧ ∃ key rest, t.kids = key :: rest ∧ key.kind = .string name

/-- The ends of the node lie between characters of the text, and the names that it gives are words
unless it quotes them. -/
structure Tree.Placed (text : Text) (n : Node) : Prop where
  start : (Source.mk text).isBoundary n.span.start
  stop : (Source.mk text).isBoundary n.span.stop
  names : ∀ name, n.Calls name → isName name.toList ∨ n.Quotes name

namespace Grammar

variable [Subject]

theorem isBoundary_place (place : Place) : (Source.mk Subject.text).isBoundary place.offset := by
  obtain ⟨read, htext, hsize⟩ := place.inScript
  exact Source.isBoundary_iff.2 ⟨read, place.rest, htext, hsize⟩

theorem placed_of {kind kids} {extent : Extent}
    (hident : ∀ k ∈ kids, ∀ name, k.kind = .ident name → isName name.toList)
    (hword : kind.isTag = false →
      ∀ k ∈ kids, ∀ name, k.kind = .word name → isName name.toList) :
    Tree.Placed Subject.text (.of kind extent.span kids) := by
  refine ⟨isBoundary_place _, isBoundary_place _, fun name hcalls => ?_⟩
  cases hcalls with
  | ident hpart hname => exact .inl (hident _ hpart name hname)
  | word htag hpart hname => exact .inl (hword htag _ hpart name hname)
  | quoted hkeyed hkids hname => exact .inr ⟨hkeyed, _, _, hkids, hname⟩

theorem Tag.isName_of_kind {name} {tag : Tag} (h : tag.tree.kind = .ident name) :
    isName name.toList := by
  cases tag with
  | ident word =>
    obtain rfl : word.name = name := Kind.ident.inj h
    exact word.named
  | word | member | namespaced => cases h

theorem Tag.placed {tag : Tag} {m : Script.Node} (h : m.Within tag.tree) :
    Tree.Placed Subject.text m := by
  have hnames {kind : Kind} {extent : Extent} (first second : Tag) (htag : kind.isTag) :
      Tree.Placed Subject.text (.of kind extent.span [first.tree, second.tree]) := by
    refine placed_of (fun k hk name hname => ?_) (by simp [htag])
    obtain rfl | rfl := mem_pair.1 hk <;> exact isName_of_kind hname
  induction tag with
  | ident | word =>
    cases h with
    | self => exact placed_of (by simp) (by simp)
    | kid hk => cases hk
  | member first second _ ihfirst ihsecond | namespaced first second _ ihfirst ihsecond =>
    cases h with
    | self => exact hnames first second rfl
    | kid hk h =>
      obtain rfl | rfl := mem_pair.1 hk
      · exact ihfirst h
      · exact ihsecond h

namespace Node

theorem kind_tree (n : Node) : n.tree.kind = n.kind := by
  cases n <;> rfl

theorem trees_eq (ns : List Node) : trees ns = ns.map tree := by
  induction ns with
  | nil => rfl
  | cons n _ ih => rw [trees, ih, map_cons]

theorem isName_of_ident {name} {n : Node} (h : n.tree.kind = .ident name) :
    isName name.toList := by
  simpa [← n.kind_tree, h, Kind.isNamed] using n.isNamed_kind

theorem isName_of_word {name} {n : Node} (h : n.tree.kind = .word name) :
    isName name.toList := by
  simpa [← n.kind_tree, h, Kind.isNamed] using n.isNamed_kind

theorem placed_of_kids {kind kids} {extent : Extent} :
    Tree.Placed Subject.text (.of kind extent.span (trees kids)) := by
  rw [trees_eq]
  refine placed_of (fun k hk name hname => ?_) fun _ k hk name hname => ?_
  · obtain ⟨n, -, rfl⟩ := mem_map.1 hk
    exact isName_of_ident hname
  · obtain ⟨n, -, rfl⟩ := mem_map.1 hk
    exact isName_of_word hname

mutual

theorem placed : ∀ (n : Node) {m : Script.Node}, m.Within n.tree → Tree.Placed Subject.text m
  | .of kind extent kids _, m, h => by
    cases h with
    | self => exact placed_of_kids
    | kid hk h => exact placed_of_mem kids hk h
  | .tagged tag extent, m, h => by
    cases h with
    | self => exact placed_of (by simpa using fun _ => tag.isName_of_kind) (by simp [Kind.isTag])
    | kid hk h =>
      obtain rfl := mem_singleton.1 hk
      exact tag.placed h
  | .attr tag value extent, m, h => by
    cases h with
    | self =>
      refine placed_of (fun k hk name hname => ?_) (by simp [Kind.isTag])
      obtain rfl | rfl := mem_pair.1 hk
      · exact tag.isName_of_kind hname
      · exact isName_of_ident hname
    | kid hk h =>
      obtain rfl | rfl := mem_pair.1 hk
      · exact tag.placed h
      · exact placed value h

theorem placed_of_mem : ∀ (ns : List Node) {k m : Script.Node}, k ∈ trees ns → m.Within k →
    Tree.Placed Subject.text m
  | n :: ns, k, m, hk, h => by
    obtain rfl | hk := mem_cons.1 hk
    · exact placed n h
    · exact placed_of_mem ns hk h

end

end Node

end Grammar

theorem placed_of_parse {dialect text parsed}
    (h : parse dialect text = .ok parsed) {n} (hn : n.Within parsed.module) :
    Tree.Placed (body text) n := by
  unfold parse read at h
  dsimp only at h
  split at h
  · next module final _ =>
    obtain rfl := Except.ok.inj h
    exact @Grammar.Node.placed ⟨body text⟩ module n hn
  · simp at h

end Sveltify.Script
