import Sveltify.Proofs.Component.Stems

/-! Objects as assignments. An object becomes one assignment for each of its entries, or nothing at
all: where one entry is not plain, none of the others leaves a trace. -/

namespace Sveltify

open Script (Node)
open Script.Tree

/-- The entry sets one key to a value that stands in it: the key is a word or a string before the
value, or the entry is a name that stands for both. -/
inductive PlainEntry : Node → String → Node → Prop
  | word (span place : Span) (key : String) (kids : List Node) (value : Node) :
    PlainEntry (.node () .property span [.node () (.word key) place kids, value]) key value
  | string (span place : Span) (key : String) (kids : List Node) (value : Node) :
    PlainEntry (.node () .property span [.node () (.string key) place kids, value]) key value
  | shorthand (span : Span) (key : String) (kids : List Node) :
    PlainEntry (.node () (.ident key) span kids) key (.node () (.ident key) span kids)

variable {entry value : Node} {key : String}

theorem plainEntry_iff : PlainEntry entry key value ↔ Visit.entry? entry = some (key, value) := by
  constructor
  · rintro (_ | _ | _) <;> rfl
  · intro h
    obtain ⟨⟨⟩, span, ⟨⟨⟩, kind, _, kids⟩, rfl, hkey⟩ | ⟨rfl, hkind⟩ := entry?_cases h
    · cases kind
      case word name =>
        obtain rfl : name = key := by simpa [keyName?] using hkey
        exact .word ..
      case string name =>
        obtain rfl : name = key := by simpa [keyName?] using hkey
        exact .string ..
      all_goals simp [keyName?] at hkey
    · obtain ⟨⟨⟩, kind, _, _⟩ := entry
      obtain rfl : kind = .ident key := hkind
      exact .shorthand ..

theorem exists_mapM_eq_some {α β : Type} {f : α → Option β} {as : List α}
    (h : ∀ a ∈ as, ∃ b, f a = some b) : ∃ bs, as.mapM f = some bs := by
  induction as with
  | nil => exact ⟨[], rfl⟩
  | cons a _ ih =>
    obtain ⟨b, hb⟩ := h a (by simp)
    obtain ⟨bs, hbs⟩ := ih fun a ha => h a (by simp [ha])
    exact ⟨b :: bs, by simp [hb, hbs]⟩

/-- An object gives one assignment for each entry, in order, where all of them are plain, and its
keys are state from then on. Any other object gives nothing and leaves the walk as it was. -/
theorem objectAssignments_all_or_nothing (source : Source) (w : Walk) (span : Span)
    (entries : List Node) :
    let result := (Visit.objectAssignments source
      (Part.ofNode source (.node () .object span entries))).run w
    (result.1.isSome ↔ ∀ entry ∈ entries, ∃ key value, PlainEntry entry key value) ∧
      (∀ texts, result.1 = some texts → texts.length = entries.length ∧
        List.Forall₂ (fun entry text => ∃ key value, PlainEntry entry key value ∧
          text = key.toList ++ " = ".toList ++ w.edits.render source value.span ∧
          result.2.draft.symbols.isState key) entries texts) ∧
      (result.1 = none → result.2 = w) := by
  rw [Part.ofNode, relabel_node, Walk.objectAssignments_run]
  cases h : entries.mapM Visit.entry? with
  | none =>
    refine ⟨⟨by rintro ⟨⟩, fun hplain => ?_⟩, by simp, fun _ => rfl⟩
    obtain ⟨sets, hsets⟩ := exists_mapM_eq_some (f := Visit.entry?) fun entry hentry => by
      obtain ⟨key, value, hset⟩ := hplain entry hentry
      exact ⟨(key, value), plainEntry_iff.1 hset⟩
    simp [h] at hsets
  | some sets =>
    have hsets := forall₂_of_mapM h
    refine ⟨⟨fun _ entry hentry => ?_, fun _ => rfl⟩, ?_, by simp⟩
    · obtain ⟨set, -, hset⟩ := exists_mem_of_forall₂ hsets.flip hentry
      exact ⟨set.1, set.2, plainEntry_iff.2 hset⟩
    · rintro _ ⟨⟩
      have hstate := Visit.Update.isState_note ⟨sets, none⟩ w.draft
      refine ⟨by simp [hsets.length_eq], List.forall₂_map_right_iff.2 ?_⟩
      refine List.forall₂_iff_zip.2 ⟨hsets.length_eq, fun {entry set} hmem => ?_⟩
      have hplain := plainEntry_iff.2 (List.forall₂_zip hsets hmem)
      exact ⟨set.1, set.2, hplain, rfl, hstate set (List.of_mem_zip hmem).2⟩

end Sveltify
