import Sveltify.Proofs.Component.Rewriting
import Sveltify.Proofs.Source.Edits

/-! How generated code is written: its text from the texts of its parts, and the places at which it
differs from the source. -/

variable (span : Span) (o : Output) (os : List Output) (n : Node)

namespace Sveltify

open List
open Script (Node Kind)
open Script.Tree Walk
open Text (joinWith)

namespace Output

variable {source : Source}

theorem pieces_cons : pieces source (o :: os) = pieces source [o] ++ pieces source os := by
  obtain ⟨l, _, _, _⟩ := o
  cases l <;> simp [pieces]

theorem pieces_untouched : pieces source [untouched n] = [] := by
  induction n using inside_induction with
  | h n ih =>
    obtain ⟨⟨⟩, _, _, kids⟩ := n
    rw [untouched, relabel_node, pieces, pieces, append_nil]
    have hkids : ∀ k ∈ kids, pieces source [untouched k] = [] :=
      fun k hk => ih k (inside_of_mem_kids hk)
    clear ih
    induction kids with
    | nil => rfl
    | cons k _ ihk =>
      rw [map_cons, pieces_cons, ihk fun m hm => hkids m (by simp [hm]), append_nil]
      exact hkids k (by simp)

theorem pieces_kept (kind : Kind) (span : Span) (os : List Output) :
    pieces source [.node .kept kind span os] = pieces source os := by
  rw [pieces, pieces, append_nil]

variable {w : Walk}

theorem pieces_withArguments {n os} (hn : n.kind = .call)
    (h : RewritesAll source w n.arguments os) :
    pieces source [withArguments os n] = pieces source os := by
  fun_cases withArguments os n with
  | case1 l span callee l' inner args types =>
    rw [pieces_kept, pieces_cons, pieces_untouched, nil_append, pieces_cons, pieces_kept,
      pieces_untouched, append_nil]
  | case2 n hother =>
    have hargs : n.arguments = [] := by
      fun_cases arguments n with
      | case1 l span callee l' inner args types => exact absurd rfl (hother l span callee l' inner args types)
      | case2 => simp at hn
      | case3 => rfl
    rw [hargs] at h
    cases h
    exact pieces_untouched n

theorem label_untouched : (untouched n).label = .kept := by
  cases n
  rfl

theorem label_withArguments : (withArguments os n).label = .kept := by
  fun_cases withArguments os n with
  | case1 => rfl
  | case2 => exact label_untouched n

theorem pieces_wrap : pieces source [wrap o n] = pieces source [o] := by
  fun_induction wrap o n with
  | case1 l _ _ ih => rw [pieces_kept, ih]
  | case2 => rfl

theorem render_pieces (hgone : ∀ range, o.label = .gone range → range = o.span) :
    EditSet.render ⟨pieces source [o]⟩ source o.span = text source o := by
  obtain ⟨l, _, span, _⟩ := o
  cases l with
  | kept => rw [pieces_kept, span_node, text]
  | word | made | lines => exact EditSet.render_whole _ _
  | gone range =>
    obtain rfl : range = span := hgone range rfl
    exact EditSet.render_whole _ _

theorem texts_eq : texts source os = os.map (text source) := by
  induction os with
  | nil => rfl
  | cons o _ ih => rw [texts, ih, map_cons]

theorem pieces_lines (indent : Text) (kind : Kind) (span : Span) (os : List Output) :
    pieces source [.node (.lines indent) kind span os] =
      [⟨span, joinWith ('\n' :: indent) (os.map (text source))⟩] := by
  rw [pieces, texts_eq, pieces]

theorem text_word (word : Text) (kind : Kind) (span : Span) (kids : List Output) :
    text source (.node (.word word) kind span kids) = word :=
  rfl

theorem text_name (id : String) : text source (name span id) = id.toList :=
  rfl

theorem text_call (callee : Output) (args : List Output) :
    text source (call span callee args) = text source callee ++ ['('] ++
      joinWith ", ".toList (args.map (text source)) ++ [')'] := by
  rw [← texts_eq]
  rfl

theorem text_member (object property : Output) :
    text source (.node .made .member span [object, property]) =
      text source object ++ ['.'] ++ text source property :=
  rfl

theorem text_assignment (target : String) (o : Output) :
    text source (assignment span target o) =
      assignmentText target (text source o) := by
  change target.toList ++ [' '] ++ "=".toList ++ [' '] ++ text source o = _
  simp [assignmentText]

theorem text_afterUpdate : text source (afterUpdate span o) = callbackText (text source o) := by
  rfl

theorem text_sequence :
    text source (sequence span os) = joinWith ", ".toList (os.map (text source)) := by
  fun_cases sequence span os with
  | case1 => rfl
  | case2 =>
    rw [← texts_eq]
    rfl

theorem text_lines (indent : Text) (kind : Kind) (span : Span) (os : List Output) :
    text source (.node (.lines indent) kind span os) =
      joinWith ('\n' :: indent) (os.map (text source)) := by
  rw [text, texts_eq]

theorem map_assignmentText {R : Node → Output → Prop} {entries : List (String × Node)}
    {outs : List (String × Output)}
    (h : List.Forall₂ (fun e f => e.1 = f.1 ∧ R e.2 f.2) entries outs)
    (hR : ∀ m p, R m p → w.edits.render source m.span = text source p) :
    outs.map (fun entry => assignmentText entry.1 (text source entry.2)) =
      entries.map fun entry =>
        assignmentText entry.1 (w.edits.render source entry.2.span) := by
  induction h with
  | nil => rfl
  | cons hfirst _ ih => rw [map_cons, map_cons, ih, hfirst.1, hR _ _ hfirst.2]

theorem texts_updates {args os v} {u : Visit.Update Unit} {Q : Walk → Prop} (h : SameUpdate source Q args os u v)
    (hrender : ∀ m p, Carried source Q args os m p → w.edits.render source m.span = text source p) :
    (updates span v).map (text source) = w.updateTexts source u := by
  have hcallback : v.callback.map (fun o => callbackText (text source o)) =
      u.callback.map fun n => callbackText (w.edits.render source n.span) := by
    obtain ⟨entries, callback⟩ := u
    obtain ⟨_, _⟩ := v
    cases h.callback with
    | none => rfl
    | some hc => rw [Option.map_some, Option.map_some, hrender _ _ hc]
  unfold updates updateTexts
  rw [map_append, map_map, ← map_assignmentText h.entries hrender, ← hcallback]
  congr 1
  · exact map_congr_left fun entry _ => text_assignment span entry.1 entry.2
  · cases v.callback with
    | none => rfl
    | some => simp [text_afterUpdate]

theorem text_setValue (target : String) (value : Option (Bool × Output)) :
    text source (assignment span target (setValue span target value)) =
      setterText target (value.map fun p => (p.1, text source p.2)) := by
  rw [text_assignment]
  match value with
  | none => rfl
  | some (false, o) => rfl
  | some (true, o) =>
    change assignmentText target (['('] ++ text source o ++ [')'] ++ ['('] ++ target.toList ++
      [')']) = _
    simp [setterText]

end Output

end Sveltify
