import Sveltify.Proofs.Component.Meaning
import Sveltify.Proofs.Component.Rendering

/-! Updates as assignments. An update sets its keys all at once, to values that are read before; the
assignments that are written for it are made one after another. Both come to the same where no value
reads a variable that an earlier entry sets. -/

namespace Sveltify

open List
open Script (Node Kind)
open Script.Tree Output

namespace Output

variable {V : Type}

mutual

def exec (ops : Operations V) : Output → Store V → Store V
  | .node .made (.assign "=") _ [.node _ (.ident target) _ _, o], s =>
    Function.update s target (value ops s o)
  | .node .made .paren _ [o], s | .node .made .expression _ [o], s => exec ops o s
  | .node .made .sequence _ os, s | .node (.lines _) _ _ os, s => execAll ops os s
  | _, s => s

def execAll (ops : Operations V) : List Output → Store V → Store V
  | [], s => s
  | o :: os, s => execAll ops os (exec ops o s)

end

variable {ops : Operations V} {s : Store V}

theorem execAll_eq (os : List Output) (s : Store V) :
    execAll ops os s = os.foldl (fun s o => exec ops o s) s := by
  induction os generalizing s with
  | nil => rfl
  | cons o _ ih => rw [execAll, ih, foldl_cons]

theorem exec_assignment (span : Span) (target : String) (o : Output) :
    exec ops (assignment span target o) s = Function.update s target (value ops s o) :=
  rfl

theorem exec_sequence (span : Span) (os : List Output) :
    exec ops (parenthesized span (sequence span os)) s =
      os.foldl (fun s o => exec ops o s) s := by
  rw [← execAll_eq]
  fun_cases sequence span os with
  | case1 => rfl
  | case2 => rfl

theorem exec_lines (indent : Text) (span : Span) (os : List Output) :
    exec ops (.node (.lines indent) .list span (os.map (statement span))) s =
      os.foldl (fun s o => exec ops o s) s := by
  change execAll ops (os.map (statement span)) s = _
  rw [execAll_eq, foldl_map]
  rfl

end Output

namespace Visit.Update

variable {V : Type}

/-- The variables after an update: every key has the value of its last entry. -/
def result (u : Update Unit) (d : Draft) (ops : Operations V) (s : Store V) : Store V := fun x =>
  match u.entries.reverse.find? (·.1 == x) with
  | some entry => d.value ops s entry.2
  | none => s x

/-- The variables after the entries of an update have been assigned in order. -/
def inTurn (u : Update Unit) (d : Draft) (ops : Operations V) (s : Store V) : Store V :=
  u.entries.foldl (fun s entry => Function.update s entry.1 (d.value ops s entry.2)) s

def Independent (u : Update Unit) (d : Draft) : Prop :=
  u.entries.Pairwise fun entry later => entry.1 ∉ d.reads later.2

instance (u : Update Unit) (d : Draft) : Decidable (u.Independent d) :=
  inferInstanceAs (Decidable (List.Pairwise _ _))

theorem inTurn_eq_result {d} {u : Update Unit} (h : u.Independent d)
    (ops : Operations V) (s : Store V) : u.inTurn d ops s = u.result d ops s := by
  obtain ⟨entries, _⟩ := u
  -- The store that has been reached agrees with `s` on all that is still to be read.
  have hrun : ∀ t : Store V, (∀ entry ∈ entries, ∀ x ∈ d.reads entry.2, t x = s x) →
      entries.foldl (fun s entry => Function.update s entry.1 (d.value ops s entry.2)) t =
        fun x => match entries.reverse.find? (·.1 == x) with
          | some entry => d.value ops s entry.2
          | none => t x := by
    unfold Independent at h
    induction entries with
    | nil => intro t _; rfl
    | cons entry rest ih =>
      intro t ht
      rw [pairwise_cons] at h
      have hvalue : d.value ops t entry.2 = d.value ops s entry.2 :=
        Draft.value_congr (ht entry (by simp))
      rw [foldl_cons, ih h.2, hvalue]
      · funext x
        rw [reverse_cons, find?_append]
        cases rest.reverse.find? (·.1 == x) with
        | some => rfl
        | none =>
          by_cases hx : entry.1 = x
          · subst hx
            simp
          · simp [hx, Function.update_of_ne (Ne.symm hx)]
      · intro later hlater x hx
        rw [Function.update_of_ne]
        · exact ht later (by simp [hlater]) x hx
        · rintro rfl
          exact h.1 later hlater hx
  exact hrun s fun _ _ _ _ => rfl

end Visit.Update

/-- The expression that a statement consists of, and any other node itself. -/
def Script.Tree.performed : Node → Node
  | .node _ .expression _ [e] => e.unparen
  | n => n

section

variable {source : Source} {w : Walk} {n : Node} {u : Visit.Update Unit}

theorem performed_within (n : Node) : n.performed.Within n := by
  fun_cases performed n with
  | case1 l span e => exact unparen_within_statement l span e
  | case2 => exact .self

theorem SameUpdate.foldl_exec {d args os v} {V : Type} {ops} (span : Span)
    (h : SameUpdate source (fun w => d.Alike w.draft) args os u v) (hcallback : u.callback = none)
    (hpure : ∀ entry ∈ u.entries, d.isPure entry.2)
    (hcalm : ∀ a ∈ args, Walk.calm d.scope a) (s : Store V) :
    (updates span v).foldl (fun s o => o.exec ops s) s = u.inTurn d ops s := by
  have hnone : v.callback = none := by
    have hrel := h.callback
    rw [hcallback] at hrel
    generalize v.callback = after at hrel
    cases hrel
    rfl
  rw [updates, hnone]
  simp only [Option.map_none, Option.toList_none, append_nil, foldl_map,
    exec_assignment]
  unfold Visit.Update.inTurn
  have hentries := h.entries
  revert s
  generalize u.entries = entries at *
  generalize v.entries = outs at *
  induction hentries with
  | nil => intro s; rfl
  | @cons e f _ _ hfirst _ ih =>
    intro s
    obtain ⟨hkey, ⟨a, ha, hin⟩, _, hd, hrewrites⟩ := hfirst
    have hvalue : value ops s f.2 = d.value ops s e.2 :=
      hrewrites.value_eq hd (hpure e (by simp))
        (hin.within.every (hcalm a.1 (of_mem_zip ha).1))
    rw [foldl_cons, foldl_cons, hkey, hvalue]
    exact ih (fun e he => hpure e (by simp [he])) _

/-- The node sets plain keys to values without effects, in an orderly tree of which a walk has not
reached it. -/
structure PlainUpdate (source : Source) (w : Walk) (n : Node) (u : Visit.Update Unit) : Prop where
  call : Visit.isUpdateCall n.performed
  update : Visit.update? n.performed.arguments = some u
  callback : u.callback = none
  entries : u.entries ≠ []
  isPure : ∀ entry ∈ u.entries, w.draft.isPure entry.2
  calm : Walk.calm w.draft.scope n
  orderly : n.orderly source w.draft.scope.propsBag
  clear : Clear (n.reach source) w.edits.edits

theorem PlainUpdate.assigns_in_turn (h : PlainUpdate source w n u) :
    ∃ o : Output, Rewrites source w n o ∧
      (w.visit source n).edits.render source n.span = o.text source ∧
      ∀ {V : Type} (ops : Operations V) (s : Store V), o.exec ops s = u.inTurn w.draft ops s := by
  obtain ⟨hcall, hu, hcallback, hne, hpure, hcalm, ho, hw⟩ := h
  obtain ⟨_, hargs⟩ := exists_rewritesAll (fun a _ => exists_rewrites source a) w
  have hcalmArgs : ∀ a ∈ n.performed.arguments, Walk.calm w.draft.scope a :=
    fun _ ha => ((inside_of_mem_arguments ha).within.trans (performed_within n)).every hcalm
  obtain ⟨v, hv, hsame⟩ := hargs.update (Q := fun w' => w.draft.Alike w'.draft) hu
    (fun a ha m hm w' hd => Walk.alike_visit hd (hm.every (hcalmArgs a ha)))
    (.refl w.draft)
  fun_cases performed n with
  | case1 l span e =>
    have hlines : updates span v ≠ [] := by
      have hlength := hsame.entries.length_eq
      have hentries : v.entries ≠ [] := by
        intro hnil
        rw [hnil] at hlength
        exact hne (length_eq_zero_iff.1 hlength)
      simp [updates, hentries]
    have h : Rewrites source w (.node () .expression span [e]) _ :=
      .updateStatement hcall hargs hu hv hlines
    refine ⟨_, h, h.render_lines rfl ho hw, fun ops s => ?_⟩
    rw [exec_lines]
    exact hsame.foldl_exec span hcallback hpure hcalmArgs s
  | case2 n hn =>
    obtain ⟨⟨⟩, kind, span, kids⟩ := n
    obtain rfl : kind = .call := by
      have hkind := Visit.kind_of_isUpdateCall hcall
      rwa [performed] at hkind
      exact hn
    have h : Rewrites source w (.node () .call span kids) _ := .update hcall hargs hu hv
    refine ⟨_, h, h.render ho (solid_of_call rfl ho) hw, fun ops s => ?_⟩
    rw [exec_sequence]
    exact hsame.foldl_exec span hcallback hpure hcalmArgs s

end

/-- The update of a node, if it sets plain keys to values without effects in an orderly tree. -/
def plainUpdate? (source : Source) (draft : Draft) (n : Node) : Option (Visit.Update Unit) :=
  (Visit.update? n.performed.arguments).filter fun u =>
    Visit.isUpdateCall n.performed && u.callback.isNone && !u.entries.isEmpty &&
      u.entries.all (fun entry => draft.isPure entry.2) && Walk.calm draft.scope n &&
      n.orderly source draft.scope.propsBag

theorem plainUpdate?_eq_some {source draft n u}
    (h : plainUpdate? source draft n = some u) : PlainUpdate source { draft } n u := by
  obtain ⟨hu, hcheck⟩ := Option.filter_eq_some_iff.1 h
  simp only [Bool.and_eq_true, Option.isNone_iff_eq_none, Bool.not_eq_true',
    isEmpty_eq_false_iff, all_eq_true] at hcheck
  obtain ⟨⟨⟨⟨⟨hcall, hcallback⟩, hne⟩, hpure⟩, hcalm⟩, ho⟩ := hcheck
  exact ⟨hcall, hu, hcallback, hne, hpure, hcalm, ho, by simp [Clear, EditSet.empty]⟩

end Sveltify
