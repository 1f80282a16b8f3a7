import Sveltify.Proofs.Component.Meaning
import Sveltify.Proofs.Component.Rendering

/-! Control flow. Statements that are written for an update stand where the update stood, under the
same conditions and loops. At a place that takes one statement, such as the body of an unbraced `if`,
this takes an update that becomes one statement. -/

namespace Sveltify

open List hiding span
open Script (Node Kind)
open Script.Tree Output Visit

variable {kind : Kind}

namespace Script.Kind

/-- A kind whose nodes decide whether, when or how often their parts run. -/
def isGuard : Kind → Bool
  | .if | .switch | .switchCase | .for | .forIn | .forOf | .while | .doWhile | .labeled | .with
  | .try | .catchClause | .conditional | .binary _ | .chain | .arrow _ | .function _ _ | .getter
  | .setter | .constructor | .classField _ | .staticBlock => true
  | _ => false

/-- The part with the number `i` is a statement that may stand without braces. -/
def isBody : Kind → Nat → Bool
  | .if, i => i == 1 || i == 2
  | .for, i => i == 3
  | .forIn, i | .forOf, i => i == 2
  | .while, i | .doWhile, i | .labeled, i | .with, i => i == 1
  | _, _ => false

def guard (kind : Kind) (span : Span) (i : Nat) : List (Span × Nat) :=
  if kind.isGuard then [(span, i)] else []

theorem isBody_of_not_isGuard (h : kind.isGuard = false) (i : Nat) : kind.isBody i = false := by
  cases kind <;> first | rfl | simp [isGuard] at h

end Script.Kind

/-- A place where statements stand. -/
structure Place where
  /-- The nodes around it that decide whether it is reached, with the number of the part. -/
  guards : List (Span × Nat)
  span : Span
  single : Bool
  count : Nat
deriving DecidableEq

/-- How the places in a tree are found. -/
structure Survey (α : Type) where
  update? : Script.Tree α → Option Nat
  count : Script.Tree α → Nat
  enters : Script.Tree α → Nat → Bool

theorem flatMap_sublist {α β γ : Type} {as bs} {f : α → List γ} {f' : β → List γ} (h : List.Forall₂ (fun a b => (f a).Sublist (f' b)) as bs) :
    (as.flatMap f).Sublist (bs.flatMap f') := by
  induction h with
  | nil => exact .refl _
  | cons hfirst _ ih =>
    exact hfirst.append ih

namespace Survey

variable {α : Type} (v : Survey α)

mutual

def places (g : List (Span × Nat)) : Script.Tree α → List Place
  | .node l kind span kids =>
    (v.update? (.node l kind span kids)).toList.map (Place.mk g span false) ++
      placesFrom (v.enters (.node l kind span kids)) kind span g 0 kids

/-- The places in those parts of a node that are looked at, numbered from `i` on. -/
def placesFrom (enters : Nat → Bool) (kind : Kind) (span : Span) (g : List (Span × Nat)) (i : Nat) :
    List (Script.Tree α) → List Place
  | [] => []
  | t :: ts =>
    (if enters i then
      (if kind.isBody i then [⟨g ++ kind.guard span i, t.span, true, v.count t⟩] else []) ++
        places (g ++ kind.guard span i) t
    else []) ++ placesFrom enters kind span g (i + 1) ts

end

variable {v}

theorem places_eq (g : List (Span × Nat)) (t : Script.Tree α) : v.places g t =
    (v.update? t).toList.map (Place.mk g t.span false) ++
      v.placesFrom (v.enters t) t.kind t.span g 0 t.kids := by
  cases t
  rfl

theorem places_of_enters {t} (h : t.kind.isGuard = false) (he : ∀ i, v.enters t i)
    (g : List (Span × Nat)) : v.places g t =
      (v.update? t).toList.map (Place.mk g t.span false) ++ t.kids.flatMap (v.places g) := by
  have hfrom : ∀ i ts, v.placesFrom (v.enters t) t.kind t.span g i ts = ts.flatMap (v.places g) := by
    intro i ts
    induction ts generalizing i with
    | nil => rfl
    | cons u _ ih =>
      rw [placesFrom, ih, Kind.isBody_of_not_isGuard h, Kind.guard, h, he]
      simp
  rw [places_eq, hfrom]

variable {enters : Nat → Bool}

theorem placesFrom_of_closed (h : ∀ i, enters i = false) (kind : Kind) (span : Span)
    (g : List (Span × Nat)) (i : Nat) (ts : List (Script.Tree α)) :
    v.placesFrom enters kind span g i ts = [] := by
  induction ts generalizing i with
  | nil => rfl
  | cons t _ ih =>
    rw [placesFrom, ih, h]
    rfl

theorem placesFrom_sublist {β : Type} {enters'} {v' : Survey β} (span : Span)
    {ts us i} (g : List (Span × Nat))
    (henters : ∀ j, enters j → enters' j)
    (hplaces : List.Forall₂ (fun t u => ∀ g, (v.places g t).Sublist (v'.places g u)) ts us)
    (hbody : ∀ j t u, ts[j]? = some t → us[j]? = some u → kind.isBody (i + j) → t.span = u.span ∧
    v.count t = v'.count u) :
    (v.placesFrom enters kind span g i ts).Sublist (v'.placesFrom enters' kind span g i us) := by
  induction hplaces generalizing i with
  | nil => exact .refl _
  | @cons t u _ _ hfirst _ ih =>
    have htail := ih (i := i + 1) fun j t u ht hu hj =>
      hbody (j + 1) t u (by simpa using ht) (by simpa using hu)
        (by rwa [show i + (j + 1) = i + 1 + j by omega])
    refine List.Sublist.append ?_ htail
    by_cases he : enters i
    · rw [if_pos he, if_pos (henters i he)]
      refine List.Sublist.append ?_ (hfirst _)
      by_cases h : kind.isBody i
      · obtain ⟨hspan, hcount⟩ := hbody 0 t u rfl rfl (by simpa using h)
        rw [hspan, hcount]
      · simp [h]
    · rw [if_neg he]
      exact nil_sublist _

theorem mem_placesFrom {span g i ts p} (h : p ∈ v.placesFrom enters kind span g i ts) :
    ∃ j t, ts[j]? = some t ∧ (kind.isBody (i + j) ∧ p.count = v.count t ∨
      p ∈ v.places (g ++ kind.guard span (i + j)) t) := by
  induction ts generalizing i with
  | nil => simp [placesFrom] at h
  | cons t _ ih =>
    rw [placesFrom, mem_append] at h
    obtain hfirst | hrest := h
    · refine ⟨0, t, rfl, ?_⟩
      split at hfirst
      · rw [mem_append] at hfirst
        refine hfirst.imp_left fun hbody => ?_
        by_cases hi : kind.isBody i
        · simp only [hi, if_true, mem_singleton] at hbody
          exact ⟨hi, by rw [hbody]⟩
        · simp [hi] at hbody
      · simp at hfirst
    · obtain ⟨j, u, hu, hp⟩ := ih hrest
      rw [show i + 1 + j = i + (j + 1) by omega] at hp
      exact ⟨j + 1, u, hu, hp⟩

/-! What is looked for in a tree has its places in the tree. -/

section

variable (hv : ∀ t i, v.enters t i) (g : List (Span × Nat))

include hv

variable {t : Script.Tree α}

theorem flatMap_kids_sublist (h : t.kind.isGuard = false) :
    (t.kids.flatMap (v.places g)).Sublist (v.places g t) := by
  rw [places_of_enters h (hv t)]
  exact sublist_append_right _ _

theorem places_kid_sublist {k} (h : t.kind.isGuard = false) (hk : k ∈ t.kids) :
    (v.places g k).Sublist (v.places g t) := by
  refine .trans ?_ (flatMap_kids_sublist hv g h)
  obtain ⟨_, _, heq⟩ := append_of_mem hk
  rw [heq, flatMap_append]
  exact (sublist_append_left _ _).trans (sublist_append_right _ _)

theorem places_unparen_sublist (t : Script.Tree α) : (v.places g t.unparen).Sublist (v.places g t) := by
  fun_induction unparen t with
  | case1 l _ _ ih => exact ih.trans (places_kid_sublist hv g rfl (by simp))
  | case2 => exact .refl _

theorem places_spreadValue_sublist (t : Script.Tree α) :
    (v.places g t.spreadValue).Sublist (v.places g t) := by
  fun_cases spreadValue t with
  | case1 => exact places_kid_sublist hv g rfl (by simp)
  | case2 => exact .refl _

theorem places_arguments_sublist (t : Script.Tree α) (h : t.kind = .call) :
    (t.arguments.flatMap (v.places g)).Sublist (v.places g t) := by
  fun_cases arguments t with
  | case1 l _ _ l' span' args =>
    exact (flatMap_kids_sublist hv g (t := .node l' .list span' args) rfl).trans
      (places_kid_sublist hv g rfl (by simp))
  | case2 => simp at h
  | case3 => exact nil_sublist _

theorem places_entry_sublist {value key}
    (h : entry? t = some (key, value)) : (v.places g value).Sublist (v.places g t) := by
  obtain ⟨l, _, k, rfl, -⟩ | ⟨rfl, -⟩ := entry?_cases h
  · exact places_kid_sublist hv g rfl (by simp)
  · exact .refl _

theorem places_update_sublist {ts : List (Script.Tree α)} {u : Update α}
    (h : Visit.update? ts = some u) :
    ((u.entries.flatMap fun e => v.places g e.2) ++ u.callback.toList.flatMap (v.places g)).Sublist
      (ts.flatMap (v.places g)) := by
  obtain ⟨first, rest, l, span, properties, rfl, hobject, hentries, hcallback⟩ :=
    exists_of_update? h
  rw [hcallback]
  refine List.Sublist.append ?_ ?_
  · have hvalues := flatMap_sublist (hentries.imp fun t e h => places_entry_sublist hv g h).flip
    refine hvalues.trans (.trans ?_ (places_unparen_sublist hv g first))
    rw [hobject]
    exact flatMap_kids_sublist hv g (t := .node l .object span properties) rfl
  · cases rest with
    | nil => exact .refl _
    | cons after =>
      simp only [head?_cons, Option.map_some, Option.toList_some, flatMap_cons,
        flatMap_nil, append_nil]
      exact (places_spreadValue_sublist hv g after).trans (sublist_append_left _ _)

end

end Survey

def Visit.Update.size {α : Type} (u : Update α) : Nat :=
  u.entries.length + u.callback.toList.length

namespace Script.Tree

def updateSize? : Node → Option Nat
  | .node _ .expression _ [e] =>
    if isUpdateCall e.unparen then
      (Visit.update? e.unparen.arguments).map Update.size
    else none
  | _ => none

def statementCount (scope : ComponentScope) (n : Node) : Nat :=
  match n.kind with
  | .variableDecl _ => if Walk.consumes scope n.kids then 0 else 1
  | _ => n.updateSize?.getD 1

def survey (scope : ComponentScope) : Survey Unit where
  update? := updateSize?
  count := statementCount scope
  enters _ _ := true

/-- Every part that may stand without braces is written as one statement. -/
def singleAt (scope : ComponentScope) (n : Node) : Bool :=
  n.kids.zipIdx.all fun (k, i) => !n.kind.isBody i || k.statementCount scope == 1

end Script.Tree

namespace Output

def count : Output → Nat
  | .node (.lines _) _ _ os => os.length
  | .node (.gone _) _ _ _ => 0
  | _ => 1

def survey : Survey Layout where
  update?
    | .node (.lines _) .list _ os => some os.length
    | _ => none
  count := count
  enters _ _ := true

variable (g : List (Span × Nat))

theorem places_node {l span os} (h : kind.isGuard = false)
    (hl : survey.update? (.node l kind span os) = none) :
    survey.places g (.node l kind span os) = os.flatMap (survey.places g) := by
  rw [Survey.places_of_enters (t := .node l kind span os) h (fun _ => rfl), hl]
  rfl

variable (span : Span)

theorem places_name (id : String) : survey.places g (name span id) = [] :=
  places_node g rfl rfl

theorem places_assignment (target : String) (o : Output) :
    survey.places g (assignment span target o) = survey.places g o := by
  rw [assignment, places_node g rfl rfl]
  simp [places_name]

variable (o : Output)

theorem places_parenthesized : survey.places g (parenthesized span o) = survey.places g o := by
  rw [parenthesized, places_node g rfl rfl]
  simp

theorem places_call (callee : Output) (args : List Output) :
    survey.places g (call span callee args) =
      survey.places g callee ++ args.flatMap (survey.places g) := by
  have hargs : survey.places g (.node .made .list span args) = args.flatMap (survey.places g) :=
    places_node g rfl rfl
  have htypes : survey.places g (.node .made .absent span []) = [] := places_node g rfl rfl
  rw [call, places_node g rfl rfl]
  simp [hargs, htypes]

theorem places_afterUpdate : survey.places g (afterUpdate span o) = survey.places g o := by
  have hthen : survey.places g (.node (.word "then".toList) (.word "then") span []) = [] :=
    places_node g rfl rfl
  rw [afterUpdate, places_call, places_node g rfl rfl]
  simp only [flatMap_cons, flatMap_nil, places_call, places_name, hthen, append_nil,
    nil_append]

theorem places_sequence (os : List Output) :
    survey.places g (sequence span os) = os.flatMap (survey.places g) := by
  fun_cases sequence span os with
  | case1 => simp
  | case2 => exact places_node g rfl rfl

theorem places_statement : survey.places g (statement span o) = survey.places g o := by
  rw [statement, places_node g rfl rfl]
  simp

theorem places_updates (u : Update Layout) :
    (updates span u).flatMap (survey.places g) =
      (u.entries.flatMap fun e => survey.places g e.2) ++
        u.callback.toList.flatMap (survey.places g) := by
  rw [updates, flatMap_append, flatMap_map]
  simp only [places_assignment]
  cases u.callback with
  | none => rfl
  | some => simp [places_afterUpdate]

theorem places_lines (indent : Text) (span : Span) (os : List Output) :
    survey.places g (.node (.lines indent) .list span os) =
      ⟨g, span, false, os.length⟩ :: os.flatMap (survey.places g) := by
  rw [Survey.places_of_enters rfl (fun _ => rfl)]
  rfl

theorem places_spreadValue : survey.places g o.spreadValue = survey.places g o := by
  fun_cases spreadValue o with
  | case1 l =>
    rw [places_node g rfl (by cases l <;> rfl)]
    simp
  | case2 => rfl

theorem places_setValue_sublist (target : String) {args os} :
    (survey.places g (setValue span target (setArgument args os))).Sublist
      (os.flatMap (survey.places g)) := by
  fun_cases setArgument args os with
  | case1 arg _ o rest =>
    have hspread := (Survey.places_spreadValue_sublist (v := survey) (fun _ _ => rfl) g o).trans
      (sublist_append_left _ (rest.flatMap (survey.places g)))
    cases arg.spreadValue.unparen.isFunction with
    | false => exact hspread
    | true =>
      rw [setValue, places_call, places_parenthesized]
      simpa [places_name] using hspread
  | case2 =>
    exact nil_sublist _

end Output

section

variable {scope : ComponentScope} (g : List (Span × Nat))

theorem statementCount_of_singleAt {j} {n k : Node} (h : n.singleAt scope)
    (hk : n.kids[j]? = some k) (hj : n.kind.isBody j) : k.statementCount scope = 1 := by
  have hmem : (k, j) ∈ n.kids.zipIdx := mem_zipIdx_iff_getElem?.2 hk
  simpa [hj] using all_eq_true.1 h _ hmem

theorem count_eq_one {n : Node} (h : n.every (singleAt scope)) {p}
    (hp : p ∈ (Script.Tree.survey scope).places g n) (hsingle : p.single) : p.count = 1 := by
  induction n using inside_induction generalizing g with
  | h n ih =>
    obtain ⟨hn, hkids⟩ := every_node_iff.1 h
    rw [Survey.places_eq, mem_append] at hp
    obtain hown | hpart := hp
    · obtain ⟨_, -, rfl⟩ := mem_map.1 hown
      simp at hsingle
    · obtain ⟨j, k, hk, ⟨hbody, hcount⟩ | hp⟩ := Survey.mem_placesFrom hpart
      · rw [Nat.zero_add] at hbody
        exact hcount.trans (statementCount_of_singleAt hn hk hbody)
      · have hmem := mem_of_getElem? hk
        exact ih k (inside_of_mem_kids hmem) _ (hkids k hmem) hp

theorem places_untouched_sublist {n : Node} (h : n.every (singleAt scope)) :
    (Output.survey.places g (untouched n)).Sublist ((Script.Tree.survey scope).places g n) := by
  induction n using inside_induction generalizing g with
  | h n ih =>
    obtain ⟨hn, hkids⟩ := every_node_iff.1 h
    obtain ⟨⟨⟩, _, span, _⟩ := n
    rw [untouched, relabel_node, Survey.places_eq, Survey.places_eq]
    refine List.Sublist.trans ?_ (sublist_append_right _ _)
    refine Survey.placesFrom_sublist span g (fun _ h => h) ?_ ?_
    · rw [kids_node, forall₂_map_left_iff]
      exact forall₂_same.2 fun k hk g => ih k (inside_of_mem_kids hk) g (hkids k hk)
    · intro j p k hp hk hj
      rw [kids_node] at hp hk
      obtain rfl : untouched k = p := by simpa [hk, untouched] using hp
      rw [Nat.zero_add] at hj
      refine ⟨span_untouched k, ?_⟩
      refine Eq.trans ?_ (statementCount_of_singleAt hn hk hj).symm
      cases k
      rfl

variable {os : List Output} {u : Update Unit} {args : List Node} {v : Update Layout}
variable {span : Span}

theorem places_withArguments_sublist {n} (h : n.every (singleAt scope))
    (hos : (os.flatMap (Output.survey.places g)).Sublist
      (n.arguments.flatMap ((Script.Tree.survey scope).places g))) :
    (Output.survey.places g (withArguments os n)).Sublist
      ((Script.Tree.survey scope).places g n) := by
  fun_cases withArguments os n with
  | case1 l _ callee l' inner args types =>
    have hlist : Output.survey.places g (.node .kept .list inner os) =
        os.flatMap (Output.survey.places g) := places_node g rfl rfl
    rw [places_node g rfl rfl]
    refine List.Sublist.trans ?_ (Survey.flatMap_kids_sublist (fun _ _ => rfl) g rfl)
    simp only [flatMap_cons, flatMap_nil, append_nil, hlist, kids_node]
    have hkids := (every_node_iff.1 h).2
    refine (places_untouched_sublist g (hkids callee (by simp))).append
      (List.Sublist.append ?_ (places_untouched_sublist g (hkids types (by simp))))
    exact hos.trans (Survey.flatMap_kids_sublist (fun _ _ => rfl) g (t := .node l' .list inner args) rfl)
  | case2 => exact places_untouched_sublist g h

theorem places_wrap_sublist {o e}
    (h : (Output.survey.places g o).Sublist ((Script.Tree.survey scope).places g e.unparen)) :
    (Output.survey.places g (wrap o e)).Sublist ((Script.Tree.survey scope).places g e) := by
  fun_induction wrap o e with
  | case1 l _ _ ih =>
    rw [places_node g rfl rfl, flatMap_cons, flatMap_nil, append_nil]
    exact (ih h).trans (Survey.places_kid_sublist (fun _ _ => rfl) g rfl (by simp))
  | case2 e =>
    exact h.trans (Survey.places_unparen_sublist (fun _ _ => rfl) g e)

variable {source : Source} {w : Walk} {n : Node} {o : Output}

theorem SameUpdate.size_eq {Q : Walk → Prop} (h : SameUpdate source Q args os u v) :
    v.size = u.size := by
  have hcallback : v.callback.toList.length = u.callback.toList.length := by
    have hrel := h.callback
    generalize u.callback = before, v.callback = after at hrel
    cases hrel <;> rfl
  rw [Update.size, Update.size, h.entries.length_eq, hcallback]

theorem RewritesAll.size_eq (h : RewritesAll source w args os) (hu : Visit.update? args = some u)
    (hv : Visit.update? os = some v) : v.size = u.size :=
  (h.sameUpdate hu hv).size_eq

theorem Output.length_updates (span : Span) (v : Update Layout) :
    (updates span v).length = v.size := by
  cases hc : v.callback <;> simp [updates, Update.size, hc]

theorem updateSize?_of_call (h : n.kind = .call) : n.updateSize? = none := by
  obtain ⟨⟨⟩, kind, _, _⟩ := n
  obtain rfl : kind = .call := h
  rfl

theorem updateSize?_of_passes {d} (h : Walk.passes d n) : n.updateSize? = none := by
  fun_cases updateSize? n with
  | case1 l _ e hupdate => simp [Walk.passes, hupdate] at h
  | case2 => rfl
  | case3 => rfl

theorem Rewrites.count_eq (h : Rewrites source w n o) :
    o.count = n.statementCount w.draft.scope := by
  have hkept : ∀ p : Output, p.label = .kept → p.count = 1 := by
    rintro ⟨l, _, span, kids⟩ hl
    obtain rfl : l = .kept := hl
    rfl
  cases h with
  | kept h =>
    unfold statementCount
    split
    next word hkind =>
      have hconsumes : Walk.consumes w.draft.scope n.kids = false := by
        simpa [Walk.passes, hkind] using h
      rw [hconsumes]
      rfl
    next =>
      rw [updateSize?_of_passes h]
      rfl
  | declaration h =>
    simp only [statementCount, kids_node, h]
    rfl
  | this => exact hkept _ (label_untouched _)
  | updateDeferred =>
    unfold deferred
    split
    · exact hkept _ (label_withArguments _ _)
    · rfl
  | @updateStatement _ span e _ u v h hargs hu hv =>
    have hsize := hargs.size_eq hu hv
    simp [Output.count, statementCount, updateSize?, h, hu, length_updates, hsize]
  | @emptyUpdateStatement _ span e _ u v h hargs hu hv hnil =>
    have hsize := hargs.size_eq hu hv
    have hzero := length_updates span v
    simp only [hnil] at hzero
    simp [Output.count, gone, statementCount, updateSize?, h, hu, ← hsize, ← hzero]
  | updateStatementDeferred h _ hu => simp [Output.count, statementCount, updateSize?, hu]
  | _ => rfl

theorem statementCount_congr {scope'} (h : scope'.propsBag = scope.propsBag)
    (n : Node) : n.statementCount scope' = n.statementCount scope := by
  simp [statementCount, Walk.consumes_congr h]

theorem places_gone (range span : Span) : Output.survey.places g (gone range span) = [] :=
  places_node g rfl rfl

theorem places_settled_sublist (span : Span) (o : Output) :
    (Output.survey.places g (settled source w span o)).Sublist (Output.survey.places g o) := by
  unfold settled
  split
  · exact nil_sublist _
  · exact .refl _

theorem places_boundMethod_sublist {method} (h : boundMethod? n = some method) :
    ((Script.Tree.survey scope).places g method).Sublist
      ((Script.Tree.survey scope).places g n) := by
  obtain ⟨_, hmember, -, hobject⟩ := exists_of_boundMethod? h
  obtain ⟨callee, hcallee, rfl⟩ := exists_of_calleeMember? hmember
  have hmethod : ((Script.Tree.survey scope).places g method).Sublist
      ((Script.Tree.survey scope).places g callee.unparen) := by
    refine Survey.places_kid_sublist (fun _ _ => rfl) g ?_ (memberObject?_mem_kids hobject)
    rw [kind_of_memberObject? hobject]
    rfl
  have hcall : ((Script.Tree.survey scope).places g callee).Sublist
      ((Script.Tree.survey scope).places g n) := by
    refine Survey.places_kid_sublist (fun _ _ => rfl) g ?_ (callee?_mem_kids hcallee)
    rw [kind_of_callee? hcallee]
    rfl
  exact hmethod.trans ((Survey.places_unparen_sublist (fun _ _ => rfl) g callee).trans hcall)

def Walk.InScope (scope : ComponentScope) (w : Walk) : Prop :=
  w.draft.scope.propsBag = scope.propsBag

theorem Walk.InScope.visit (h : w.InScope scope) (n : Node) : (w.visit source n).InScope scope :=
  (Walk.visit_propsBag w n).trans h

theorem Walk.InScope.listed (h : w.InScope scope) (s : Node) : (w.listed source s).InScope scope :=
  (Walk.listed_propsBag w s).trans h

def Placed (source : Source) (scope : ComponentScope) (n : Node) : Prop :=
  ∀ (w : Walk) (o : Output), w.InScope scope → Rewrites source w n o → ∀ g,
    (Output.survey.places g o).Sublist ((Script.Tree.survey scope).places g n)

theorem RewritesAll.flatMap_sublist {ns : List Node} (h : RewritesAll source w ns os)
    (hw : w.InScope scope) (hns : ∀ n ∈ ns, Placed source scope n) :
    (os.flatMap (Output.survey.places g)).Sublist
      (ns.flatMap ((Script.Tree.survey scope).places g)) :=
  Sveltify.flatMap_sublist (h.forall₂ (Q := Walk.InScope scope) (fun n _ _ hw => hw.visit n) hw
    fun n hn w o hw h => hns n hn w o hw h g)

theorem RewritesListed.flatMap_sublist {ss : List Node} (h : RewritesListed source w ss os)
    (hw : w.InScope scope) (hss : ∀ s ∈ ss, Placed source scope s) :
    (os.flatMap (Output.survey.places g)).Sublist
      (ss.flatMap ((Script.Tree.survey scope).places g)) :=
  Sveltify.flatMap_sublist (h.forall₂ (Q := Walk.InScope scope) (fun s _ _ hw => hw.listed s) hw
    fun s hs w o hw h => (places_settled_sublist g s.span o).trans (hss s hs (w.enter s.span) o hw h g))

theorem RewritesAll.aligned {ns p k} {j : Nat}
    (hall : RewritesAll source w ns os) (hw : w.InScope scope) (hp : os[j]? = some p)
    (hk : ns[j]? = some k) : p.span = k.span ∧ p.count = k.statementCount scope := by
  have hpairs : List.Forall₂ (fun (p : Output) (k : Node) =>
      p.span = k.span ∧ p.count = k.statementCount scope) os ns :=
    hall.forall₂ (Q := Walk.InScope scope) (fun k _ _ hw => hw.visit k) hw
      fun k _ w p hw h => ⟨h.span_eq, h.count_eq.trans (statementCount_congr hw k)⟩
  obtain ⟨hj, rfl⟩ := List.getElem?_eq_some_iff.1 hp
  obtain ⟨hj', rfl⟩ := List.getElem?_eq_some_iff.1 hk
  exact hpairs.get hj hj'

theorem placed_kept (hall : RewritesAll source w n.kids os) (hw : w.InScope scope)
    (hkids : ∀ k ∈ n.kids, Placed source scope k) :
    (Output.survey.places g (.node .kept n.kind n.span os)).Sublist
      ((Script.Tree.survey scope).places g n) := by
  rw [Survey.places_eq g n]
  refine List.Sublist.trans ?_ (sublist_append_right _ _)
  refine Survey.placesFrom_sublist n.span g (fun _ _ => rfl) ?_ ?_
  · exact hall.forall₂ (Q := Walk.InScope scope) (fun k _ _ hw => hw.visit k) hw
      fun k hk w o hw h => hkids k hk w o hw h
  · exact fun j p k hp hk _ => hall.aligned hw hp hk

theorem placed_switchCase {o} {test body : Node} (htest : Rewrites source w test o)
    (hbody : RewritesListed source (w.visit source test) body.kids os) (hw : w.InScope scope)
    (hplaced : Placed source scope test) (hkids : ∀ s ∈ body.kids, Placed source scope s)
    (hlist : body.isList) :
    (Output.survey.places g
      (.node .kept .switchCase span [o, .node .kept body.kind body.span os])).Sublist
      ((Script.Tree.survey scope).places g (.node () .switchCase span [test, body])) := by
  obtain ⟨⟨⟩, kind, inner, ss⟩ := body
  obtain rfl : kind = .list := by
    cases kind <;> first | rfl | simp [isList] at hlist
  refine Survey.placesFrom_sublist span g (fun _ _ => rfl) (.cons ?_ (.cons ?_ .nil)) ?_
  · exact fun g => hplaced w o hw htest g
  · intro g
    rw [places_node g rfl rfl]
    exact (hbody.flatMap_sublist g (hw.visit test) hkids).trans
      (Survey.flatMap_kids_sublist (fun _ _ => rfl) g (t := .node () .list inner ss) rfl)
  · intro j _ _ _ _ hj
    simp [Script.Kind.isBody] at hj

theorem placed_deferred {inner} (hsingle : n.every (singleAt scope))
    (hos : (os.flatMap (Output.survey.places g)).Sublist
      (n.arguments.flatMap ((Script.Tree.survey scope).places g))) :
    (Output.survey.places g (deferred inner n os)).Sublist
      ((Script.Tree.survey scope).places g n) := by
  unfold deferred
  split
  · exact places_withArguments_sublist g hsingle hos
  · exact nil_sublist _

theorem placed (n : Node) (ho : n.orderly source scope.propsBag)
    (hsingle : n.every (singleAt scope)) : Placed source scope n := by
  induction n using inside_induction with
  | h n ih =>
    intro w o hw h g
    have hin : ∀ m : Node, m.Inside n → Placed source scope m :=
      fun m hm => ih m hm (hm.within.orderly ho) (hm.within.every hsingle)
    have hkids : ∀ k ∈ n.kids, Placed source scope k := fun k hk => hin k (inside_of_mem_kids hk)
    have hargs : ∀ m : Node, m.Within n → ∀ os, RewritesAll source w m.arguments os →
        (os.flatMap (Output.survey.places g)).Sublist
          (m.arguments.flatMap ((Script.Tree.survey scope).places g)) :=
      fun m hm os hos => hos.flatMap_sublist g hw fun a ha =>
        hin a ((inside_of_mem_arguments ha).trans_within hm)
    cases h with
    | kept h hall => exact placed_kept g hall hw hkids
    | this => exact places_untouched_sublist g hsingle
    | @block _ span ss _ hss =>
      rw [places_node g rfl rfl]
      exact (hss.flatMap_sublist g hw hkids).trans
        (Survey.flatMap_kids_sublist (fun _ _ => rfl) g (t := .node () .block span ss) rfl)
    | @switchCase _ span test body o os htest hbody =>
      have hbodyKids : ∀ s ∈ body.kids, Placed source scope s := fun s hs =>
        hin s ((inside_of_mem_kids hs).trans_within (.kid (k := body) (by simp) .self))
      have hat := orderlyAt_of_orderly ho
      simp only [orderlyAt, kind_node, kids_node, Bool.and_eq_true] at hat
      exact placed_switchCase g htest hbody hw (hkids test (by simp)) hbodyKids hat.1.1
    | @bag _ name span kids _ h hall =>
      rw [places_node g rfl rfl]
      exact (hall.flatMap_sublist g hw hkids).trans
        (Survey.flatMap_kids_sublist (fun _ _ => rfl) g (t := .node () (.ident name) span kids) rfl)
    | member =>
      exact nil_sublist _
    | declaration | emptyUpdateStatement =>
      exact nil_sublist _
    | update h hall hu hv =>
      rw [places_parenthesized, places_sequence, places_updates]
      exact (Survey.places_update_sublist (fun _ _ => rfl) g hv).trans
        ((hargs _ .self _ hall).trans (Survey.places_arguments_sublist (fun _ _ => rfl) g _ rfl))
    | updateDeferred h hall hu => exact placed_deferred g hsingle (hargs _ .self _ hall)
    | @updateStatement _ span e os u v h hall hu hv =>
      have hwithin := unparen_within_statement () span e
      have hown : (node () .expression span [e]).updateSize? = some u.size := by
        simp [updateSize?, h, hu]
      have hvalues : ((updates span v).flatMap (Output.survey.places g)).Sublist
          ((Script.Tree.survey scope).places g e) := by
        rw [places_updates]
        exact (Survey.places_update_sublist (fun _ _ => rfl) g hv).trans ((hargs _ hwithin _ hall).trans
          ((Survey.places_arguments_sublist (fun _ _ => rfl) g _ (kind_of_isUpdateCall h)).trans
            (Survey.places_unparen_sublist (fun _ _ => rfl) g e)))
      rw [places_lines, length_map, length_updates, hall.size_eq hu hv,
        flatMap_map, Survey.places_of_enters rfl (fun _ => rfl)]
      simp only [places_statement]
      change List.Sublist _ (((node () .expression span [e]).updateSize?).toList.map _ ++ _)
      rw [hown, kids_node, flatMap_cons, flatMap_nil, append_nil]
      exact hvalues.cons_cons _
    | @updateStatementDeferred _ span e _ h hall =>
      have hwithin := unparen_within_statement () span e
      rw [places_node g rfl rfl, flatMap_cons, flatMap_nil, append_nil]
      exact (places_wrap_sublist g (placed_deferred g (hwithin.every hsingle)
        (hargs _ hwithin _ hall))).trans
        (Survey.places_kid_sublist (fun _ _ => rfl) g rfl (by simp))
    | bound hupdate h hmethod =>
      rw [places_node g rfl rfl, flatMap_cons, flatMap_nil, append_nil]
      exact (hin _ (boundMethod?_inside h) _ _ hw hmethod g).trans
        (places_boundMethod_sublist g h)
    | setter _ _ h hall =>
      rw [places_assignment]
      exact (places_setValue_sublist g _ _).trans
        ((hargs _ .self _ hall).trans (Survey.places_arguments_sublist (fun _ _ => rfl) g _ rfl))

/-! No update is lost. -/

/-- An update call has an object of plain entries, and no other names than `names` are declared to be
those of setters. -/
def Script.Tree.plainAt (scope : ComponentScope) (names : List String) (n : Node) : Bool :=
  (!isUpdateCall n || (Visit.update? n.arguments).isSome) && n.namesAt scope names

variable {names : List String}

theorem Walk.visit_deferred (n : Node) (hplain : n.every (plainAt scope names)) (hw : w.deferred = []) :
    (w.visit source n).deferred = [] := by
  have hnone : w.Defers fun _ => False := by simp [Defers, hw]
  refine eq_nil_iff_forall_not_mem.2 (defers_visit (fun call hcall hupdate hu => ?_) hnone)
  have hat := hcall.of_every hplain
  simp [plainAt, hupdate, hu] at hat

/-- A walk that moves nothing to manual review and knows no setters but `names`. -/
structure Walk.Clean (scope : ComponentScope) (names : List String) (w : Walk) : Prop where
  inScope : w.InScope scope
  deferred : w.deferred = []
  setters : ∀ entry ∈ w.draft.scope.setters, entry.1 ∈ names

theorem Walk.Clean.visit (h : w.Clean scope names) (hn : n.every (plainAt scope names)) :
    (w.visit source n).Clean scope names where
  inScope := h.inScope.visit n
  deferred := visit_deferred n hn h.deferred
  setters := setters_visit (every_imp (fun _ hm => (Bool.and_eq_true_iff.1 hm).2) hn)
    (fun _ _ hs _ => hs) h.inScope h.setters

/-- What may be replaced by a variable: a member of `this`, of a member of it or of a variable. -/
def Script.Tree.mayRead (n : Node) : Bool :=
  n.memberObject?.any fun object =>
    object.unparen.isThis || object.unparen.thisMember?.isSome || object.unparen.ident?.isSome

/-- A walk goes on to the part with the number `i`, where only `names` may be names of setters. -/
def Script.Tree.openAt (scope : ComponentScope) (names : List String) (n : Node) (i : Nat) : Bool :=
  match n.kind with
  | .this | .ident _ => false
  | .member => !n.mayRead
  | .call =>
    if isUpdateCall n then i == 1 && (n.arguments.length == 1 || n.arguments.length == 2)
    else (boundMethod? n).isNone &&
      ((n.callee?.bind ident?).all (!names.contains ·) || (i == 1 && n.arguments.length == 1))
  | .variableDecl _ => !Walk.consumes scope n.kids
  | .property => i == 1
  | _ => true

/-- The places that a walk comes to, those of updates that are written as no statement left out. -/
def Script.Tree.openSurvey (scope : ComponentScope) (names : List String) : Survey Unit where
  update? n := n.updateSize?.filter (0 < ·)
  count := statementCount scope
  enters := openAt scope names

theorem Output.settled_of_deferred (h : w.deferred = []) (o : Output) :
    settled source w span o = o := by
  simp [settled, h]

def Covered (source : Source) (scope : ComponentScope) (names : List String) (n : Node) : Prop :=
  ∀ (w : Walk) (o : Output), w.Clean scope names → Rewrites source w n o → ∀ g,
    ((openSurvey scope names).places g n).Sublist (Output.survey.places g o)

variable {t : Node}

theorem open_node (h : t.kind.isGuard = false) (he : ∀ i, t.openAt scope names i)
    (hu : t.updateSize? = none) : (openSurvey scope names).places g t =
      t.kids.flatMap ((openSurvey scope names).places g) := by
  rw [Survey.places_of_enters (v := openSurvey scope names) h he]
  change (t.updateSize?.filter _).toList.map _ ++ _ = _
  rw [hu]
  rfl

theorem open_closed (he : ∀ i, t.openAt scope names i = false) (hu : t.updateSize? = none) :
    (openSurvey scope names).places g t = [] := by
  rw [Survey.places_eq]
  change (t.updateSize?.filter _).toList.map _ ++ Survey.placesFrom _ (openAt scope names t) _ _ _ _ _ = _
  rw [hu, Survey.placesFrom_of_closed he]
  rfl

theorem open_unparen (t : Node) : (openSurvey scope names).places g t =
    (openSurvey scope names).places g t.unparen := by
  fun_induction unparen t with
  | case1 l _ _ ih =>
    rw [← ih, open_node g rfl (fun _ => rfl) rfl]
    simp
  | case2 => rfl

theorem open_statement {e size} (h : (node () .expression span [e]).updateSize? = some size) :
    (openSurvey scope names).places g (.node () .expression span [e]) =
      (if 0 < size then [⟨g, span, false, size⟩] else []) ++
        (openSurvey scope names).places g e.unparen := by
  rw [Survey.places_of_enters rfl (fun _ => rfl), kids_node, flatMap_cons, open_unparen g e]
  change ((updateSize? _).filter _).toList.map _ ++ _ = _
  rw [h]
  by_cases hsize : 0 < size <;> simp [Option.filter, hsize]

theorem open_spreadValue (t : Node) : (openSurvey scope names).places g t =
    (openSurvey scope names).places g t.spreadValue := by
  fun_cases spreadValue t with
  | case1 =>
    rw [open_node g rfl (fun _ => rfl) rfl]
    simp
  | case2 => rfl

theorem open_entry {value key} (h : entry? t = some (key, value)) :
    (openSurvey scope names).places g t = (openSurvey scope names).places g value := by
  obtain ⟨l, _, k, rfl, -⟩ | ⟨rfl, -⟩ := entry?_cases h
  · rw [Survey.places_eq, kids_node, Survey.placesFrom, Survey.placesFrom, Survey.placesFrom]
    simp [openSurvey, openAt, updateSize?, Script.Kind.isBody, Script.Kind.guard, Script.Kind.isGuard]
  · rfl

theorem open_entries {ts entries} (h : List.Forall₂ (fun t e => entry? t = some e) ts entries) :
    ts.flatMap ((openSurvey scope names).places g) =
      entries.flatMap fun e => (openSurvey scope names).places g e.2 := by
  induction h with
  | nil => rfl
  | cons hentry _ ih => rw [flatMap_cons, flatMap_cons, open_entry g hentry, ih]

theorem open_call {call} (hkind : call.kind = .call)
    (h : ∀ i, call.openAt scope names i → i = 1 ∧ call.arguments ≠ []) :
    ((openSurvey scope names).places g call).Sublist
      (call.arguments.flatMap ((openSurvey scope names).places g)) := by
  have hclosed : ∀ i, i ≠ 1 → (openSurvey scope names).enters call i = false :=
    fun i hi => Bool.eq_false_iff.2 fun he => hi (h i he).1
  fun_cases arguments call with
  | case1 l _ _ l' inner args =>
    have hlist : (openSurvey scope names).places g (.node l' .list inner args) =
        args.flatMap ((openSurvey scope names).places g) := open_node g rfl (fun _ => rfl) rfl
    rw [Survey.places_eq, kids_node, Survey.placesFrom, Survey.placesFrom, Survey.placesFrom,
      hclosed 0 (by omega), hclosed 2 (by omega)]
    change List.Sublist ([] ++ ((if _ then [] ++ Survey.places _ (g ++ []) _ else []) ++ [])) _
    rw [append_nil, append_nil, hlist]
    split
    · exact .refl _
    · exact nil_sublist _
  | case2 => simp at hkind
  | case3 =>
    have harguments : call.arguments = [] := by
      rw [arguments]
      all_goals assumption
    rw [open_closed g (fun i => Bool.eq_false_iff.2 fun he => (h i he).2 harguments)
      (updateSize?_of_call hkind)]
    exact nil_sublist _

theorem open_update (hu : Visit.update? args = some u) (hargs : args.length ≤ 2) :
    args.flatMap ((openSurvey scope names).places g) =
      (u.entries.flatMap fun e => (openSurvey scope names).places g e.2) ++
        u.callback.toList.flatMap ((openSurvey scope names).places g) := by
  obtain ⟨first, rest, l, _, _, rfl, hobject, hentries, hcallback⟩ :=
    exists_of_update? hu
  rw [flatMap_cons, open_unparen g first, hobject, open_node g rfl (fun _ => rfl) rfl,
    kids_node, open_entries g hentries, hcallback]
  rcases rest with _ | ⟨after, _ | ⟨_, _⟩⟩
  · rfl
  · simpa using open_spreadValue g after
  · simp at hargs

theorem RewritesListed.sublist_flatMap {ss : List Node} (h : RewritesListed source w ss os)
    (hw : w.Clean scope names) (hplain : ∀ s ∈ ss, s.every (plainAt scope names))
    (hss : ∀ s ∈ ss, Covered source scope names s) :
    (ss.flatMap ((openSurvey scope names).places g)).Sublist
      (os.flatMap (Output.survey.places g)) := by
  have henter : ∀ {w : Walk} (s : Node), w.Clean scope names → (w.enter s.span).Clean scope names :=
    fun s hw => ⟨hw.inScope, hw.deferred, hw.setters⟩
  have hvisit : ∀ s ∈ ss, ∀ w : Walk, w.Clean scope names →
      ((w.enter s.span).visit source s).Clean scope names :=
    fun s hs w hw => (henter s hw).visit (hplain s hs)
  refine Sveltify.flatMap_sublist (List.Forall₂.flip ?_)
  refine h.forall₂ (Q := Walk.Clean scope names) ?_ hw ?_
  · intro s hs w hw
    have hclean := hvisit s hs w hw
    rw [Walk.listed, Walk.leave, hclean.deferred]
    exact ⟨hclean.inScope, rfl, hclean.setters⟩
  · intro s hs w o hw h
    rw [settled_of_deferred (hvisit s hs w hw).deferred]
    exact hss s hs (w.enter s.span) o (henter s hw) h g

theorem covered_kept (hall : RewritesAll source w n.kids os) (hw : w.Clean scope names)
    (hplain : ∀ k ∈ n.kids, k.every (plainAt scope names))
    (hkids : ∀ k ∈ n.kids, Covered source scope names k) (hsize : n.updateSize? = none) :
    ((openSurvey scope names).places g n).Sublist
      (Output.survey.places g (.node .kept n.kind n.span os)) := by
  rw [Survey.places_eq]
  change List.Sublist ((n.updateSize?.filter _).toList.map _ ++ _) _
  rw [hsize]
  refine Survey.placesFrom_sublist n.span g (fun _ _ => rfl) ?_ ?_
  · exact .flip (hall.forall₂ (Q := Walk.Clean scope names)
      (fun k hk w hw => hw.visit (hplain k hk)) hw fun k hk w o hw h => hkids k hk w o hw h)
  · intro j k p hk hp _
    obtain ⟨hspan, hcount⟩ := hall.aligned hw.inScope hp hk
    exact ⟨hspan.symm, hcount.symm⟩

theorem covered_switchCase {o} {test body : Node} (htest : Rewrites source w test o)
    (hbody : RewritesListed source (w.visit source test) body.kids os) (hw : w.Clean scope names)
    (hplain : test.every (plainAt scope names))
    (hplainKids : ∀ s ∈ body.kids, s.every (plainAt scope names))
    (hcovered : Covered source scope names test)
    (hkids : ∀ s ∈ body.kids, Covered source scope names s) (hlist : body.isList) :
    ((openSurvey scope names).places g (.node () .switchCase span [test, body])).Sublist
      (Output.survey.places g
        (.node .kept .switchCase span [o, .node .kept body.kind body.span os])) := by
  obtain ⟨⟨⟩, kind, _, _⟩ := body
  obtain rfl : kind = .list := by
    cases kind <;> first | rfl | simp [isList] at hlist
  refine Survey.placesFrom_sublist span g (fun _ _ => rfl) (.cons ?_ (.cons ?_ .nil)) ?_
  · exact fun g => hcovered w o hw htest g
  · intro g
    rw [places_node g rfl rfl, open_node g rfl (fun _ => rfl) rfl]
    exact hbody.sublist_flatMap g (hw.visit hplain) hplainKids hkids
  · intro j _ _ _ _ hj
    simp [Script.Kind.isBody] at hj

theorem covered_update (span : Span) (h : SameUpdate source (Walk.Clean scope names) args os u v)
    (hargs : ∀ a ∈ args, ∀ m : Node, m.Within a → Covered source scope names m) :
    ((u.entries.flatMap fun e => (openSurvey scope names).places g e.2) ++
      u.callback.toList.flatMap ((openSurvey scope names).places g)).Sublist
      ((updates span v).flatMap (Output.survey.places g)) := by
  have hcarried : ∀ m p, Carried source (Walk.Clean scope names) args os m p →
      ((openSurvey scope names).places g m).Sublist (Output.survey.places g p) := by
    rintro m p ⟨⟨⟨a, q⟩, ha, hin⟩, w, hw, hm⟩
    exact hargs a (of_mem_zip ha).1 m hin.within w p hw hm g
  rw [places_updates]
  refine List.Sublist.append (flatMap_sublist (h.entries.imp fun e f he => hcarried _ _ he.2)) ?_
  have hcallback := h.callback
  generalize u.callback = before, v.callback = after at hcallback
  cases hcallback with
  | none => exact .refl _
  | some hc => simpa using hcarried _ _ hc

theorem covered_setter (span : Span) (target : String) (h : RewritesAll source w args os)
    (hlength : args.length ≤ 1) (hw : w.Clean scope names)
    (hargs : ∀ a ∈ args, Covered source scope names a) :
    (args.flatMap ((openSurvey scope names).places g)).Sublist
      (Output.survey.places g (setValue span target (setArgument args os))) := by
  cases h with
  | nil => exact nil_sublist _
  | @cons _ a rest o _ ha =>
    obtain rfl : rest = [] := by simpa using hlength
    have hplaces := hargs a (by simp) w o hw ha g
    have hspread := places_spreadValue g o
    rw [flatMap_cons, flatMap_nil, append_nil, setArgument]
    cases a.spreadValue.unparen.isFunction with
    | false =>
      rw [setValue, hspread]
      exact hplaces
    | true =>
      rw [setValue, places_call, places_parenthesized, hspread]
      simpa [places_name] using hplaces

theorem mayRead_of_memberReplacement? {d name symbols}
    (h : memberReplacement? d n = some (name, symbols)) : n.mayRead := by
  cases hobject : n.memberObject? with
  | none => simp [memberReplacement?, hobject] at h
  | some =>
    have hplace := place?_of_memberReplacement? h
    rw [mayRead, hobject, Option.any_some]
    cases hname : n.memberName? with
    | none => simp [Draft.place?, hname, ident?_of_memberObject? hobject] at hplace
    | some =>
      simp only [Draft.place?, hobject, hname, ident?_of_memberObject? hobject,
        Draft.memberVariable?, isThisMember] at hplace
      by_contra hno
      simp only [Bool.or_eq_true, not_or, Bool.not_eq_true, Option.isSome_eq_false_iff,
        Option.isNone_iff_eq_none] at hno
      obtain ⟨⟨hthis, hmember⟩, hid⟩ := hno
      simp [hthis, hmember, hid] at hplace

theorem covered (n : Node) (hplain : n.every (plainAt scope names))
    (ho : n.orderly source scope.propsBag) : Covered source scope names n := by
  induction n using inside_induction with
  | h n ih =>
    intro w o hw h g
    have hin : ∀ m : Node, m.Inside n → Covered source scope names m :=
      fun m hm => ih m hm (hm.within.every hplain) (hm.within.orderly ho)
    have hplainKids := (every_node_iff.1 hplain).2
    have hkids : ∀ k ∈ n.kids, Covered source scope names k :=
      fun k hk => hin k (inside_of_mem_kids hk)
    have hplainArgs : ∀ m : Node, m.Within n → ∀ a ∈ m.arguments, ∀ p : Node, p.Within a →
        ∀ w : Walk, w.Clean scope names → (w.visit source p).Clean scope names :=
      fun m hm a ha p hp w hw =>
        hw.visit (((hp.trans (inside_of_mem_arguments ha).within).trans hm).every hplain)
    have hargs : ∀ m : Node, m.Within n → ∀ a ∈ m.arguments, ∀ p : Node, p.Within a →
        Covered source scope names p := fun m hm a ha p hp =>
      hin p (hp.trans_inside ((inside_of_mem_arguments ha).trans_within hm))
    -- the code of an update call has its open places
    have hupdate : ∀ m : Node, m.Within n → isUpdateCall m → ∀ os u v span,
        RewritesAll source w m.arguments os → Visit.update? m.arguments = some u →
        Visit.update? os = some v →
        ((openSurvey scope names).places g m).Sublist
          ((updates span v).flatMap (Output.survey.places g)) := by
      intro m hm hupdate os u v span hall hu hv
      obtain ⟨v', hv', hsame⟩ := hall.update hu (hplainArgs m hm) hw
      obtain rfl : v = v' := by simpa [hv] using hv'
      have hkind := kind_of_isUpdateCall hupdate
      by_cases hlength : m.arguments.length = 1 ∨ m.arguments.length = 2
      · refine (open_call g hkind ?_).trans ?_
        · intro i hi
          have hi : i = 1 := by simpa [openAt, hkind, hupdate, hlength] using hi
          exact ⟨hi, ne_nil_of_length_pos (by omega)⟩
        · rw [open_update g hu (by omega)]
          exact covered_update g span hsame (hargs m hm)
      · rw [open_closed g (fun i => by simpa [openAt, hkind, hupdate] using fun _ => hlength)
          (updateSize?_of_call hkind)]
        exact nil_sublist _
    cases h with
    | kept h hall =>
      exact covered_kept g hall hw hplainKids hkids (updateSize?_of_passes h)
    | @block _ span _ os hss =>
      rw [places_node g rfl rfl, open_node g rfl (fun _ => rfl) rfl]
      exact hss.sublist_flatMap g hw hplainKids hkids
    | @switchCase _ span test body o os htest hbody =>
      have hmem : body ∈ (node () .switchCase span [test, body]).kids := by simp
      have hat := orderlyAt_of_orderly ho
      simp only [orderlyAt, kind_node, kids_node, Bool.and_eq_true] at hat
      exact covered_switchCase g htest hbody hw (hplainKids test (by simp))
        (every_node_iff.1 (hplainKids body hmem)).2 (hkids test (by simp))
        (fun s hs => hin s ((inside_of_mem_kids hs).trans_within (.kid hmem .self))) hat.1.1
    | @updateStatement _ span e os u v h hall hu hv hne =>
      have hwithin := unparen_within_statement () span e
      have hsize : (node () .expression span [e]).updateSize? = some u.size := by
        simp [updateSize?, h, hu]
      have hpos : 0 < u.size := by
        rw [← hall.size_eq hu hv, ← length_updates span v]
        exact length_pos_iff.2 hne
      rw [open_statement g hsize, if_pos hpos, places_lines, length_map,
        length_updates, hall.size_eq hu hv, flatMap_map]
      simp only [places_statement]
      exact (hupdate _ hwithin h _ _ _ _ hall hu hv).cons_cons _
    | @emptyUpdateStatement _ span e os u v h hall hu hv hnil =>
      have hwithin := unparen_within_statement () span e
      have hzero : u.size = 0 := by
        rw [← hall.size_eq hu hv, ← length_updates span v, hnil, length_nil]
      have hsize : (node () .expression span [e]).updateSize? = some 0 := by
        simp [updateSize?, h, hu, hzero]
      have hplaces := hupdate _ hwithin h os u v span hall hu hv
      rw [hnil] at hplaces
      rw [open_statement g hsize]
      exact hplaces
    | @updateStatementDeferred _ span e _ h _ hu =>
      have hwithin := unparen_within_statement () span e
      have hsome := hwithin.of_every hplain
      simp [plainAt, h, hu] at hsome
    | update h hall hu hv =>
      rw [places_parenthesized, places_sequence]
      exact hupdate _ .self h _ _ _ _ hall hu hv
    | updateDeferred h hall hu =>
      have hsome := Within.self.of_every hplain
      simp [plainAt, h, hu] at hsome
    | bound hnot h =>
      rw [open_closed g (fun i => by simp [openAt, hnot, h]) rfl]
      exact nil_sublist _
    | @setter _ span kids _ target hnot hbound h hall =>
      rw [places_assignment]
      obtain ⟨name, hname, hget⟩ := Option.bind_eq_some_iff.1 h
      have hmem : name ∈ names := hw.setters _ (Table.mem_of_get? hget)
      by_cases hlength : (node () .call span kids).arguments.length = 1
      · refine (open_call g rfl ?_).trans
          (covered_setter g span target hall hlength.le hw fun a ha => hargs _ .self a ha a .self)
        intro i hi
        have hi : i = 1 := by simpa [openAt, hbound, hname, hmem, hlength] using hi
        exact ⟨hi, ne_nil_of_length_pos (by omega)⟩
      · rw [open_closed g (fun i => by simp [openAt, hnot, hname, hmem, hlength]) rfl]
        exact nil_sublist _
    | declaration h =>
      rw [Walk.consumes_congr hw.inScope] at h
      rw [open_closed g (fun i => by simp [openAt, h]) rfl]
      exact nil_sublist _
    | this | bag =>
      rw [open_closed g (fun i => rfl) rfl]
      exact nil_sublist _
    | member h =>
      rw [open_closed g (fun i => by simp [openAt, mayRead_of_memberReplacement? h]) rfl]
      exact nil_sublist _

/-- The statements that are written for updates stand in the places of the updates, under the same
guards, and a place that takes one statement has one, where every part that may stand without braces
is written as one. No update that a walk comes to is lost where all of them are plain. -/
theorem update_statements_keep_guards {draft : Draft} (ho : n.orderly source draft.scope.propsBag)
    (hsolid : solid source n) (hsingle : n.every (singleAt draft.scope)) :
    ∃ o : Output, Rewrites source { draft } n o ∧
      (render source (Part.ofNode source n) draft).1 = o.text source ∧
      (Output.survey.places [] o).Sublist ((Script.Tree.survey draft.scope).places [] n) ∧
      (∀ p ∈ Output.survey.places [] o, p.single → p.count = 1) ∧
      ∀ names : List String, (∀ entry ∈ draft.scope.setters, entry.1 ∈ names) →
        n.every (plainAt draft.scope names) →
        ((openSurvey draft.scope names).places [] n).Sublist (Output.survey.places [] o) := by
  obtain ⟨o, h⟩ := exists_rewrites source n { draft }
  have hplaced := placed n ho hsingle { draft } o rfl h []
  refine ⟨o, h, render_ofNode h ho hsolid, hplaced, ?_, ?_⟩
  · exact fun p hp hone => count_eq_one [] hsingle (hplaced.subset hp) hone
  · intro _ hnames hplain
    exact covered n hplain ho { draft } o ⟨rfl, rfl, hnames⟩ h []

end

/-- An update in both branches of an `if`, the second one in braces. -/
theorem update_statements_keep_guards_branches :
    let source : Source := .ofString
      "if (x) this.setState(\x7b a: 1 \x7d); else \x7b this.setState(\x7b b: 2, c: 3 \x7d); \x7d"
    let n := Script.firstStatement (String.ofList source.text)
    n.orderly source none ∧ solid source n ∧ n.every (singleAt {}) ∧ n.every (plainAt {} []) ∧
      ((openSurvey {} []).places [] n).map (fun p => (p.guards.map Prod.snd, p.single, p.count)) =
        [([1], true, 1), ([1], false, 1), ([2], true, 1), ([2], false, 2)] ∧
      ∃ o : Output, Rewrites source { draft := {} } n o ∧
        (render source (Part.ofNode source n) {}).1 = o.text source ∧
        o.text source = "if (x) a = 1; else \x7b b = 2;\nc = 3; \x7d".toList ∧
        Output.survey.places [] o = (openSurvey {} []).places [] n := by
  intro source n
  have hcheck : n.orderly source none ∧ solid source n ∧ n.every (singleAt {}) ∧
      n.every (plainAt {} []) ∧
      ((openSurvey {} []).places [] n).map (fun p => (p.guards.map Prod.snd, p.single, p.count)) =
        [([1], true, 1), ([1], false, 1), ([2], true, 1), ([2], false, 2)] ∧
      (Script.Tree.survey {}).places [] n = (openSurvey {} []).places [] n ∧
      (render source (Part.ofNode source n) {}).1 =
        "if (x) a = 1; else \x7b b = 2;\nc = 3; \x7d".toList := by
    decide +kernel
  obtain ⟨ho, hsolid, hsingle, hplain, hplaces, hsame, htext⟩ := hcheck
  obtain ⟨o, h, hrender, hsub, -, hcovered⟩ :=
    @update_statements_keep_guards source n {} ho hsolid hsingle
  refine ⟨ho, hsolid, hsingle, hplain, hplaces, o, h, hrender, hrender ▸ htext, ?_⟩
  exact (hsame ▸ hsub).antisymm (hcovered [] (by simp) hplain)

/-- Of two assignments in the place of an unbraced body the second one is no longer guarded, and the
statement behind an update that is written as nothing takes its place. -/
theorem update_statement_escapes_guard :
    (let source : Source := .ofString "if (x) this.setState(\x7b a: 1, b: 2 \x7d);"
      let n := Script.firstStatement (String.ofList source.text)
      let text := String.ofList (render source (Part.ofNode source n) {}).1
      n.orderly source none ∧ solid source n ∧ n.every (plainAt {} []) ∧ ¬n.every (singleAt {}) ∧
        text = "if (x) a = 1;\nb = 2;" ∧ (Script.statements text).length = 2) ∧
    (let source : Source := .ofString "\x7b if (x) this.setState(\x7b\x7d); done(); \x7d"
      let n := Script.firstStatement (String.ofList source.text)
      let text := String.ofList (render source (Part.ofNode source n) {}).1
      n.kids.length = 2 ∧ n.every (plainAt {} []) ∧ ¬n.every (singleAt {}) ∧
        text = "\x7b if (x)  done(); \x7d" ∧ (Script.firstStatement text).kids.length = 1) := by
  decide +kernel

end Sveltify
