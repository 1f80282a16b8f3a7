import Sveltify.Component.Part
import Sveltify.Proofs.Script.Shape
import Sveltify.Proofs.Source.Edits

/-! Orderly trees, where parts lie apart and each of them in the place of the node that it is a part
of. The trees that are read from a source are orderly, up to rare exceptions such as a statement
behind which a semicolon stands alone. -/

namespace Sveltify

open List
open Script (Node Kind)
open Script.Tree

def Span.present (s : Span) : List Span :=
  if s.Filled then [s] else []

def Span.allApart (as bs : List Span) : Bool :=
  as.all fun a => bs.all fun b => decide (a.Apart b)

def Span.encloses (outer : Span) (rs : List Span) : Bool :=
  rs.all fun r => outer.contains r

/-- All ranges lie inside the outer one, and none of them is the outer one. -/
def Span.surrounds (outer : Span) (rs : List Span) : Bool :=
  rs.all fun r => outer.contains r && r != outer

namespace Script.Tree

variable (source : Source)

/-- The ranges at which a walk may look or leave something on account of a node itself. -/
def ranges (n : Node) : List Span :=
  match n.kind, n.kids with
  | .list, _ | .absent, _ | .function _ _, _ | .classBody, _ => []
  | .block, ss => n.span.present ++ ss.flatMap fun s => (source.statementRange s.span).present
  | .switchCase, [_, body] =>
    n.span.present ++ body.kids.flatMap fun s => (source.statementRange s.span).present
  | .expression, [e] =>
    if Visit.isUpdateCall e.unparen then
      n.span.present ++ (source.statementRange n.span).present
    else n.span.present
  | .variableDecl _, _ => n.span.present ++ (source.statementRange n.span).present
  | _, _ => n.span.present

mutual

def reach : Node → List Span
  | .node l kind span kids => ranges source (.node l kind span kids) ++ reachAll kids

def reachAll : List Node → List Span
  | [] => []
  | n :: ns => reach n ++ reachAll ns

end

def reachListed (s : Node) : List Span :=
  (source.statementRange s.span).present ++ s.reach source

def solid (n : Node) : Bool :=
  (n.reach source).contains n.span && n.span.encloses (n.reach source)

/-- The statements of a list lie apart, each in the range that is dropped with it. -/
def listedApart : List Node → Bool
  | [] => true
  | s :: ss =>
    decide (source.statementRange s.span).Filled &&
      (source.statementRange s.span).encloses (s.reach source) &&
      Span.allApart (reachListed source s) (ss.flatMap (reachListed source)) && listedApart ss

def isList (n : Node) : Bool :=
  match n.kind with
  | .list => true
  | _ => false

/-- What an orderly tree takes at a node, given the name of the variable that holds the props. -/
def orderlyAt (bag : Option String) (n : Node) : Bool :=
  match n.kind, n.kids with
  | .block, ss => listedApart source ss
  | .switchCase, [test, body] =>
    body.isList && listedApart source body.kids &&
      Span.allApart (test.reach source) (body.kids.flatMap (reachListed source))
  | .member, kids =>
    decide n.span.Filled && n.span.surrounds (reachAll source kids) && kids.all (solid source)
  | .call, kids =>
    decide n.span.Filled && n.span.surrounds (reachAll source kids) &&
      n.arguments.all (solid source)
  | .paren, kids | .spread, kids | .object, kids | .property, kids => kids.all (solid source)
  | .ident name, kids => bag != some name || (decide n.span.Filled && (reachAll source kids).isEmpty)
  | .expression, [e] =>
    !Visit.isUpdateCall e.unparen || (decide n.span.Filled &&
      (source.statementRange n.span).contains n.span &&
      n.span.surrounds (reachAll source e.unparen.arguments))
  | .variableDecl _, _ =>
    decide n.span.Filled && (source.statementRange n.span).contains n.span
  | _, _ => true

mutual

def orderly (bag : Option String) : Node → Bool
  | .node l kind span kids => orderlyAt source bag (.node l kind span kids) && orderlyAll bag kids

def orderlyAll (bag : Option String) : List Node → Bool
  | [] => true
  | n :: ns => orderly bag n && Span.allApart (n.reach source) (reachAll source ns) &&
      orderlyAll bag ns

end

/-! What an orderly tree gives. -/

variable {source}

variable {n : Node} {r : Span}

theorem mem_present {s} : r ∈ s.present ↔ r = s ∧ s.Filled := by
  unfold Span.present
  split <;> simp_all

theorem filled_of_mem_ranges (h : r ∈ ranges source n) : r.Filled := by
  unfold ranges at h
  split at h <;> grind [mem_present]

theorem reach_eq (n : Node) : n.reach source = ranges source n ++ reachAll source n.kids := by
  cases n
  rfl

theorem reachAll_eq (ns : List Node) : reachAll source ns = ns.flatMap (reach source) := by
  induction ns with
  | nil => rfl
  | cons n _ ih => rw [reachAll, ih, flatMap_cons]

theorem reach_subset_of_mem_kids {k} (h : k ∈ n.kids) : k.reach source ⊆ n.reach source := by
  rw [reach_eq n, reachAll_eq]
  intro r hr
  exact mem_append_right _ (mem_flatMap.2 ⟨k, h, hr⟩)

theorem Within.reach_subset {m : Node} (h : m.Within n) : m.reach source ⊆ n.reach source := by
  induction h with
  | self => exact fun _ h => h
  | kid hk _ ih => exact fun r hr => reach_subset_of_mem_kids hk (ih hr)

theorem filled_of_mem_reach (h : r ∈ n.reach source) : r.Filled := by
  induction n using inside_induction with
  | h n ih =>
    rw [reach_eq, reachAll_eq, mem_append, mem_flatMap] at h
    rcases h with h | ⟨k, hk, h⟩
    · exact filled_of_mem_ranges h
    · exact ih k (inside_of_mem_kids hk) h

theorem allApart_iff {as bs} : Span.allApart as bs ↔ ∀ a ∈ as, ∀ b ∈ bs, a.Apart b := by
  simp [Span.allApart]

theorem encloses_iff {rs} {outer : Span} :
    outer.encloses rs ↔ ∀ r ∈ rs, outer.contains r := by
  simp [Span.encloses]

theorem surrounds_iff {rs} {outer : Span} :
    outer.surrounds rs ↔ ∀ r ∈ rs, outer.contains r ∧ r ≠ outer := by
  simp [Span.surrounds]

variable {bag : Option String}

theorem orderly_eq (n : Node) :
    n.orderly source bag = (orderlyAt source bag n && orderlyAll source bag n.kids) := by
  cases n
  rfl

theorem orderly_of_mem {ns} (h : orderlyAll source bag ns) (hn : n ∈ ns) :
    n.orderly source bag := by
  induction ns with
  | nil => simp at hn
  | cons m _ ih =>
    simp only [orderlyAll, Bool.and_eq_true] at h
    rcases mem_cons.1 hn with rfl | hn
    · exact h.1.1
    · exact ih h.2 hn

theorem Within.orderly {m : Node} (h : m.Within n) (hn : n.orderly source bag) :
    m.orderly source bag := by
  induction h with
  | self => exact hn
  | kid hk _ ih =>
    rw [orderly_eq, Bool.and_eq_true] at hn
    exact ih (orderly_of_mem hn.2 hk)

theorem orderlyAt_of_orderly (h : n.orderly source bag) : orderlyAt source bag n := by
  rw [orderly_eq, Bool.and_eq_true] at h
  exact h.1

theorem orderlyAll_kids (h : n.orderly source bag) : orderlyAll source bag n.kids := by
  rw [orderly_eq, Bool.and_eq_true] at h
  exact h.2

theorem orderlyAll_arguments (h : n.orderly source bag) : orderlyAll source bag n.arguments := by
  fun_cases arguments n with
  | case1 l span callee l' span' args types | case2 l _ _ l' span' args =>
    exact orderlyAll_kids (orderly_of_mem (orderlyAll_kids h)
      (n := .node l' .list span' args) (by simp))
  | case3 => rfl

theorem reachAll_kids_subset (n : Node) : reachAll source n.kids ⊆ n.reach source := by
  rw [reach_eq]
  exact subset_append_right _ _

theorem reachAll_arguments_subset (n : Node) :
    reachAll source n.arguments ⊆ reachAll source n.kids := by
  rw [reachAll_eq, reachAll_eq]
  intro r hr
  obtain ⟨a, ha, hr⟩ := mem_flatMap.1 hr
  obtain ⟨k, hk, hak⟩ := inside_of_mem_arguments ha
  exact mem_flatMap.2 ⟨k, hk, hak.reach_subset hr⟩

theorem reachAll_arguments_subset_reach (n : Node) : reachAll source n.arguments ⊆ n.reach source :=
  fun _ hr => reachAll_kids_subset n (reachAll_arguments_subset n hr)

theorem filled_of_mem_reachAll {ns} (h : r ∈ reachAll source ns) : r.Filled := by
  rw [reachAll_eq] at h
  obtain ⟨n, _, hr⟩ := mem_flatMap.1 h
  exact filled_of_mem_reach hr

theorem filled_of_mem_reachListed {s} (h : r ∈ reachListed source s) : r.Filled := by
  rcases mem_append.1 h with h | h
  · exact (mem_present.1 h).1 ▸ (mem_present.1 h).2
  · exact filled_of_mem_reach h

theorem span_mem_reach_of_solid (h : solid source n) : n.span ∈ n.reach source := by
  unfold solid at h
  simp only [Bool.and_eq_true, contains_iff_mem] at h
  exact h.1

theorem contains_of_solid (h : solid source n) : ∀ r ∈ n.reach source, n.span.contains r := by
  unfold solid at h
  rw [Bool.and_eq_true] at h
  exact encloses_iff.1 h.2

end Script.Tree

end Sveltify
