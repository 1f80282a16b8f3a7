import Mathlib.Logic.Function.Basic
import Sveltify.Proofs.Component.Steps

/-! Values of expressions. In a component an expression reads variables: by name, as a member of the
props, of the state or of the component, or through a reference. The code that is made of an
expression without effects reads the same variables, and has the same value whatever they hold. -/

namespace Sveltify

open List hiding span
open Script (Node Kind)
open Script.Tree
open Visit (boundMethod? memberReplacement? setVariable?)

abbrev Store (V : Type) := String → V

/-- The value of a node that is no variable, given its kind, its place and the values of its parts. -/
abbrev Operations (V : Type) := Kind → Span → List V → V

/-! What is read. -/

def Draft.memberVariable? (d : Draft) (object : Node) (name : String) : Option String :=
  if object.isThis then
    if name == "props" then some "$$props"
    else if Visit.keptMembers.contains name then none else some name
  else if object.isThisMember "props" || object.isThisMember "state" then some name
  else
    match object.thisMember?, object.ident? with
    | some ref, _ => if name == "current" && d.symbols.isRef ref then some ref else none
    | none, some x =>
      if name == "current" && d.scope.hookRefs.contains x then some x
      else if d.scope.propsBag == some x then some name else none
    | none, none => none

def Draft.place? (d : Draft) (n : Node) : Option String :=
  match n.ident?, n.memberObject?, n.memberName? with
  | some name, _, _ => some (if d.scope.propsBag == some name then "$$props" else name)
  | none, some object, some name => d.memberVariable? object.unparen name
  | _, _, _ => none

/-- The variable that an expression reads: a name, a member, or a method that is bound to the
component. -/
def Draft.reads? (d : Draft) (n : Node) : Option String :=
  (d.place? n).or ((boundMethod? n).bind d.place?)

/-- A kind whose nodes have a value of their own: what stands in a function is read when it is
called. -/
def Script.Kind.isWhole : Kind → Bool
  | .arrow _ | .function _ _ | .this => true
  | _ => false

def Script.Kind.acts : Kind → Bool
  | .assign _ | .update _ _ | .yield | .await | .classBody => true
  | .unary operator => operator == "delete"
  | .block | .switchCase | .expression | .variableDecl _ => true
  | _ => false

namespace Draft

variable {V : Type} (d : Draft)

mutual

def value (ops : Operations V) (s : Store V) : Node → V
  | .node l kind span kids =>
    match d.reads? (.node l kind span kids) with
    | some x => s x
    | none => ops kind span (if kind.isWhole then [] else values ops s kids)

def values (ops : Operations V) (s : Store V) : List Node → List V
  | [] => []
  | n :: ns => value ops s n :: values ops s ns

end

mutual

def reads : Node → List String
  | .node l kind span kids =>
    match d.reads? (.node l kind span kids) with
    | some x => [x]
    | none => if kind.isWhole then [] else readsAll kids

def readsAll : List Node → List String
  | [] => []
  | n :: ns => reads n ++ readsAll ns

end

mutual

def isPure : Node → Bool
  | .node l kind span kids =>
    (d.reads? (.node l kind span kids)).isSome ||
      (!kind.acts && !Visit.isUpdateCall (.node l kind span kids : Node) &&
        (boundMethod? (.node l kind span kids : Node)).isNone &&
        (setVariable? d (.node l kind span kids : Node)).isNone &&
        (kind.isWhole || arePure kids))

def arePure : List Node → Bool
  | [] => true
  | n :: ns => isPure n && arePure ns

end

end Draft

namespace Output

variable {V : Type}

mutual

def value (ops : Operations V) (s : Store V) : Output → V
  | .node (.word _) .list _ [o] => value ops s o
  | .node (.word text) _ _ _ => s (String.ofList text)
  | .node _ (.ident name) _ _ => s name
  | .node _ kind span kids => ops kind span (if kind.isWhole then [] else values ops s kids)

def values (ops : Operations V) (s : Store V) : List Output → List V
  | [] => []
  | o :: os => value ops s o :: values ops s os

end

end Output

/-! The value depends on what is read only. -/

namespace Draft

variable {V : Type} {d : Draft} {ops : Operations V} {s s' : Store V}

theorem value_node (n : Node) : d.value ops s n =
    match d.reads? n with
    | some x => s x
    | none => ops n.kind n.span (if n.kind.isWhole then [] else d.values ops s n.kids) := by
  obtain ⟨⟨⟩, _, _, _⟩ := n
  rw [value, kind_node, span_node, kids_node]

theorem values_eq (ns : List Node) : d.values ops s ns = ns.map (d.value ops s) := by
  induction ns with
  | nil => rfl
  | cons n _ ih => rw [values, ih, map_cons]

theorem readsAll_eq (ns : List Node) : d.readsAll ns = ns.flatMap d.reads := by
  induction ns with
  | nil => rfl
  | cons n _ ih => rw [readsAll, ih, flatMap_cons]

theorem isPure_node (n : Node) : d.isPure n = ((d.reads? n).isSome ||
    (!n.kind.acts && !Visit.isUpdateCall n && (boundMethod? n).isNone &&
      (setVariable? d n).isNone && (n.kind.isWhole || d.arePure n.kids))) := by
  cases n
  rw [isPure, kind_node, kids_node]

theorem arePure_iff {ns} : d.arePure ns ↔ ∀ n ∈ ns, d.isPure n := by
  induction ns with
  | nil => simp [arePure]
  | cons n _ ih => simp [arePure, ih]

theorem value_congr {n} (h : ∀ x ∈ d.reads n, s x = s' x) :
    d.value ops s n = d.value ops s' n := by
  induction n using inside_induction with
  | h n ih =>
    obtain ⟨⟨⟩, kind, span, kids⟩ := n
    rw [reads] at h
    rw [value, value]
    cases hr : d.reads? (.node () kind span kids) with
    | some x => exact h x (by simp [hr])
    | none =>
      by_cases hw : kind.isWhole
      · simp [hw]
      · simp only [hr, hw] at h
        have hkids : d.values ops s kids = d.values ops s' kids := by
          rw [values_eq, values_eq]
          refine map_congr_left fun k hk => ih k (inside_of_mem_kids hk) fun x hx => h x ?_
          rw [readsAll_eq]
          exact mem_flatMap.2 ⟨k, hk, hx⟩
        rw [hkids]

end Draft

/-! Drafts in which the same is read. -/

/-- The drafts know the same references, setters and variable of the props. -/
structure Draft.Alike (d d' : Draft) : Prop where
  propsBag : d'.scope.propsBag = d.scope.propsBag
  hookRefs : d'.scope.hookRefs = d.scope.hookRefs
  setters : d'.scope.setters = d.scope.setters
  refs : d'.symbols.refs = d.symbols.refs

namespace Draft

theorem Alike.refl (d : Draft) : Alike d d :=
  ⟨rfl, rfl, rfl, rfl⟩

theorem Alike.step {source d e e'} (h : Alike d e)
    (hstep : Step source (fun _ => False) e e') : Alike d e' := by
  cases hstep with
  | reactive =>
    unfold addReactive
    split <;> exact ⟨h.propsBag, h.hookRefs, h.setters, h.refs⟩
  | ref hn | setter hs hn | hookRef => contradiction
  | _ => exact ⟨h.propsBag, h.hookRefs, h.setters, h.refs⟩

variable {d d' : Draft}

theorem Alike.place? (h : Alike d d') (n : Node) : d'.place? n = d.place? n := by
  have hmember : d'.memberVariable? = d.memberVariable? := by
    funext object name
    simp only [memberVariable?, SymbolTable.isRef, h.propsBag, h.hookRefs, h.refs]
    rfl
  simp [Draft.place?, hmember, h.propsBag]

theorem Alike.setVariable? (h : Alike d d') (n : Node) : setVariable? d' n = setVariable? d n := by
  simp [Visit.setVariable?, h.setters]

end Draft

variable {n : Node}

theorem ident?_of_memberObject? {object} (h : n.memberObject? = some object) :
    n.ident? = none := by
  fun_cases memberObject? n with
  | case1 => rfl
  | case2 => simp [memberObject?] at h

theorem memberObject?_of_ident? {x} (h : n.ident? = some x) : n.memberObject? = none := by
  fun_cases ident? n with
  | case1 => rfl
  | case2 => simp [ident?] at h

theorem memberReplacement?_place? {d object} (h : n.memberObject? = some object) :
    (memberReplacement? d n).map Prod.fst = d.place? n := by
  unfold memberReplacement? Draft.place?
  rw [h, ident?_of_memberObject? h]
  simp only [Option.map_some]
  cases n.memberName? with
  | none =>
    have hcurrent : (none == some "current") = false := rfl
    simp [hcurrent]
  | some =>
    simp only [Draft.memberVariable?]
    generalize object.unparen = o
    by_cases hthis : o.isThis
    · grind
    by_cases hprops : o.isThisMember "props"
    · simp [hthis, hprops]
    by_cases hstate : o.isThisMember "state"
    · simp [hthis, hprops, hstate]
    simp only [hthis, hprops]
    cases hid : o.ident? with
    | some =>
      have hobject := memberObject?_of_ident? hid
      have hmember : o.thisMember? = none := by simp [thisMember?, hobject]
      grind
    | none =>
      cases hmember : o.thisMember? with
      | none => simp
      | some =>
        have hobject : o.memberObject?.isSome := by
          unfold thisMember? at hmember
          cases ho : o.memberObject? <;> simp_all
        grind

theorem place?_of_memberReplacement? {d name symbols}
    (h : memberReplacement? d n = some (name, symbols)) : d.place? n = some name := by
  cases hobject : n.memberObject? with
  | none => simp [memberReplacement?, hobject] at h
  | some => rw [← memberReplacement?_place? hobject, h, Option.map_some]

/-! Declarations that only feed the symbol table. -/

namespace Walk

theorem boundMethod?_of_passes {d n} (h : passes d n) : boundMethod? n = none := by
  obtain ⟨⟨⟩, kind, _, _⟩ := n
  cases kind
  case call =>
    simp only [passes, kind_node, Bool.and_eq_true, Option.isNone_iff_eq_none] at h
    exact h.1.2
  all_goals rfl

def calmAt (scope : ComponentScope) (n : Node) : Bool :=
  match n.kind with
  | .variableDecl _ => !consumes scope n.kids
  | _ => true

def calm (scope : ComponentScope) (n : Node) : Bool :=
  n.every (calmAt scope)

variable {scope : ComponentScope} {source : Source} {d : Draft}

theorem names_of_calm {n} (h : calm scope n) : Names scope.propsBag (fun _ => False) n := by
  intro m hm _ hkind _ hbag hconsumes
  have hcalm := hm.of_every h
  rw [calmAt, hkind, ← consumes_congr hbag, hconsumes] at hcalm
  contradiction

theorem alike_visit {n} {w : Walk} (h : d.Alike w.draft) (hn : calm d.scope n) :
    d.Alike (w.visit source n).draft := by
  have hreaches : Draft.Reaches source _ _ w.draft (w.visit source n).draft :=
    reaches_visit n (names_of_calm hn) w
  exact hreaches.preserves (fun _ _ hstep hd => hd.step hstep) h.propsBag h

end Walk

/-! The code that is made of an expression without effects has the same value. -/

namespace Output

variable {V : Type} {ops : Operations V} {s : Store V}

theorem values_eq (os : List Output) : values ops s os = os.map (value ops s) := by
  induction os with
  | nil => rfl
  | cons o _ ih => rw [values, ih, map_cons]

theorem value_kept {kind} (h : ∀ name, kind ≠ .ident name) (span : Span)
    (os : List Output) : value ops s (.node .kept kind span os) =
      ops kind span (if kind.isWhole then [] else os.map (value ops s)) := by
  rw [← values_eq]
  cases kind <;> first | rfl | exact absurd rfl (h _)

end Output

section

variable {V : Type} {ops : Operations V} {s : Store V} {source : Source} {w : Walk} {n : Node}
  {o : Output} {d : Draft}

theorem place?_eq_none {n} {d : Draft} (hid : n.ident? = none) (hmember : n.memberObject? = none) :
    d.place? n = none := by
  simp [Draft.place?, hid, hmember]

theorem Rewrites.value_place? {x : String} (h : Rewrites source w n o) (hd : d.Alike w.draft)
    (hx : d.place? n = some x) : o.value ops s = s x := by
  rw [← hd.place?] at hx
  cases h with
  | bag h =>
    obtain rfl : "$$props" = x := by simpa [Draft.place?, ident?, h] using hx
    rfl
  | @member _ _ _ name _ h =>
    obtain rfl : name = x := by simpa [place?_of_memberReplacement? h] using hx
    exact congrArg s String.ofList_toList
  | @kept _ _ _ h hall =>
    obtain ⟨⟨⟩, kind, span, kids⟩ := n
    cases kind
    case ident name =>
      have hbag : (w.draft.scope.propsBag == some name) = false := by
        simpa [Walk.passes] using h
      obtain rfl : name = x := by simpa [Draft.place?, ident?, hbag] using hx
      rfl
    case member =>
      have hnone : memberReplacement? w.draft (.node () .member span kids : Node) = none := by
        simpa [Walk.passes] using h
      cases hobject : memberObject? (.node () .member span kids : Node) with
      | none => simp [place?_eq_none rfl hobject] at hx
      | some => simp [← memberReplacement?_place? hobject, hnone] at hx
    all_goals simp [Draft.place?, ident?, memberObject?] at hx
  | _ => simp [Draft.place?, ident?, memberObject?] at hx

theorem RewritesAll.map_value {ns os} (h : RewritesAll source w ns os)
    (hd : d.Alike w.draft) (hcalm : ∀ n ∈ ns, Walk.calm d.scope n)
    (hns : ∀ n ∈ ns, ∀ w o, Rewrites source w n o → d.Alike w.draft →
      o.value ops s = d.value ops s n) : os.map (Output.value ops s) = ns.map (d.value ops s) := by
  induction ns generalizing w os with
  | nil =>
    cases h
    rfl
  | cons n _ ih =>
    cases h with
    | @cons _ _ _ o _ hn hrest =>
      rw [map_cons, map_cons, hns n (by simp) w o hn hd,
        ih hrest (Walk.alike_visit hd (hcalm n (by simp))) (fun m hm => hcalm m (by simp [hm]))
          (fun m hm => hns m (by simp [hm]))]

theorem Rewrites.value_eq (h : Rewrites source w n o) (hd : d.Alike w.draft) (hpure : d.isPure n)
    (hcalm : Walk.calm d.scope n) : o.value ops s = d.value ops s n := by
  induction n using inside_induction generalizing w o with
  | h n ih =>
    rw [Draft.value_node]
    cases hplace : d.place? n with
    | some x =>
      have hreads : d.reads? n = some x := by simp [Draft.reads?, hplace]
      rw [hreads]
      exact h.value_place? hd hplace
    | none =>
      have hreads : d.reads? n = (boundMethod? n).bind d.place? := by
        simp [Draft.reads?, hplace]
      rw [Draft.isPure_node] at hpure
      cases hbound : boundMethod? n with
      | some method =>
        have hupdate := Visit.isUpdateCall_of_boundMethod? hbound
        rw [hreads, hbound, Option.bind_some] at hpure ⊢
        obtain ⟨x, hx⟩ : ∃ x, d.place? method = some x := by
          simpa [Option.isSome_iff_exists] using hpure
        rw [hx]
        cases h with
        | bound _ hmethod hrewrites =>
          obtain rfl : method = _ := by simpa [hbound] using hmethod
          exact hrewrites.value_place? hd hx
        | kept hpasses => simp [Walk.boundMethod?_of_passes hpasses] at hbound
        | setter _ hnone => simp [hbound] at hnone
        | update h _ _ _ | updateDeferred h => simp [hupdate] at h
        | _ => simp [boundMethod?, calleeMember?, callee?] at hbound
      | none =>
        rw [hreads, hbound, Option.bind_none] at hpure ⊢
        simp only [Option.isSome_none, Bool.false_or, Bool.and_eq_true, Bool.not_eq_true'] at hpure
        obtain ⟨⟨⟨⟨hacts, hupdate⟩, -⟩, hsetter⟩, hkids⟩ := hpure
        cases h with
        | @kept _ _ _ _ hall =>
          have hident : ∀ name, n.kind ≠ .ident name := by
            intro name hkind
            obtain ⟨⟨⟩, kind, _, kids⟩ := n
            obtain rfl : kind = .ident name := hkind
            simp [Draft.place?, ident?] at hplace
          rw [Output.value_kept hident]
          by_cases hwhole : n.kind.isWhole
          · simp [hwhole]
          · simp only [hwhole, Bool.false_or] at hkids
            rw [Draft.arePure_iff] at hkids
            have hcalmKids : ∀ k ∈ n.kids, Walk.calm d.scope k := (every_node_iff.1 hcalm).2
            rw [hall.map_value hd hcalmKids (fun k hk w o hk' hd' =>
              ih k (inside_of_mem_kids hk) hk' hd' (hkids k hk) (hcalmKids k hk)), Draft.values_eq]
        | this =>
          rfl
        | bag h => simp [Draft.place?, ident?] at hplace
        | member h => simp [← hd.place?, place?_of_memberReplacement? h] at hplace
        | setter _ _ h =>
          rw [hd.setVariable?] at h
          simp [h] at hsetter
        | bound _ h => simp [hbound] at h
        | update h _ _ _ | updateDeferred h => simp [hupdate] at h
        | _ => simp [Script.Kind.acts] at hacts

end

end Sveltify
