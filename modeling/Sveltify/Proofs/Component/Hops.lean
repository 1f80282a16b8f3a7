import Sveltify.Proofs.Component.Stems
import Sveltify.Proofs.Provenance

/-! Element references lose their `current` hop. A hop of a reference is dropped where the reference
is known: a member of `this` that the class creates, or a variable that a hook of the function gives.
If a module has no other hops of the name, and nothing that becomes one, then no code of the
component has any. -/

namespace Sveltify

open List
open Script (Node Kind)
open Script.Tree Output Policy
open Visit (boundMethod? memberReplacement?)

/-! Hops. -/

namespace Script.Tree

variable {α : Type}

/-- The member `current` of the variable `r`, or of the member `r` of `this`. -/
def isHop (r : String) (t : Script.Tree α) : Bool :=
  t.memberName? == some "current" && t.memberObject?.any fun object =>
    object.unparen.ident? == some r || object.unparen.thisMember? == some r

/-- A hop of `r`, or a member that is one when what stands before `current` is replaced by `r`. -/
def nearsHop (r : String) (t : Script.Tree α) : Bool :=
  t.memberName? == some "current" && t.memberObject?.any fun object =>
    object.unparen.ident? == some r || object.unparen.memberName? == some r ||
      object.unparen.isHop r || (boundMethod? object.unparen).isSome

/-- A hop that is dropped, where `r` is known as a member of `this` or as the variable of a hook. -/
def losesHop (known hooked : Bool) (r : String) (t : Script.Tree α) : Bool :=
  t.memberObject?.any fun object =>
    (known && object.unparen.thisMember? == some r) || (hooked && object.unparen.ident? == some r)

def standing (t : Script.Tree α) : List (Script.Tree α) :=
  t.idle ++ t.transcribed ++
    match t.kind, t.kids with
    | .patternProperty, [_, value] => [value]
    | _, _ => []

def isListedCase (t : Script.Tree α) : Bool :=
  match t.kind, t.kids with
  | .switchCase, [_, body] =>
    match body.kind with
    | .list => true
    | _ => false
  | _, _ => true

def lacksHops (r : String) (t : Script.Tree α) : Bool :=
  t.every fun m => !m.nearsHop r

/-- Every hop of `r` in the tree is dropped, and nothing else becomes one. -/
def shedsHops (known hooked : Bool) (r : String) (t : Script.Tree α) : Bool :=
  t.every fun m => (!m.nearsHop r || m.losesHop known hooked r) &&
    m.standing.all (·.lacksHops r) && m.isListedCase

theorem losesHop_mono {r} {known hooked known' hooked' : Bool} {t : Script.Tree α}
    (hknown : known → known') (hhooked : hooked → hooked') (h : t.losesHop known hooked r) :
    t.losesHop known' hooked' r := by
  obtain ⟨object, hobject, h⟩ := (Option.any_eq_true _ _).1 h
  refine (Option.any_eq_true _ _).2 ⟨object, hobject, ?_⟩
  rw [Bool.or_eq_true, Bool.and_eq_true, Bool.and_eq_true] at h ⊢
  exact h.imp (And.imp_left hknown) (And.imp_left hhooked)

theorem shedsHops_mono {r} {known hooked known' hooked' : Bool} {t : Script.Tree α}
    (hknown : known → known') (hhooked : hooked → hooked') (h : t.shedsHops known hooked r) :
    t.shedsHops known' hooked' r := by
  refine every_imp (fun m hm => ?_) h
  simp only [Bool.and_eq_true, Bool.or_eq_true] at hm ⊢
  exact ⟨⟨hm.1.1.imp_right (losesHop_mono hknown hhooked), hm.1.2⟩, hm.2⟩

end Script.Tree

/-! What is written for a member. -/

theorem name_of_memberReplacement? {draft name symbols} {m : Node} (h : memberReplacement? draft m = some (name, symbols)) :
    m.memberName? = some name ∨ m.isHop name ∨ name = "$$props" := by
  cases Walk.memberMeans h with
  | bag => exact .inr (.inr rfl)
  | known hname | state hname | prop hname => exact .inl hname
  | current hname hobject htarget =>
    have hnamed := htarget.symm.imp And.left And.left
    exact .inr (.inl (by simpa [isHop, hname, hobject] using hnamed))

theorem isThis_of_memberObject? {α : Type} {t object : Script.Tree α}
    (h : t.memberObject? = some object) : t.isThis = false := by
  have hkind := kind_of_memberObject? h
  obtain ⟨l, kind, _, _⟩ := t
  obtain rfl : kind = .member := hkind
  rfl

theorem isSome_memberReplacement? {draft r} {m : Node} (hcurrent : m.memberName? = some "current")
    (h : m.losesHop (draft.symbols.isRef r) (draft.scope.hookRefs.contains r) r) :
    (memberReplacement? draft m).isSome := by
  obtain ⟨object, hobject, h⟩ := (Option.any_eq_true _ _).1 h
  rw [Bool.or_eq_true, Bool.and_eq_true, Bool.and_eq_true, beq_iff_eq] at h
  unfold memberReplacement?
  simp only [hobject, Option.map_some, hcurrent]
  rcases h with ⟨hknown, hmember⟩ | ⟨hhooked, hident⟩
  · obtain ⟨inner, hinner⟩ : ∃ inner, object.unparen.memberObject? = some inner := by
      cases hinner : object.unparen.memberObject? with
      | none => simp [thisMember?, hinner] at hmember
      | some inner => exact ⟨inner, rfl⟩
    rw [if_neg (by simp [isThis_of_memberObject? hinner])]
    split
    · rfl
    split
    · rfl
    simp [hinner, hmember, hknown]
  · obtain ⟨l, span, kids, hnode⟩ : ∃ l span kids, object.unparen = .node l (.ident r) span kids := by
      generalize object.unparen = inner at hident
      obtain ⟨l, kind, span, kids⟩ := inner
      cases kind <;> simp [ident?] at hident
      exact ⟨l, span, kids, by rw [hident]⟩
    have hmem := contains_iff_mem.1 hhooked
    simp [hnode, isThis, unparen, isThisMember, thisMember?, memberObject?, ident?, hmem]

/-! Hops in generated code. -/

namespace Output

/-- The code inside any number of parentheses, and without the binding of a method. -/
def core : Output → Output
  | .node _ .paren _ [inner] => core inner
  | .node (.word _) .list _ [inner] => core inner
  | o => o

/-- The member `current` of the variable `r`, or of the member `r` of `this`. -/
def keepsHop (r : String) (o : Output) : Bool :=
  o.memberName? == some "current" && o.memberObject?.any fun object : Output =>
    object.core.ident? == some r || (object.core.memberName? == some r &&
      object.core.memberObject?.any fun inner : Output => inner.core.isThis)

theorem core_of_kind {o : Output} (hparen : o.kind ≠ .paren) (hlist : o.kind ≠ .list) :
    o.core = o := by
  unfold core
  split
  · exact (hparen rfl).elim
  · exact (hlist rfl).elim
  · rfl

theorem kind_of_mem_updates {span : Span} {u : Visit.Update Layout} {o : Output}
    (h : o ∈ updates span u) : o.kind = .assign "=" ∨ o.kind = .call := by
  rcases mem_append.1 h with h | h
  · obtain ⟨_, -, rfl⟩ := mem_map.1 h
    exact .inl rfl
  · obtain ⟨_, -, rfl⟩ := Option.map_eq_some_iff.1 (Option.mem_toList.1 h)
    exact .inr rfl

theorem kind_sequence_updates (span : Span) (u : Visit.Update Layout) :
    (sequence span (updates span u)).kind = .assign "=" ∨
      (sequence span (updates span u)).kind = .call ∨
      (sequence span (updates span u)).kind = .sequence := by
  have hmem := @kind_of_mem_updates span u
  generalize updates span u = os at hmem
  unfold sequence
  split
  · next o => exact (hmem (by simp)).imp_right .inl
  · exact .inr (.inr rfl)

end Output

section

variable {source : Source}

/-- What a walk makes of an expression, parentheses aside: if it is a variable or a member, then the
expression was one, or it was replaced. -/
inductive CoreOf (source : Source) (w : Walk) (x : Node) : Output → Prop
  | kept {os : List Output} (h : RewritesAll source w x.kids os) :
      CoreOf source w x (.node .kept x.kind x.span os)
  | bag {l : Layout} {name : String} {span : Span} {os : List Output} (h : x.ident? = some name) :
      CoreOf source w x (.node l (.ident name) span os)
  | member {name : String} {symbols : SymbolTable} {span : Span}
      (h : memberReplacement? w.draft x = some (name, symbols)) :
      CoreOf source w x (.name span name)
  | undefined {span : Span} : CoreOf source w x (.name span "undefined")
  | bound {o : Output} (h : (boundMethod? x).isSome) : CoreOf source w x o
  | other {o : Output} (hident : o.ident? = none) (hmember : o.memberName? = none) :
      CoreOf source w x o

def Script.Kind.isSettled : Kind → Bool
  | .ident _ | .member | .paren | .list => false
  | _ => true

variable {o : Output} {r : String} {w : Walk}

variable {x m : Node}

theorem CoreOf.of_isSettled (h : o.kind.isSettled) : CoreOf source w x o.core := by
  obtain ⟨l, kind, _, _⟩ := o
  rw [core_of_kind (by rintro ⟨⟩; cases h) (by rintro ⟨⟩; cases h)]
  cases kind
  case ident | member => cases h
  all_goals exact .other rfl rfl

theorem Rewrites.core (h : Rewrites source w x o) : CoreOf source w x.unparen o.core := by
  induction x using inside_induction generalizing o with
  | h x ih =>
  by_cases hparen : ∃ span inner, x = .node () .paren span [inner]
  · obtain ⟨span, inner, rfl⟩ := hparen
    obtain ⟨os, rfl, hos⟩ := h.kept_of_isPlain rfl
    cases hos with
    | cons hinner hnil =>
      cases hnil
      have hcore := ih inner (inside_of_mem_kids (by simp)) hinner
      rwa []
  have hself : x.unparen = x := by
    unfold unparen
    split
    · next l span inner => exact (hparen ⟨span, inner, rfl⟩).elim
    · rfl
  rw [hself]
  cases h with
  | @kept _ _ os _ hkids =>
    have hcore : core (.node .kept x.kind x.span os) = .node .kept x.kind x.span os := by
      rw [core.eq_def]
      split
      · next heq =>
        obtain ⟨-, hkind, -, rfl⟩ := node.inj heq
        obtain ⟨⟨⟩, kind, span, _⟩ := x
        obtain rfl : kind = .paren := hkind
        rcases hkids with _ | ⟨_, _ | _⟩
        exact (hparen ⟨span, _, rfl⟩).elim
      · next heq => simp at heq
      · rfl
    rw [hcore]
    exact .kept hkids
  | bag => exact .bag rfl
  | member h => exact .member h
  | bound _ h => exact .bound (by simp [h])
  | @update _ span _ _ _ v =>
    have hkind : (Output.sequence span (updates span v)).kind.isSettled := by
      rcases kind_sequence_updates span v with h | h | h <;> rw [h] <;> rfl
    rw [Output.parenthesized, core]
    exact .of_isSettled hkind
  | updateDeferred =>
    unfold Output.deferred
    split
    · exact .of_isSettled (by simp [Script.Kind.isSettled])
    · exact .undefined
  | updateStatement => exact .other rfl rfl
  | this => exact .of_isSettled (by simp [Script.Kind.isSettled])
  | _ => exact .of_isSettled rfl

theorem Rewrites.kind_word {n name} (h : Rewrites source w n o)
    (ho : o.kind = .word name) : n.kind = .word name := by
  cases h with
  | kept => exact ho
  | updateDeferred =>
    unfold Output.deferred at ho
    split at ho <;> simp [Output.name] at ho
  | _ => simp [Output.name, Output.gone, Output.parenthesized, Output.assignment] at ho

theorem RewritesAll.member {os : List Output} {name : String} (h : RewritesAll source w m.kids os)
    (hname : memberName? (.node .kept m.kind m.span os : Output) = some name) :
    m.memberName? = some name ∧ ∃ x o, m.memberObject? = some x ∧
      memberObject? (.node .kept m.kind m.span os : Output) = some o ∧ Rewrites source w x o := by
  unfold memberName? at hname
  split at hname
  · next object _ _ _ _ heq =>
    obtain ⟨-, hkind, -, rfl⟩ := node.inj heq
    obtain rfl := Option.some.inj hname
    obtain ⟨⟨⟩, kind, _, _⟩ := m
    obtain rfl : kind = .member := hkind
    rcases h with _ | @⟨_, x, _, _, _, hx, _ | @⟨_, y, _, _, _, hy, _ | _⟩⟩
    have hword := hy.kind_word rfl
    obtain ⟨⟨⟩, kind, _, _⟩ := y
    obtain rfl : kind = .word _ := hword
    exact ⟨rfl, x, object, rfl, rfl, hx⟩
  · simp at hname

theorem nears_of_core (h : Rewrites source w x o) (hr : r ∉ freeNames)
    (ho : o.core.ident? = some r ∨ o.core.memberName? = some r) :
    x.unparen.ident? = some r ∨ x.unparen.memberName? = some r ∨ x.unparen.isHop r ∨
      (boundMethod? x.unparen).isSome := by
  have hname : ∀ {span : Span} {name : String},
      ((Output.name span name).ident? = some r ∨ (Output.name span name).memberName? = some r) →
        name = r := by
    rintro span name (h | h)
    · exact Option.some.inj h
    · simp [Output.name, memberName?] at h
  have hcore := h.core
  generalize o.core = c at hcore ho
  cases hcore with
  | @kept _ hkids =>
    rcases ho with ho | ho
    · refine .inl ?_
      generalize x.unparen = y at ho
      obtain ⟨l, kind, _, _⟩ := y
      cases kind <;> simp [ident?] at ho ⊢
      exact ho
    · exact .inr (.inl (hkids.member ho).1)
  | bag hident =>
    rcases ho with ho | ho
    · exact .inl (hident.trans ho)
    · simp [memberName?] at ho
  | member hmember =>
    obtain rfl := hname ho
    rcases name_of_memberReplacement? hmember with h | h | h
    · exact .inr (.inl h)
    · exact .inr (.inr (.inl h))
    · exact absurd (by simp [h, freeNames]) hr
  | undefined => exact absurd (by simp [← hname ho, freeNames]) hr
  | bound hbound => exact .inr (.inr (.inr hbound))
  | other hident hmember => simp [hident, hmember] at ho

theorem nearsHop_iff : m.nearsHop r ↔ m.memberName? = some "current" ∧
    ∃ x, m.memberObject? = some x ∧ (x.unparen.ident? = some r ∨ x.unparen.memberName? = some r ∨
      x.unparen.isHop r ∨ (boundMethod? x.unparen).isSome) := by
  simp [nearsHop, Option.any_eq_true, or_assoc]

theorem exists_of_keepsHop (h : o.keepsHop r) :
    o.memberName? = some "current" ∧ ∃ object : Output, o.memberObject? = some object ∧
      (object.core.ident? = some r ∨ object.core.memberName? = some r) := by
  simp only [keepsHop, Bool.and_eq_true, beq_iff_eq, Option.any_eq_true, Bool.or_eq_true] at h
  obtain ⟨hname, object, hobject, h⟩ := h
  exact ⟨hname, object, hobject, h.imp_right (·.1)⟩

theorem core_untouched (n : Node) : (untouched n).core = .untouched n.unparen := by
  fun_induction unparen n with
  | case1 l span inner ih =>
    exact ih
  | case2 n hparen =>
    obtain ⟨l, _, _, _⟩ := n
    rw [untouched, relabel_node, core.eq_def]
    split
    · next heq =>
      obtain ⟨-, rfl, -, hkids⟩ := node.inj heq
      obtain ⟨_, rfl, -⟩ := map_eq_singleton_iff.1 hkids
      exact (hparen _ _ _ rfl).elim
    · next heq => simp at heq
    · rfl

theorem nearsHop_of_untouched (h : (untouched m).keepsHop r) : m.nearsHop r := by
  obtain ⟨hname, _, hobject, ho⟩ := exists_of_keepsHop h
  rw [untouched, memberName?_relabel] at hname
  rw [untouched, memberObject?_relabel] at hobject
  obtain ⟨x, hx, rfl⟩ := Option.map_eq_some_iff.1 hobject
  have hcore := core_untouched x
  rw [untouched] at hcore
  rw [hcore, untouched, ident?_relabel, memberName?_relabel] at ho
  exact nearsHop_iff.2 ⟨hname, x, hx, ho.imp_right .inl⟩

theorem keepsHop_of_allStem {d e : Draft} {n : Node} (hr : r ∉ freeNames)
    (h : AllStem source d e (fun k => k.nearsHop r = false) n o)
    (hn : n.shedsHops (d.symbols.isRef r) (d.scope.hookRefs.contains r) r) :
    ∀ q : Output, q.Within o → q.keepsHop r = false := by
  intro q hq
  rw [← Bool.not_eq_true]
  intro hhop
  obtain ⟨hname, object, hobject, ho⟩ := exists_of_keepsHop hhop
  have hkind := kind_of_memberObject? hobject
  cases h q hq with
  | @kept w m os hm hw hpasses hkids =>
    obtain ⟨hcurrent, x, o', hx, ho', hrewrites⟩ := hkids.member hname
    obtain rfl : object = o' := Option.some.inj (hobject.symm.trans ho')
    have hnears : m.nearsHop r := nearsHop_iff.2 ⟨hcurrent, x, hx, nears_of_core hrewrites hr ho⟩
    -- The reference is known here, as it was when the walk began, so the hop is dropped.
    have hat := hm.of_every hn
    rw [Bool.and_eq_true, Bool.and_eq_true, Bool.or_eq_true] at hat
    have hloses := hat.1.1.resolve_left (by simp [hnears])
    have hsome := isSome_memberReplacement? hcurrent
      (losesHop_mono (fun h => hw.symbols.isRef h)
        (fun h => contains_iff_mem.2 (hw.scope.hookRefs (contains_iff_mem.1 h))) hloses)
    have hmember : m.kind = .member := hkind
    rw [Walk.passes, hmember, Option.isNone_iff_eq_none] at hpasses
    simp [hpasses] at hsome
  | untouched hm hU => exact Bool.noConfusion (hU.symm.trans (nearsHop_of_untouched hhop))
  | @caseBody _ _ body _ hm =>
    have hat := hm.of_every hn
    have hbody : body.kind = .member := hkind
    simp [isListedCase, hbody] at hat
  | @frame kind _ _ hframe =>
    obtain rfl : kind = .member := hkind
    cases hframe
  | @glue kind _ _ hglue =>
    obtain rfl : kind = .member := hkind
    cases hglue
  | next => simp [memberName?] at hname
  | _ => simp [Output.name, Output.assignment, Output.gone] at hkind

end

/-! The policy. -/

section

variable {α : Type}

theorem lacksHops_of_standing {known hooked r} {t m v : Script.Tree α}
    (h : t.shedsHops known hooked r) (hm : m.Within t) (hv : v ∈ m.standing) : v.lacksHops r := by
  have hat := hm.of_every h
  rw [Bool.and_eq_true, Bool.and_eq_true, all_eq_true] at hat
  exact hat.1.2 v hv

end

def Policy.hopless (r : String) : Policy where
  renders d n := n.shedsHops (d.symbols.isRef r) (d.scope.hookRefs.contains r) r
  visits d n := n.shedsHops (d.symbols.isRef r) (d.scope.hookRefs.contains r) r
  copies n := n.lacksHops r
  methods _ := True
  takesItems := True
  renders_grows hd h := shedsHops_mono (fun h => hd.symbols.isRef h)
    (fun h => contains_iff_mem.2 (hd.scope.hookRefs (contains_iff_mem.1 h))) h
  visits_grows hd h := shedsHops_mono (fun h => hd.symbols.isRef h)
    (fun h => contains_iff_mem.2 (hd.scope.hookRefs (contains_iff_mem.1 h))) h
  renders_within hm h := hm.every h
  visits_within hm h := hm.every h
  visits_of_renders h := h
  renders_declaration h _ _ := h
  copies_value h := lacksHops_of_standing h .self (by simp [standing])

def Script.Tree.erased {α : Type} (t : Script.Tree α) : Node :=
  t.relabel fun _ _ => ()

theorem erased_ofNode (source : Source) (n : Node) : (Part.ofNode source n).erased = n := by
  induction n using inside_induction with
  | h n ih =>
    obtain ⟨⟨⟩, kind, span, kids⟩ := n
    have hkids : (kids.map (Part.ofNode source)).map erased = kids := by
      rw [map_map]
      exact (map_congr_left fun k hk => ih k (inside_of_mem_kids hk)).trans (map_id _)
    rw [Part.ofNode, relabel_node, erased, relabel_node]
    exact congrArg (node () kind span) hkids

def ComponentSource.shedsHops (r : String) : ComponentSource Visit → Bool
  | .ofMembers members => members.all fun m =>
      m.erased.shedsHops ((members.flatMap createdRefs).contains r) false r
  | .function params body => params.head?.all (·.erased.shedsHops false false r) &&
      if body.isBlock then
        let hooks := body.kids.filterMap hookDeclarators?
        hooks.all (·.all (·.erased.shedsHops false false r)) &&
          body.kids.all (·.erased.shedsHops false ((hooks.flatMap consumedHooks).contains r) r)
      else body.erased.shedsHops false false r

def Transformation.shedsHops {files : FileSystem} {text : String} {options : Options}
    (t : Transformation files text options) (r : String) : Bool :=
  !freeNames.contains r &&
    (t.items.zipIdx.all fun item => (t.component.items.contains item.2 && !item.1.isExpression) ||
      item.1.erased.shedsHops false false r) &&
    t.component.source.shedsHops r

section

variable {source : Source} {d : Draft} {r : String} {known hooked : Bool}

theorem hopless_admits {part : Part} (hpart : ∃ n, part = Part.ofNode source n)
    (h : part.erased.shedsHops known hooked r) (hknown : known → d.symbols.isRef r)
    (hhooked : hooked → r ∈ d.scope.hookRefs) : (hopless r).Admits source d part := by
  obtain ⟨n, rfl⟩ := hpart
  rw [erased_ofNode] at h
  exact ⟨n, rfl, shedsHops_mono hknown (fun h => contains_iff_mem.2 (hhooked h)) h⟩

theorem hopless_shows {part whole : Part} (hwhole : (hopless r).Admits source d whole)
    (hpart : part.Within whole) : ∃ n, part = Part.ofNode source n ∧ (hopless r).Shows d n := by
  obtain ⟨n, rfl, hn⟩ := hwhole.within hpart
  refine ⟨n, rfl, fun m hm => ?_⟩
  have hsheds : (hopless r).renders d m := hm.every hn
  refine ⟨hsheds, fun _ => hsheds, fun e he => ?_, fun v hv => ?_⟩
  · exact (hopless r).renders_within (within_of_mem_embedded he) hsheds
  · exact lacksHops_of_standing hsheds .self (by simp [standing, hv])

theorem hopless_converts {component item}
    (hof : component.Of (Part.ofNode source item)) (h : component.shedsHops r) :
    (hopless r).Converts source component := by
  cases component with
  | ofMembers members =>
    rw [ComponentSource.shedsHops, all_eq_true] at h
    have hadmits : ∀ e : Draft, (∀ m ∈ members, ∀ name ∈ createdRefs m, e.symbols.isRef name) →
        ∀ m ∈ members, (hopless r).Admits source e m := by
      intro e hknown m hm
      refine hopless_admits (hof.exists_node hm .self) (h m hm) (fun hcreated => ?_) (by simp)
      obtain ⟨m', hm', hr⟩ := mem_flatMap.1 (contains_iff_mem.1 hcreated)
      exact hknown m' hm' r hr
    refine .members (fun _ _ _ _ => trivial) (fun e hknown m hm => .inl (hadmits e hknown m hm))
      fun e hknown part hpart => ?_
    obtain ⟨m, hm, hwithin⟩ := hpart.within
    exact hopless_shows (hadmits e hknown m hm) hwithin
  | function params body =>
    rw [ComponentSource.shedsHops, Bool.and_eq_true] at h
    have hbody : body ∈ (ComponentSource.function params body).parts := mem_cons_self
    obtain ⟨hparams, hbodySheds⟩ := h
    have hblock : body.kind = .block →
        (∀ ds ∈ body.kids.filterMap hookDeclarators?, ∀ q ∈ ds, q.erased.shedsHops false false r) ∧
        ∀ s ∈ body.kids, s.erased.shedsHops false
          (((body.kids.filterMap hookDeclarators?).flatMap consumedHooks).contains r) r := by
      intro hkind
      rw [if_pos (isBlock_iff.2 hkind)] at hbodySheds
      simpa only [Bool.and_eq_true, all_eq_true] using hbodySheds
    have hadmits : body.kind = .block → ∀ e : Draft, (∀ ds ∈ body.kids.filterMap hookDeclarators?,
        ∀ name ∈ consumedHooks ds, name ∈ e.scope.hookRefs) →
        ∀ s ∈ body.kids, (hopless r).Admits source e s := by
      intro hkind e hknown s hs
      refine hopless_admits (hof.exists_node hbody (.kid hs .self)) ((hblock hkind).2 s hs)
        (by simp) fun hhooked => ?_
      obtain ⟨ds, hds, hr⟩ := mem_flatMap.1 (contains_iff_mem.1 hhooked)
      exact hknown ds hds r hr
    refine .function (fun q hq e => ?_) (fun hkind ds hds e _ q hq => ?_)
      (fun hkind e hknown s hs => .inl (hadmits hkind e hknown s hs)) fun e hknown part hpart => ?_
    · have hmem : q ∈ (ComponentSource.function params body).parts :=
        mem_cons_of_mem _ (mem_of_head? hq)
      rw [Option.mem_def.1 hq] at hparams
      exact hopless_admits (hof.exists_node hmem .self) hparams (by simp) (by simp)
    · obtain ⟨s, hs, hdeclarators⟩ := mem_filterMap.1 hds
      have hq' : q ∈ s.kids := (kids_of_hookDeclarators? hdeclarators).1 ▸ hq
      exact hopless_admits (hof.exists_node hbody (.kid hs (.kid hq' .self)))
        ((hblock hkind).1 ds hds q hq) (by simp) (by simp)
    · rcases hpart with ⟨hkind, hreturned⟩ | ⟨hkind, rfl⟩
      · obtain ⟨s, hs, hwithin⟩ := returned?_within hreturned
        exact hopless_shows (hadmits hkind e (hknown hkind) s hs) hwithin
      · rw [if_neg (mt isBlock_iff.1 hkind)] at hbodySheds
        exact hopless_shows (hopless_admits (hof.exists_node hbody .self) hbodySheds (by simp)
          (by simp)) .self

theorem Transformation.hopless_covers {files text options} {t : Transformation files text options} (h : t.shedsHops r) :
    (hopless r).Covers t.source t.items t.component := by
  rw [shedsHops, Bool.and_eq_true, Bool.and_eq_true, all_eq_true] at h
  obtain ⟨⟨-, hitems⟩, hcomponent⟩ := h
  have hnode : ∀ item ∈ t.items, ∃ n, item = Part.ofNode t.source n := by
    intro item hitem
    obtain ⟨n, -, rfl⟩ := mem_map.1 hitem
    exact ⟨n, rfl⟩
  have hadmits : ∀ item ∈ t.items.zipIdx, (item.2 ∉ t.component.items ∨ item.1.isExpression) →
      (hopless r).Admits t.source {} item.1 := by
    intro item hitem hown
    have hmem : item.1 ∈ t.items := (mem_zipIdx' hitem).2 ▸ getElem_mem _
    have hsheds := hitems item hitem
    rw [Bool.or_eq_true, Bool.and_eq_true, contains_iff_mem, Bool.not_eq_true'] at hsheds
    refine hopless_admits (hnode _ hmem) (hsheds.resolve_left fun h => ?_) (by simp) (by simp)
    exact hown.elim (· h.1) fun hexpression => by simp [h.2] at hexpression
  obtain ⟨n, hof⟩ := t.exists_component
  refine ⟨⟨fun item hitem hkind => ?_, fun item hitem hown => .inl (hadmits item hitem (.inl hown)),
    hopless_converts hof hcomponent, trivial⟩, trivial⟩
  obtain ⟨i, _, rfl⟩ := getElem_of_mem hitem
  exact hadmits (t.items[i], i) (by simp [mem_zipIdx_iff_getElem?])
    (.inr (by simp [isExpression, hkind]))

end

def Transformation.memberBox : String :=
  "class Box extends React.Component \x7b\n" ++
    "  constructor(props) \x7b super(props); this.r = React.createRef(); \x7d\n" ++
    "  go() \x7b this.r.current.focus(); \x7d\n" ++
    "  render() \x7b return <p ref=\x7bthis.r\x7d onClick=\x7b() => (this.r).current.blur()\x7d />; \x7d\n\x7d\n"

def Transformation.hookBox : String :=
  "function Box() \x7b\n  const r = useRef(null);\n" ++
    "  const go = () => \x7b r.current.focus(); \x7d;\n" ++
    "  return <p ref=\x7br\x7d onClick=\x7bgo\x7d>\x7br.current.id\x7d</p>;\n\x7d\n"

end Sveltify
