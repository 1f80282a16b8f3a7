import Sveltify.Convert
import Sveltify.Proofs.Component.Sourcing

/-! The conversions of functions, statements, members and module items take steps, provided that a
policy lets pass what they write. Statements and members that are moved to manual review as a whole
need not be let into the component. -/

namespace Sveltify

open List
open Script (Node Kind)
open Script.Tree Policy Draft

/-! Functions. -/

section

open Conversion

variable {source : Source} {p : Policy} {d : Draft}

theorem headText_arrow (async : Bool) (name : String) (params : List Text) :
    (let list := ", ".intercalate (params.map String.ofList)
     let mark := if async then "async " else ""
     s!"{mark}function {name}({list})") = headText async false name params := by
  simp [headText, toString, String.append_assoc]

theorem yields_parameters {params} (h : ∀ q ∈ params, p.Admits source d q) :
    Yields source p d (Function.parameters source params) fun list d' =>
      ∃ cs : List Code, (∀ c ∈ cs, p.Allows source d' c) ∧
        list = ", ".intercalate ((cs.map (·.text source)).map String.ofList) := by
  have hall := Yields.of_mapM (R := fun t e => IsCode source (p.Allows source e) t)
    (fun t e e' he ht => ht.grows he) fun q hq e he => yields_render ((h q hq).grows he)
  refine .bind hall fun texts d' _ htexts => .of_pure ?_
  obtain ⟨cs, hcs, rfl⟩ := exists_codes (α := Unit) (f := fun c => c.1.text source) fun t ht => by
    obtain ⟨c, hc, rfl⟩ := htexts t ht
    exact ⟨c, (), hc, rfl⟩
  refine ⟨cs.map (·.1), fun c hc => ?_, by simp [Function.comp_def]⟩
  obtain ⟨e, he, rfl⟩ := mem_map.1 hc
  exact hcs e he

theorem yields_head (name : String) {params} (async generator : Bool)
    (h : ∀ q ∈ params, p.Admits source d q) :
    Yields source p d (Function.head source name params async generator) fun head d' =>
      ∃ cs : List Code, (∀ c ∈ cs, p.Allows source d' c) ∧
        head = headText async generator name (cs.map (·.text source)) := by
  refine .bind (yields_parameters h) fun list d' _ hlist => .of_pure ?_
  obtain ⟨cs, hcs, rfl⟩ := hlist
  exact ⟨cs, hcs, rfl⟩

variable {anchor : Nat}

theorem yields_text (head : String) {body} (hanchor : p.cuts anchor) (h : p.Admits source d body) :
    Yields source p d (Function.text source head body anchor) fun t d' =>
      ∃ c margin, p.Allows source d' c ∧
        t = dedented (head.toList ++ ' ' :: c.text source) margin := by
  refine .bind (yields_marginAt hanchor) fun margin e he _ => ?_
  refine .bind (yields_render (h.grows he)) fun t d' _ ht => .of_pure ?_
  obtain ⟨c, hc, rfl⟩ := ht
  exact ⟨c, _, hc, rfl⟩

theorem yields_addFunction (name : String) (async generator : Bool) {t} {cs : List Code}
    (hcs : ∀ c ∈ cs, p.Allows source d c)
    (ht : ∃ c margin, p.Allows source d c ∧ t = dedented
      ((headText async generator name (cs.map (·.text source))).toList ++ ' ' :: c.text source)
      margin) : Yields source p d (modify (·.addFunction (String.ofList t))) anything := by
  obtain ⟨c, margin, hc, rfl⟩ := ht
  exact .of_change (.function d (.function async generator name margin hcs hc)) trivial

theorem yields_declare (name : String) {function : Part} (hanchor : p.cuts anchor)
    (h : p.Admits source d function) :
    Yields source p d (Function.declare source name function anchor) anything := by
  unfold Function.declare
  split
  case h_1 l async generator span params _ body _ _ =>
    have hparams : ∀ q ∈ params.kids, p.Admits source d q :=
      fun q hq => h.within (.kid (by simp) (.kid hq .self))
    refine .bind (yields_head name async generator hparams) fun head d' hd hhead => ?_
    obtain ⟨_, hcs, rfl⟩ := hhead
    split
    · have hbody : p.Admits source d body := h.within (.kid (by simp) .self)
      refine .bind (yields_text _ hanchor (hbody.grows hd)) fun t d'' hd' ht => ?_
      exact yields_addFunction name async generator (fun c hc => (hcs c hc).grows hd') ht
    · exact .of_pure trivial
  case h_2 => exact .of_pure trivial

theorem yields_constant (name : String) {value} (hanchor : p.cuts anchor)
    (h : p.Admits source d value) :
    Yields source p d (do
      let margin ← marginAt source anchor
      let value ← render source value
      let constant := s!"const {name} = ".toList ++ value ++ [';']
      modify (·.addFunction (String.ofList (Text.reindent constant margin [])))) anything := by
  refine .bind (yields_marginAt hanchor) fun margin e he _ => ?_
  refine .bind (yields_render (h.grows he)) fun t d' _ ht => ?_
  obtain ⟨c, hc, rfl⟩ := ht
  exact .of_change (.function d' (.constant name margin hc)) trivial

theorem yields_declareArrow (name : String) {arrow : Part} (hanchor : p.cuts anchor)
    (h : p.Admits source d arrow) :
    Yields source p d (Function.declareArrow source name arrow anchor) anything := by
  unfold Function.declareArrow
  split
  case h_1 l async span params body rest =>
    have hparams : ∀ q ∈ params.kids, p.Admits source d q :=
      fun q hq => h.within (.kid (by simp) (.kid hq .self))
    split
    · refine .bind (yields_parameters hparams) fun list d' hd hlist => ?_
      obtain ⟨_, hcs, rfl⟩ := hlist
      have hbody : p.Admits source d body := h.within (.kid (by simp) .self)
      refine .bind (yields_text _ hanchor (hbody.grows hd)) fun t d'' hd' ht => ?_
      rw [headText_arrow] at ht
      exact yields_addFunction name async false (fun c hc => (hcs c hc).grows hd') ht
    · exact yields_constant name hanchor h
  case h_2 => exact .of_pure trivial

theorem yields_lifecycle {helper} (async : Bool) {body} (hanchor : p.cuts anchor)
    (hhelper : helper ∈ moments) (h : p.Admits source d body) :
    Yields source p d (Function.lifecycle source helper async body anchor) anything := by
  refine .change_bind (.helper d helper) fun d' hd => ?_
  refine .bind (yields_text _ hanchor (h.grows hd)) fun t d'' _ ht => ?_
  obtain ⟨c, margin, hc, rfl⟩ := ht
  exact .of_change (.function d'' (.lifecycle async margin hhelper hc)) trivial

end

/-! Statements and members that are moved to manual review as a whole. -/

namespace Script.Tree

variable {α β : Type}

/-- A declaration that may only unpack props or state, whatever the variable that holds the props. -/
def unpacks (t : Script.Tree α) : Bool :=
  !t.kids.isEmpty && t.kids.all fun d =>
    let bag := d.kids.tail.head?.bind fun value => value.unparen.ident?
    (declaratorRole? { propsBag := bag } d).isSome

def isEffect (t : Script.Tree α) : Bool :=
  t.kids.any fun e => e.unparen.isCallOf "useEffect" || e.unparen.isCallOf "useLayoutEffect"

def isLeftover (t : Script.Tree α) : Bool :=
  match t.kind with
  | .variableDecl _ =>
    !t.unpacks && t.kids.any fun d => (d.kids.head?.bind Script.Tree.ident?).isNone
  | .functionDecl | .empty => false
  | .expression => !t.isEffect
  | _ => true

def renderBody? (member : Script.Tree α) : Option (List (Script.Tree α)) :=
  match member with
  | .node _ (.classMethod .method false) _ [key, .node _ (.function ..) _ [_, _, body, _, _]] =>
    if key.keyName? == some "render" then some body.kids else none
  | _ => none

def returned? (statements : List (Script.Tree α)) : Option (Script.Tree α) :=
  match statements.getLast? with
  | some (.node _ .return _ [value]) => value.present?
  | _ => none

/-- A method that has no counterpart in a script, or would be markup there. -/
def isReviewed (member : Script.Tree α) : Bool :=
  match member with
  | .node _ (.classMethod role static) _ [key, .node _ (.function ..) _ [params, _, body, _, _]] =>
    match key.keyName? with
    | none => true
    | some name => static || role != .method ||
        (!(["render", "componentDidMount", "componentWillUnmount"].contains name) &&
          !(name == "componentDidUpdate" && params.kids.isEmpty) &&
          (unsupportedLifecycle.contains name || body.containsMarkup))
  | _ => false

def methodName? (member : Script.Tree α) : Option String :=
  match member with
  | .node _ (.classMethod _ false) _ (key :: _) => key.keyName?
  | .node _ (.classField false) _ (key :: value :: _) =>
    if value.unparen.isFunction then key.keyName? else none
  | _ => none

theorem isSome_role_of_bag {scope} {t : Script.Tree α} (h : (declaratorRole? scope t).isSome) :
    (declaratorRole? { propsBag := t.kids.tail.head?.bind fun value => value.unparen.ident? } t).isSome
      := by
  unfold declaratorRole? at h ⊢
  rcases hkids : t.kids with _ | ⟨_, _ | ⟨_, _ | ⟨_, _⟩⟩⟩
  · simp [hkids] at h
  · simp [hkids] at h
  · split at h <;> grind
  · simp [hkids] at h

theorem unpacks_of_roles {scope} {t : Script.Tree α} (hne : !t.kids.isEmpty)
    (h : t.kids.all fun d => (declaratorRole? scope d).isSome) : t.unpacks := by
  simp only [unpacks, hne, Bool.true_and, all_eq_true] at h ⊢
  exact fun d hd => isSome_role_of_bag (h d hd)

end Script.Tree

namespace Policy

variable (p : Policy) (source : Source)

def Takes (d : Draft) (statement : Part) : Prop :=
  p.Admits source d statement ∨ (p.Sees source d statement ∧ statement.isLeftover)

def TakesMember (d : Draft) (member : Part) : Prop :=
  p.Admits source d member ∨ (p.Sees source d member ∧ (member.isReviewed ∨
    ∃ statements, member.renderBody? = some statements ∧ ∀ s ∈ statements, p.Takes source d s))

variable {p source}

variable {d : Draft}

theorem Takes.grows {d' s} (h : p.Takes source d s) (hd : d.Grows d') :
    p.Takes source d' s :=
  h.imp (·.grows hd) fun h => ⟨h.1.grows hd, h.2⟩

theorem Takes.sees {s} (h : p.Takes source d s) : p.Sees source d s :=
  h.elim (·.sees) (·.1)

theorem TakesMember.grows {d' m} (h : p.TakesMember source d m) (hd : d.Grows d') :
    p.TakesMember source d' m := by
  refine h.imp (·.grows hd) fun h => ⟨h.1.grows hd, h.2.imp_right ?_⟩
  rintro ⟨statements, hbody, htakes⟩
  exact ⟨statements, hbody, fun s hs => (htakes s hs).grows hd⟩

end Policy

/-! Statements. -/

section

open Conversion

variable {source : Source} {p : Policy} {d : Draft}

theorem isSome_role_of_empty {α : Type} {t : Script.Tree α} (scope : ComponentScope)
    (h : (declaratorRole? {} t).isSome) : (declaratorRole? scope t).isSome := by
  unfold declaratorRole? at h ⊢
  split at h
  · split at h
    · grind
    · exact h
    · exact h
    · simp at h
  · simp at h

/-- The variables that a declaration gives the references of hooks, if it is consumed. -/
def consumedHooks {α : Type} (declarators : List (Script.Tree α)) : List String :=
  if !declarators.isEmpty && declarators.all fun q => (declaratorRole? {} q).isSome then
    declarators.filterMap refHook?
  else []

theorem yields_consumeDeclaration {declarators : List Part}
    (h : (!declarators.isEmpty && declarators.all fun q => (declaratorRole? d.scope q).isSome) →
      ∀ q ∈ declarators, p.Admits source d q) :
    Yields source p d (consumeDeclaration source declarators) fun consumed e =>
      (∀ name ∈ consumedHooks declarators, name ∈ e.scope.hookRefs) ∧
      (consumed → ∀ q ∈ declarators, e.Binds source q q.boundNames q.lostNames) := by
  refine .of_get ?_
  dsimp only
  split
  · next hroles =>
    have hall : Yields source p d (declarators.forM (registerDeclarator source)) fun _ e =>
        ∀ q ∈ declarators, (∀ name ∈ q.refHook?, name ∈ e.scope.hookRefs) ∧
          e.Binds source q q.boundNames q.lostNames := by
      -- What a declarator is for depends on the props parameter, which stays the same.
      refine .of_forM_keeping (I := fun e => e.scope.propsBag = d.scope.propsBag) rfl
        (fun q e e' he hq => ⟨fun name hname => he.scope.hookRefs (hq.1 name hname), hq.2.grows he⟩)
        fun q hq e he hbag => ?_
      have hadmits := (h hroles q hq).grows he
      have hrole : (declaratorRole? e.scope q).isSome := by
        rw [declaratorRole?_congr hbag]
        exact all_eq_true.1 (Bool.and_eq_true_iff.1 hroles).2 q hq
      have hdeclarator := yields_registerDeclarator hadmits hadmits.renders
      obtain ⟨n, rfl, -⟩ := hadmits
      exact (hdeclarator.and (S := fun _ e => e.scope.propsBag = d.scope.propsBag)
        ((propsBag_registerDeclarator n).trans hbag)).mono
          fun _ _ _ h => ⟨h.2, h.1.1, h.1.2 hrole⟩
    refine .bind hall fun _ e _ hknown => .of_pure ⟨fun name hname => ?_, fun _ q hq => (hknown q hq).2⟩
    unfold consumedHooks at hname
    split at hname
    · obtain ⟨q, hq, hhook⟩ := mem_filterMap.1 hname
      exact (hknown q hq).1 name hhook
    · simp at hname
  · next hroles =>
    refine .of_pure ⟨fun name hname => ?_, by simp⟩
    unfold consumedHooks at hname
    split at hname
    · next hempty =>
      refine absurd ?_ hroles
      rw [Bool.and_eq_true, all_eq_true] at hempty ⊢
      exact ⟨hempty.1, fun q hq => isSome_role_of_empty _ (hempty.2 q hq)⟩
    · simp at hname

variable {statement value : Part} {statements : List Part} {reason name : String}

theorem yields_reaction {statement : Text → String} (hname : p.names name)
    (h : p.Admits source d value) (hstatement : ∀ e c margin, p.Allows source e c →
      IsReaction source (p.Allows source e) (e.symbols.isProp ·)
        (statement (dedented (c.text source) margin))) :
    Yields source p d (do
      let code ← renderDedented source value
      modify (·.withSymbols (·.addState name none))
      modify (·.addReactive (statement code))) fun _ e => e.symbols.isState name := by
  refine .bind (yields_renderDedented h) fun t d' _ ht => ?_
  refine .bind (yields_addState hname none (by simp)) fun _ d'' hd hstate => ?_
  obtain ⟨c, margin, hc, rfl⟩ := ht
  have hreactive : d''.Change source p _ := .reactive d'' (hstatement d'' c margin (hc.grows hd))
  exact .of_change hreactive (hreactive.grows.symbols.state _ hstate)

theorem yields_initial (hname : p.names name) (h : p.Admits source d value) :
    Yields source p d (do
      let initial ← render source value
      modify (·.withSymbols (·.addState name (some (String.ofList initial))))) fun _ e =>
        e.symbols.isState name :=
  .bind (yields_render h) fun t d' _ ht => yields_addState hname (some t) (by simpa using ht)

theorem Policy.Admits.firstArgument {call argument} (h : p.Admits source d call)
    (hargument : call.arguments.head?.map Script.Tree.spreadValue = some argument) :
    p.Admits source d argument := by
  obtain ⟨a, ha, rfl⟩ := Option.map_eq_some_iff.1 hargument
  have hinside := inside_of_mem_arguments (mem_of_head? ha)
  exact h.within ((spreadValue_within a).trans hinside.within)

theorem yields_convertVariable {anchor : Nat} (hanchor : p.cuts anchor) {declarator}
    (h : p.Admits source d declarator)
    (hname : declarator.kids.head?.bind Script.Tree.ident? = some name) :
    Yields source p d (convertVariable source anchor declarator) fun _ e =>
      declarator.isRoutine ∨ e.Binds source declarator declarator.boundNames declarator.lostNames := by
  unfold convertVariable
  split
  case h_1 target value hkids =>
    have hvalue : p.Admits source d value := h.within (.kid (by simp [hkids]) .self)
    have hinner : p.Admits source d value.unparen := hvalue.within (unparen_within value)
    have htarget : target.ident? = some name := by simpa [hkids] using hname
    have hnamed : p.names name := h.sees.names (calls_of_ident? (by simp [hkids]) htarget)
    have hstate : ∀ {c : Conversion Unit}, Yields source p d c (fun _ e => e.symbols.isState name) →
        Yields source p d c fun _ e => declarator.isRoutine ∨
          e.Binds source declarator declarator.boundNames declarator.lostNames := by
      refine fun hc => hc.mono fun _ e _ hstate => .inr ?_
      have hbound : declarator.boundNames = [name] := by
        simp [boundNames, hkids, bindingNames_of_ident? htarget]
      rw [hbound]
      exact binds_of_accounts (by simpa using accounts_of_isState hstate)
    have hroutine : ∀ {c : Conversion Unit}, (value.unparen.isFunction ||
        value.unparen.isCallOf "useCallback") → Yields source p d c anything →
        Yields source p d c fun _ e => declarator.isRoutine ∨
          e.Binds source declarator declarator.boundNames declarator.lostNames :=
      fun hvalue hc => hc.mono fun _ _ _ _ => .inl (by simpa [isRoutine, hkids] using hvalue)
    have hcomputed := hstate (c := convertVariable.computed source _ value)
      (yields_reaction hnamed hvalue fun _ _ margin hc => .computed _ margin hc)
    simp only [htarget]
    split
    · exact hstate (yields_addState hnamed none (by simp))
    split
    · next harrow =>
      exact hroutine (by simp [isFunction, harrow]) (yields_declareArrow _ hanchor hinner)
    · next hfunction =>
      rw [hfunction] at hinner
      exact hroutine (by simp [isFunction, hfunction])
        (yields_declare _ hanchor (hinner.within (.kid (by simp) .self)))
    · next argument hargument _ _ =>
      have hadmits := hinner.firstArgument hargument
      split
      · next hcallback => exact hroutine (by simp [hcallback]) (yields_constant _ hanchor hadmits)
      · split
        · exact hstate (yields_reaction hnamed hadmits fun _ _ margin hc => .memo _ margin hc)
        · exact hcomputed
    · split
      · exact hstate (yields_initial hnamed hvalue)
      · exact hcomputed
  case h_2 hother =>
    refine .of_pure (.inr fun name hname => .inl ?_)
    unfold lostNames
    split
    · next target value hkids => exact (hother target value hkids).elim
    · exact hname

theorem yields_convertVariables {declaration} (h : p.Admits source d declaration) :
    Yields source p d (convertVariables source declaration) fun converted e =>
      converted → e.Declares source declaration := by
  have hkids : ∀ q ∈ declaration.kids, p.Admits source d q := fun q hq => h.within (.kid hq .self)
  refine .bind (yields_consumeDeclaration fun _ => hkids) fun consumed d' hd hconsumed => ?_
  split
  · next htrue => exact .of_pure fun _ q hq => .inr (hconsumed.2 htrue q hq)
  split
  · next hidents =>
    have hall : Yields source p d' (declaration.kids.forM
        (convertVariable source declaration.span.start)) fun _ e => ∀ q ∈ declaration.kids,
          q.isRoutine ∨ e.Binds source q q.boundNames q.lostNames := by
      refine .of_forM_each (fun q e e' he hq => hq.imp_right (·.grows he)) fun q hq e he => ?_
      obtain ⟨_, hname⟩ := Option.isSome_iff_exists.1 (all_eq_true.1 hidents q hq)
      exact yields_convertVariable h.sees.cuts.1 ((hkids q hq).grows (hd.trans he)) hname
    exact .bind hall fun _ e _ hdeclares => .of_pure fun _ => hdeclares
  · exact .of_pure (by simp)

theorem convertVariables_leftover {declaration} {word : String}
    (hkind : declaration.kind = .variableDecl word) (h : declaration.isLeftover) :
    (convertVariables source declaration).run d = (false, d) := by
  simp only [isLeftover, hkind, Bool.and_eq_true, Bool.not_eq_true'] at h
  have hcondition : (!declaration.kids.isEmpty &&
      declaration.kids.all fun q => (declaratorRole? d.scope q).isSome) = false := by
    rw [Bool.eq_false_iff]
    intro hall
    obtain ⟨hne, hall⟩ := Bool.and_eq_true_iff.1 hall
    exact Bool.noConfusion (h.1.symm.trans (unpacks_of_roles hne hall))
  have hidents : (declaration.kids.all fun q =>
      (q.kids.head?.bind Script.Tree.ident?).isSome) = false := by
    obtain ⟨q, hq, hnone⟩ := any_eq_true.1 h.2
    rw [all_eq_false]
    exact ⟨q, hq, by simpa using hnone⟩
  have hconsumed : (consumeDeclaration source declaration.kids).run d = (false, d) := by
    simp only [consumeDeclaration, StateT.run_bind, StateT.run_get, pure_bind, hcondition]
    rfl
  simp only [convertVariables, StateT.run_bind, hconsumed, hidents]
  rfl

theorem mem_moments_of_effectHelper? {call helper}
    (h : effectHelper? call = some helper) : helper ∈ moments := by
  unfold effectHelper? at h
  split at h
  · obtain rfl : "afterUpdate" = helper := by simpa using h
    decide
  · obtain rfl : "onMount" = helper := by simpa using h
    decide
  · simp at h

theorem yields_convertEffect (h : p.Admits source d statement) :
    Yields source p d (convertEffect source statement) anything := by
  unfold convertEffect
  split
  case h_1 call hcall =>
    obtain ⟨e, he, rfl⟩ : ∃ e ∈ statement.kids, e.unparen = call :=
      mem_map.1 (by rw [hcall]; exact mem_singleton_self _)
    have hadmits : p.Admits source d e.unparen :=
      h.within ((unparen_within e).trans (.kid he .self))
    split
    case h_1 callback hcallback =>
      split
      · split
        · next helper hhelper =>
          refine .change_bind (.helper d _) fun d' hd => ?_
          refine .bind (yields_marginAt h.sees.cuts.1) fun margin e he _ => ?_
          refine .bind (yields_render ((hadmits.firstArgument hcallback).grows (hd.trans he)))
            fun t d'' _ ht => ?_
          obtain ⟨c, hc, rfl⟩ := ht
          have hmoment := mem_moments_of_effectHelper? hhelper
          exact .change_bind (.function d'' (.effect _ hmoment hc)) fun _ _ => .of_pure trivial
        · refine .bind (yields_renderDedented_known h.sees) fun t d' _ ht => ?_
          obtain ⟨c, margin, hc, rfl⟩ := ht
          have hreason : p.reviews "effect with dependencies" := reviews_of_ne (by decide)
          exact .change_bind (.review d' _ hreason (.part margin hc)) fun _ _ => .of_pure trivial
      · exact .of_pure trivial
    case h_2 => exact .of_pure trivial
  case h_2 => exact .of_pure trivial

theorem convertEffect_leftover (h : statement.isEffect = false) :
    (convertEffect source statement).run d = (false, d) := by
  unfold convertEffect
  split
  case h_1 call hcall =>
    obtain ⟨e, he, rfl⟩ : ∃ e ∈ statement.kids, e.unparen = call :=
      mem_map.1 (by rw [hcall]; exact mem_singleton_self _)
    have hnot : (e.unparen.isCallOf "useEffect" || e.unparen.isCallOf "useLayoutEffect") = false := by
      rw [isEffect, any_eq_false] at h
      simpa using h e he
    split
    · rw [hnot]
      rfl
    · rfl
  case h_2 => rfl

theorem yields_convertStatement (h : p.Takes source d statement) :
    Yields source p d (convertStatement source statement) fun left e => left = false →
      ∀ word, statement.kind = .variableDecl word → e.Declares source statement := by
  rcases h with h | ⟨-, h⟩
  · unfold convertStatement
    split
    · refine .bind (yields_convertVariables h) fun converted _ _ hdeclares => .of_pure ?_
      exact fun hleft _ _ => hdeclares (by simpa using hleft)
    · split
      · split
        · have hfunction := h.within (.kid (mem_cons_of_mem _ mem_cons_self) .self)
          refine .bind (yields_declare _ hfunction.sees.cuts.1 hfunction) ?_
          exact fun _ _ _ _ => .of_pure (by simp)
        · exact .of_pure (by simp)
      · exact .of_pure (by simp)
    · exact .bind (yields_convertEffect h) fun _ _ _ _ => .of_pure (by simp)
    · exact .of_pure (by simp)
    · exact .of_pure (by simp)
  · -- Nothing is done to a statement that is left over.
    suffices hrun : ((convertStatement source statement).run d).2 = d ∧
        ((convertStatement source statement).run d).1 = true from
      fun _ => ⟨by rw [hrun.1], fun hleft => by simp [hrun.2] at hleft⟩
    unfold convertStatement
    split
    · rw [StateT.run_bind, convertVariables_leftover rfl h]
      exact ⟨rfl, rfl⟩
    · simp [isLeftover] at h
    · rw [StateT.run_bind, convertEffect_leftover (by simpa [isLeftover] using h)]
      exact ⟨rfl, rfl⟩
    · simp [isLeftover] at h
    · exact ⟨rfl, rfl⟩

def Draft.LeavesOver (source : Source) (d : Draft) (reason : String) (statement : Part) : Prop :=
  ∃ (w : Walk) (n : Node) (margin : Nat) (texts : List String) (offset : Nat),
    statement = Part.ofNode source n ∧ d.Reviews source reason ("\n".intercalate texts) offset ∧
      String.ofList (dedented ((Code.rendered w n).text source) margin) ∈ texts

theorem Draft.LeavesOver.grows {d'} (h : d.LeavesOver source reason statement)
    (hd : d.Grows d') : d'.LeavesOver source reason statement := by
  obtain ⟨w, n, margin, texts, offset, hn, hreviews, htext⟩ := h
  exact ⟨w, n, margin, texts, offset, hn, hreviews.grows hd, htext⟩

theorem yields_reviewLeftovers (hreason : p.reviews reason)
    (h : ∀ s ∈ statements, p.Sees source d s) :
    Yields source p d (reviewLeftovers source reason statements) fun _ e =>
      ∀ s ∈ statements, e.LeavesOver source reason s := by
  unfold reviewLeftovers
  split
  · exact .of_pure (by simp)
  next first rest =>
  have hall := Yields.of_mapM_each (d := d) (l := first :: rest)
    (R := fun t e => IsDedented source (Code.KnownTo source e) t)
    (S := fun s t => ∃ (w : Walk) (n : Node) (margin : Nat), s = Part.ofNode source n ∧
      t = dedented ((Code.rendered w n).text source) margin)
    (fun t e e' he ht => ht.known_grows he) fun s hs e he => by
      have hsees := (h s hs).grows he
      refine (yields_renderDedented_known hsees).and (S := fun t _ => ∃ w n margin, _) ?_
      obtain ⟨n, rfl, -⟩ := hsees
      exact ⟨{ draft := e.cut _ }, n, _, rfl, congrArg (dedented · _) (render_text n)⟩
  refine .bind hall fun texts d' _ htexts => ?_
  obtain ⟨htexts, hstatements⟩ := htexts
  obtain ⟨cs, hcs, rfl⟩ := exists_codes (f := fun c => dedented (c.1.text source) c.2)
    fun t ht => htexts t ht
  have hform : IsReview source (Code.KnownTo source d')
      ("\n".intercalate ((cs.map fun c => dedented (c.1.text source) c.2).map String.ofList)) := by
    rw [map_map]
    exact .parts hcs
  refine .of_change (.review d' _ hreason hform) fun s hs => ?_
  obtain ⟨t, ht, w, n, margin, hn, rfl⟩ := hstatements s hs
  exact ⟨w, n, margin, _, _, hn, d'.reviews_review _ _ _ _, mem_map_of_mem ht⟩

/-- The declarations among statements lose no name, or stand in a block for manual review. -/
def Draft.Unpacks (source : Source) (d : Draft) (reason : String) (statements : List Part) : Prop :=
  ∀ s ∈ statements, ∀ word, s.kind = .variableDecl word →
    d.Declares source s ∨ d.LeavesOver source reason s

theorem Draft.Unpacks.grows {d'} (h : d.Unpacks source reason statements)
    (hd : d.Grows d') : d'.Unpacks source reason statements :=
  fun s hs word hkind => (h s hs word hkind).imp (·.grows hd) (·.grows hd)

theorem yields_convertBody (hreason : p.reviews reason) (h : ∀ s ∈ statements, p.Takes source d s) :
    Yields source p d (convertBody source reason statements) fun markup e =>
      markup = returned? statements ∧ e.Unpacks source reason statements := by
  have hbody : ∀ (body : List Part) (markup : Option Part), body ⊆ statements →
      (∀ s ∈ statements, ∀ word, s.kind = .variableDecl word → s ∈ body) →
      markup = returned? statements →
      Yields source p d (do
        let leftovers ← body.filterM (convertStatement source)
        reviewLeftovers source reason leftovers
        return markup) fun markup e =>
          markup = returned? statements ∧ e.Unpacks source reason statements := by
    intro body markup hsub hdeclarations hmarkup
    have hstatements := Yields.of_filterM (l := body) (d := d)
      (Q := fun s e => ∀ word, Script.Tree.kind s = .variableDecl word → e.Declares source s)
      (fun _ _ _ he hs word hkind => (hs word hkind).grows he)
      fun s hs e he => yields_convertStatement ((h s (hsub hs)).grows he)
    refine .bind hstatements fun leftovers d' hd hleft => ?_
    refine .bind (yields_reviewLeftovers hreason fun s hs => ?_) fun _ e he hreviewed => .of_pure ?_
    · exact (h s (hsub (hleft.1 hs))).sees.grows hd
    refine ⟨hmarkup, fun s hs word hkind => ?_⟩
    rcases hleft.2 s (hdeclarations s hs word hkind) with hs | hdeclares
    · exact .inr (hreviewed s hs)
    · exact .inl ((hdeclares word hkind).grows he)
  unfold convertBody
  split
  next body markup heq =>
  split at heq
  · next hlast =>
    obtain ⟨rfl, rfl⟩ := Prod.mk.inj heq
    refine hbody _ _ (dropLast_subset _) (fun s hs word hkind => ?_) (by simp [returned?, hlast])
    -- What is returned is no declaration.
    obtain ⟨_, rfl⟩ := getLast?_eq_some_iff.1 hlast
    rw [dropLast_concat]
    obtain hs | rfl := mem_append.1 hs |>.imp_right mem_singleton.1
    · exact hs
    · simp at hkind
  · next hlast =>
    obtain ⟨rfl, rfl⟩ := Prod.mk.inj heq
    refine hbody _ _ (fun _ h => h) (fun s hs _ _ => hs) ?_
    unfold returned?
    split
    · next hreturn => exact absurd hreturn (hlast _ _ _)
    · rfl

end

/-! Members. -/

section

open Conversion

variable {source : Source} {p : Policy} {d : Draft}

variable {part : Part} {d' : Draft} {α : Type}

theorem yields_reviewPart {reason} (hreason : p.reviews reason)
    (h : p.Sees source d part) : Yields source p d (reviewPart source reason part) anything := by
  refine .bind (yields_renderDedented_known h) fun t d' _ ht => ?_
  obtain ⟨c, margin, hc, rfl⟩ := ht
  exact .of_change (.review d' _ hreason (.part margin hc)) trivial

def createdRefs (member : Part) : List String :=
  match member with
  | .node _ (.classField false) _ (key :: value :: _) =>
    if value.unparen.isCallOf "createRef" then key.keyName?.toList else []
  | .node _ .constructor _ [_, _, body] =>
    ((body.kids.filterMap thisAssignment?).filter (·.2.unparen.isCallOf "createRef")).map (·.1)
  | _ => []

variable {name : String} {member statement body value item method : Part} {params : List Part}

theorem isFunction_of_isCallOf {t : Script.Tree α} (h : t.isCallOf name) :
    t.isFunction = false := by
  unfold isCallOf at h
  rw [calledName?_eq, beq_iff_eq, Option.bind_eq_some_iff] at h
  obtain ⟨_, hcallee, -⟩ := h
  simp [isFunction, kind_of_callee? hcallee]

theorem exists_of_thisAssignment? (h : thisAssignment? statement = some (name, value)) :
    ∃ target : Part, target.Within statement ∧ value.Within statement ∧
      target.thisMember? = some name := by
  unfold thisAssignment? at h
  split at h
  case h_2 => simp at h
  case h_1 l span expression =>
    have hinner : expression.unparen.Within (.node l .expression span [expression]) :=
      unparen_within_statement l span expression
    split at h
    case h_2 => simp at h
    case h_1 l' operator span' target v hassign =>
      rw [hassign] at hinner
      split at h
      case isFalse => simp at h
      case isTrue =>
        obtain ⟨_, hmember, heq⟩ := Option.map_eq_some_iff.1 h
        obtain ⟨rfl, rfl⟩ := Prod.mk.inj heq
        exact ⟨target, .trans (.kid (by simp) .self) hinner, .trans (.kid (by simp) .self) hinner,
          hmember⟩

theorem Policy.Sees.thisAssignment (h : p.Sees source d statement)
    (ht : thisAssignment? statement = some (name, value)) : p.names name := by
  obtain ⟨_, htarget, -, hmember⟩ := exists_of_thisAssignment? ht
  unfold thisMember? at hmember
  split at hmember
  · exact (h.within htarget).names (calls_of_memberName? hmember)
  · simp at hmember

theorem yields_collectMember (h : ∀ name ∈ member.methodName?, p.methods name) {known : Draft}
    (hsees : p.Sees source known member) :
    Yields source p d (collectMember member) fun _ e =>
      ∀ name ∈ createdRefs member, e.symbols.isRef name := by
  unfold collectMember
  split
  · refine (Yields.of_option_forM (Q := fun _ _ => True) fun name hname =>
      .of_change (.method d (h name ?_)) trivial).mono fun _ _ _ _ name hname => ?_
    · simpa [methodName?] using hname
    · simp [createdRefs] at hname
  · next l span key value rest =>
    have hname : ∀ name ∈ createdRefs (.node l (.classField false) span (key :: value :: rest)),
        value.unparen.isCallOf "createRef" ∧ key.keyName? = some name := by
      simp [createdRefs]
    split
    · next name hkey =>
      split
      · next hfun =>
        refine .of_change (.method d (h name (by simp [methodName?, hfun, hkey]))) fun name' hmem => ?_
        simp [isFunction_of_isCallOf (hname name' hmem).1] at hfun
      · split
        · have hnamed := hsees.names (calls_of_keyName? rfl rfl hkey)
          refine .of_change (.ref d (.inl hnamed)) fun name' hmem => ?_
          obtain rfl : name = name' := Option.some.inj (hkey.symm.trans (hname name' hmem).2)
          exact SymbolTable.isRef_addRef _ _
        · next hcall => exact .of_pure fun name' hmem => absurd (hname name' hmem).1 hcall
    · next hkey => exact .of_pure fun name' hmem => absurd (hname name' hmem).2 (by simp [hkey])
  · next l span first second body =>
    have hall : Yields source p d ((body.kids.filterMap thisAssignment?).forM fun assignment =>
        if assignment.2.unparen.isCallOf "createRef" then addReference assignment.1 else pure ())
          fun _ e => ∀ assignment ∈ body.kids.filterMap thisAssignment?,
            assignment.2.unparen.isCallOf "createRef" → e.symbols.isRef assignment.1 := by
      refine .of_forM_each (fun assignment e e' he href hcall => he.symbols.isRef (href hcall))
        fun assignment hassignment d' _ => ?_
      obtain ⟨s, hs, hassign⟩ := mem_filterMap.1 hassignment
      have hstatement : s.Within (node l .constructor span [first, second, body]) :=
        .kid (by simp) (.kid hs .self)
      split
      · exact .of_change (.ref d' (.inl ((hsees.within hstatement).thisAssignment hassign)))
          fun _ => SymbolTable.isRef_addRef _ _
      · next hcall => exact .of_pure fun h => absurd h hcall
    refine hall.mono fun _ e _ hrefs name hname => ?_
    obtain ⟨assignment, hmem, rfl⟩ := mem_map.1 hname
    exact hrefs assignment (mem_filter.1 hmem).1 (mem_filter.1 hmem).2
  · next hfield hconstructor =>
    refine .of_pure fun name hname => ?_
    unfold createdRefs at hname
    split at hname
    · exact (hfield _ _ _ _ _ rfl).elim
    · exact (hconstructor _ _ _ _ _ rfl).elim
    · simp at hname

theorem yields_addInitialState (hname : p.names name) (h : p.Admits source d value) :
    Yields source p d (do
      let initial ← render source value
      modify (·.withSymbols (·.addInitialState name (some (String.ofList initial))))) fun _ e =>
        e.symbols.isState name := by
  refine .bind (yields_render h) fun t d' _ ht => .of_change (.initialState d' hname ?_) ?_
  · exact isValue_of_isCode (o := some t) (by simpa using ht)
  · exact SymbolTable.isState_addInitialState _ _ _

def entryName? (entry : Part) : Option String :=
  match entry with
  | .node _ .property _ [key, _] => key.keyName?
  | .node _ (.ident name) _ _ => some name
  | _ => none

/-- An initial state object has plain keys only, and all of them are variables. -/
def Draft.Initializes (d : Draft) (object : Part) : Prop :=
  object.kids.all isPlainEntry ∧
    ∀ entry ∈ object.kids, ∀ name ∈ entryName? entry, d.symbols.isState name

theorem yields_registerInitialState {object} (h : p.Admits source d object) :
    Yields source p d (registerInitialState source object) fun registered e =>
      registered → e.Initializes object := by
  unfold registerInitialState
  split
  · next hplain =>
    have hall : Yields source p d (object.kids.forM (registerInitialEntry source)) fun _ e =>
        ∀ entry ∈ object.kids, ∀ name ∈ entryName? entry, e.symbols.isState name := by
      refine .of_forM_each (fun entry e e' he hentry name hname =>
        he.symbols.state name (hentry name hname)) fun entry hentry e he => ?_
      have hadmits : p.Admits source e entry := (h.within (.kid hentry .self)).grows he
      unfold registerInitialEntry
      split
      · split
        · next hkey =>
          have hnamed := hadmits.sees.names (calls_of_keyName? rfl rfl hkey)
          refine (yields_addInitialState hnamed (hadmits.within (.kid (by simp) .self))).mono ?_
          rintro _ _ _ hstate name hname
          rwa [← Option.some.inj (hkey.symm.trans hname)]
        · next hkey => exact .of_pure fun name hname => by simp [entryName?, hkey] at hname
      · refine (yields_addInitialState (h.sees.names (.ident hentry rfl)) hadmits).mono ?_
        rintro _ _ _ _ name hname
        rwa [← Option.some.inj hname]
      · next hproperty hident =>
        refine .of_pure fun name hname => ?_
        unfold entryName? at hname
        split at hname
        · exact (hproperty _ _ _ _ rfl).elim
        · exact (hident _ _ _ _ rfl).elim
        · simp at hname
    exact .bind hall fun _ _ _ hentries => .of_pure fun _ => ⟨hplain, hentries⟩
  · exact .of_pure (by simp)

theorem yields_registerDefaults {object} (h : p.Admits source d object) :
    Yields source p d (registerDefaults source object) anything := by
  refine .of_forM fun entry hentry e he => ?_
  have hadmits : p.Admits source e entry := (h.within (.kid hentry .self)).grows he
  unfold registerDefault
  split
  · split
    · next name hname =>
      refine .bind (yields_render (hadmits.within (.kid (by simp) .self))) fun t e' _ ht => ?_
      have hnamed := hadmits.sees.names (calls_of_keyName? rfl rfl hname)
      exact (yields_addProp hnamed (some t) (by simpa using ht)).weaken
    · exact .of_pure trivial
  · next name _ _ =>
    refine .of_change (.prop e (h.sees.names (.ident hentry rfl)) fun v hv => ?_) trivial
    obtain rfl : name = v := by simpa using hv
    exact .own
  · exact .of_pure trivial

theorem Policy.Admits.thisAssignment (h : p.Admits source d statement)
    (ht : thisAssignment? statement = some (name, value)) : p.Admits source d value := by
  obtain ⟨_, -, hvalue, -⟩ := exists_of_thisAssignment? ht
  exact h.within hvalue

/-- What becomes of a statement of the constructor that is not left over. -/
inductive Draft.Constructs (source : Source) (d : Draft) (statement : Part) : Prop
  | parent (h : isSuperCall statement)
  | initialState {value : Part} (h : thisAssignment? statement = some ("state", value))
      (hkeys : d.Initializes value.unparen)
  | reference {name : String} {value : Part} (h : thisAssignment? statement = some (name, value))
      (hcall : value.unparen.isCallOf "createRef")
  | bound {name : String} {value callee : Part}
      (h : thisAssignment? statement = some (name, value))
      (hcallee : value.unparen.calleeMember? = some callee) (hbind : callee.memberName? = some "bind")
  /-- The value is that of a variable, unless the variable has one already. -/
  | value {name : String} {n : Node} {w : Walk}
      (h : thisAssignment? statement = some (name, Part.ofNode source n)) (hname : name ≠ "state")
      (hvalue : ⟨name, some (String.ofList ((Code.rendered w n).text source))⟩ ∈ d.symbols.state ∨
        (w.visit source n).draft.Grows d ∧
          ∃ old, ⟨name, some old⟩ ∈ (w.visit source n).draft.symbols.state)

theorem Draft.Constructs.grows (h : d.Constructs source statement) (hd : d.Grows d') :
    d'.Constructs source statement := by
  cases h with
  | parent h => exact .parent h
  | initialState h hkeys =>
    exact .initialState h ⟨hkeys.1, fun entry hentry name hname =>
      hd.symbols.state name (hkeys.2 entry hentry name hname)⟩
  | reference h hcall => exact .reference h hcall
  | bound h hcallee hbind => exact .bound h hcallee hbind
  | value h hname hvalue =>
    exact .value h hname (hvalue.imp (hd.symbols.values _ · rfl) fun h => ⟨h.1.trans hd, h.2⟩)

theorem yields_keep (h : p.Admits source d value) (hnamed : p.names name)
    (hassign : thisAssignment? statement = some (name, value)) :
    Yields source p d (convertConstructorStatement.keep source name value) fun left e =>
      left = false → e.Constructs source statement := by
  unfold convertConstructorStatement.keep
  split
  · exact .of_pure (by simp)
  next hname =>
  have hrender := yields_render h
  obtain ⟨n, rfl, -⟩ := h
  refine .bind (hrender.and (S := fun t e => t = (Code.rendered { draft := d } n).text source ∧
    (Walk.visit source { draft := d } n).draft = e) ⟨render_text n, rfl⟩) fun t d' _ ht => ?_
  obtain ⟨hcode, rfl, rfl⟩ := ht
  refine .bind (Q := fun _ e => e.Constructs source statement) ?_
    fun _ _ _ hconstructs => .of_pure fun _ => hconstructs
  intro htied
  obtain ⟨hrun, -⟩ := yields_addState hnamed (some _) (by simpa using hcode) htied
  refine ⟨hrun, .value (w := { draft := d }) hassign (by simpa using hname) ?_⟩
  exact (Symbol.mem_register_self _ _ _).imp_right fun hold => ⟨hrun.grows, hold⟩

theorem yields_convertConstructorStatement (h : p.Admits source d statement) :
    Yields source p d (convertConstructorStatement source statement) fun left e =>
      left = false → e.Constructs source statement := by
  unfold convertConstructorStatement
  split
  · next hsuper => exact .of_pure fun _ => .parent hsuper
  split
  · exact .of_pure (by simp)
  next name value ht =>
  have hvalue := h.thisAssignment ht
  have hnamed := h.sees.thisAssignment ht
  dsimp only
  split
  · split
    · next hstate =>
      obtain rfl : name = "state" := by simpa using hstate
      refine .bind (yields_registerInitialState (hvalue.within (unparen_within value))) ?_
      exact fun _ _ _ hkeys => .of_pure fun hleft => .initialState ht (hkeys (by simpa using hleft))
    · exact yields_keep hvalue hnamed ht
  · split
    · next hcall => exact .of_pure fun _ => .reference ht hcall
    split
    · next hbind =>
      obtain ⟨_, hcallee, hmember⟩ := (Option.any_eq_true _ _).1 hbind
      exact .of_pure fun _ => .bound ht hcallee (by simpa using hmember)
    · exact yields_keep hvalue hnamed ht
  · exact yields_keep hvalue hnamed ht

theorem yields_convertConstructor (h : p.Admits source d body) :
    Yields source p d (convertConstructor source body) fun _ e =>
      ∀ s ∈ body.kids, e.Constructs source s ∨ e.LeavesOver source "constructor" s := by
  have hkids : ∀ s ∈ body.kids, p.Admits source d s := fun s hs => h.within (.kid hs .self)
  refine .bind (.of_filterM (fun s e e' he hs => hs.grows he) fun s hs e he =>
    yields_convertConstructorStatement ((hkids s hs).grows he)) fun leftovers d' hd hleft => ?_
  have hreason : p.reviews "constructor" := reviews_of_ne (by decide)
  refine (yields_reviewLeftovers hreason fun s hs => ((hkids s (hleft.1 hs)).grows hd).sees).mono
    fun _ e he hreviewed s hs => ?_
  rcases hleft.2 s hs with hs | hconstructs
  · exact .inr (hreviewed s hs)
  · exact .inl (hconstructs.grows he)

theorem yields_convertStaticField {field} (name : String)
    (hfield : p.Admits source d field) (hvalue : p.Admits source d value) :
    Yields source p d (convertStaticField source field name value) anything := by
  have hother : Yields source p d (convertStaticField.other source field name) anything := by
    unfold convertStaticField.other
    split
    · exact .of_pure trivial
    · exact yields_reviewPart (reviews_quoted (by decide)) hfield.sees
  unfold convertStaticField
  dsimp only
  split
  · split
    · exact yields_registerDefaults (hvalue.within (unparen_within value))
    · exact hother
  · exact hother

theorem yields_convertField {field} (h : p.Admits source d field) :
    Yields source p d (convertField source field) anything := by
  unfold convertField
  split
  case h_2 => exact .of_pure trivial
  case h_1 l static span key value rest =>
    have hvalue : p.Admits source d value := h.within (.kid (by simp) .self)
    have hinner : p.Admits source d value.unparen := hvalue.within (unparen_within value)
    split
    · exact yields_reviewPart (reviews_of_ne (by decide)) h.sees
    next name hname =>
    have hnamed := h.sees.names (calls_of_keyName? rfl rfl hname)
    split
    · exact yields_convertStaticField name h hvalue
    split
    · exact (yields_addState hnamed none (by simp)).weaken
    split
    · next l' s entries hobject =>
      rw [hobject] at hinner
      have hrest : ∀ (consumed : Bool) d', d.Grows d' → Yields source p d'
          (if !consumed then convertField.setInitial source name value else pure ()) anything := by
        intro consumed d' hd
        split
        · exact (yields_initial hnamed (hvalue.grows hd)).weaken
        · exact .of_pure trivial
      split
      · exact .bind (yields_registerInitialState hinner) fun consumed d' hd _ => hrest consumed d' hd
      · exact hrest false d (.refl d)
    · next harrow =>
      rw [harrow] at hinner
      exact yields_declareArrow name h.sees.cuts.1 hinner
    · next hfunction =>
      rw [hfunction] at hinner
      exact yields_declare name h.sees.cuts.1 (hinner.within (.kid (by simp) .self))
    · split
      · exact .of_pure trivial
      · exact (yields_initial hnamed hvalue).weaken

theorem yields_convertNamedMethod (name : String) (async generator : Bool)
    (hmethod : p.Admits source d method) (hparams : ∀ q ∈ params, p.Admits source d q)
    (hbody : p.Admits source d body) :
    Yields source p d (convertNamedMethod source method name params async generator body)
      fun markup e => (∀ part ∈ markup, name = "render" ∧ returned? body.kids = some part) ∧
        (name = "render" → e.Unpacks source "render logic" body.kids) := by
  unfold convertNamedMethod
  split
  · have hreason : p.reviews "render logic" := reviews_of_ne (by decide)
    refine (yields_convertBody hreason fun s hs => ?_).mono fun markup d' _ hmarkup => ?_
    · exact .inl (hbody.within (.kid hs .self))
    · exact ⟨fun part hpart => ⟨rfl, hmarkup.1 ▸ hpart⟩, fun _ => hmarkup.2⟩
  · exact .then_pure (yields_lifecycle _ hmethod.sees.cuts.1 (by decide) hbody) fun _ _ => by simp
  · exact .then_pure (yields_lifecycle _ hmethod.sees.cuts.1 (by decide) hbody) fun _ _ => by simp
  · next hrender _ _ =>
    have hnone : ∀ e : Draft, (∀ part ∈ (none : Option Part), name = "render" ∧
        returned? body.kids = some part) ∧
        (name = "render" → e.Unpacks source "render logic" body.kids) :=
      fun e => ⟨by simp, fun heq => (hrender heq).elim⟩
    split
    · exact .bind (yields_lifecycle _ hmethod.sees.cuts.1 (by decide) hbody) fun _ e _ _ =>
        .of_pure (hnone e)
    split
    · exact .bind (yields_reviewPart (reviews_quoted (by decide)) hmethod.sees)
        fun _ e _ _ => .of_pure (hnone e)
    split
    · exact .bind (yields_reviewPart (reviews_quoted (by decide)) hmethod.sees)
        fun _ e _ _ => .of_pure (hnone e)
    · refine .bind (yields_head name async generator hparams) fun head d' hd hhead => ?_
      obtain ⟨_, hcs, rfl⟩ := hhead
      refine .bind (yields_text _ hmethod.sees.cuts.1 (hbody.grows hd)) fun t d'' hd' ht => ?_
      refine .bind (yields_addFunction name async generator (fun c hc => (hcs c hc).grows hd') ht) ?_
      exact fun _ e _ _ => .of_pure (hnone e)

theorem yields_convertNamedMethod_review (async generator : Bool) (h : p.Sees source d method)
    (hname : ["render", "componentDidMount", "componentWillUnmount"].contains name = false)
    (hupdate : (name == "componentDidUpdate" && params.isEmpty) = false)
    (hreview : unsupportedLifecycle.contains name ∨ body.containsMarkup) :
    Yields source p d (convertNamedMethod source method name params async generator body)
      fun markup _ => markup = none := by
  unfold convertNamedMethod
  split
  · simp at hname
  · simp at hname
  · simp at hname
  · rw [hupdate]
    simp only [Bool.false_eq_true, if_false]
    split
    · exact .bind (yields_reviewPart (reviews_quoted (by decide)) h) fun _ _ _ _ => .of_pure rfl
    next hsupported =>
    rw [if_pos (hreview.resolve_left hsupported)]
    exact .bind (yields_reviewPart (reviews_quoted (by decide)) h) fun _ _ _ _ => .of_pure rfl

def renderStatements (member : Part) : List Part :=
  match member with
  | .node _ (.classMethod .method false) _ [key, .node _ (.function ..) _ [_, _, body, _, _]] =>
    if key.keyName? == some "render" && !body.isAbsent then body.kids else []
  | _ => []

theorem exists_of_mem_renderStatements {s} (h : s ∈ renderStatements member) :
    ∃ l span key function, member = .node l (.classMethod .method false) span [key, function] ∧
      key.keyName? = some "render" ∧ ∃ l' async generator span' params x body y z,
        function = .node l' (.function async generator) span' [params, x, body, y, z] ∧
          body.isAbsent = false ∧ s ∈ body.kids := by
  unfold renderStatements at h
  split at h
  · split at h
    · next hrender =>
      obtain ⟨hkey, hbody⟩ := Bool.and_eq_true_iff.1 hrender
      exact ⟨_, _, _, _, rfl, by simpa using hkey, _, _, _, _, _, _, _, _, _, rfl,
        by simpa using hbody, h⟩
    · simp at h
  · simp at h

/-- What a method answers is what `render` returns, and the declarations of `render` lose no name. -/
structure Draft.Shows (source : Source) (d : Draft) (member : Part) (markup : Option Part) :
    Prop where
  returned : ∀ part ∈ markup, ∃ statements, member.renderBody? = some statements ∧
    returned? statements = some part
  unpacks : d.Unpacks source "render logic" (renderStatements member)

theorem Draft.shows_none (h : ∀ s, s ∉ renderStatements member) : d.Shows source member none :=
  ⟨by simp, fun s hs => (h s hs).elim⟩

theorem Draft.shows_method {l l' span span' async generator key params x y z markup} (hname : key.keyName? = some name)
    (hmarkup : ∀ part ∈ markup, name = "render" ∧ returned? body.kids = some part)
    (hunpacks : name = "render" → d.Unpacks source "render logic" body.kids) :
    d.Shows source (.node l (.classMethod .method false) span
      [key, .node l' (.function async generator) span' [params, x, body, y, z]]) markup := by
  refine ⟨fun part hpart => ?_, fun s hs => ?_⟩
  · obtain ⟨rfl, hreturned⟩ := hmarkup part hpart
    exact ⟨body.kids, by simp [renderBody?, hname], hreturned⟩
  · obtain ⟨hrender, hs⟩ : (name = "render" ∧ body.isAbsent = false) ∧ s ∈ body.kids := by
      simpa [renderStatements, hname] using hs
    exact hunpacks hrender.1 s hs

theorem yields_convertMethod (h : p.TakesMember source d method) :
    Yields source p d (convertMethod source method) fun markup e => e.Shows source method markup := by
  have hsees : p.Sees source d method := h.elim (·.sees) (·.1)
  unfold convertMethod
  split
  case h_2 hmethod =>
    refine .of_pure (shows_none fun s hs => ?_)
    obtain ⟨l, span, key, function, rfl, -⟩ := exists_of_mem_renderStatements hs
    exact hmethod _ _ _ _ _ _ rfl
  case h_1 l role static span key function =>
    split
    · next hname =>
      have hreason : p.reviews "computed method" := reviews_of_ne (by decide)
      refine .then_pure (yields_reviewPart hreason hsees) fun e _ => shows_none fun s hs => ?_
      obtain ⟨l', span', key', function', heq, _, -⟩ := exists_of_mem_renderStatements hs
      simp_all
    next name hname =>
    split
    · next hrole =>
      have hreason : p.reviews s!"method `{name}`" := reviews_quoted (by decide)
      refine .then_pure (yields_reviewPart hreason hsees) fun e _ => shows_none fun s hs => ?_
      obtain ⟨l', span', key', function', heq, -⟩ := exists_of_mem_renderStatements hs
      simp_all
    next hrole =>
    obtain ⟨rfl, rfl⟩ : static = false ∧ role = .method := by simpa using hrole
    split
    case h_2 hfunction =>
      refine .of_pure (shows_none fun s hs => ?_)
      obtain ⟨l', span', _, _, heq, -, hfun⟩ := exists_of_mem_renderStatements hs
      obtain ⟨_, async, generator, _, params, x, body, y, z, rfl, -⟩ := hfun
      have heq' := (node.inj heq).2.2.2
      exact hfunction _ _ _ _ _ _ _ _ _ (List.cons.inj (List.cons.inj heq').2).1
    case h_1 l' async generator span' params x body y z =>
      split
      · next habsent =>
        refine .of_pure (shows_none fun s hs => ?_)
        simp [renderStatements, habsent] at hs
      rcases h with h | ⟨-, hreviewed | ⟨statements, hrender, htakes⟩⟩
      · have hfunction : p.Admits source d (.node l' (.function async generator) span'
            [params, x, body, y, z]) := h.within (.kid (by simp) .self)
        have hparams : p.Admits source d params := hfunction.within (.kid (by simp) .self)
        exact (yields_convertNamedMethod name async generator h
          (fun q hq => hparams.within (.kid hq .self))
          (hfunction.within (.kid (by simp) .self))).mono
            fun markup d' _ h => shows_method hname h.1 h.2
      · simp only [isReviewed, hname, bne_self_eq_false, Bool.false_or,
          Bool.and_eq_true, Bool.not_eq_true', Bool.or_eq_true] at hreviewed
        obtain ⟨⟨hnot, hupdate⟩, hreview⟩ := hreviewed
        refine (yields_convertNamedMethod_review async generator hsees hnot hupdate hreview).mono ?_
        rintro markup d' _ rfl
        exact shows_method hname (by simp) fun heq => by simp [heq] at hnot
      · obtain ⟨rfl, rfl⟩ : name = "render" ∧ body.kids = statements := by
          simpa [renderBody?, hname] using hrender
        have hreason : p.reviews "render logic" := reviews_of_ne (by decide)
        refine (yields_convertBody hreason htakes).mono fun markup d' _ h => ?_
        exact shows_method hname (fun part hpart => ⟨rfl, h.1 ▸ hpart⟩) fun _ => h.2

theorem Policy.TakesMember.admits (h : p.TakesMember source d member)
    (hkind : ∀ role static, member.kind ≠ .classMethod role static) : p.Admits source d member := by
  rcases h with h | ⟨-, h | ⟨_, h, -⟩⟩
  · exact h
  · unfold isReviewed at h
    split at h
    · exact absurd rfl (hkind _ _)
    · simp at h
  · unfold renderBody? at h
    split at h
    · exact absurd rfl (hkind _ _)
    · simp at h

def constructorStatements (member : Part) : List Part :=
  match member with
  | .node _ .constructor _ [_, _, body] => if isPrivate member then [] else body.kids
  | _ => []

/-- Every statement of the constructor has an effect on the variables or is left over, and the
declarations of `render` lose no name. -/
structure Draft.Records (source : Source) (d : Draft) (member : Part) : Prop where
  constructs : ∀ s ∈ constructorStatements member,
    d.Constructs source s ∨ d.LeavesOver source "constructor" s
  unpacks : d.Unpacks source "render logic" (renderStatements member)

theorem Draft.Records.grows (h : d.Records source member) (hd : d.Grows d') :
    d'.Records source member :=
  ⟨fun s hs => (h.constructs s hs).imp (·.grows hd) (·.grows hd), h.unpacks.grows hd⟩

theorem yields_convertMember (h : p.TakesMember source d member) :
    Yields source p d (convertMember source member) fun markup e =>
      (∀ part ∈ markup, ∃ statements, member.renderBody? = some statements ∧
        returned? statements = some part) ∧ e.Records source member := by
  have hsees : p.Sees source d member := h.elim (·.sees) (·.1)
  have hrender : ∀ s ∈ renderStatements member, member.kind = .classMethod .method false ∧
      isPrivate member = false := by
    intro s hs
    obtain ⟨l, _, key, _, rfl, hkey, -⟩ := exists_of_mem_renderStatements hs
    obtain ⟨_, kind, _, kids⟩ := key
    cases kind <;> simp [keyName?] at hkey <;> simp [isPrivate]
  have hconstructor : ∀ s ∈ constructorStatements member, member.kind = .constructor ∧
      isPrivate member = false ∧ ∃ x y body, member.kids = [x, y, body] ∧ s ∈ body.kids := by
    intro s hs
    unfold constructorStatements at hs
    split at hs
    · split at hs
      · simp at hs
      · next x y body hprivate => exact ⟨rfl, by simpa using hprivate, x, y, body, rfl, hs⟩
    · simp at hs
  -- A member without such statements.
  have hnone : ∀ e : Draft, (isPrivate member = false →
      member.kind ≠ .classMethod .method false ∧ (member.kind = .constructor →
        ∀ x y body, member.kids ≠ [x, y, body])) →
      (∀ part ∈ (none : Option Part), ∃ statements, member.renderBody? = some statements ∧
        returned? statements = some part) ∧ e.Records source member := by
    refine fun e hkind => ⟨by simp, fun s hs => ?_, fun s hs => ?_⟩
    · obtain ⟨hkind', hprivate, x, y, body, hkids, -⟩ := hconstructor s hs
      exact ((hkind hprivate).2 hkind' x y body hkids).elim
    · exact ((hkind (hrender s hs).2).1 (hrender s hs).1).elim
  have hreason : p.reviews "class member" := reviews_of_ne (by decide)
  unfold convertMember
  split
  · next hprivate =>
    exact .then_pure (yields_reviewPart hreason hsees) fun e _ => hnone e (by simp [hprivate])
  split
  · next hkind =>
    have hadmits := h.admits (by simp [hkind])
    split
    · next body hkids =>
      have hbody : p.Admits source d body := hadmits.within (.kid (by simp [hkids]) .self)
      refine .bind (yields_convertConstructor hbody) fun _ e _ hconstructs => .of_pure ?_
      refine ⟨by simp, fun s hs => ?_, fun s hs => ?_⟩
      · obtain ⟨-, -, x, y, body', hkids', hs⟩ := hconstructor s hs
        obtain ⟨-, -, rfl⟩ : _ ∧ _ ∧ body = body' := by simpa [hkids] using hkids'
        exact hconstructs s hs
      · simp [hkind] at hrender
        exact (hrender s hs).elim
    · next hkids => exact .of_pure (hnone d fun _ => ⟨by simp [hkind], fun _ x y body => hkids x y body⟩)
  · next hkind =>
    exact .then_pure (yields_convertField (h.admits (by simp [hkind]))) fun e _ =>
      hnone e (by simp [hkind])
  · next hkind =>
    refine (yields_convertMethod h).mono fun markup e _ hshows => ⟨hshows.returned, ?_, hshows.unpacks⟩
    intro s hs
    simp [hkind] at hconstructor
    exact (hconstructor s hs).elim
  · next hkind => exact .of_pure (hnone d (by simp [hkind]))
  · next hconstructor _ hmethod _ =>
    refine .then_pure (yields_reviewPart hreason hsees) fun e _ => hnone e fun _ => ⟨?_, ?_⟩
    · exact hmethod _ _
    · exact fun hkind => (hconstructor hkind).elim

theorem renderBody?_within {statements} {member : Script.Tree α}
    (h : member.renderBody? = some statements) : ∀ s ∈ statements, s.Within member := by
  unfold renderBody? at h
  split at h
  · split at h
    · next l span key l' async generator span' params x body y z _ =>
      obtain rfl := Option.some.inj h
      intro s hs
      have hbody : body ∈ (node l' (.function async generator) span' [params, x, body, y, z]).kids := by
        simp
      exact .kid (by simp) (.kid hbody (.kid hs .self))
    · simp at h
  · simp at h

theorem returned?_within {part} {statements : List (Script.Tree α)}
    (h : returned? statements = some part) : ∃ s ∈ statements, part.Within s := by
  unfold returned? at h
  split at h
  · next l span value hlast =>
    obtain rfl : value = part := by
      unfold present? at h
      split at h
      · simp at h
      · simpa using h
    exact ⟨_, mem_of_getLast? hlast, .kid (by simp) .self⟩
  · simp at h

def FromMember (members : List Part) (part : Part) : Prop :=
  ∃ member ∈ members, ∃ statements, member.renderBody? = some statements ∧
    returned? statements = some part

theorem exists_knowing (names : List String) :
    ∃ e : Draft, ∀ name ∈ names, e.symbols.isRef name := by
  induction names with
  | nil => exact ⟨{}, by simp⟩
  | cons first _ ih =>
    obtain ⟨e, he⟩ := ih
    refine ⟨e.withSymbols (·.addRef first), fun name hname => ?_⟩
    obtain rfl | hname := mem_cons.1 hname
    · exact SymbolTable.isRef_addRef _ _
    · exact (e.symbols.grows_addRef first).isRef (he name hname)

/-- The members are collected first, so that the references they create are known. -/
theorem yields_convertClass {members}
    (hmethods : ∀ m ∈ members, ∀ name ∈ m.methodName?, p.methods name)
    (h : ∀ e : Draft, (∀ m ∈ members, ∀ name ∈ createdRefs m, e.symbols.isRef name) →
      ∀ m ∈ members, p.TakesMember source e m) :
    Yields source p d (convertClass source members) fun markup e =>
      (∀ m ∈ members, ∀ name ∈ createdRefs m, e.symbols.isRef name) ∧
      (∀ part ∈ markup, FromMember members part) ∧ ∀ m ∈ members, e.Records source m := by
  obtain ⟨known, hknown⟩ := exists_knowing (members.flatMap createdRefs)
  have hsees : ∀ m ∈ members, p.Sees source known m := fun m hm =>
    (h known (fun m hm name hname => hknown name (mem_flatMap.2 ⟨m, hm, hname⟩)) m hm).elim
      (·.sees) (·.1)
  refine .bind (.of_forM_each (fun m e e' he hm name hname => he.symbols.isRef (hm name hname))
    fun m hm e _ => yields_collectMember (hmethods m hm) (hsees m hm)) fun _ d' _ hcollected => ?_
  have hfold := Yields.of_foldlM (d := d') (l := members) (b := none)
    (f := fun markup member => do return (← convertMember source member) <|> markup)
    (R := fun markup _ => ∀ part ∈ markup, FromMember members part)
    (Q := fun m e => e.Records source m) (fun m e e' he hm => hm.grows he) (by simp)
    fun m hm markup e he hmarkup => by
      have htakes := (h d' hcollected m hm).grows he
      refine .bind (yields_convertMember htakes) fun found e' _ hfound => .of_pure ⟨?_, hfound.2⟩
      intro part hpart
      cases found with
      | none => exact hmarkup part hpart
      | some root =>
        obtain rfl : root = part := Option.some.inj hpart
        exact ⟨m, hm, hfound.1 root rfl⟩
  exact hfold.mono fun markup e he hmarkup =>
    ⟨fun m hm name hname => he.symbols.isRef (hcollected m hm name hname), hmarkup⟩

theorem FromMember.within {members : List Part} (h : FromMember members part) :
    ∃ member ∈ members, part.Within member := by
  obtain ⟨member, hmember, _, hbody, hreturned⟩ := h
  obtain ⟨s, hs, hpart⟩ := returned?_within hreturned
  exact ⟨member, hmember, hpart.trans (renderBody?_within hbody s hs)⟩

/-- The parameter of a function component holds the props, or loses no name. -/
def Draft.Receives (source : Source) (d : Draft) (pattern : Part) : Prop :=
  pattern.ident?.isSome ∨ d.Binds source pattern pattern.bindingNames pattern.lostFromParameter

theorem yields_convertParameter {pattern} (h : p.Admits source d pattern) :
    Yields source p d (convertParameter source pattern) fun _ e => e.Receives source pattern := by
  unfold convertParameter
  split
  · refine (yields_registerProps h h.renders).mono fun _ _ _ hbinds => .inr ?_
    rwa []
  · exact .of_change (.propsBag d _) (.inl rfl)
  · split
    · next target _ hkind =>
      have htarget := h.within (.kid mem_cons_self .self)
      refine (yields_registerProps htarget htarget.renders).mono fun _ _ _ hbinds => .inr ?_
      simp only [lostFromParameter, hkind, bindingNames, bindingNames_objectPattern hkind]
      exact hbinds.within (.kid mem_cons_self .self)
    · next hkind =>
      refine .of_pure (.inr fun name hname => .inl ?_)
      unfold lostFromParameter
      dsimp only
      split
      · next hobject => exact (hkind hobject).elim
      · exact hname
  · next hobject hident hassign =>
    refine .of_pure (.inr fun name hname => .inl ?_)
    unfold lostFromParameter
    split
    · exact (hobject _ _ _ rfl).elim
    · exact (hassign _ _ _ _ rfl).elim
    · exact hname

namespace Script.Tree

def isBlock {α : Type} (t : Script.Tree α) : Bool :=
  match t.kind with
  | .block => true
  | _ => false

theorem isBlock_iff {α : Type} {t : Script.Tree α} : t.isBlock ↔ t.kind = .block := by
  unfold isBlock
  split
  · next h => simp [h]
  · next h => simpa using fun heq => h heq

def isExpression {α : Type} (t : Script.Tree α) : Bool :=
  match t.kind with
  | .expression => true
  | _ => false

end Script.Tree

def FromFunction (body part : Part) : Prop :=
  (body.kind = .block ∧ returned? body.kids = some part) ∨ (body.kind ≠ .block ∧ part = body)

theorem FromFunction.within (h : FromFunction body part) : part.Within body := by
  rcases h with ⟨-, hreturned⟩ | ⟨-, rfl⟩
  · obtain ⟨s, hs, hpart⟩ := returned?_within hreturned
    exact .kid hs hpart
  · exact .self

theorem kids_of_hookDeclarators? {s ds} (h : hookDeclarators? s = some ds) :
    s.kids = ds ∧ ∃ word, s.kind = .variableDecl word := by
  unfold hookDeclarators? at h
  split at h
  · next word _ _ =>
    split at h
    · exact ⟨Option.some.inj h, word, rfl⟩
    · simp at h
  · simp at h

/-- The declarations of hooks are consumed first, so that the references they hold are known. -/
theorem yields_convertFunction (hparam : ∀ q ∈ params.head?, p.Admits source d q)
    (hhooks : body.kind = .block → ∀ ds ∈ body.kids.filterMap hookDeclarators?, ∀ e : Draft,
      (!ds.isEmpty && ds.all fun q => (declaratorRole? e.scope q).isSome) →
        ∀ q ∈ ds, p.Admits source e q)
    (h : body.kind = .block → ∀ e : Draft, (∀ ds ∈ body.kids.filterMap hookDeclarators?,
      ∀ name ∈ consumedHooks ds, name ∈ e.scope.hookRefs) → ∀ s ∈ body.kids, p.Takes source e s) :
    Yields source p d (convertFunction source params body) fun markup e =>
      (body.kind = .block → ∀ ds ∈ body.kids.filterMap hookDeclarators?,
        ∀ name ∈ consumedHooks ds, name ∈ e.scope.hookRefs) ∧
      (∀ part ∈ markup, FromFunction body part) ∧
      (∀ q ∈ params.head?, e.Receives source q) ∧
      (body.kind = .block → e.Unpacks source "component logic" body.kids) := by
  refine .bind (.of_option_forM fun q hq => yields_convertParameter (hparam q hq))
    fun _ d' hd hreceives => ?_
  have hreceived : ∀ e, d'.Grows e → ∀ q ∈ params.head?, e.Receives source q :=
    fun e he q hq => (hreceives q hq).imp_right (·.grows he)
  split
  · next hkind =>
    have hall := Yields.of_forM_each (d := d') (l := body.kids.filterMap hookDeclarators?)
      (f := fun ds => do let _ ← consumeDeclaration source ds)
      (Q := fun ds e => ∀ name ∈ consumedHooks ds, name ∈ e.scope.hookRefs)
      (fun ds e e' he hds name hname => he.scope.hookRefs (hds name hname)) fun ds hds e he =>
        .bind (yields_consumeDeclaration (hhooks hkind ds hds e)) fun _ e' _ hds => .of_pure hds.1
    refine .bind hall fun _ e he hconsumed => ?_
    have hreason : p.reviews "component logic" := reviews_of_ne (by decide)
    refine (yields_convertBody hreason (h hkind e hconsumed)).mono fun markup e' he' hbody => ?_
    refine ⟨fun _ ds hds name hname => he'.scope.hookRefs (hconsumed ds hds name hname), ?_,
      hreceived e' (he.trans he'), fun _ => hbody.2⟩
    exact fun part hpart => .inl ⟨hkind, hbody.1 ▸ hpart⟩
  · next hkind =>
    refine .of_pure ⟨fun hblock => (hkind hblock).elim, fun part hpart => .inr ⟨hkind, ?_⟩,
      hreceived d' (.refl d'), fun hblock => (hkind hblock).elim⟩
    exact (Option.some.inj hpart).symm

/-! Module items. -/

def Script.Tree.isBoundary {α : Type} (item : Script.Tree α) : Bool :=
  match item.kind with
  | .import | .exportNamed | .exportAll | .exportDefaultDecl | .exportDefaultExpr | .typeExport => true
  | _ => false

def Policy.TakesItem (p : Policy) (source : Source) (d : Draft) (item : Part) : Prop :=
  p.Admits source d item ∨ (p.Sees source d item ∧ item.isBoundary)

theorem Policy.TakesItem.grows (h : p.TakesItem source d item) (hd : d.Grows d') :
    p.TakesItem source d' item :=
  h.imp (·.grows hd) fun h => ⟨h.1.grows hd, h.2⟩

theorem yields_moduleCode (hitems : p.takesItems) (h : p.Admits source d item) :
    Yields source p d (do
      let code ← renderDedented source item
      modify (·.addModuleCode (String.ofList code))) anything := by
  refine .bind (yields_renderDedented h) fun t d' _ ht => ?_
  obtain ⟨c, margin, hc, rfl⟩ := ht
  exact .of_change (.moduleCode d' hitems (.item margin hc)) trivial

theorem yields_convertModuleItem (hitems : p.takesItems) (h : p.TakesItem source d item) :
    Yields source p d (convertModuleItem source item) anything := by
  have hsees : p.Sees source d item := h.elim (·.sees) (·.1)
  have hexport : p.reviews "module export" := ⟨fun _ => hitems, (absurd · (by decide))⟩
  unfold convertModuleItem
  split
  · exact .of_pure trivial
  · exact .of_pure trivial
  · exact .of_pure trivial
  · have hadmits := h.resolve_right (by simp [isBoundary])
    exact yields_moduleCode hitems (hadmits.within (.kid mem_cons_self .self))
  · exact yields_reviewPart hexport hsees
  · exact yields_reviewPart hexport hsees
  · exact yields_reviewPart hexport hsees
  · next himport hnamed hall _ hdefault hvalue htype =>
    refine yields_moduleCode hitems (h.resolve_right fun hother => ?_)
    have hboundary := hother.2
    obtain ⟨l, kind, _, _⟩ := item
    cases kind
    case «import» => exact himport _ _ _ rfl
    case exportNamed => exact hnamed _ _ _ rfl
    case exportAll => exact hall _ _ _ rfl
    case exportDefaultDecl => exact hdefault _ _ _ rfl
    case exportDefaultExpr => exact hvalue _ _ _ rfl
    case typeExport => exact htype _ _ _ rfl
    all_goals exact Bool.noConfusion hboundary

theorem yields_convertModuleCode {own items}
    (hitems : p.takesItems) (h : ∀ item ∈ items, item.2 ∉ own → p.TakesItem source d item.1) :
    Yields source p d (convertModuleCode source own items) anything := by
  refine .of_forM fun item hitem e he => ?_
  obtain ⟨hmem, hown⟩ := mem_filter.1 hitem
  exact yields_convertModuleItem hitems ((h item hmem (by simpa using hown)).grows he)

theorem yields_convertStatic (component : String)
    (h : item.kind = .expression → p.Admits source d item) :
    Yields source p d (convertStatic source component item) anything := by
  unfold convertStatic
  split
  case h_2 => exact .of_pure trivial
  case h_1 l span expression =>
    have hinner : p.Admits source d expression.unparen :=
      (h rfl).within ((unparen_within expression).trans (.kid (by simp) .self))
    split
    case h_2 => exact .of_pure trivial
    case h_1 l' span' target value hassign =>
      rw [hassign] at hinner
      have hvalue : p.Admits source d value.unparen :=
        hinner.within ((unparen_within value).trans (.kid (by simp) .self))
      split
      · split
        · next hobject =>
          rw [hobject] at hvalue
          exact .bind (yields_registerDefaults hvalue) fun _ _ _ _ => .of_pure trivial
        · exact .of_pure trivial
        · exact .of_pure trivial
        · exact .of_pure trivial
      · exact .of_pure trivial

theorem yields_convertStatics {component items}
    (h : ∀ item ∈ items, item.1.kind = .expression → p.Admits source d item.1) :
    Yields source p d (convertStatics source component items) anything := by
  unfold convertStatics
  split
  · exact .of_pure trivial
  · refine .bind (.of_filterM (Q := fun _ _ => True) (fun _ _ _ _ h => h) fun item hitem e he => ?_)
      fun _ _ _ _ => .of_pure trivial
    exact (yields_convertStatic _ fun hkind => (h item hitem hkind).grows he).mono
      fun _ _ _ _ _ => trivial

end

end Sveltify
