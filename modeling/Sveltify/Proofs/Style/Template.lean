import Mathlib.Data.List.Induction
import Mathlib.Data.List.Nodup
import Sveltify.Proofs.Style.Faults
import Sveltify.Style.Template

/-! What a template is flattened to. Each segment is followed by what is written for its
interpolation, whatever has been met before; only the custom properties, and the conflict of two
names for one of them, depend on the interpolations so far. -/

namespace Sveltify.Style

open List

/-! ### Repeated members -/

section

variable {α : Type} [BEq α] [LawfulBEq α]

theorem eraseDups_concat (l : List α) (a : α) :
    (l ++ [a]).eraseDups = if a ∈ l then l.eraseDups else l.eraseDups ++ [a] := by
  rw [eraseDups_append]
  split
  · next h => simp [List.removeAll, h]
  · next h => simp [List.removeAll, h, eraseDups_cons]

theorem nodup_eraseDups (l : List α) : l.eraseDups.Nodup := by
  induction l using List.reverseRecOn with
  | nil => simp
  | append_singleton l a ih =>
    rw [eraseDups_concat]
    split
    · exact ih
    · next h =>
      rw [← concat_eq_append]
      exact ih.concat (by simpa using h)

theorem find?_eraseDups (p : α → Bool) (l : List α) : l.eraseDups.find? p = l.find? p := by
  induction l using List.reverseRecOn with
  | nil => rfl
  | append_singleton l a ih =>
    rw [eraseDups_concat, find?_append, ← ih]
    split
    · next h =>
      cases hfound : l.eraseDups.find? p with
      | some => rfl
      | none =>
        have hnone := find?_eq_none.1 (ih ▸ hfound) a h
        simp [hnone]
    · rw [find?_append]

end

/-! ### Interpolations -/

/-- Segments, each followed by what takes the place of its interpolation. -/
def interleave : List Text → List Text → Text
  | [], _ => []
  | segment :: segments, [] => segment ++ interleave segments []
  | segment :: segments, piece :: pieces => segment ++ piece ++ interleave segments pieces

def propertyCall (name : String) : Text :=
  "var(--".toList ++ kebabCase name ++ [')']

namespace Module

def written (m : Module) : Reference → Text
  | .unsupported _ => []
  | .named name =>
    match m.constant? name with
    | none => []
    | some v => if v.exported then v.value else propertyCall name

/-- The private constant that an interpolation refers to, with its value. -/
def private? (m : Module) : Reference → Option (String × Text)
  | .unsupported _ => none
  | .named name => ((m.constant? name).filter (!·.exported)).map fun v => (name, v.value)

def privates (m : Module) (references : List Reference) : List (String × Text) :=
  references.filterMap m.private?

/-- The custom properties of private constants, in the order of the first references to them. -/
def owned (m : Module) (references : List Reference) : List OwnedProperty :=
  (m.privates references).eraseDups.map fun p => ⟨p.1, ⟨kebabCase p.1, p.2⟩⟩

/-- The error of an interpolation that stands for no constant. -/
def missing? (m : Module) : Reference → Option Error
  | .unsupported expression => some (.unsupportedInterpolation expression)
  | .named name => if (m.constant? name).isNone then some (.unresolvedVariable name) else none

/-- The error of a private constant whose custom property an earlier interpolation has taken for
another one. -/
def conflict? (m : Module) (before : List Reference) (r : Reference) : Option Error :=
  (m.private? r).bind fun own =>
    ((m.privates before).find? fun p => kebabCase p.1 == kebabCase own.1).bind fun first =>
      if first.1 == own.1 then none
      else some (.customPropertyConflict (String.ofList (kebabCase own.1)) first.1 own.1)

/-- The error of an interpolation with others before it; only in strict mode one without a constant
is an error. -/
def fault? (m : Module) (strict : Bool) (before : List Reference) (r : Reference) : Option Error :=
  (if strict then m.missing? r else none) <|> m.conflict? before r

/-- The interpolations that follow a segment. -/
def reached (m : Module) : List Reference :=
  m.template.references.take m.template.segments.length

variable {m : Module} {strict : Bool} {before : List Reference} {r : Reference}

variable {name : String} {value : Text}

theorem private?_named (h : m.constant? name = some ⟨value, false⟩) :
    m.private? (.named name) = some (name, value) := by
  simp [private?, h]

theorem mem_owned {i} (hi : i < m.template.segments.length)
    (hreference : m.template.references[i]? = some (.named name))
    (hvalue : m.constant? name = some ⟨value, false⟩) :
    ⟨name, ⟨kebabCase name, value⟩⟩ ∈ m.owned m.reached := by
  have hreached : .named name ∈ m.reached :=
    mem_of_getElem? (i := i) (by rw [reached, getElem?_take_of_lt hi, hreference])
  have hprivate := mem_filterMap.2 ⟨_, hreached, private?_named hvalue⟩
  exact mem_map.2 ⟨_, mem_eraseDups.2 hprivate, rfl⟩

theorem find?_owned (property : Text) :
    (m.owned before).find? (·.property.name == property) =
      ((m.privates before).find? fun p => kebabCase p.1 == property).map
        fun p => ⟨p.1, ⟨kebabCase p.1, p.2⟩⟩ := by
  rw [owned, find?_map, find?_eraseDups]
  rfl

theorem constant?_of_mem_privates {p} (h : p ∈ m.privates before) :
    m.constant? p.1 = some ⟨p.2, false⟩ := by
  obtain ⟨r, -, hr⟩ := mem_filterMap.1 h
  cases r with
  | unsupported => simp [private?] at hr
  | named =>
    obtain ⟨⟨_, exported⟩, hv, rfl⟩ := Option.map_eq_some_iff.1 hr
    obtain ⟨hv, hexported⟩ := Option.filter_eq_some_iff.1 hv
    obtain rfl : exported = false := by simpa using hexported
    exact hv

theorem eq_of_mem_privates {p} (hp : p ∈ m.privates before) (hname : p.1 = name)
    (hvalue : m.constant? name = some ⟨value, false⟩) : p = (name, value) := by
  have heq := (constant?_of_mem_privates hp).symm.trans (hname ▸ hvalue)
  exact Prod.ext hname (by simpa using heq)

variable {e : Error}

theorem written_of_missing (h : m.missing? r = some e) :
    e.isConflict = false ∧ m.written r = [] ∧ m.private? r = none := by
  cases r with
  | unsupported => exact ⟨Option.some.inj h ▸ rfl, rfl, rfl⟩
  | named name =>
    cases hconstant : m.constant? name with
    | some => simp [missing?, hconstant] at h
    | none =>
      obtain rfl : _ = e := by simpa [missing?, hconstant] using h
      exact ⟨rfl, by simp [written, hconstant], by simp [private?, hconstant]⟩

theorem exists_of_conflict? (h : m.conflict? before r = some e) :
    e.isConflict ∧ ∃ own, m.private? r = some own ∧ ∃ first ∈ m.privates before,
      first.1 ≠ own.1 ∧ kebabCase first.1 = kebabCase own.1 := by
  obtain ⟨own, hown, h⟩ := Option.bind_eq_some_iff.1 h
  obtain ⟨first, hfirst, h⟩ := Option.bind_eq_some_iff.1 h
  split at h
  · cases h
  · next hne =>
    refine ⟨Option.some.inj h ▸ rfl, own, hown, first, mem_of_find?_eq_some hfirst, ?_⟩
    exact ⟨by simpa using hne, by simpa using find?_some hfirst⟩

/-- An interpolation is replaced by what is written for it, and takes up the custom property of a
private constant, unless it is at fault. -/
theorem substitute_owned (m : Module) (before : List Reference) (r : Reference) :
    substitute m (m.owned before) r =
      (m.fault? true before r).elim (.ok (m.written r, m.owned (before ++ [r]))) .error := by
  cases r with
  | unsupported => rfl
  | named name =>
    cases hconstant : m.constant? name with
    | none => simp [substitute, fault?, missing?, hconstant]
    | some v =>
      obtain ⟨value, exported⟩ := v
      cases exported with
      | true =>
        have hnone : m.private? (.named name) = none := by simp [private?, hconstant]
        simp [substitute, fault?, missing?, conflict?, written, hconstant, owned, privates, hnone]
      | false =>
        have hprivate : m.privates (before ++ [.named name]) = m.privates before ++ [(name, value)] := by
          simp [privates, private?_named hconstant]
        simp only [substitute, fault?, missing?, conflict?, private?_named hconstant, written,
          hconstant, find?_owned]
        delta propertyCall
        cases hfound : (m.privates before).find? fun p => kebabCase p.1 == kebabCase name with
        | none =>
          have hnew : (name, value) ∉ m.privates before := fun hmem => by
            simpa using find?_eq_none.1 hfound _ hmem
          simp [owned, hprivate, eraseDups_concat, hnew, hfound]
        | some first =>
          have hmem := mem_of_find?_eq_some hfound
          by_cases howner : first.1 = name
          · obtain rfl := eq_of_mem_privates hmem howner hconstant
            simp [owned, hprivate, eraseDups_concat, hmem, hfound]
          · simp [howner, hfound]

theorem bind_pure_fst (x : Except Error (Text × List OwnedProperty)) (f : Text → Text) :
    (x >>= fun result => pure (f result.1, result.2)) = x.map (Prod.map f id) := by
  cases x <;> rfl

theorem interpolate_cons (segment : Text) (segments : List Text) (references : List Reference) :
    interpolate m strict (m.owned before) (segment :: segments) (r :: references) =
      (m.fault? strict before r).elim
        ((interpolate m strict (m.owned (before ++ [r])) segments references).map
          (Prod.map (segment ++ m.written r ++ ·) id)) .error := by
  rw [interpolate, substitute_owned]
  cases hmissing : m.missing? r with
  | none =>
    simp only [fault?, hmissing, ite_self]
    cases hconflict : m.conflict? before r with
    | none => exact bind_pure_fst _ _
    | some e => simp [(exists_of_conflict? hconflict).1]
  | some =>
    obtain ⟨he, hwritten, hprivate⟩ := written_of_missing hmissing
    have howned : m.owned (before ++ [r]) = m.owned before := by simp [owned, privates, hprivate]
    cases strict with
    | true => simp [fault?, hmissing]
    | false =>
      have hpass := bind_pure_fst (interpolate m false (m.owned before) segments references) (segment ++ ·)
      simpa [fault?, hmissing, conflict?, hprivate, he, hwritten, howned] using hpass

theorem map_outcome {α β ε : Type} {x : Except ε α} {P : ε → Prop} {a} (f : α → β)
    (h : (∀ e, x = .error e ↔ P e) ∧ ∀ r, x = .ok r → r = a) :
    (∀ e, x.map f = .error e ↔ P e) ∧ ∀ r, x.map f = .ok r → r = f a := by
  cases x <;> simp_all [Except.map]

/-- A run over segments and their interpolations, with other interpolations before them. -/
theorem interpolate_owned (before : List Reference) (segments : List Text)
    (references : List Reference) :
    (∀ e, interpolate m strict (m.owned before) segments references = .error e ↔
      FirstFault (fun b => m.fault? strict (before ++ b)) (references.take segments.length) e) ∧
    ∀ result, interpolate m strict (m.owned before) segments references = .ok result →
      result = (interleave segments (references.map m.written),
        m.owned (before ++ references.take segments.length)) := by
  induction segments generalizing before references with
  | nil => simp [interpolate, interleave, not_firstFault_nil]
  | cons segment segments ih =>
    cases references with
    | nil =>
      have hrest := map_outcome (Prod.map (segment ++ ·) id) (ih before [])
      rw [← bind_pure_fst] at hrest
      simpa [interpolate, interleave] using hrest
    | cons r references =>
      rw [interpolate_cons]
      cases hfault : m.fault? strict before r with
      | some e' =>
        have hfirst : ∀ e, FirstFault (fun b => m.fault? strict (before ++ b))
            (r :: references.take segments.length) e ↔ e' = e :=
          fun e => firstFault_cons_of_some (by simpa using hfault)
        simp [hfirst]
      | none =>
        have hfirst : ∀ e, FirstFault (fun b => m.fault? strict (before ++ b))
            (r :: references.take segments.length) e ↔ FirstFault
              (fun b => m.fault? strict (before ++ r :: b)) (references.take segments.length) e :=
          fun e => firstFault_cons_of_none (by simpa using hfault)
        have hrest := map_outcome (Prod.map (segment ++ m.written r ++ ·) id)
          (ih (before ++ [r]) references)
        simpa [hfirst, interleave] using hrest

/-- Where no interpolation is at fault, a custom property stands for one constant. -/
theorem eq_of_kebabCase_eq {l} (h : ∀ x y z, l = x ++ y :: z → m.conflict? x y = none) :
    ∀ p ∈ m.privates l, ∀ q ∈ m.privates l, kebabCase p.1 = kebabCase q.1 → p = q := by
  induction l using List.reverseRecOn with
  | nil => simp [privates]
  | append_singleton l r ih =>
    have hl := ih fun x y z hx => h x y (z ++ [r]) (by simp [hx])
    cases hr : m.private? r with
    | none => simpa [privates, hr] using hl
    | some own =>
      -- an earlier constant with the property of the last one is found first, and is that one
      have hown : ∀ p ∈ m.privates l, kebabCase p.1 = kebabCase own.1 → p = own := by
        intro p hp heq
        have hfree := h l r [] rfl
        obtain ⟨first, hfirst⟩ : ∃ first, (m.privates l).find?
            (fun p => kebabCase p.1 == kebabCase own.1) = some first :=
          Option.isSome_iff_exists.1 (find?_isSome.2 ⟨p, hp, by simpa using heq⟩)
        have hname : first.1 = own.1 := by simpa [conflict?, hr, hfirst] using hfree
        have hmem := mem_of_find?_eq_some hfirst
        have hvalue : m.constant? own.1 = some ⟨own.2, false⟩ :=
          constant?_of_mem_privates (show own ∈ m.privates [r] by simp [privates, hr])
        rw [hl p hp first hmem (heq.trans (congrArg kebabCase hname.symm))]
        exact eq_of_mem_privates hmem hname hvalue
      intro p hp q hq heq
      simp only [privates, filterMap_append, filterMap_cons, hr, filterMap_nil,
        mem_append, mem_singleton] at hp hq
      rcases hp with hp | rfl <;> rcases hq with hq | rfl
      · exact hl p hp q hq heq
      · exact hown p hp heq
      · exact (hown q hq heq.symm).symm
      · rfl

theorem fault?_eq_none_iff : m.fault? strict before r = none ↔
    (strict → m.missing? r = none) ∧ m.conflict? before r = none := by
  cases strict <;> simp [fault?]

/-- Somewhere in a list an interpolation is at fault if one without a constant is not let pass, or if
two private constants have one custom property. -/
theorem exists_fault_iff {l} :
    (∃ before r after, l = before ++ r :: after ∧ (m.fault? strict before r).isSome) ↔
      (strict ∧ ∃ r ∈ l, (m.missing? r).isSome) ∨
      ∃ p ∈ m.privates l, ∃ q ∈ m.privates l, p.1 ≠ q.1 ∧ kebabCase p.1 = kebabCase q.1 := by
  simp only [Option.isSome_iff_ne_none, ne_eq, fault?_eq_none_iff]
  constructor
  · rintro ⟨before, r, after, rfl, hfault⟩
    have hr : r ∈ before ++ r :: after := by simp
    by_cases hmissing : strict ∧ m.missing? r ≠ none
    · exact .inl ⟨hmissing.1, r, hr, hmissing.2⟩
    · obtain ⟨e, he⟩ : ∃ e, m.conflict? before r = some e :=
        Option.ne_none_iff_exists'.1 fun hnone => hfault ⟨by simpa using hmissing, hnone⟩
      obtain ⟨-, own, hown, first, _, hne, heq⟩ := exists_of_conflict? he
      have hmem : first ∈ m.privates (before ++ r :: after) := by simp_all [privates]
      exact .inr ⟨first, hmem, own, mem_filterMap.2 ⟨r, hr, hown⟩, hne, heq⟩
  · rintro (⟨hstrict, r, hr, hmissing⟩ | ⟨p, hp, q, hq, hne, heq⟩)
    · obtain ⟨before, after, hl⟩ := append_of_mem hr
      exact ⟨before, r, after, hl, fun hnone => hmissing (hnone.1 hstrict)⟩
    · by_contra hfree
      refine hne (congrArg Prod.fst (eq_of_kebabCase_eq (fun x y z hx => ?_) p hp q hq heq))
      by_contra hconflict
      exact hfree ⟨x, y, z, hx, fun hnone => hconflict hnone.2⟩

theorem fault?_false_eq_some_iff :
    m.fault? false before r = some e ↔ m.fault? true before r = some e ∧ e.isConflict := by
  cases hmissing : m.missing? r with
  | none => simpa [fault?, hmissing] using fun h => (exists_of_conflict? h).1
  | some =>
    obtain ⟨hfalse, -, hprivate⟩ := written_of_missing hmissing
    simp only [fault?, hmissing, conflict?, hprivate]
    constructor
    · rintro ⟨⟩
    · rintro ⟨⟨rfl⟩, htrue⟩
      simp [hfalse] at htrue

theorem flattenTemplate_outcome (m : Module) (strict : Bool) :
    (∀ e, flattenTemplate m strict = .error e ↔ FirstFault (m.fault? strict) m.reached e) ∧
    ∀ flat, flattenTemplate m strict = .ok flat →
      flat = ⟨interleave m.template.segments (m.template.references.map m.written),
        (m.owned m.reached).map (·.property)⟩ := by
  exact map_outcome _ (interpolate_owned [] m.template.segments m.template.references)

theorem no_fault_of_ok {flat} (h : flattenTemplate m strict = .ok flat)
    {after} (hreached : m.reached = before ++ r :: after) :
    m.fault? strict before r = none := by
  by_contra hfault
  obtain ⟨e, he⟩ := exists_firstFault_iff.2
    ⟨before, r, after, hreached, Option.isSome_iff_ne_none.2 hfault⟩
  have herror := ((flattenTemplate_outcome m strict).1 e).2 he
  simp [h] at herror

end Module

/-- A template is flattened to its segments, each followed by what its interpolation stands for, and
the custom properties of the private constants among these in the order of their first references,
with no name twice. This fails with the first fault: an interpolation without a constant, which
only strict mode refuses, or two private constants with one custom property. What strict mode
gives, and the conflict that it finds first, lenient mode gives too. -/
theorem flattenTemplate_exact (m : Module) (strict : Bool) :
    (∀ flat, flattenTemplate m strict = .ok flat →
      flat.text = interleave m.template.segments (m.template.references.map m.written) ∧
      flat.customProperties = (m.owned m.reached).map (·.property) ∧
      (flat.customProperties.map (·.name)).Nodup) ∧
    (∀ e, flattenTemplate m strict = .error e ↔ FirstFault (m.fault? strict) m.reached e) ∧
    ((∃ e, flattenTemplate m strict = .error e) ↔
      (strict ∧ ∃ r ∈ m.reached, (m.missing? r).isSome) ∨
      ∃ p ∈ m.privates m.reached, ∃ q ∈ m.privates m.reached,
        p.1 ≠ q.1 ∧ kebabCase p.1 = kebabCase q.1) ∧
    (∀ flat, flattenTemplate m true = .ok flat → flattenTemplate m false = .ok flat) ∧
    ∀ e, e.isConflict → flattenTemplate m true = .error e → flattenTemplate m false = .error e := by
  obtain ⟨herror, hok⟩ := m.flattenTemplate_outcome strict
  refine ⟨fun flat hflat => ?_, herror, ?_, fun flat hflat => ?_, fun e he hfails => ?_⟩
  · obtain rfl := hok flat hflat
    refine ⟨rfl, rfl, ?_⟩
    have hinjective := Module.eq_of_kebabCase_eq fun x y z hx =>
      (Module.fault?_eq_none_iff.1 (Module.no_fault_of_ok hflat hx)).2
    have hnames : ((m.owned m.reached).map (·.property)).map (·.name) =
        (m.privates m.reached).eraseDups.map fun p => kebabCase p.1 := by
      simp [Module.owned]
    rw [hnames]
    exact .map_on (fun p hp q hq => hinjective p (List.mem_eraseDups.1 hp) q
      (List.mem_eraseDups.1 hq)) (nodup_eraseDups _)
  · simp only [herror, exists_firstFault_iff]
    exact Module.exists_fault_iff
  · cases hlenient : flattenTemplate m false with
    | error e =>
      obtain ⟨before, r, after, hreached, hfault, -⟩ := ((m.flattenTemplate_outcome _).1 e).1 hlenient
      have hnone := Module.no_fault_of_ok hflat hreached
      simp [(Module.fault?_false_eq_some_iff.1 hfault).1] at hnone
    | ok other =>
      rw [(m.flattenTemplate_outcome _).2 other hlenient, (m.flattenTemplate_outcome _).2 flat hflat]
  · rw [(m.flattenTemplate_outcome _).1] at hfails ⊢
    obtain ⟨before, r, after, hreached, hfault, hbefore⟩ := hfails
    refine ⟨before, r, after, hreached, Module.fault?_false_eq_some_iff.2 ⟨hfault, he⟩, ?_⟩
    intro x y z hx
    exact Module.fault?_eq_none_iff.2 ⟨by simp, (Module.fault?_eq_none_iff.1 (hbefore x y z hx)).2⟩

end Sveltify.Style
