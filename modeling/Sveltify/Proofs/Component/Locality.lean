import Mathlib.Data.List.Pairwise
import Sveltify.Proofs.Component.Meaning
import Sveltify.Proofs.Component.Rendering
import Sveltify.Proofs.Source.Splice

/-! Rewriting is local. In a part without updates, bound methods and declarations that only feed the
symbol table, the members that stand for variables and the names of the props are replaced, and all
else is copied as it stands in the source. -/

namespace Sveltify

open List hiding span
open Script (Node Kind)
open Script.Tree Draft
open Visit (memberReplacement?)

namespace Script.Tree

/-! Where the parts of a node lie. Only members and identifiers may be replaced, so it is their ranges
that have to be laid out well; other nodes have ranges that overlap, as a function's range starts
before its name. -/

def spot? (n : Node) : Option Span :=
  match n.kind with
  | .member | .ident _ => some n.span
  | _ => none

mutual

def spots : Node → List Span
  | .node l kind span kids => (spot? (.node l kind span kids)).toList ++ spotsAll kids

def spotsAll : List Node → List Span
  | [] => []
  | n :: ns => spots n ++ spotsAll ns

end

/-- A member lies around its parts, and a type stands inside the range of the name it belongs to or
outside of it. -/
def nestedAt (n : Node) : Bool :=
  match n.kind, n.kids with
  | .member, kids => decide n.span.Filled && n.span.surrounds (spotsAll kids)
  | .ident _, kids => decide n.span.Filled &&
      (n.span.surrounds (spotsAll kids) || Span.allApart [n.span] (spotsAll kids))
  | .this, kids => (spotsAll kids).isEmpty
  | .switchCase, [_, body] => body.spot?.isNone
  | _, _ => true

mutual

/-- Parts lie in the node that they are parts of, and apart from one another. -/
def nested : Node → Bool
  | .node l kind span kids => nestedAt (.node l kind span kids) && nestedAll kids

def nestedAll : List Node → Bool
  | [] => true
  | n :: ns => nested n && Span.allApart (spots n) (spotsAll ns) && nestedAll ns

end

/-- The node lies in the source as a reader leaves it: its parts are nested, and ranges fall on
characters. -/
structure LaidOut (source : Source) (n : Node) : Prop where
  nested : n.nested
  inside : n.span.encloses n.spots
  ordered : n.span.start ≤ n.span.stop
  characters : (n.span :: n.spots).all fun r => source.isBoundary r.start && source.isBoundary r.stop

instance (source : Source) (n : Node) : Decidable (n.LaidOut source) :=
  decidable_of_iff (_ ∧ _ ∧ _ ∧ _)
    ⟨fun h => ⟨h.1, h.2.1, h.2.2.1, h.2.2.2⟩, fun h => ⟨h.1, h.2, h.3, h.4⟩⟩

theorem spots_eq (n : Node) : n.spots = n.spot?.toList ++ spotsAll n.kids := by
  cases n
  rfl

variable {n m : Node} {r : Span}

theorem mem_spotsAll {ns} : r ∈ spotsAll ns ↔ ∃ n ∈ ns, r ∈ n.spots := by
  induction ns with
  | nil => simp [spotsAll]
  | cons n _ ih => simp [spotsAll, ih]

theorem mem_spots_of_within (h : m.Within n) (hr : r ∈ m.spots) : r ∈ n.spots := by
  induction h with
  | self => exact hr
  | kid hk _ ih =>
    rw [spots_eq]
    exact mem_append_right _ (mem_spotsAll.2 ⟨_, hk, ih⟩)

theorem mem_spotsAll_of_inside (h : m.Inside n) (hr : r ∈ m.spots) : r ∈ spotsAll n.kids := by
  obtain ⟨k, hk, hm⟩ := h
  exact mem_spotsAll.2 ⟨k, hk, mem_spots_of_within hm hr⟩

theorem nested_eq (n : Node) : n.nested = (nestedAt n && nestedAll n.kids) := by
  cases n
  rfl

/-- All members and identifiers of the one node lie apart from all of the other. -/
def SpotsApart (m n : Node) : Prop :=
  ∀ r ∈ m.spots, ∀ r' ∈ n.spots, r.Apart r'

instance : Std.Symm SpotsApart :=
  ⟨fun _ _ h r hr r' hr' => (h r' hr' r hr).symm⟩

theorem nestedAll_iff {ns} :
    nestedAll ns ↔ (∀ n ∈ ns, n.nested) ∧ ns.Pairwise SpotsApart := by
  induction ns with
  | nil => simp [nestedAll]
  | cons n _ ih =>
    simp only [nestedAll, Bool.and_eq_true, ih, allApart_iff, mem_spotsAll, mem_cons,
      forall_eq_or_imp, pairwise_cons]
    constructor
    · rintro ⟨⟨hn, hapart⟩, hns, hpair⟩
      exact ⟨⟨hn, hns⟩, fun m hm r hr r' hr' => hapart r hr r' ⟨m, hm, hr'⟩, hpair⟩
    · rintro ⟨⟨hn, hns⟩, hapart, hpair⟩
      exact ⟨⟨hn, fun r hr r' ⟨m, hm, hr'⟩ => hapart m hm r hr r' hr'⟩, hns, hpair⟩

theorem Within.nested (h : m.Within n) (hn : n.nested) : m.nested := by
  induction h with
  | self => exact hn
  | kid hk _ ih =>
    rw [nested_eq, Bool.and_eq_true] at hn
    exact ih ((nestedAll_iff.1 hn.2).1 _ hk)

theorem nestedAt_of_nested (h : n.nested) : nestedAt n := by
  rw [nested_eq, Bool.and_eq_true] at h
  exact h.1

/-- A spot is not empty, and it lies around all spots in it or apart from them. -/
theorem spot_spec (h : n.spot? = some r) (hn : n.nested) :
    r = n.span ∧ r.Filled ∧ ((∀ r' ∈ spotsAll n.kids, r.contains r' ∧ r' ≠ r) ∨
      n.kind ≠ .member ∧ ∀ r' ∈ spotsAll n.kids, r.Apart r') := by
  have hat := nestedAt_of_nested hn
  obtain ⟨⟨⟩, kind, span, _⟩ := n
  cases kind
  case member =>
    obtain rfl : span = r := by simpa [spot?] using h
    simp only [nestedAt, kind_node, Bool.and_eq_true, surrounds_iff] at hat
    exact ⟨rfl, of_decide_eq_true hat.1, .inl hat.2⟩
  case ident name =>
    obtain rfl : span = r := by simpa [spot?] using h
    simp only [nestedAt, kind_node, Bool.and_eq_true, Bool.or_eq_true,
      surrounds_iff, allApart_iff, mem_singleton, forall_eq] at hat
    exact ⟨rfl, of_decide_eq_true hat.1, hat.2.imp id fun hapart => ⟨by simp, hapart⟩⟩
  all_goals simp [spot?] at h

theorem filled_of_mem_spots (hn : n.nested) (h : r ∈ n.spots) : r.Filled := by
  induction n using inside_induction with
  | h n ih =>
    rw [spots_eq, mem_append] at h
    rcases h with h | h
    · exact (spot_spec (by simpa using h) hn).2.1
    · obtain ⟨k, hk, hr⟩ := mem_spotsAll.1 h
      have hin : k.Inside n := inside_of_mem_kids hk
      exact ih k hin (hin.within.nested hn) hr

theorem inside_or_apart {a r'} (hn : n.nested) (ha : a.Within n) (hm : m.Within n)
    (hr : a.spot? = some r) (hr' : m.spot? = some r') :
    a = m ∨ a.Inside m ∨ m.Inside a ∨ r.Apart r' := by
  have hra : r ∈ a.spots := by simp [spots_eq, hr]
  have hrm : r' ∈ m.spots := by simp [spots_eq, hr']
  induction n using inside_induction with
  | h n ih =>
    rcases ha with _ | ⟨hk, hak⟩
    · rcases hm with _ | ⟨hk, hmk⟩
      · exact .inl rfl
      · exact .inr (.inr (.inl ⟨_, hk, hmk⟩))
    rcases hm with _ | ⟨hk', hmk⟩
    · exact .inr (.inl ⟨_, hk, hak⟩)
    rename_i k k'
    have hkin : k.Inside n := inside_of_mem_kids hk
    by_cases hkk : k = k'
    · subst hkk
      exact ih k hkin (hkin.within.nested hn) hak hmk
    · rw [nested_eq, Bool.and_eq_true] at hn
      have hapart : SpotsApart k k' := (nestedAll_iff.1 hn.2).2.forall hk hk' hkk
      exact .inr (.inr (.inr (hapart r (mem_spots_of_within hak hra) r'
        (mem_spots_of_within hmk hrm))))

end Script.Tree

/-! What is replaced. -/

namespace Draft

/-- What takes the place of a member that stands for a variable, or of the name of the variable that
holds the props. -/
def replacement? (d : Draft) (n : Node) : Option Text :=
  match n.kind with
  | .member => (memberReplacement? d n).map fun r => r.1.toList
  | .ident name => if d.scope.propsBag == some name then some "$$props".toList else none
  | _ => none

/-- `m` stands in `n` and is replaced, and no replaced node around it covers it. -/
structure Outermost (d : Draft) (n m : Node) : Prop where
  within : m.Within n
  replaced : (d.replacement? m).isSome
  uncovered : ∀ a, a.Within n → m.Inside a → (d.replacement? a).isSome →
    a.span.contains m.span = false

/-- The text of a node in which exactly its outermost replaced nodes are replaced, and all that lies
between them is copied. -/
def Rewritten (d : Draft) (source : Source) (n : Node) (text : Text) : Prop :=
  ∃ es : List Edit, (es.Pairwise fun e f => e.span.stop ≤ f.span.start) ∧
    (∀ e, e ∈ es ↔ ∃ m, d.Outermost n m ∧ e.span = m.span ∧ d.replacement? m = some e.text) ∧
    source.splice n.span (es.map source.unchanged) = source.slice n.span ∧
    source.splice n.span es = text

/-- The node is no update of the state, binds no method and does not only feed the symbol table. -/
def isPlain (d : Draft) (n : Node) : Bool :=
  match n.kind with
  | .call => !Visit.isUpdateCall n && (Visit.boundMethod? n).isNone &&
      (Visit.setVariable? d n).isNone
  | .variableDecl _ => !Walk.consumes d.scope n.kids
  | _ => true

/-- What a walk records at a node, where `inner` is recorded in its parts: these are not visited in a
member that is replaced. -/
def recorded (d : Draft) (n : Node) (inner : List Edit) : List Edit :=
  match d.replacement? n, n.kind with
  | none, _ => inner
  | some text, .member => [⟨n.span, text⟩]
  | some text, _ => ⟨n.span, text⟩ :: inner

mutual

def replacements (d : Draft) : Node → List Edit
  | .node l kind span kids => d.recorded (.node l kind span kids) (replacementsAll d kids)

def replacementsAll (d : Draft) : List Node → List Edit
  | [] => []
  | n :: ns => replacements d n ++ replacementsAll d ns

end

variable {d : Draft} {n m : Node}

theorem replacement?_member (h : n.kind = .member) :
    d.replacement? n = (memberReplacement? d n).map fun r => r.1.toList := by
  rw [replacement?, h]

theorem replacement?_ident {name} (h : n.kind = .ident name) : d.replacement? n =
    if d.scope.propsBag == some name then some "$$props".toList else none := by
  rw [replacement?, h]

theorem replacements_eq (n : Node) :
    d.replacements n = d.recorded n (d.replacementsAll n.kids) := by
  cases n
  rfl

theorem replacementsAll_eq (ns : List Node) : d.replacementsAll ns = ns.flatMap d.replacements := by
  induction ns with
  | nil => rfl
  | cons n _ ih => rw [replacementsAll, ih, flatMap_cons]

theorem replacements_none (h : d.replacement? n = none) :
    d.replacements n = d.replacementsAll n.kids := by
  rw [replacements_eq, recorded, h]

variable {text : Text} {e : Edit}

theorem replacements_member (hk : n.kind = .member) (h : d.replacement? n = some text) :
    d.replacements n = [⟨n.span, text⟩] := by
  rw [replacements_eq, recorded, h, hk]

theorem replacements_ident {name} (hk : n.kind = .ident name) (h : d.replacement? n = some text) :
    d.replacements n = ⟨n.span, text⟩ :: d.replacementsAll n.kids := by
  rw [replacements_eq, recorded, h, hk]

theorem kind_of_replacement? (h : d.replacement? n = some text) :
    n.kind = .member ∨ ∃ name, n.kind = .ident name := by
  unfold replacement? at h
  split at h
  · next hk => exact .inl hk
  · next name hk => exact .inr ⟨name, hk⟩
  · contradiction

theorem spot?_of_replacement? (h : (d.replacement? n).isSome) : n.spot? = some n.span := by
  obtain ⟨_, h⟩ := Option.isSome_iff_exists.1 h
  unfold spot?
  rcases kind_of_replacement? h with hk | ⟨_, hk⟩
  all_goals rw [hk]

theorem replacements_of_some (h : d.replacement? n = some text) :
    ∃ rest, d.replacements n = ⟨n.span, text⟩ :: rest ∧ rest ⊆ d.replacementsAll n.kids := by
  rcases kind_of_replacement? h with hk | ⟨_, hk⟩
  · exact ⟨[], replacements_member hk h, nil_subset _⟩
  · exact ⟨_, replacements_ident hk h, List.Subset.refl _⟩

theorem mem_replacements_of_kid (h : n.kind ≠ .member ∨ d.replacement? n = none) {k}
    (hk : k ∈ n.kids) (he : e ∈ d.replacements k) : e ∈ d.replacements n := by
  have hall : e ∈ d.replacementsAll n.kids := by
    rw [replacementsAll_eq]
    exact mem_flatMap.2 ⟨k, hk, he⟩
  cases hr : d.replacement? n with
  | none => rwa [replacements_none hr]
  | some =>
    rcases kind_of_replacement? hr with hkind | ⟨_, hkind⟩
    · simp [hkind, hr] at h
    · rw [replacements_ident hkind hr]
      exact mem_cons_of_mem _ hall

theorem exists_of_mem_replacements (h : e ∈ d.replacements n) :
    ∃ m, m.Within n ∧ e.span = m.span ∧ d.replacement? m = some e.text := by
  induction n using inside_induction with
  | h n ih =>
    have hkids : e ∈ d.replacementsAll n.kids →
        ∃ m, m.Within n ∧ e.span = m.span ∧ d.replacement? m = some e.text := by
      intro he
      rw [replacementsAll_eq] at he
      obtain ⟨k, hk, he⟩ := mem_flatMap.1 he
      obtain ⟨m, hm, hspan, htext⟩ := ih k (inside_of_mem_kids hk) he
      exact ⟨m, .kid hk hm, hspan, htext⟩
    cases hr : d.replacement? n with
    | none => exact hkids (by rwa [← replacements_none hr])
    | some =>
      obtain ⟨_, heq, hrest⟩ := replacements_of_some hr
      rw [heq] at h
      rcases mem_cons.1 h with rfl | h
      · exact ⟨n, .self, rfl, hr⟩
      · exact hkids (hrest h)

theorem mem_spots_of_mem_replacements (h : e ∈ d.replacements n) : e.span ∈ n.spots := by
  obtain ⟨m, hm, hspan, htext⟩ := exists_of_mem_replacements h
  refine mem_spots_of_within hm ?_
  rw [spots_eq, spot?_of_replacement? (d := d) (by simp [htext]), hspan]
  simp

theorem nested_of_mem_replacements (hn : n.nested) {f} (he : e ∈ d.replacements n)
    (hf : f ∈ d.replacements n) : EditSet.Nested e f := by
  obtain ⟨a, ha, hea, hra⟩ := exists_of_mem_replacements he
  obtain ⟨m, hm, hfm, hrm⟩ := exists_of_mem_replacements hf
  have hspota := spot?_of_replacement? (d := d) (n := a) (by simp [hra])
  have hspotm := spot?_of_replacement? (d := d) (n := m) (by simp [hrm])
  have hin : ∀ {x y : Node}, x.Within n → y.spot? = some y.span → x.spot? = some x.span →
      y.Inside x → x.span.contains y.span ∨ x.span.Apart y.span := by
    intro x y hx hy hxs hyx
    have hmem : y.span ∈ spotsAll x.kids := mem_spotsAll_of_inside hyx (by simp [spots_eq, hy])
    rcases (spot_spec hxs (hx.nested hn)).2.2 with h | h
    · exact .inl (h _ hmem).1
    · exact .inr (h.2 _ hmem)
  unfold EditSet.Nested
  rw [hea, hfm]
  rcases inside_or_apart hn ha hm hspota hspotm with rfl | h | h | h
  · exact .inr (.inl (Span.contains_self _))
  · rcases hin hm hspota hspotm h with h | h
    · exact .inr (.inl h)
    · exact .inl h.symm
  · rcases hin ha hspotm hspota h with h | h
    · exact .inr (.inr h)
    · exact .inl h
  · exact .inl h

theorem pairwise_span_ne (hn : n.nested) :
    (d.replacements n).Pairwise fun e f => e.span ≠ f.span := by
  induction n using inside_induction with
  | h n ih =>
    have hkids : (d.replacementsAll n.kids).Pairwise fun e f => e.span ≠ f.span := by
      have hall := hn
      rw [nested_eq, Bool.and_eq_true, nestedAll_iff] at hall
      rw [replacementsAll_eq, pairwise_flatMap]
      refine ⟨fun k hk => ih k (inside_of_mem_kids hk) (hall.2.1 k hk), ?_⟩
      refine hall.2.2.imp_of_mem fun {k k'} _ hk' hapart e he f hf heq => ?_
      have happ := hapart _ (mem_spots_of_mem_replacements he) _ (mem_spots_of_mem_replacements hf)
      have hfilled := filled_of_mem_spots (hall.2.1 k' hk') (mem_spots_of_mem_replacements hf)
      rw [heq] at happ
      unfold Span.Apart at happ
      unfold Span.Filled at hfilled
      omega
    cases hr : d.replacement? n with
    | none => rwa [replacements_none hr]
    | some =>
      rcases kind_of_replacement? hr with hk | ⟨_, hk⟩
      · rw [replacements_member hk hr]
        exact pairwise_singleton _ _
      · rw [replacements_ident hk hr, pairwise_cons]
        refine ⟨fun e he heq => ?_, hkids⟩
        have hmem : e.span ∈ spotsAll n.kids := by
          rw [replacementsAll_eq] at he
          obtain ⟨k, hk, he⟩ := mem_flatMap.1 he
          exact mem_spotsAll.2 ⟨k, hk, mem_spots_of_mem_replacements he⟩
        obtain ⟨-, hfilled, h | h⟩ := spot_spec (spot?_of_replacement? (d := d) (by simp [hr])) hn
        · exact (h _ hmem).2 heq.symm
        · have happ := h.2 _ hmem
          rw [← heq] at happ
          unfold Span.Apart at happ
          unfold Span.Filled at hfilled
          simp only at happ
          omega

theorem exists_covering (hn : n.nested) (hm : m.Within n) (h : (d.replacement? m).isSome) :
    ∃ e ∈ d.replacements n, e.span.contains m.span := by
  induction hm with
  | self =>
    obtain ⟨text, hr⟩ := Option.isSome_iff_exists.1 h
    obtain ⟨_, heq, -⟩ := replacements_of_some hr
    exact ⟨⟨m.span, text⟩, by simp [heq], Span.contains_self _⟩
  | @kid n k hk hm ih =>
    by_cases hpass : n.kind ≠ .member ∨ d.replacement? n = none
    · obtain ⟨e, he, hcovers⟩ := ih ((Within.kid hk .self).nested hn)
      exact ⟨e, mem_replacements_of_kid hpass hk he, hcovers⟩
    · simp only [not_or, not_not, Option.ne_none_iff_exists'] at hpass
      obtain ⟨hkind, text, hr⟩ := hpass
      refine ⟨⟨n.span, text⟩, by simp [replacements_member hkind hr], ?_⟩
      obtain ⟨-, -, hin | hin⟩ := spot_spec (spot?_of_replacement? (d := d) (by simp [hr])) hn
      · have hmem : m.span ∈ spotsAll n.kids :=
          mem_spotsAll_of_inside ⟨k, hk, hm⟩ (by simp [spots_eq, spot?_of_replacement? h])
        exact (hin _ hmem).1
      · exact absurd hkind hin.1

theorem Outermost.of_kid {k} (h : d.Outermost n m) (hk : k ∈ n.kids) (hm : m.Within k) :
    d.Outermost k m :=
  ⟨hm, h.replaced, fun a ha => h.uncovered a (.kid hk ha)⟩

theorem Outermost.mem_replacements (hn : n.nested) (h : d.Outermost n m)
    (hr : d.replacement? m = some text) : ⟨m.span, text⟩ ∈ d.replacements n := by
  have hwithin := h.within
  induction hwithin with
  | self =>
    obtain ⟨_, heq, -⟩ := replacements_of_some hr
    simp [heq]
  | @kid n k hk hm ih =>
    have hpass : n.kind ≠ .member ∨ d.replacement? n = none := by
      by_contra hmember
      simp only [not_or, not_not, Option.ne_none_iff_isSome] at hmember
      have hfree := h.uncovered n .self ⟨k, hk, hm⟩ hmember.2
      have hmem : m.span ∈ spotsAll n.kids :=
        mem_spotsAll_of_inside ⟨k, hk, hm⟩ (by simp [spots_eq, spot?_of_replacement? h.replaced])
      obtain ⟨-, -, hin | hin⟩ := spot_spec (spot?_of_replacement? hmember.2) hn
      · rw [(hin _ hmem).1] at hfree
        contradiction
      · exact hin.1 hmember.1
    exact mem_replacements_of_kid hpass hk
      (ih ((Within.kid hk .self).nested hn) (h.of_kid hk hm))

/-- The recorded replacements that no other covers are those of the outermost replaced nodes. -/
theorem mem_outer_iff (hn : n.nested) :
    (e ∈ d.replacements n ∧ EditSet.isOuter (d.replacements n) e) ↔
      ∃ m, d.Outermost n m ∧ e.span = m.span ∧ d.replacement? m = some e.text := by
  constructor
  · rintro ⟨he, houter⟩
    obtain ⟨m, hm, hspan, hr⟩ := exists_of_mem_replacements he
    have hspot := spot?_of_replacement? (d := d) (n := m) (by simp [hr])
    refine ⟨m, ⟨hm, by simp [hr], fun a ha hma hra => ?_⟩, hspan, hr⟩
    rw [Bool.eq_false_iff]
    intro hcovers
    -- The replacement that covers `a` covers `m` too, and it is longer.
    obtain ⟨f, hf, hfa⟩ := exists_covering hn ha hra
    have hfm : f.span = m.span := by
      rw [← hspan]
      refine EditSet.isOuter_iff.1 houter f hf ?_
      rw [hspan]
      exact Span.contains_trans hfa hcovers
    have heq : a.span = m.span := Span.contains_antisymm hcovers (hfm ▸ hfa)
    have hmem : m.span ∈ spotsAll a.kids := mem_spotsAll_of_inside hma (by simp [spots_eq, hspot])
    obtain ⟨-, hfilled, hin | hin⟩ := spot_spec (spot?_of_replacement? hra) (ha.nested hn)
    · exact (hin _ hmem).2 heq.symm
    · have := (hin.2 _ hmem).not_contains (heq ▸ hfilled)
      rw [hcovers] at this
      contradiction
  · rintro ⟨m, hm, hspan, hr⟩
    obtain ⟨span, _⟩ := e
    obtain rfl : span = m.span := hspan
    have hspot := spot?_of_replacement? hm.replaced
    have hfilled := (spot_spec hspot (hm.within.nested hn)).2.1
    refine ⟨hm.mem_replacements hn hr, EditSet.isOuter_iff.2 fun f hf hcovers => ?_⟩
    obtain ⟨a, ha, hfa, hra⟩ := exists_of_mem_replacements hf
    have hspota := spot?_of_replacement? (d := d) (n := a) (by simp [hra])
    rw [hfa] at hcovers ⊢
    rcases inside_or_apart hn ha hm.within hspota hspot with rfl | h | h | h
    · rfl
    · have hmem : a.span ∈ spotsAll m.kids := mem_spotsAll_of_inside h (by simp [spots_eq, hspota])
      rcases (spot_spec hspot (hm.within.nested hn)).2.2 with hin | hin
      · exact Span.contains_antisymm hcovers (hin _ hmem).1
      · have := (hin.2 _ hmem).symm.not_contains hfilled
        rw [hcovers] at this
        contradiction
    · have := hm.uncovered a ha h (by simp [hra])
      rw [hcovers] at this
      contradiction
    · have := h.not_contains hfilled
      rw [hcovers] at this
      contradiction

def isWalked (d : Draft) (n : Node) : Bool :=
  match n.kind, n.kids with
  | .this, kids => (d.replacementsAll kids).isEmpty
  | .switchCase, [_, body] => (d.replacement? body).isNone
  | _, _ => true

theorem isWalked_of_nested (hn : n.nested) : n.every d.isWalked := by
  induction n using inside_induction with
  | h n ih =>
    refine every_node_iff.2 ⟨?_, fun k hk => ?_⟩
    · have hat := nestedAt_of_nested hn
      unfold nestedAt at hat
      unfold isWalked
      split
      · next hk =>
        simp only [hk, List.isEmpty_iff, eq_nil_iff_forall_not_mem] at hat ⊢
        intro e he
        rw [replacementsAll_eq] at he
        obtain ⟨k, hk, he⟩ := mem_flatMap.1 he
        exact hat _ (mem_spotsAll.2 ⟨k, hk, mem_spots_of_mem_replacements he⟩)
      · next test body hk hkids =>
        simp only [hk, hkids] at hat
        rw [Option.isNone_iff_eq_none, Option.eq_none_iff_forall_ne_some]
        intro _ hr
        rw [spot?_of_replacement? (d := d) (by simp [hr])] at hat
        contradiction
      · rfl
    · exact ih k (inside_of_mem_kids hk) ((Within.kid hk .self).nested hn)

variable {d' : Draft}

theorem Alike.replacement? (h : Alike d d') (n : Node) : d'.replacement? n = d.replacement? n := by
  have hmember : (memberReplacement? d' n).map Prod.fst =
      (memberReplacement? d n).map Prod.fst := by
    cases hobject : n.memberObject? with
    | none => simp [memberReplacement?, hobject]
    | some => rw [memberReplacement?_place? hobject, memberReplacement?_place? hobject, h.place?]
  have htext := congrArg (Option.map String.toList) hmember
  simp only [Option.map_map] at htext
  unfold Draft.replacement?
  split
  · exact htext
  · rw [h.propsBag]
  · rfl

theorem Alike.isPlain (h : Alike d d') (n : Node) : d'.isPlain n = d.isPlain n := by
  unfold Draft.isPlain
  rw [h.setVariable?, Walk.consumes_congr h.propsBag]

theorem isPlain_call (h : n.kind = .call) : d.isPlain n = (!Visit.isUpdateCall n &&
    (Visit.boundMethod? n).isNone && (Visit.setVariable? d n).isNone) := by
  rw [Draft.isPlain, h]

theorem calm_of_isPlain (h : n.every d.isPlain) : Walk.calm d.scope n := by
  refine every_imp (fun m hm => ?_) h
  unfold Walk.calmAt
  unfold isPlain at hm
  split
  · next hk => rwa [hk] at hm
  · rfl

end Draft

namespace Walk

variable {source : Source} {d : Draft}

/-- Between the walks the replacements `es` are recorded, and nothing is deferred. -/
structure Records (d : Draft) (w w' : Walk) (es : List Edit) : Prop where
  alike : d.Alike w'.draft
  deferred : w'.deferred = []
  edits : w'.edits.edits = w.edits.edits ++ es

variable {w : Walk} {n : Node}

theorem records_foldl {g ns} (h : ∀ n ∈ ns, ∀ w : Walk, d.Alike w.draft → w.deferred = [] →
      Records d w (g w n) (d.replacements n))
    (hw : d.Alike w.draft) (hdeferred : w.deferred = []) :
    Records d w (ns.foldl g w) (d.replacementsAll ns) := by
  induction ns generalizing w with
  | nil => exact ⟨hw, hdeferred, (append_nil _).symm⟩
  | cons n _ ih =>
    have hn := h n (by simp) w hw hdeferred
    have hns := ih (fun m hm => h m (by simp [hm])) hn.alike hn.deferred
    refine ⟨hns.alike, hns.deferred, ?_⟩
    rw [foldl_cons, hns.edits, hn.edits, append_assoc]
    rfl

theorem records_listed (h : ∀ w : Walk, d.Alike w.draft → w.deferred = [] →
      Records d w (w.visit source n) (d.replacements n))
    (hw : d.Alike w.draft) (hdeferred : w.deferred = []) :
    Records d w (w.listed source n) (d.replacements n) := by
  have hvisit := h (w.enter n.span) hw hdeferred
  have hleave : (((w.enter n.span).visit source n).leave source n.span) =
      { (w.enter n.span).visit source n with
        statements := ((w.enter n.span).visit source n).statements.tail } := by
    simp [leave, hvisit.deferred]
  rw [listed, hleave]
  exact ⟨hvisit.alike, hvisit.deferred, hvisit.edits⟩

theorem passes_of_isPlain (hr : d.replacement? n = none) (hp : n.every d.isPlain)
    (hblock : n.kind ≠ .block) (hthis : n.kind ≠ .this)
    (hcase : ∀ test body, n.kind = .switchCase → n.kids ≠ [test, body]) : passes d n := by
  have hroot := (every_node_iff.1 hp).1
  obtain ⟨⟨⟩, kind, span, kids⟩ := n
  cases kind
  case block => exact absurd rfl hblock
  case this => exact absurd rfl hthis
  case switchCase =>
    rcases kids with _ | ⟨test, _ | ⟨body, _ | ⟨other, rest⟩⟩⟩
    · rfl
    · rfl
    · exact absurd rfl (hcase test body rfl)
    · rfl
  case member =>
    rw [replacement?_member rfl, Option.map_eq_none_iff] at hr
    exact Option.isNone_iff_eq_none.2 hr
  case ident name =>
    rw [replacement?_ident rfl, ite_eq_right_iff] at hr
    change (d.scope.propsBag != some name)
    simpa using hr
  case call | variableDecl => exact hroot
  case expression =>
    rcases kids with _ | ⟨e, _ | ⟨_, _⟩⟩
    · rfl
    · have hwithin := unparen_within_statement () span e
      have hplain := hwithin.of_every hp
      change (!Visit.isUpdateCall e.unparen)
      rw [Bool.not_eq_true', Bool.eq_false_iff]
      intro hupdate
      rw [isPlain_call (Visit.kind_of_isUpdateCall hupdate), hupdate] at hplain
      simp at hplain
    · rfl
  all_goals rfl

theorem records_visit (hp : n.every d.isPlain) (hwalked : n.every d.isWalked)
    (hw : d.Alike w.draft) (hdeferred : w.deferred = []) :
    Records d w (w.visit source n) (d.replacements n) := by
  induction n using inside_induction generalizing w with
  | h n ih =>
    have hkid : ∀ k ∈ n.kids, ∀ w : Walk, d.Alike w.draft → w.deferred = [] →
        Records d w (w.visit source k) (d.replacements k) := fun k hk w hw hdeferred =>
      ih k (inside_of_mem_kids hk) ((every_node_iff.1 hp).2 k hk) ((every_node_iff.1 hwalked).2 k hk)
        hw hdeferred
    have halike : d.Alike (w.visit source n).draft := alike_visit hw (calm_of_isPlain hp)
    have hroot := (every_node_iff.1 hwalked).1
    cases hr : d.replacement? n with
    | some text =>
      have hr' : w.draft.replacement? n = some text := by rw [hw.replacement?, hr]
      rcases kind_of_replacement? hr with hk | ⟨name, hk⟩
      · -- The parts of a member that is replaced are not visited.
        rw [replacements_member hk hr]
        obtain ⟨⟨⟩, kind, span, kids⟩ := n
        obtain rfl : kind = .member := hk
        obtain ⟨⟨name, _⟩, hmember, rfl⟩ := Option.map_eq_some_iff.1 hr'
        refine ⟨halike, ?_, ?_⟩
        all_goals rw [visit_member hmember]
        · exact hdeferred
        · rfl
      · rw [replacements_ident hk hr]
        obtain ⟨⟨⟩, kind, span, kids⟩ := n
        obtain rfl : kind = .ident name := hk
        rw [replacement?_ident rfl, Option.ite_none_right_eq_some,
          Option.some.injEq] at hr'
        obtain ⟨hbag, rfl⟩ := hr'
        have hkids := records_foldl hkid (w := w.replace span "$$props".toList) hw hdeferred
        rw [visit_bag span kids (beq_iff_eq.1 hbag)]
        refine ⟨hkids.alike, hkids.deferred, hkids.edits.trans ?_⟩
        exact append_assoc _ _ _
    | none =>
      rw [replacements_none hr]
      by_cases hblock : n.kind = .block
      · obtain ⟨⟨⟩, kind, span, kids⟩ := n
        obtain rfl : kind = .block := hblock
        rw [visit_block]
        exact records_foldl (fun k hk w => records_listed (hkid k hk)) hw hdeferred
      by_cases hthis : n.kind = .this
      · obtain ⟨⟨⟩, kind, span, kids⟩ := n
        obtain rfl : kind = .this := hthis
        have hnone : d.replacementsAll kids = [] := List.isEmpty_iff.1 hroot
        rw [kids_node, hnone]
        refine ⟨halike, ?_, ?_⟩
        · exact hdeferred
        · exact (append_nil _).symm
      by_cases hcase : ∃ test body, n.kind = .switchCase ∧ n.kids = [test, body]
      · obtain ⟨test, body, hk, hkids⟩ := hcase
        obtain ⟨⟨⟩, kind, _, kids⟩ := n
        obtain rfl : kind = .switchCase := hk
        obtain rfl : kids = [test, body] := hkids
        have hbody : d.replacement? body = none := Option.isNone_iff_eq_none.1 hroot
        have htest := hkid test (by simp) w hw hdeferred
        have hinside : ∀ k ∈ body.kids, ∀ w : Walk, d.Alike w.draft → w.deferred = [] →
            Records d w (w.listed source k) (d.replacements k) := by
          intro k hk w
          have hin : k.Within body := .kid hk .self
          refine records_listed fun w => ?_
          exact ih k ⟨body, by simp, hin⟩ (hin.every ((every_node_iff.1 hp).2 body (by simp)))
            (hin.every ((every_node_iff.1 hwalked).2 body (by simp)))
        have hstatements := records_foldl hinside htest.alike htest.deferred
        rw [visit_switchCase]
        refine ⟨hstatements.alike, hstatements.deferred, ?_⟩
        rw [hstatements.edits, htest.edits]
        simp [replacementsAll, replacements_none hbody]
      · have hpasses : passes w.draft n := by
          refine passes_of_isPlain ?_ ?_ hblock hthis fun test body hk hkids => ?_
          · rw [hw.replacement?, hr]
          · exact every_imp (fun m hm => by rwa [hw.isPlain]) hp
          · exact hcase ⟨test, body, hk, hkids⟩
        rw [visit_of_passes hpasses]
        exact records_foldl hkid hw hdeferred

end Walk

theorem render_of_isPlain {source d n} (hp : n.every d.isPlain)
    (hwalked : n.every d.isWalked) : (render source (Part.ofNode source n) d).1 =
      EditSet.render ⟨d.replacements n⟩ source n.span := by
  have h : Walk.Records d { draft := d } (Walk.visit source { draft := d } n) (d.replacements n) :=
    Walk.records_visit hp hwalked (.refl d) rfl
  have hedits : (Walk.visit source { draft := d } n).edits = ⟨d.replacements n⟩ :=
    congrArg EditSet.mk h.edits
  rw [← hedits, ← span_relabel (Visit.ofNode source) n]
  rfl

/-- Rewriting is local: in a node without updates, bound methods and consumed declarations, exactly
the outermost members that stand for variables and names of the props are replaced, and every other
byte is copied from the source. -/
theorem render_rewritten {source : Source} {d : Draft} {n : Node} (hn : n.LaidOut source)
    (hp : n.every d.isPlain) : d.Rewritten source n (render source (Part.ofNode source n) d).1 := by
  have hspots : ∀ e ∈ d.replacements n, e.span ∈ n.spots := fun e he =>
    Draft.mem_spots_of_mem_replacements he
  have hfilled : ∀ e ∈ d.replacements n, e.span.Filled := fun e he =>
    filled_of_mem_spots hn.nested (hspots e he)
  have hinside : ∀ e ∈ d.replacements n, n.span.contains e.span := fun e he =>
    encloses_iff.1 hn.inside _ (hspots e he)
  have hbounds : ∀ r ∈ n.span :: n.spots, source.isBoundary r.start ∧ source.isBoundary r.stop := by
    simpa using hn.characters
  obtain ⟨hsorted, hrender⟩ := EditSet.render_eq_splice source hfilled hinside
    (fun e he f hf => Draft.nested_of_mem_replacements hn.nested he hf)
    (Draft.pairwise_span_ne hn.nested)
  have hmem : ∀ e, e ∈ EditSet.ordered ((d.replacements n).filter
      (EditSet.isOuter (d.replacements n))) ↔
        e ∈ d.replacements n ∧ EditSet.isOuter (d.replacements n) e := by
    intro e
    rw [EditSet.mem_ordered, List.mem_filter]
  refine ⟨_, hsorted, fun e => (hmem e).trans (Draft.mem_outer_iff hn.nested), ?_, ?_⟩
  · refine Source.splice_unchanged (fun e he => hinside e ((hmem e).1 he).1)
      (fun e he => hfilled e ((hmem e).1 he).1) hsorted hn.ordered (hbounds _ (by simp)) ?_
    exact fun e he => hbounds _ (List.mem_cons_of_mem _ (hspots e ((hmem e).1 he).1))
  · rw [← hrender, render_of_isPlain hp (Draft.isWalked_of_nested hn.nested)]

theorem render_rewritten_nested :
    let source : Source := .ofString ("switch (props.k) \x7b case 1: " ++
      "f(() => [this.props.a.b, 'é', props, this.box.current, r.current]); \x7d")
    let n := Script.firstStatement (String.ofList source.text)
    let d : Draft :=
      { symbols := { refs := ["box"] }, scope := { propsBag := some "props", hookRefs := ["r"] } }
    n.LaidOut source ∧ n.every d.isPlain ∧ d.Rewritten source n
      "switch (k) \x7b case 1: f(() => [a.b, 'é', $$props, box, r]); \x7d".toList := by
  intro source n d
  have hcheck : n.LaidOut source ∧ n.every d.isPlain ∧ (render source (Part.ofNode source n) d).1 =
      "switch (k) \x7b case 1: f(() => [a.b, 'é', $$props, box, r]); \x7d".toList := by
    decide +kernel
  exact ⟨hcheck.1, hcheck.2.1, hcheck.2.2 ▸ render_rewritten hcheck.1 hcheck.2.1⟩

end Sveltify
