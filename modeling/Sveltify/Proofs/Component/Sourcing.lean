import Sveltify.Proofs.Component.Bindings
import Sveltify.Proofs.Component.Code

/-! Every conversion of a part of a script takes steps. `Yields` says so of a conversion together with
a property of its answer, and has a rule for every way in which conversions are put together. -/

namespace Sveltify

open List
open Script (Node Kind)
open Script.Tree Draft SymbolTable Part

/-- A conversion takes steps from a draft, and answers something with the property `Q`. -/
def Conversion.Yields {α : Type} (source : Source) (p : Policy) (d : Draft) (c : Conversion α)
    (Q : α → Draft → Prop) : Prop :=
  d.Tied → d.Run source p (c.run d).2 ∧ Q (c.run d).1 (c.run d).2

abbrev Conversion.anything {α : Type} : α → Draft → Prop :=
  fun _ _ => True

namespace Conversion.Yields

variable {α β : Type} {source : Source} {p : Policy} {d : Draft}
variable {Q : α → Draft → Prop} {R : β → Draft → Prop}

theorem of_pure {a} (h : Q a d) : Yields source p d (pure a) Q :=
  fun _ => ⟨.refl, h⟩

theorem of_change {f} {Q : Unit → Draft → Prop} (h : Change source p d (f d))
    (hQ : Q () (f d)) : Yields source p d (modify f) Q :=
  fun _ => ⟨.single h, hQ⟩

theorem of_modifyGet {f} (h : Change source p d (f d).2)
    (hQ : Q (f d).1 (f d).2) : Yields source p d (modifyGet f) Q :=
  fun _ => ⟨.single h, hQ⟩

variable {f : α → Conversion β} {l : List α} {c : Conversion α}

theorem mono {Q' : α → Draft → Prop} (hc : Yields source p d c Q)
    (h : ∀ a d', d.Grows d' → Q a d' → Q' a d') : Yields source p d c Q' := by
  intro hd
  obtain ⟨hrun, hQ⟩ := hc hd
  exact ⟨hrun, h _ _ hrun.grows hQ⟩

theorem weaken (hc : Yields source p d c Q) : Yields source p d c anything :=
  hc.mono fun _ _ _ _ => trivial

theorem bind (hc : Yields source p d c Q)
    (hf : ∀ a d', d.Grows d' → Q a d' → Yields source p d' (f a) R) :
    Yields source p d (c >>= f) R := by
  intro hd
  obtain ⟨hrun, hQ⟩ := hc hd
  obtain ⟨hrun', hR⟩ := hf _ _ hrun.grows hQ (hrun.tied hd)
  exact ⟨hrun.trans hrun', hR⟩

theorem change_bind {f g} (h : Change source p d (f d))
    (hg : ∀ d', d.Grows d' → Yields source p d' (g ()) R) :
    Yields source p d (modify f >>= g) R :=
  bind (of_change (Q := fun _ _ => True) h trivial) fun _ d' hd _ => hg d' hd

theorem of_get {f} (h : Yields source p d (f d) R) : Yields source p d (get >>= f) R :=
  h

theorem pure_bind {a} (h : Yields source p d (f a) R) : Yields source p d (pure a >>= f) R :=
  h

theorem then_pure {b} (hc : Yields source p d c Q) (h : ∀ d', d.Grows d' → R b d') :
    Yields source p d (c *> pure b) R :=
  hc.bind fun _ d' hd _ => of_pure (h d' hd)

theorem and {S : α → Draft → Prop} (hc : Yields source p d c Q) (h : S (c.run d).1 (c.run d).2) :
    Yields source p d c fun a e => Q a e ∧ S a e :=
  fun hd => ⟨(hc hd).1, (hc hd).2, h⟩

theorem of_forM_keeping {f} {I : Draft → Prop} (hI : I d)
    (hQ : ∀ a d d', d.Grows d' → Q a d → Q a d')
    (h : ∀ a ∈ l, ∀ d', d.Grows d' → I d' → Yields source p d' (f a) fun _ e => I e ∧ Q a e) :
    Yields source p d (l.forM f) fun _ d' => ∀ a ∈ l, Q a d' := by
  induction l generalizing d with
  | nil => exact of_pure (by simp)
  | cons a l ih =>
    refine bind (h a (by simp) d (.refl d) hI) fun _ d' hd ha => ?_
    refine mono (ih ha.1 fun b hb e he => h b (by simp [hb]) e (hd.trans he))
      fun _ e he hrest b hb => ?_
    obtain rfl | hb := mem_cons.1 hb
    · exact hQ b d' e he ha.2
    · exact hrest b hb

theorem of_forM_each {f} (hQ : ∀ a d d', d.Grows d' → Q a d → Q a d')
    (h : ∀ a ∈ l, ∀ d', d.Grows d' → Yields source p d' (f a) fun _ => Q a) :
    Yields source p d (l.forM f) fun _ d' => ∀ a ∈ l, Q a d' :=
  of_forM_keeping (I := fun _ => True) trivial hQ fun a ha d' hd _ =>
    (h a ha d' hd).mono fun _ _ _ ha => ⟨trivial, ha⟩

theorem of_forM {f} (h : ∀ a ∈ l, ∀ d', d.Grows d' → Yields source p d' (f a) anything) :
    Yields source p d (l.forM f) anything :=
  (of_forM_each (fun _ _ _ _ h => h) h).mono fun _ _ _ _ => trivial

theorem of_mapM_each {S : α → β → Prop} (hR : ∀ b d d', d.Grows d' → R b d → R b d')
    (h : ∀ a ∈ l, ∀ d', d.Grows d' → Yields source p d' (f a) fun b e => R b e ∧ S a b) :
    Yields source p d (l.mapM f) fun bs d' => (∀ b ∈ bs, R b d') ∧ ∀ a ∈ l, ∃ b ∈ bs, S a b := by
  induction l generalizing d with
  | nil => exact of_pure (by simp)
  | cons a l ih =>
    rw [mapM_cons]
    refine bind (h a (by simp) d (.refl d)) fun b d' hd hb => ?_
    refine bind (ih fun c hc e he => h c (by simp [hc]) e (hd.trans he)) fun bs d'' hd' hbs => ?_
    refine of_pure ⟨fun c hc => ?_, fun c hc => ?_⟩
    · obtain rfl | hc := mem_cons.1 hc
      · exact hR c d' d'' hd' hb.1
      · exact hbs.1 c hc
    · obtain rfl | hc := mem_cons.1 hc
      · exact ⟨b, by simp, hb.2⟩
      · obtain ⟨b', hb', hS⟩ := hbs.2 c hc
        exact ⟨b', by simp [hb'], hS⟩

theorem of_mapM (hR : ∀ b d d', d.Grows d' → R b d → R b d')
    (h : ∀ a ∈ l, ∀ d', d.Grows d' → Yields source p d' (f a) R) :
    Yields source p d (l.mapM f) fun bs d' => ∀ b ∈ bs, R b d' :=
  (of_mapM_each (S := fun _ _ => True) hR fun a ha d' hd =>
    (h a ha d' hd).mono fun _ _ _ hb => ⟨hb, trivial⟩).mono fun _ _ _ h => h.1

section

variable (hQ : ∀ a d d', d.Grows d' → Q a d → Q a d')

include hQ

theorem of_filterAuxM {f acc}
    (h : ∀ a ∈ l, ∀ d', d.Grows d' → Yields source p d' (f a) fun b e => b = false → Q a e) :
    Yields source p d (l.filterAuxM f acc) fun bs e =>
      bs ⊆ acc ++ l ∧ acc ⊆ bs ∧ ∀ a ∈ l, a ∈ bs ∨ Q a e := by
  induction l generalizing d acc with
  | nil => exact of_pure (by simp)
  | cons a l ih =>
    refine bind (h a (by simp) d (.refl d)) fun b d' hd ha => ?_
    refine mono (ih fun c hc e he => h c (by simp [hc]) e (hd.trans he)) fun bs e he hbs => ?_
    obtain ⟨hsub, hacc, hrest⟩ := hbs
    cases b with
    | false =>
      refine ⟨fun c hc => ?_, hacc, fun c hc => ?_⟩
      · have hmem := hsub hc
        simp at hmem ⊢
        tauto
      · obtain rfl | hc := mem_cons.1 hc
        · exact .inr (hQ c d' e he (ha rfl))
        · exact hrest c hc
    | true =>
      refine ⟨fun c hc => ?_, fun c hc => hacc (mem_cons_of_mem _ hc), fun c hc => ?_⟩
      · have hmem := hsub hc
        simp at hmem ⊢
        tauto
      · obtain rfl | hc := mem_cons.1 hc
        · exact .inl (hacc mem_cons_self)
        · exact hrest c hc

theorem of_filterM {f}
    (h : ∀ a ∈ l, ∀ d', d.Grows d' → Yields source p d' (f a) fun b e => b = false → Q a e) :
    Yields source p d (l.filterM f) fun bs e => bs ⊆ l ∧ ∀ a ∈ l, a ∈ bs ∨ Q a e := by
  refine bind (of_filterAuxM hQ h) fun bs d' _ hbs => of_pure ⟨fun c hc => ?_, fun c hc => ?_⟩
  · simpa using hbs.1 (mem_reverse.1 hc)
  · exact (hbs.2.2 c hc).imp_left mem_reverse.2

theorem of_foldlM {f b} (hb : R b d)
    (h : ∀ a ∈ l, ∀ b d', d.Grows d' → R b d' → Yields source p d' (f b a) fun b' e => R b' e ∧ Q a e) :
    Yields source p d (l.foldlM f b) fun b e => R b e ∧ ∀ a ∈ l, Q a e := by
  induction l generalizing d b with
  | nil => exact of_pure ⟨hb, by simp⟩
  | cons a l ih =>
    refine bind (h a (by simp) b d (.refl d) hb) fun b' d' hd hb' => ?_
    refine (ih hb'.1 fun c hc b'' e he => h c (by simp [hc]) b'' e (hd.trans he)).mono
      fun b'' e he hrest => ⟨hrest.1, fun c hc => ?_⟩
    obtain rfl | hc := mem_cons.1 hc
    · exact hQ c d' e he hb'.2
    · exact hrest.2 c hc

end

theorem of_option_mapM {o} (h : ∀ a, o = some a → Yields source p d (f a) R) :
    Yields source p d (o.mapM f) fun b d' => ∀ x ∈ b, R x d' := by
  cases o with
  | none => exact of_pure (by simp)
  | some a =>
    intro hd
    obtain ⟨hrun, hb⟩ := h a rfl hd
    refine ⟨hrun, fun x hx => ?_⟩
    obtain rfl : ((f a).run d).1 = x := Option.some.inj hx
    exact hb

theorem of_option_forM {f o} (h : ∀ a, o = some a → Yields source p d (f a) fun _ => Q a) :
    Yields source p d (o.forM f) fun _ d' => ∀ a ∈ o, Q a d' := by
  cases o with
  | none => exact of_pure (by simp)
  | some a => exact (h a rfl).mono fun _ _ _ ha b hb => Option.some.inj hb ▸ ha

end Conversion.Yields

/-! Rendering. -/

def IsCode (source : Source) (A : Code → Prop) (t : Text) : Prop :=
  ∃ c, A c ∧ t = c.text source

def IsDedented (source : Source) (A : Code → Prop) (t : Text) : Prop :=
  ∃ c margin, A c ∧ t = dedented (c.text source) margin

section

open Conversion

variable {source : Source} {p : Policy} {d : Draft}

variable {part pattern : Part} {name : String} {n : Node} {d' : Draft} {α : Type}

theorem IsCode.grows {t} (h : IsCode source (p.Allows source d) t) (hd : d.Grows d') :
    IsCode source (p.Allows source d') t := by
  obtain ⟨c, hc, rfl⟩ := h
  exact ⟨c, hc.grows hd, rfl⟩

theorem IsDedented.known_grows {t} (h : IsDedented source (Code.KnownTo source d) t)
    (hd : d.Grows d') : IsDedented source (Code.KnownTo source d') t := by
  obtain ⟨c, margin, hc, rfl⟩ := h
  exact ⟨c, margin, hc.grows hd, rfl⟩

theorem render_text (n : Node) :
    (render source (ofNode source n) d).1 = (Code.rendered { draft := d } n).text source :=
  congrArg (EditSet.render _ source) (span_relabel _ n)

theorem known_rendered (h : d.Tied) (n : Node) :
    Code.KnownTo source (render source (ofNode source n) d).2 (.rendered { draft := d } n) :=
  ⟨h, .refl _⟩

theorem allows_rendered (h : d.Tied) (hn : p.renders d n) :
    p.Allows source (render source (ofNode source n) d).2 (.rendered { draft := d } n) :=
  ⟨known_rendered h n, rfl, hn⟩

theorem exists_codes {A : Code → Prop} {ts} {f : Code × α → Text}
    (h : ∀ t ∈ ts, ∃ c x, A c ∧ t = f (c, x)) :
    ∃ cs : List (Code × α), (∀ c ∈ cs, A c.1) ∧ ts = cs.map f := by
  induction ts with
  | nil => exact ⟨[], by simp, rfl⟩
  | cons t _ ih =>
    obtain ⟨c, x, hc, rfl⟩ := h t (by simp)
    obtain ⟨cs, hcs, rfl⟩ := ih fun t ht => h t (by simp [ht])
    exact ⟨(c, x) :: cs, by simpa [hc] using hcs, rfl⟩

/-! Declarations that only feed the symbol table; `hrender` says what is known of the parts that are
rendered on the way. -/

/-- A part and whatever stands in it is rendered as code that is allowed. -/
def Renders (source : Source) (p : Policy) (d : Draft) (part : Part) : Prop :=
  ∀ q : Part, q.Within part → ∀ e, d.Grows e →
    Yields source p e (render source q) fun t e' => IsCode source (p.Allows source e') t

theorem Renders.within {q} (h : Renders source p d part) (hq : q.Within part) :
    Renders source p d q :=
  fun r hr => h r (hr.trans hq)

theorem Renders.grows (h : Renders source p d part) (hd : d.Grows d') : Renders source p d' part :=
  fun q hq e he => h q hq e (hd.trans he)

theorem Renders.yields (h : Renders source p d part) :
    Yields source p d (render source part) fun t e => IsCode source (p.Allows source e) t :=
  h part .self d (.refl d)

theorem isValue_of_isCode {o : Option Text} (h : ∀ t ∈ o, IsCode source (p.Allows source d) t) :
    ∀ v ∈ o.map String.ofList, IsValue source (p.Allows source d) name v := by
  intro v hv
  obtain ⟨t, ht, rfl⟩ := Option.map_eq_some_iff.1 hv
  obtain ⟨c, hc, rfl⟩ := h t ht
  exact .code hc

theorem yields_addProp (hname : p.names name) (value : Option Text)
    (h : ∀ t ∈ value, IsCode source (p.Allows source d) t) :
    Yields source p d (modify (·.withSymbols (·.addProp name (value.map String.ofList))))
      fun _ d' => d'.symbols.isProp name :=
  .of_change (.prop d hname (isValue_of_isCode h)) (isProp_addProp _ _ _)

theorem yields_addState (hname : p.names name) (value : Option Text)
    (h : ∀ t ∈ value, IsCode source (p.Allows source d) t) :
    Yields source p d (modify (·.withSymbols (·.addState name (value.map String.ofList))))
      fun _ d' => d'.symbols.isState name :=
  .of_change (.state d hname (isValue_of_isCode h)) (isState_addState _ _ _)

theorem yields_rename (inner : String) (h : d.symbols.isProp name) : Yields source p d
    (if inner != name then modify (·.addReactive s!"$: {inner} = {name};") else pure ())
    fun _ e => e.Accounts source inner := by
  split
  · exact .of_change (.reactive d (.rename inner h))
      (.inr (.inr ⟨_, d.mem_addReactive _, .rename name⟩))
  · next hsame =>
    obtain rfl : inner = name := by simpa using hsame
    exact .of_pure (accounts_of_isProp h)

theorem ofNode_eq_node {l kind span parts} (h : ofNode source n = .node l kind span parts) :
    ∃ kids, n = .node () kind span kids ∧ parts = kids.map (ofNode source) := by
  obtain ⟨⟨⟩, k, s, kids⟩ := n
  rw [ofNode, relabel_node] at h
  obtain ⟨-, rfl, rfl, rfl⟩ := node.inj h
  exact ⟨kids, rfl, rfl⟩

theorem Policy.Admits.copies_value {l span key value}
    (h : p.Admits source d (.node l .patternProperty span [key, value])) :
    ∃ v, value = ofNode source v ∧ p.copies v := by
  obtain ⟨n, hn, hrenders⟩ := h
  obtain ⟨kids, rfl, hkids⟩ := ofNode_eq_node hn.symm
  rcases kids with _ | ⟨k, _ | ⟨v, _ | ⟨_, _⟩⟩⟩ <;> simp at hkids
  exact ⟨v, hkids.2, p.copies_value hrenders⟩

theorem yields_registerProp {property} (hadmits : p.Admits source d property)
    (hrender : Renders source p d property) :
    Yields source p d (registerProp source property) fun _ e =>
      e.Binds source property property.bindingNames property.lostFromProp := by
  have hnames {name : String} : property.Calls name → p.names name := hadmits.sees.names
  unfold registerProp
  split
  case h_1 name _ _ default =>
    refine .bind (.of_option_mapM fun part hpart => Renders.yields ?_) fun value d' _ hvalue => ?_
    · unfold present? at hpart
      split at hpart
      · simp at hpart
      · obtain rfl : default = part := by simpa using hpart
        exact hrender.within (.kid (by simp) .self)
    · have hname := hnames (.ident mem_cons_self rfl)
      refine (yields_addProp hname value hvalue).mono fun _ e _ hprop => ?_
      exact binds_of_accounts (by simpa [bindingNames] using accounts_of_isProp hprop)
  case h_2 l span key value =>
    split
    · next hkey =>
      refine .of_change (.report d _ _ _) fun name _ => .inr (.inr ?_)
      exact ⟨key, .kid (by simp) .self, hkey, by simp [report]⟩
    next name hname =>
    replace hnames := hnames (calls_of_keyName? rfl rfl hname)
    split
    · refine .bind (yields_addProp hnames none (by simp)) fun _ d' _ hprop => ?_
      refine (yields_rename _ hprop).mono fun _ e _ hinner => ?_
      exact binds_of_accounts (by simpa [bindingNames] using hinner)
    · next l' span' target default =>
      have hwithin : default.Within (.node l' .assignPattern span' [target, default]) :=
        .kid (by simp) .self
      refine .bind (hrender.within (.kid (by simp) hwithin)).yields fun t d' _ ht => ?_
      refine .bind (yields_addProp hnames (some t) (by simpa using ht)) fun _ d'' _ hprop => ?_
      split
      · next inner hinner =>
        refine (yields_rename _ hprop).mono fun _ e _ haccounts => ?_
        obtain ⟨_, kind, _, _⟩ := target
        cases kind <;> simp [ident?] at hinner
        subst hinner
        exact binds_of_accounts (by simpa [bindingNames] using haccounts)
      · next hnone =>
        refine .of_pure fun inner hinner => .inl ?_
        simpa [lostFromProp, hname, hnone, bindingNames] using hinner
    · next other _ _ =>
      obtain ⟨v, rfl, hv⟩ := hadmits.copies_value
      refine .bind (yields_addProp hnames none (by simp)) fun _ d' _ hprop => ?_
      have hcode : p.Allows source d' (.copied v) := ⟨trivial, hv⟩
      have hform : IsReaction source (p.Allows source d') (d'.symbols.isProp ·) _ :=
        .unpack hcode hprop
      rw [Code.text, ← span_relabel (Visit.ofNode source) v] at hform
      refine .of_change (.reactive d' hform) (binds_of_accounts fun inner hinner => ?_)
      exact .inr (.inr ⟨_, d'.mem_addReactive _, .unpack name hinner⟩)
  case h_3 name _ _ =>
    have hname := hnames (.ident mem_cons_self rfl)
    refine .of_change (.state d hname fun v hv => ?_) (binds_of_accounts ?_)
    · obtain rfl : "$$restProps" = v := by simpa using hv
      exact .rest
    · have hstate : (d.withSymbols (·.addState name (some "$$restProps"))).symbols.isState name :=
        isState_addState _ _ _
      simpa [bindingNames] using accounts_of_isState hstate
  case h_4 hdefaulted hproperty hrest =>
    refine .of_pure fun name hname => .inl ?_
    unfold lostFromProp
    split
    · exact (hdefaulted _ _ _ _ _ _ _ rfl).elim
    · exact (hrest _ _ _ _ _ _ rfl).elim
    · exact (hproperty _ _ _ _ rfl).elim
    · exact (hproperty _ _ _ _ rfl).elim
    · exact hname

theorem yields_registerProps (hadmits : p.Admits source d pattern)
    (hrender : Renders source p d pattern) :
    Yields source p d (registerProps source pattern) fun _ e =>
      e.Binds source pattern (allBindingNames pattern.kids) (pattern.kids.flatMap lostFromProp) := by
  have hall : Yields source p d (registerProps source pattern) fun _ e => ∀ q ∈ pattern.kids,
      e.Binds source q q.bindingNames q.lostFromProp := by
    refine .of_forM_each (fun q e e' he hq => hq.grows he) fun property hp d' hd => ?_
    have hwithin : property.Within pattern := .kid hp .self
    exact yields_registerProp ((hadmits.within hwithin).grows hd) ((hrender.within hwithin).grows hd)
  exact hall.mono fun _ e _ h => .all (fun q hq => .kid hq .self) h

theorem calls_of_unpackedState? {t : Part} (h : unpackedState? t = some name) : t.Calls name := by
  unfold unpackedState? at h
  split at h
  · exact calls_of_ident? (by simp) h
  · exact calls_of_keyName? rfl rfl h
  · cases h

theorem yields_registerState (hsees : p.Sees source d pattern) :
    Yields source p d (registerState pattern) fun _ e =>
      e.Binds source pattern (allBindingNames pattern.kids) (pattern.kids.flatMap lostFromState) := by
  have hall : Yields source p d (registerState pattern) fun _ e =>
      ∀ name ∈ pattern.kids.filterMap unpackedState?, e.symbols.isState name :=
    .of_forM_each (fun name e e' he h => he.symbols.state name h) fun name hname d' _ => by
      obtain ⟨q, hq, hkey⟩ := mem_filterMap.1 hname
      have hnamed := (hsees.within (.kid hq .self)).names (calls_of_unpackedState? hkey)
      exact .of_change (.state d' hnamed (by simp)) (isState_addState _ _ _)
  refine hall.mono fun _ e _ hstate => .all (fun q hq => .kid hq .self) fun q hq name hname => ?_
  by_cases hkey : unpackedState? q = some name
  · have hknown := hstate name (mem_filterMap.2 ⟨q, hq, hkey⟩)
    exact .inr (.inl (accounts_of_isState hknown))
  · exact .inl (mem_filter.2 ⟨hname, by simpa using hkey⟩)

theorem yields_registerStateHook {call} (hsees : p.Sees source d pattern)
    (hrender : Renders source p d call) :
    Yields source p d (registerStateHook source pattern call) fun _ e =>
      e.Binds source pattern pattern.bindingNames pattern.lostFromHook := by
  unfold registerStateHook
  dsimp only
  split
  case h_1 name rest heq =>
    have hlost : ∀ other ∈ pattern.bindingNames, other ≠ name → rest.head?.join ≠ some other →
        other ∈ pattern.lostFromHook := by
      intro other hother hname hsetter
      rw [lostFromHook, heq]
      exact mem_filter.2 ⟨hother, by simp [hname, hsetter]⟩
    refine .bind (.of_option_mapM fun part hpart => Renders.yields ?_)
      fun initial d' _ hinitial => ?_
    · obtain ⟨a, ha, rfl⟩ := Option.map_eq_some_iff.1 hpart
      have hinside := inside_of_mem_arguments (mem_of_head? ha)
      exact hrender.within ((spreadValue_within a).trans hinside.within)
    have hnamed : p.names name := by
      obtain ⟨first, kids, hkids, hfirst, -⟩ := map_eq_cons_iff.1 heq
      have hpart : first ∈ pattern.kids := dropLast_subset _ (by simp [hkids])
      exact hsees.names (calls_of_ident? hpart hfirst)
    refine .bind (yields_addState hnamed initial hinitial) fun _ d'' _ hstate => ?_
    split
    · next setter hsetter =>
      refine .of_change (.setter d'' setter hstate) fun other hother => ?_
      by_cases hname : other = name
      · subst hname
        exact .inr (.inl (accounts_of_isState hstate))
      · by_cases hset : setter = other
        · subst hset
          exact .inr (.inl (.inr (.inl (Table.isSome_get?_insert_self _ _ _))))
        · exact .inl (hlost other hother hname (by simpa [hsetter] using hset))
    · next hsetter =>
      refine .of_pure fun other hother => ?_
      by_cases hname : other = name
      · subst hname
        exact .inr (.inl (accounts_of_isState hstate))
      · exact .inl (hlost other hother hname (by simp [hsetter]))
  case h_2 hother =>
    refine .of_pure fun name hname => .inl ?_
    unfold lostFromHook
    split
    · next first rest heq => exact (hother first rest heq).elim
    · exact hname

theorem declaratorRole?_refHook {t : Script.Tree α} (scope : ComponentScope)
    (h : declaratorRole? {} t = some .refHook) : declaratorRole? scope t = some .refHook := by
  unfold declaratorRole? at h ⊢
  split at h
  · split at h
    · grind
    · grind
    · exact h
    · simp at h
  · simp at h

def Script.Tree.refHook? {α : Type} (declarator : Script.Tree α) : Option String :=
  match declaratorRole? {} declarator with
  | some .refHook => declarator.kids.head?.bind Script.Tree.ident?
  | _ => none

theorem exists_of_refHook? {t : Script.Tree α} (h : t.refHook? = some name) :
    declaratorRole? {} t = some .refHook ∧ ∃ target value, t.kids = [target, value] ∧
      target.ident? = some name := by
  unfold refHook? at h
  split at h
  · next hrole =>
    refine ⟨hrole, ?_⟩
    unfold declaratorRole? at hrole
    split at hrole
    · next target value hkids => exact ⟨target, value, hkids, by simpa [hkids] using h⟩
    · simp at hrole
  · simp at h

theorem yields_registerDeclarator {declarator : Part} (hadmits : p.Admits source d declarator)
    (hrender : Renders source p d declarator) :
    Yields source p d (registerDeclarator source declarator) fun _ e =>
      (∀ name ∈ declarator.refHook?, name ∈ e.scope.hookRefs) ∧
      ((declaratorRole? d.scope declarator).isSome →
        e.Binds source declarator declarator.boundNames declarator.lostNames) := by
  have hhook : ∀ name ∈ declarator.refHook?,
      declaratorRole? d.scope declarator = some .refHook ∧
        ∃ target value, declarator.kids = [target, value] ∧ target.ident? = some name := by
    intro name hname
    obtain ⟨hrole, hkids⟩ := exists_of_refHook? hname
    exact ⟨declaratorRole?_refHook _ hrole, hkids⟩
  have hother : ∀ {c : Conversion Unit}, declaratorRole? d.scope declarator ≠ some .refHook →
      Yields source p d c (fun _ e =>
        e.Binds source declarator declarator.boundNames declarator.lostNames) →
      Yields source p d c fun _ e => (∀ name ∈ declarator.refHook?, name ∈ e.scope.hookRefs) ∧
        ((declaratorRole? d.scope declarator).isSome →
          e.Binds source declarator declarator.boundNames declarator.lostNames) :=
    fun hrole hc => hc.mono fun _ _ _ hbinds =>
      ⟨fun name hname => absurd (hhook name hname).1 hrole, fun _ => hbinds⟩
  have hbound : ∀ {target value : Part}, declarator.kids = [target, value] →
      declarator.boundNames = target.bindingNames := by
    intro target value hkids
    rw [boundNames, hkids]
  have hident : ∀ {e : Draft} {target value : Part} {name : String},
      declarator.kids = [target, value] → target.ident? = some name → e.symbols.isRef name →
      e.Binds source declarator declarator.boundNames declarator.lostNames := by
    intro e target value name hkids hident href
    rw [hbound hkids, bindingNames_of_ident? hident]
    exact binds_of_accounts (by simpa using accounts_of_isRef href)
  have hnamed : ∀ {target value : Part} {name : String}, declarator.kids = [target, value] →
      target.ident? = some name → p.names name :=
    fun hkids hname => hadmits.sees.names (calls_of_ident? (by simp [hkids]) hname)
  refine .of_get ?_
  split
  case h_1 target value hrole hkids =>
    have hwithin : target.Within declarator := .kid (by simp [hkids]) .self
    obtain ⟨hkind, hstate⟩ := target_of_role hrole hkids
    refine hother (by simp [hrole]) ((yields_registerProps (hadmits.within hwithin)
      (hrender.within hwithin)).mono fun _ e _ hbinds => ?_)
    have hlost : declarator.lostNames = target.kids.flatMap lostFromProp := by
      simp [lostNames, hkids, hkind, hstate]
    rw [hbound hkids, hlost, bindingNames_objectPattern hkind]
    exact hbinds.within hwithin
  case h_2 target value hrole hkids =>
    obtain ⟨hkind, hstate⟩ := target_of_role hrole hkids
    refine hother (by simp [hrole]) ((yields_registerState
      (hadmits.sees.within (.kid (by simp [hkids]) .self))).mono fun _ e _ hbinds => ?_)
    have hlost : declarator.lostNames = target.kids.flatMap lostFromState := by
      simp [lostNames, hkids, hkind, hstate]
    rw [hbound hkids, hlost, bindingNames_objectPattern hkind]
    exact hbinds.within (.kid (by simp [hkids]) .self)
  case h_3 target value hrole hkids =>
    have hwithin : value.Within declarator := .kid (by simp [hkids]) .self
    have hkind := target_of_role hrole hkids
    refine hother (by simp [hrole]) ((yields_registerStateHook
      (hadmits.sees.within (.kid (by simp [hkids]) .self))
      (hrender.within ((unparen_within value).trans hwithin))).mono fun _ e _ hbinds => ?_)
    have hlost : declarator.lostNames = target.lostFromHook := by
      simp [lostNames, hkids, show target.kind = .arrayPattern from hkind]
    rw [hbound hkids, hlost]
    exact hbinds.within (.kid (by simp [hkids]) .self)
  case h_4 target value hrole hkids =>
    obtain ⟨name, hname⟩ : ∃ name, target.ident? = some name := by
      obtain ⟨name, hkind⟩ := target_of_role hrole hkids
      exact ⟨name, ident?_of_kind hkind⟩
    have hsame : ∀ other ∈ declarator.refHook?, other = name := by
      intro other hother
      obtain ⟨-, target', value', hkids', hident⟩ := hhook other hother
      obtain ⟨rfl, -⟩ : target = target' ∧ value = value' := by simpa using hkids.symm.trans hkids'
      exact Option.some.inj (hident.symm.trans hname)
    simp only [hname]
    have href : (d.withSymbols (·.addRef name)).symbols.isRef name :=
      isRef_addRef _ _
    refine .bind (.of_change (.ref d (.inl (hnamed hkids hname)))
      (Q := fun _ e => e.symbols.isRef name) href) fun _ d' _ href =>
        .of_change (.hookRef d' href) ⟨fun other hother => ?_, fun _ => ?_⟩
    · obtain rfl := hsame other hother
      exact mem_cons_self
    · exact hident hkids hname href
  case h_5 target value hrole hkids =>
    obtain ⟨name, hkind⟩ := target_of_role hrole hkids
    have hname := ident?_of_kind hkind
    simp only [hname]
    exact hother (by simp [hrole])
      (.of_change (.ref d (.inl (hnamed hkids hname)))
        (hident hkids hname (isRef_addRef _ _)))
  case h_6 hprops hstate hstateHook hhooks href =>
    have hnone : ∀ role, declaratorRole? d.scope declarator ≠ some role := by
      intro role hrole
      obtain ⟨target, value, hkids⟩ := kids_of_role hrole
      cases role
      · exact hprops target value hrole hkids
      · exact hstate target value hrole hkids
      · exact hstateHook target value hrole hkids
      · exact hhooks target value hrole hkids
      · exact href target value hrole hkids
    refine .of_pure ⟨fun name hname => absurd (hhook name hname).1 (hnone _), fun hsome => ?_⟩
    obtain ⟨role, hrole⟩ := Option.isSome_iff_exists.1 hsome
    exact absurd hrole (hnone role)

theorem declaratorRole?_congr {scope scope'}
    (h : scope'.propsBag = scope.propsBag) (t : Script.Tree α) :
    declaratorRole? scope' t = declaratorRole? scope t := by
  simp only [declaratorRole?, h]

theorem propsBag_registerDeclarator (n : Node) :
    ((registerDeclarator source (ofNode source n)).run d).2.scope.propsBag =
      d.scope.propsBag := by
  have hreaches : Reaches source d.scope.propsBag (fun _ => True) d
      ((registerDeclarator source (ofNode source n)).run d).2 := by
    refine obeys_registerDeclarator (fun _ _ h => .of_step h.step) (fun q hq e => ?_)
      (fun _ _ _ _ => trivial) d
    obtain ⟨m, -, rfl⟩ := inside_relabel hq
    exact Walk.reaches_visit m (fun _ _ _ _ _ _ _ _ _ _ _ => trivial) { draft := e }
  exact Step.propsBag_run (hreaches rfl)

/-! Walks. -/

def Policy.terms (p : Policy) : Walk.Terms :=
  ⟨p.reviews, p.names, p.cuts⟩

theorem Policy.permit_of_visits (h : p.visits d n) : p.terms.Permit n :=
  ⟨fun hm => p.names_of_calls (p.visits_within hm h),
    fun hm => p.cuts_of_visits (p.visits_within hm h)⟩

theorem Draft.Touch.run {J : Draft → Prop} (hJ : ∀ d, J d → d.Tied)
    (h : Touch source J p.terms d d') : d.Run source p d' := by
  cases h with
  | prop _ hname => exact .single (.prop d hname (by simp))
  | state _ hname => exact .single (.state d hname (by simp))
  | cut _ h => exact .single (.cut d fun offset hoffset => ⟨offset, h offset hoffset, .inl rfl⟩)
  | helper => exact .single (.helper d _)
  | report => exact .single (.report d _ _ _)
  | reviewCall w call offset hw hreason =>
    have hknown : Code.KnownTo source (w.visits source call.arguments).draft (.deferred w call) :=
      ⟨hJ _ hw, .refl _⟩
    exact .single (.review _ offset hreason (.call hknown))
  | reviewStatement w s cuts offset hw hreason =>
    have hknown : Code.KnownTo source ((w.visit source s).draft.cut cuts) (.rendered w s) :=
      ⟨hJ _ hw, grows_cut _ _⟩
    have hcode : IsReview source (Code.KnownTo source _) _ :=
      .part (source.lineIndent s.span.start).length hknown
    exact .single (.review _ offset hreason hcode)

theorem reviews_updateReason (call : Node) : p.reviews (Visit.updateReason call) := by
  unfold Visit.updateReason
  split <;> exact Policy.reviews_of_ne (by decide)

theorem run_visit {w : Walk} (hn : p.visits w.draft n) (htied : w.draft.Tied)
    (hdefers : w.Defers p.reviews) : w.draft.Run source p (w.visit source n).draft := by
  let J : Draft → Prop := fun e => w.draft.Grows e ∧ e.Tied
  have hJ : ∀ e e', J e → Run source p e e' → J e' :=
    fun _ _ hJ hrun => ⟨hJ.1.trans hrun.grows, hrun.tied hJ.2⟩
  refine Walk.visit_leads hJ reviews_updateReason (fun _ _ h => h.run fun _ hJ => hJ.2)
    (Policy.permit_of_visits hn) (fun m hm word hkind e he hconsumes hin => ?_)
    ⟨.refl _, htied⟩ hdefers
  have hdecl := p.renders_declaration (p.visits_grows he.1 (p.visits_within hm hn)) hkind hconsumes
  have hall : Yields source p e
      ((m.kids.map (ofNode source)).forM (registerDeclarator source)) anything := by
    refine .of_forM fun part hpart e' he' => ?_
    obtain ⟨k, hk, rfl⟩ := mem_map.1 hpart
    have hrenders := p.renders_grows he' (p.renders_within (.kid hk .self) hdecl)
    refine (yields_registerDeclarator ⟨k, rfl, hrenders⟩ fun q hq e'' he'' htied' => ?_).weaken
    obtain ⟨m', hm', rfl⟩ := Policy.exists_within_relabel hq
    have hallowed := p.renders_grows he'' (p.renders_within hm' hrenders)
    exact ⟨hin m' ⟨k, hk, hm'⟩ e'' ⟨(he.1.trans he').trans he'', htied'⟩, _,
      allows_rendered htied' hallowed, render_text m'⟩
  exact (hall he.2).1

theorem run_render (hn : p.visits d n) (htied : d.Tied) :
    d.Run source p (render source (ofNode source n) d).2 :=
  run_visit (w := { draft := d }) hn htied (by simp [Walk.Defers])

theorem Walk.tied_visit {w : Walk} (h : w.draft.Tied) (n : Node) : (w.visit source n).draft.Tied :=
  (run_visit (p := .free (fun _ => True) True) trivial h fun _ _ =>
    ⟨fun _ => trivial, fun _ => trivial⟩).tied h

theorem yields_render_known (h : p.Sees source d part) :
    Yields source p d (render source part) fun t d' =>
      IsCode source (Code.KnownTo source d') t := by
  obtain ⟨n, rfl, hn⟩ := h
  intro htied
  exact ⟨run_render hn htied, _, known_rendered htied n, render_text n⟩

theorem yields_render (h : p.Admits source d part) :
    Yields source p d (render source part) fun t d' =>
      IsCode source (p.Allows source d') t := by
  obtain ⟨n, rfl, hn⟩ := h
  intro htied
  exact ⟨run_render (p.visits_of_renders hn) htied, _, allows_rendered htied hn, render_text n⟩

theorem Policy.Admits.renders (h : p.Admits source d part) : Renders source p d part :=
  fun _ hq _ he => yields_render ((h.within hq).grows he)

theorem yields_marginAt {offset} (h : p.cuts offset) :
    Yields source p d (marginAt source offset) anything :=
  .change_bind (.cut d fun _ ho => ⟨_, h, .inl (mem_singleton.1 ho)⟩)
    fun _ _ => .of_pure trivial

theorem yields_dedented {A : Draft → Code → Prop} (hcut : p.cuts part.span.start)
    (h : ∀ e, d.Grows e → Yields source p e (render source part) fun t d' =>
      IsCode source (A d') t) :
    Yields source p d (renderDedented source part) fun t d' => IsDedented source (A d') t := by
  refine .bind (yields_marginAt hcut) fun margin e he _ => ?_
  refine .bind (h e he) fun t d' _ ht => .of_pure ?_
  obtain ⟨c, hc, rfl⟩ := ht
  exact ⟨c, _, hc, rfl⟩

theorem yields_renderDedented (h : p.Admits source d part) :
    Yields source p d (renderDedented source part) fun t d' =>
      IsDedented source (p.Allows source d') t :=
  yields_dedented h.sees.cuts.1 fun _ he => yields_render (h.grows he)

theorem yields_renderDedented_known (h : p.Sees source d part) :
    Yields source p d (renderDedented source part) fun t d' =>
      IsDedented source (Code.KnownTo source d') t :=
  yields_dedented h.cuts.1 fun _ he => yields_render_known (h.grows he)

end

end Sveltify
