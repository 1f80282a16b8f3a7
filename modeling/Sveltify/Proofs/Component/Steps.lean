import Mathlib.Logic.Relation
import Sveltify.Proofs.Component.Rewriting
import Sveltify.Proofs.Script.Naming

/-! What a walk can do to a draft: it takes a number of small steps, each of which adds something.
Every invariant of a walk's draft follows from what a step keeps. -/

namespace Sveltify

open List
open Script (Node Kind)
open Script.Tree
open Visit (Update update? updateReason)

variable {P : String → Prop} {source : Source} {α : Type} {d' d : Draft}

variable {β : Type}

def Conversion.Obeys {α : Type} (R : Draft → Draft → Prop) (c : Conversion α) : Prop :=
  ∀ d, R d (c.run d).2

namespace Conversion.Obeys

variable {α β : Type} {R : Draft → Draft → Prop}

theorem of_pure [Std.Refl R] (a : α) : Obeys R (pure a : Conversion α) :=
  fun d => refl_of R d

theorem of_modify {f} (h : ∀ d, R d (f d)) : Obeys R (modify f : Conversion Unit) :=
  h

theorem bind [IsTrans Draft R] {c} {f : α → Conversion β} (hc : Obeys R c)
    (hf : ∀ a, Obeys R (f a)) : Obeys R (c >>= f) :=
  fun d => trans_of R (hc d) (hf _ _)

theorem map {c} (f : α → β) (hc : Obeys R c) : Obeys R (f <$> c) :=
  hc

theorem of_forM [Std.Refl R] [IsTrans Draft R] {f} {as : List α}
    (h : ∀ a ∈ as, Obeys R (f a)) : Obeys R (as.forM f) := by
  induction as with
  | nil => exact of_pure ()
  | cons a _ ih =>
    exact bind (h a (by simp)) fun _ => ih fun b hb => h b (by simp [hb])

theorem of_mapM [Std.Refl R] {f : α → Conversion β} {o : Option α}
    (h : ∀ a ∈ o, Obeys R (f a)) : Obeys R (o.mapM f) := by
  cases o with
  | none => exact of_pure none
  | some a => exact map some (h a rfl)

end Conversion.Obeys

/-! Small steps. -/

/-- One step of a walk's draft; the names of references, of setters and of the variables that they
set satisfy `P`. -/
inductive Draft.Step (source : Source) (P : String → Prop) : Draft → Draft → Prop
  | prop (d : Draft) (name : String) (value : Option String) :
      Step source P d (d.withSymbols (·.addProp name value))
  | state (d : Draft) (name : String) (value : Option String) :
      Step source P d (d.withSymbols (·.addState name value))
  | ref (d : Draft) {name : String} (hn : P name) : Step source P d (d.withSymbols (·.addRef name))
  | setter (d : Draft) {setter name : String} (hs : P setter) (hn : P name) :
      Step source P d (d.withScope fun s => { s with setters := s.setters.insert setter name })
  | hookRef (d : Draft) {name : String} (hn : P name) :
      Step source P d (d.withScope fun s => { s with hookRefs := name :: s.hookRefs })
  | reactive (d : Draft) (statement : String) : Step source P d (d.addReactive statement)
  | helper (d : Draft) (name : String) : Step source P d (d.addHelper name)
  | report (d : Draft) (finding : Finding) (message : String) (offset : Nat) :
      Step source P d (d.report source finding message offset)
  | review (d : Draft) (reason code : String) (offset : Nat) :
      Step source P d (d.review source reason code offset)
  | cut (d : Draft) (offsets : List Nat) : Step source P d (d.cut offsets)

/-- What a walk may put into a draft: reasons for manual review, names of variables, and offsets at
which the source is cut. -/
structure Walk.Terms where
  reasons : String → Prop
  names : String → Prop
  cuts : Nat → Prop

def Walk.Terms.all : Walk.Terms :=
  ⟨fun _ => True, fun _ => True, fun _ => True⟩

/-- The names in a node and the ends of its range are permitted, and so are those of its parts. -/
structure Walk.Terms.Permit (terms : Walk.Terms) (n : Node) : Prop where
  names {m : Node} {name : String} : m.Within n → m.Calls name → terms.names name
  cuts {m : Node} : m.Within n → terms.cuts m.span.start ∧ terms.cuts m.span.stop

theorem Walk.Terms.Permit.within {m n} {terms : Walk.Terms} (h : terms.Permit n)
    (hm : m.Within n) : terms.Permit m :=
  ⟨fun hp => h.names (hp.trans hm), fun hp => h.cuts (hp.trans hm)⟩

/-- What a walk itself does to a draft, apart from the declarations that it consumes. Code is moved to
manual review as it stands when the walk has been through it; the walk had the property `J`
before. -/
inductive Draft.Touch (source : Source) (J : Draft → Prop) (terms : Walk.Terms) :
    Draft → Draft → Prop
  | prop (d : Draft) {name : String} (hname : terms.names name) :
      Touch source J terms d (d.withSymbols (·.addProp name none))
  | state (d : Draft) {name : String} (hname : terms.names name) :
      Touch source J terms d (d.withSymbols (·.addState name none))
  | helper (d : Draft) (name : String) : Touch source J terms d (d.addHelper name)
  | report (d : Draft) (finding : Finding) (message : String) (offset : Nat) :
      Touch source J terms d (d.report source finding message offset)
  | cut (d : Draft) {offsets : List Nat} (h : ∀ offset ∈ offsets, terms.cuts offset) :
      Touch source J terms d (d.cut offsets)
  | reviewCall (w : Walk) (call : Node) {reason : String} (offset : Nat) (hw : J w.draft)
      (hreason : terms.reasons reason) :
      Touch source J terms (w.visits source call.arguments).draft
        ((w.visits source call.arguments).draft.review source reason
          (String.ofList ((w.visits source call.arguments).edits.render source call.span)) offset)
  | reviewStatement (w : Walk) (s : Node) (cuts : List Nat) {reason : String} (offset : Nat)
      (hw : J w.draft) (hreason : terms.reasons reason) :
      Touch source J terms ((w.visit source s).draft.cut cuts)
        (((w.visit source s).draft.cut cuts).review source reason (String.ofList
          (Text.tidyBlankLines (Text.reindent ((w.visit source s).edits.render source s.span)
            (source.lineIndent s.span.start).length []))) offset)

theorem Draft.Touch.step {J : Draft → Prop} {terms} (h : Touch source J terms d d') :
    Step source P d d' := by
  cases h with
  | prop => exact .prop _ _ none
  | state => exact .state _ _ none
  | helper => exact .helper _ _
  | report => exact .report _ _ _ _
  | cut => exact .cut _ _
  | reviewCall | reviewStatement => exact .review _ _ _ _

/-- The draft may become the other one in the course of a walk, where `bag` is the variable that
holds the props. -/
def Draft.Reaches (source : Source) (bag : Option String) (P : String → Prop) (d d' : Draft) : Prop :=
  d.scope.propsBag = bag → Relation.ReflTransGen (Draft.Step source P) d d'

@[simp] theorem Draft.scope_addReactive (d : Draft) (statement : String) :
    (d.addReactive statement).scope = d.scope := by
  unfold Draft.addReactive
  split <;> rfl

theorem Draft.Step.propsBag_eq (h : Step source P d d') : d'.scope.propsBag = d.scope.propsBag := by
  cases h <;> first | rfl | simp

theorem Draft.Step.propsBag_run (h : Relation.ReflTransGen (Step source P) d d') :
    d'.scope.propsBag = d.scope.propsBag := by
  induction h with
  | refl => rfl
  | tail _ hstep ih => exact hstep.propsBag_eq.trans ih

namespace Draft.Reaches

variable {source : Source} {bag : Option String} {P : String → Prop}

instance : Std.Refl (Reaches source bag P) :=
  ⟨fun _ _ => .refl⟩

instance : IsTrans Draft (Reaches source bag P) :=
  ⟨fun _ _ _ h h' hbag => (h hbag).trans (h' ((Step.propsBag_run (h hbag)).trans hbag))⟩

theorem of_step {d d'} (h : Step source P d d') : Reaches source bag P d d' :=
  fun _ => .single h

theorem preserves {Q : Draft → Prop} (hQ : ∀ d d', Step source P d d' → Q d → Q d') {d d'}
    (h : Reaches source bag P d d') (hbag : d.scope.propsBag = bag) (hd : Q d) : Q d' := by
  have hrun := h hbag
  clear h
  induction hrun with
  | refl => exact hd
  | tail _ hstep ih => exact hQ _ _ hstep ih

end Draft.Reaches

/-! Declarations. -/

/-- What a declaration that is consumed does to a draft, apart from what its values do. -/
inductive Draft.Registers (source : Source) (P : String → Prop) : Draft → Draft → Prop
  | prop (d : Draft) (name : String) (value : Option String) :
      Registers source P d (d.withSymbols (·.addProp name value))
  | state (d : Draft) (name : String) (value : Option String) :
      Registers source P d (d.withSymbols (·.addState name value))
  | ref (d : Draft) {name : String} (hn : P name) :
      Registers source P d (d.withSymbols (·.addRef name))
  | setter (d : Draft) {setter name : String} (hs : P setter) (hn : P name) :
      Registers source P d (d.withScope fun s => { s with setters := s.setters.insert setter name })
  | hookRef (d : Draft) {name : String} (hn : P name) :
      Registers source P d (d.withScope fun s => { s with hookRefs := name :: s.hookRefs })
  | reactive (d : Draft) (statement : String) : Registers source P d (d.addReactive statement)
  | report (d : Draft) (finding : Finding) (message : String) (offset : Nat) :
      Registers source P d (d.report source finding message offset)

theorem Draft.Registers.step (h : Registers source P d d') : Step source P d d' := by
  cases h with
  | prop => exact .prop _ _ _
  | state => exact .state _ _ _
  | ref hn => exact .ref _ hn
  | setter hs hn => exact .setter _ hs hn
  | hookRef hn => exact .hookRef _ hn
  | reactive => exact .reactive _ _
  | report => exact .report _ _ _ _

section

open Conversion Draft

variable {source : Source} {P : String → Prop}
variable {R : Draft → Draft → Prop} (hR : ∀ d d', Registers source P d d' → R d d')

include hR

theorem obeys_addProp (name : String) (value : Option String) :
    Obeys R (modify (·.withSymbols (·.addProp name value)) : Conversion Unit) :=
  .of_modify fun d => hR _ _ (.prop d name value)

theorem obeys_addState (name : String) (value : Option String) :
    Obeys R (modify (·.withSymbols (·.addState name value)) : Conversion Unit) :=
  .of_modify fun d => hR _ _ (.state d name value)

theorem obeys_addRef {name} (hn : P name) :
    Obeys R (modify (·.withSymbols (·.addRef name)) : Conversion Unit) :=
  .of_modify fun d => hR _ _ (.ref d hn)

theorem obeys_addReactive (text : String) :
    Obeys R (modify (·.addReactive text) : Conversion Unit) :=
  .of_modify fun d => hR _ _ (.reactive d text)

variable [Std.Refl R] [IsTrans Draft R]

theorem obeys_registerProp {property : Part}
    (h : ∀ p : Part, p.Inside property → Obeys R (render source p)) :
    Obeys R (registerProp source property) := by
  unfold registerProp
  split
  case h_1 name _ _ default =>
    refine .bind (.of_mapM fun p hp => h p ?_) fun value => obeys_addProp hR name _
    unfold present? at hp
    split at hp
    · simp at hp
    · obtain rfl : default = p := by simpa using hp
      exact inside_of_mem_kids (by simp)
  case h_2 key value =>
    split
    · exact .of_modify fun d => hR _ _ (.report d _ _ _)
    · split
      · refine .bind (obeys_addProp hR _ _) fun _ => ?_
        split
        · exact obeys_addReactive hR _
        · exact .of_pure ()
      · next l s target default =>
        have hin : default.Within (.node l .assignPattern s [target, default]) :=
          .kid (by simp) .self
        refine .bind (h default ⟨_, by simp, hin⟩) fun _ => ?_
        refine .bind (obeys_addProp hR _ _) fun _ => ?_
        split
        · split
          · exact obeys_addReactive hR _
          · exact .of_pure ()
        · exact .of_pure ()
      · exact .bind (obeys_addProp hR _ _) fun _ => obeys_addReactive hR _
  case h_3 => exact obeys_addState hR _ _
  case h_4 => exact .of_pure ()

theorem obeys_registerState (pattern : Part) : Obeys R (registerState pattern) :=
  .of_forM fun name _ => obeys_addState hR name none

theorem obeys_registerStateHook {pattern call : Part}
    (h : ∀ p : Part, p.Inside call → Obeys R (render source p))
    (hP : ∀ p ∈ pattern.kids, ∀ name, p.ident? = some name → P name) :
    Obeys R (registerStateHook source pattern call) := by
  have hnames : ∀ name, some name ∈ pattern.kids.dropLast.map Script.Tree.ident? → P name := by
    intro name hname
    obtain ⟨p, hp, hid⟩ := mem_map.1 hname
    exact hP p (dropLast_subset _ hp) name hid
  unfold registerStateHook
  dsimp only
  split
  case h_1 name rest heq =>
    rw [heq] at hnames
    refine .bind (.of_mapM fun p hp => h p ?_) fun initial => .bind (obeys_addState hR _ _) fun _ => ?_
    · obtain ⟨a, ha, rfl⟩ := Option.map_eq_some_iff.1 hp
      exact (spreadValue_within a).trans_inside (inside_of_mem_arguments (mem_of_head? ha))
    · split
      case h_1 setter hsetter =>
        refine .of_modify fun d => hR _ _ (.setter d (hnames setter ?_) (hnames name (by simp)))
        obtain ⟨o, ho, rfl⟩ : ∃ o, rest.head? = some o ∧ o = some setter := by
          cases hr : rest.head? with
          | none => simp [hr] at hsetter
          | some o => exact ⟨o, rfl, by simpa [hr] using hsetter⟩
        exact mem_cons_of_mem _ (mem_of_head? ho)
      case h_2 => exact .of_pure ()
  case h_2 => exact .of_pure ()

theorem obeys_registerDeclarator {declarator : Part}
    (h : ∀ p : Part, p.Inside declarator → Obeys R (render source p))
    (hP : ∀ p : Part, p.Inside declarator → ∀ name, p.ident? = some name → P name) :
    Obeys R (registerDeclarator source declarator) := by
  intro d
  unfold registerDeclarator
  simp only [StateT.run_bind, StateT.run_get, pure_bind]
  split
  case h_1 target value _ hkids =>
    refine Obeys.of_forM (fun p hp => obeys_registerProp hR fun q hq => h q ?_) d
    exact hq.trans_within (.kid (by simp [hkids]) (.kid hp .self))
  case h_2 => exact obeys_registerState hR _ d
  case h_3 target value _ hkids =>
    refine obeys_registerStateHook hR (fun p hp => h p ?_) (fun p hp => hP p ?_) d
    · exact hp.trans_within ((unparen_within value).trans (.kid (by simp [hkids]) .self))
    · exact (inside_of_mem_kids hp).trans_within (.kid (by simp [hkids]) .self)
  case h_4 target _ _ hkids =>
    split
    next name hname =>
      have hn : P name := hP target (inside_of_mem_kids (by simp [hkids])) name hname
      refine Obeys.bind (obeys_addRef hR hn) (fun _ => .of_modify fun d => ?_) d
      exact hR _ _ (.hookRef d hn)
    · exact Obeys.of_pure () d
  case h_5 target _ _ hkids =>
    split
    next name hname =>
      exact obeys_addRef hR (hP target (inside_of_mem_kids (by simp [hkids])) name hname) d
    · exact Obeys.of_pure () d
  case h_6 => exact Obeys.of_pure () d

end

/-! Walks. -/

theorem inside_relabel {n p} {f : Script.Tree α → List (Script.Tree β) → β} (h : p.Inside (n.relabel f)) :
    ∃ m : Script.Tree α, m.Inside n ∧ p = m.relabel f := by
  induction n using inside_induction with
  | h n ih =>
    obtain ⟨k, hk, hp⟩ := h
    rw [kids_relabel, mem_map] at hk
    obtain ⟨k, hk, rfl⟩ := hk
    cases hp with
    | self => exact ⟨k, inside_of_mem_kids hk, rfl⟩
    | kid hq hp =>
      obtain ⟨m, hm, rfl⟩ := ih k (inside_of_mem_kids hk) ⟨_, hq, hp⟩
      exact ⟨m, ⟨k, hk, hm.within⟩, rfl⟩

theorem within_relabel {n p} {f : Script.Tree α → List (Script.Tree β) → β} (h : p.Within (n.relabel f)) :
    ∃ m : Script.Tree α, m.Within n ∧ p = m.relabel f := by
  cases h with
  | self => exact ⟨n, .self, rfl⟩
  | kid hk h =>
    obtain ⟨m, hm, rfl⟩ := inside_relabel ⟨_, hk, h⟩
    exact ⟨m, hm.within, rfl⟩

namespace Walk

open Draft

variable {source : Source} {P : String → Prop} {bag : Option String}

/-- Every identifier in a declaration that only feeds the symbol table satisfies `P`, given the name
of the variable that holds the props. -/
def Names (bag : Option String) (P : String → Prop) (n : Node) : Prop :=
  ∀ m : Node, m.Within n → ∀ word, m.kind = .variableDecl word → ∀ scope : ComponentScope,
    scope.propsBag = bag → consumes scope m.kids → ∀ p : Node, p.Inside m → ∀ name,
    p.ident? = some name → P name

/-! A relation between walks that holds of everything small holds of a walk. -/

/-- What a walk does to the draft at a node, apart from its parts and from declarations that only
feed the symbol table. -/
inductive Amends (source : Source) (d : Draft) (n : Node) : Draft → Prop
  | report (finding : Finding) (message : String) :
      Amends source d n (d.report source finding message n.span.start)
  | member {name : String} {symbols : SymbolTable}
      (h : Visit.memberReplacement? d n = some (name, symbols)) :
      Amends source d n { d with symbols }
  | note {u : Update Unit} (h : update? n.arguments = some u) : Amends source d n (u.note d)
  | cut {offsets : List Nat} (h : offsets ⊆ [n.span.start, n.span.stop]) :
      Amends source d n (d.cut offsets)

section

variable {R : Walk → Walk → Prop} [Std.Refl R] [IsTrans Walk R]

theorem foldl_relates {f} {ns : List Node} (h : ∀ n ∈ ns, ∀ w, R w (f w n))
    (w : Walk) : R w (ns.foldl f w) := by
  induction ns generalizing w with
  | nil => exact refl_of _ _
  | cons n _ ih => exact trans_of _ (h n (by simp) w) (ih (fun m hm => h m (by simp [hm])) _)

theorem visit_relates {n : Node} (hreplace : ∀ w span text, R w (w.replace span text))
    (hamend : ∀ m : Node, m.Within n → ∀ w d, Amends source w.draft m d → R w (w.withDraft d))
    (hdeclaration : ∀ m : Node, m.Within n → ∀ word, m.kind = .variableDecl word → ∀ w : Walk,
      consumes w.draft.scope m.kids → (∀ p : Node, p.Inside m → ∀ w, R w (w.visit source p)) →
      R w (w.withDraft (registered source w.draft m.kids)))
    (hlisted : ∀ s : Node, s.Within n → ∀ w,
      R (w.enter s.span) ((w.enter s.span).visit source s) → R w (w.listed source s))
    (hdefer : ∀ call : Node, call.Within n → Visit.isUpdateCall call →
      update? call.arguments = none → ∀ w : Walk, R w (w.visits source call.arguments) →
      R w ((w.visits source call.arguments).defer source call)) (w : Walk) :
    R w (w.visit source n) := by
  induction n using inside_induction generalizing w with
  | h n ih =>
    have hin : ∀ m : Node, m.Inside n → ∀ w : Walk, R w (w.visit source m) :=
      fun m hm => ih m hm (fun p hp => hamend p (hp.trans hm.within))
        (fun p hp => hdeclaration p (hp.trans hm.within))
        (fun p hp => hlisted p (hp.trans hm.within)) fun p hp => hdefer p (hp.trans hm.within)
    have hss : ∀ m : Node, m.Within n → ∀ w, R w (m.kids.foldl (listed source) w) := by
      intro m hm
      refine foldl_relates fun s hs w => ?_
      have hinside := (inside_of_mem_kids hs).trans_within hm
      exact hlisted s hinside.within w (hin s hinside _)
    have hkids : ∀ w, R w (w.visits source n.kids) :=
      foldl_relates fun k hk => hin k (inside_of_mem_kids hk)
    have hargs : ∀ m : Node, m.Within n → R w (w.visits source m.arguments) :=
      fun m hm => foldl_relates (fun a ha => hin a ((inside_of_mem_arguments ha).trans_within hm)) w
    have hcut : ∀ (w : Walk) {offsets} range text, offsets ⊆ [n.span.start, n.span.stop] →
        R w ((w.cut offsets).replace range text) := fun w _ range text h =>
      trans_of _ (hamend n .self w _ (.cut h)) (hreplace _ range text)
    obtain ⟨o, ho⟩ := exists_rewrites source n w
    cases ho with
    | kept h =>
      rw [visit_of_passes h]
      exact hkids w
    | this =>
      exact hamend _ .self w _ (.report _ _)
    | block =>
      rw [visit_block]
      exact hss _ .self w
    | @switchCase _ span test body =>
      rw [visit_switchCase]
      have hbody : body.Within (.node () .switchCase span [test, body]) := .kid (by simp) .self
      exact trans_of _ (hin test (inside_of_mem_kids (by simp)) w) (hss body hbody _)
    | bag h =>
      rw [visit_bag _ _ h]
      exact trans_of _ (hreplace w _ _) (hkids _)
    | member h =>
      rw [visit_member h]
      exact trans_of _ (hamend _ .self w _ (.member h)) (hreplace _ _ _)
    | @declaration _ word span _ h =>
      rw [visit_consumed h]
      exact trans_of _ (hdeclaration _ .self word rfl w h hin)
        (hcut _ _ _ (source.statementCuts_subset span))
    | update h _ hu =>
      rw [visit_update h]
      simp only [hu]
      have hnote := trans_of _ (hargs _ .self) (hamend _ .self _ _ (.note hu))
      exact trans_of _ hnote (hreplace _ _ _)
    | updateDeferred h _ hu =>
      rw [visit_update h]
      simp only [hu]
      exact hdefer _ .self h hu w (hargs _ .self)
    | @updateStatement _ span e _ _ _ h _ hu _ _
    | @emptyUpdateStatement _ span e _ _ _ h _ hu =>
      rw [visit_updateStatement h]
      simp only [hu]
      have hwithin := unparen_within_statement () span e
      have hnote := trans_of _ (hargs _ hwithin) (hamend _ hwithin _ _ (.note hu))
      split
      · exact trans_of _ hnote (hcut _ _ _ (source.statementCuts_subset span))
      · exact trans_of _ hnote (hcut _ _ _ (by simp))
    | @updateStatementDeferred _ span e _ h _ hu =>
      rw [visit_updateStatement h]
      simp only [hu]
      have hwithin := unparen_within_statement () span e
      exact hdefer _ hwithin h hu w (hargs _ hwithin)
    | bound hupdate h =>
      rw [visit_bound hupdate h]
      exact trans_of _ (hin _ (Visit.boundMethod?_inside h) w) (hreplace _ _ _)
    | setter hupdate hbound h =>
      rw [visit_setter hupdate hbound h]
      exact trans_of _ (hargs _ .self) (hreplace _ _ _)

end

/-- Every statement that is to be moved to manual review is for a reason that satisfies `D`. -/
def Defers (D : String → Prop) (w : Walk) : Prop :=
  ∀ entry ∈ w.deferred, D entry.2

section

variable {D : String → Prop}

variable {w : Walk}

theorem defers_defer {call} (hD : D (updateReason call)) (hw : w.Defers D) :
    (w.defer source call).Defers D := by
  unfold defer
  split
  · split
    · exact hw
    · intro entry hentry
      obtain hentry | hentry := mem_append.1 hentry
      · exact hw entry hentry
      · obtain rfl := mem_singleton.1 hentry
        exact hD
  · exact hw

theorem defers_leave (hw : w.Defers D) (span : Span) : (w.leave source span).Defers D := by
  unfold leave
  split
  · exact hw
  · exact fun entry hentry => hw entry (mem_of_mem_eraseP hentry)

theorem defers_visit {n}
    (hD : ∀ call : Node, call.Within n → Visit.isUpdateCall call → update? call.arguments = none →
      D (updateReason call))
    (hw : w.Defers D) : (w.visit source n).Defers D := by
  let R : Walk → Walk → Prop := fun w w' => w.Defers D → w'.Defers D
  have : Std.Refl R := ⟨fun _ h => h⟩
  have : IsTrans Walk R := ⟨fun _ _ _ h h' hw => h' (h hw)⟩
  exact visit_relates (R := R) (fun _ _ _ h => h) (fun _ _ _ _ _ h => h) (fun _ _ _ _ _ _ _ h => h)
    (fun _ _ _ hs h => defers_leave (hs h) _)
    (fun call hcall h hu _ hargs hw => defers_defer (hD call hcall h hu) (hargs hw)) w hw

end

/-! A relation between drafts that holds of everything small, and of the declarations that are
consumed, holds of a walk. `J` is a property of drafts that the relation carries along. -/

section

variable {R : Draft → Draft → Prop} [Std.Refl R] [IsTrans Draft R] {J : Draft → Prop}
variable {terms : Terms} {w : Walk} (htouch : ∀ d d', Touch source J terms d d' → R d d')

include htouch

omit [IsTrans Draft R] in
theorem defer_leads {call} (hD : terms.reasons (updateReason call)) (hw : J w.draft) :
    R (w.visits source call.arguments).draft
      ((w.visits source call.arguments).defer source call).draft := by
  unfold defer
  split
  · split <;> exact refl_of _ _
  · exact htouch _ _ (.reviewCall w call _ hw hD)

omit [Std.Refl R] [IsTrans Draft R] in
theorem cut_leads {s} (hs : terms.Permit s) (d : Draft) {offsets}
    (h : offsets ⊆ [s.span.start, s.span.stop]) : R d (d.cut offsets) := by
  refine htouch _ _ (.cut d fun offset hoffset => ?_)
  rcases mem_pair.1 (h hoffset) with rfl | rfl
  · exact (hs.cuts .self).1
  · exact (hs.cuts .self).2

theorem leave_leads {s} (hs : terms.Permit s) (hw : J w.draft)
    (hdefers : ((w.enter s.span).visit source s).Defers terms.reasons) :
    R ((w.enter s.span).visit source s).draft (w.listed source s).draft := by
  unfold listed leave
  split
  · exact refl_of _ _
  · next hfind =>
    have hreason := hdefers _ (mem_of_find?_eq_some hfind)
    have hsubset : s.span.start :: source.statementCuts s.span ⊆ [s.span.start, s.span.stop] :=
      cons_subset.2 ⟨by simp, source.statementCuts_subset s.span⟩
    exact trans_of _ (cut_leads htouch hs _ hsubset)
      (htouch _ _ (.reviewStatement (w.enter s.span) s _ _ hw hreason))

theorem note_leads {u : Update Unit} (hnames : ∀ entry ∈ u.entries, terms.names entry.1)
    (d : Draft) : R d (u.note d) := by
  have hkeys : R d (u.entries.foldl (fun d entry => d.withSymbols (·.addState entry.1 none)) d) := by
    generalize u.entries = entries at hnames
    induction entries generalizing d with
    | nil => exact refl_of _ _
    | cons entry _ ih =>
      exact trans_of _ (htouch _ _ (.state d (hnames entry (by simp))))
        (ih _ fun e he => hnames e (by simp [he]))
  unfold Update.note
  split
  · exact hkeys
  · exact trans_of _ hkeys (htouch _ _ (.helper _ _))

end

variable {n : Node}

theorem names_of_update? {terms : Terms} (hn : terms.Permit n) {args}
    (hargs : ∀ a ∈ args, a.Within n) {u} (h : update? args = some u) :
    ∀ entry ∈ u.entries, terms.names entry.1 := by
  obtain ⟨first, _, l, _, _, rfl, hobject, hentries, -⟩ := exists_of_update? h
  rintro ⟨_, _⟩ hentry
  obtain ⟨_, hproperty, hkey⟩ := exists_mem_of_forall₂ hentries hentry
  have hwithin : first.unparen.Within n := (unparen_within first).trans (hargs first (by simp))
  rw [hobject] at hwithin
  obtain ⟨_, _, k, rfl, hname⟩ | ⟨rfl, hkind⟩ := entry?_cases hkey
  · exact hn.names (.trans (.kid hproperty .self) hwithin) (calls_of_keyName? rfl rfl hname)
  · exact hn.names hwithin (.ident hproperty hkind)

/-- What a member is replaced by, and the symbols that are known then. -/
inductive MemberMeans (d : Draft) (n : Node) : String → SymbolTable → Prop
  | bag : MemberMeans d n "$$props" d.symbols
  | known {name : String} (hname : n.memberName? = some name)
      (h : name ∈ d.scope.methods ∨ d.symbols.isRef name) : MemberMeans d n name d.symbols
  | state {name : String} (hname : n.memberName? = some name) :
      MemberMeans d n name (d.symbols.addState name none)
  | prop {name : String} (hname : n.memberName? = some name) :
      MemberMeans d n name (d.symbols.addProp name none)
  | current {object : Node} {name : String} (hname : n.memberName? = some "current")
      (hobject : n.memberObject? = some object)
      (h : object.unparen.thisMember? = some name ∧ d.symbols.isRef name ∨
        object.unparen.ident? = some name ∧ name ∈ d.scope.hookRefs) : MemberMeans d n name d.symbols

theorem memberMeans {d name symbols}
    (h : Visit.memberReplacement? d n = some (name, symbols)) : MemberMeans d n name symbols := by
  unfold Visit.memberReplacement? at h
  dsimp only at h
  split at h
  · simp at h
  next hmap =>
  obtain ⟨_, hobject, rfl⟩ := Option.map_eq_some_iff.1 hmap
  split at h
  · obtain ⟨member, hmember, h⟩ := Option.bind_eq_some_iff.1 h
    split at h
    · obtain ⟨rfl, rfl⟩ := Prod.mk.inj (Option.some.inj h)
      exact .bag
    split at h
    · simp at h
    split at h
    · next hknown =>
      obtain ⟨rfl, rfl⟩ := Prod.mk.inj (Option.some.inj h)
      exact .known hmember (by simpa using hknown)
    · obtain ⟨rfl, rfl⟩ := Prod.mk.inj (Option.some.inj h)
      exact .state hmember
  split at h
  · obtain ⟨member, hmember, h⟩ := Option.map_eq_some_iff.1 h
    obtain ⟨rfl, rfl⟩ := Prod.mk.inj h
    exact .prop hmember
  split at h
  · obtain ⟨member, hmember, h⟩ := Option.map_eq_some_iff.1 h
    obtain ⟨rfl, rfl⟩ := Prod.mk.inj h
    exact .state hmember
  split at h
  · split at h
    · next hcurrent =>
      obtain ⟨member, hmember, h⟩ := Option.map_eq_some_iff.1 h
      obtain ⟨rfl, rfl⟩ := Prod.mk.inj h
      exact .current (beq_iff_eq.1 hcurrent) hobject (.inl (Option.filter_eq_some_iff.1 hmember))
    · simp at h
  · obtain ⟨_, htarget, h⟩ := Option.bind_eq_some_iff.1 h
    split at h
    · next hcurrent =>
      obtain ⟨rfl, rfl⟩ := Prod.mk.inj (Option.some.inj h)
      rw [Bool.and_eq_true, beq_iff_eq, contains_iff_mem] at hcurrent
      exact .current hcurrent.1 hobject (.inr ⟨htarget, hcurrent.2⟩)
    split at h
    · obtain ⟨_, hmember, h⟩ := Option.map_eq_some_iff.1 h
      obtain ⟨rfl, rfl⟩ := Prod.mk.inj h
      exact .prop hmember
    · simp at h

theorem visit_leads {R : Draft → Draft → Prop} [Std.Refl R] [IsTrans Draft R] {J : Draft → Prop}
    {terms} (hJ : ∀ d d', J d → R d d' → J d')
    (hD : ∀ call : Node, terms.reasons (updateReason call))
    (htouch : ∀ d d', Touch source J terms d d' → R d d') (hn : terms.Permit n)
    (hdeclaration : ∀ m : Node, m.Within n → ∀ word, m.kind = .variableDecl word → ∀ d : Draft, J d →
      consumes d.scope m.kids →
      (∀ p : Node, p.Inside m → ∀ d, J d → R d (render source (Part.ofNode source p) d).2) →
      R d (registered source d m.kids))
    {w : Walk} (hw : J w.draft) (hdefers : w.Defers terms.reasons) :
    R w.draft (w.visit source n).draft := by
  let S : Walk → Walk → Prop := fun w w' =>
    J w.draft → w.Defers terms.reasons → R w.draft w'.draft ∧ w'.Defers terms.reasons
  have : Std.Refl S := ⟨fun _ _ h => ⟨refl_of _ _, h⟩⟩
  have : IsTrans Walk S := by
    refine ⟨fun _ _ _ h h' hw hdefers => ?_⟩
    obtain ⟨hfirst, hdefers⟩ := h hw hdefers
    obtain ⟨hsecond, hdefers⟩ := h' (hJ _ _ hw hfirst) hdefers
    exact ⟨trans_of _ hfirst hsecond, hdefers⟩
  have hamend : ∀ m : Node, m.Within n → ∀ d d', Amends source d m d' → R d d' := by
    intro m hm d _ hamends
    cases hamends with
    | report => exact htouch _ _ (.report _ _ _ _)
    | member h =>
      cases memberMeans h with
      | bag | known | current => exact refl_of _ _
      | state hname => exact htouch _ _ (.state _ (hn.names hm (calls_of_memberName? hname)))
      | prop hname => exact htouch _ _ (.prop _ (hn.names hm (calls_of_memberName? hname)))
    | note h =>
      have hargs : ∀ a ∈ m.arguments, a.Within n := fun a ha =>
        ((inside_of_mem_arguments ha).trans_within hm).within
      exact note_leads htouch (names_of_update? hn hargs h) _
    | cut h => exact cut_leads htouch (hn.within hm) _ h
  refine (visit_relates (R := S) (fun _ _ _ _ h => ⟨refl_of _ _, h⟩)
    (fun m hm _ _ h _ hdefers => ⟨hamend m hm _ _ h, hdefers⟩)
    (fun m hm word hkind w hconsumes hin hw hdefers => ⟨?_, hdefers⟩)
    (fun s hs w hvisit hw hdefers => ?_) (fun call _ _ _ w hargs hw hdefers => ?_) w hw hdefers).1
  · exact hdeclaration m hm word hkind w.draft hw hconsumes fun p hp draft hw =>
      (hin p hp { draft } hw (by simp [Defers])).1
  · obtain ⟨hvisit, hdefers⟩ := hvisit hw hdefers
    have hleave := leave_leads htouch (hn.within hs) hw hdefers
    exact ⟨trans_of _ hvisit hleave, defers_leave hdefers s.span⟩
  · obtain ⟨hargs, hdefers⟩ := hargs hw hdefers
    exact ⟨trans_of _ hargs (defer_leads htouch (hD call) hw), defers_defer (hD call) hdefers⟩

theorem reaches_visit (n : Node) (hP : Names bag P n) (w : Walk) :
    Reaches source bag P w.draft (w.visit source n).draft := by
  have htouch : ∀ d d', Touch source (fun _ => True) .all d d' → Reaches source bag P d d' :=
    fun _ _ h => .of_step h.step
  have hpermit : Terms.all.Permit n := ⟨fun _ _ => trivial, fun _ => ⟨trivial, trivial⟩⟩
  refine visit_leads (fun _ _ _ _ => trivial) (fun _ => trivial) htouch hpermit
    (fun m hm word hkind d _ hconsumes hin hbag => ?_) trivial fun _ _ => trivial
  refine Conversion.Obeys.of_forM (R := Reaches source bag P) (fun p hp => ?_) d hbag
  obtain ⟨declarator, hd, rfl⟩ := mem_map.1 hp
  have hd : declarator.Within m := .kid hd .self
  refine obeys_registerDeclarator (fun _ _ h => .of_step h.step) ?_ ?_
  · intro q hq draft
    obtain ⟨p, hp, rfl⟩ := inside_relabel hq
    exact hin p (hp.trans_within hd) draft trivial
  · intro q hq name hname
    obtain ⟨p, hp, rfl⟩ := inside_relabel hq
    rw [ident?_relabel] at hname
    exact hP m hm word hkind d.scope hbag hconsumes p (hp.trans_within hd) name hname

theorem visit_propsBag (w : Walk) (n : Node) :
    (w.visit source n).draft.scope.propsBag = w.draft.scope.propsBag := by
  have h : Reaches source w.draft.scope.propsBag (fun _ => True) w.draft
      (w.visit source n).draft :=
    reaches_visit n (fun _ _ _ _ _ _ _ _ _ _ _ => trivial) w
  exact Step.propsBag_run (h rfl)

theorem consumes_congr {scope scope'} (h : scope'.propsBag = scope.propsBag)
    (kids : List Node) : consumes scope' kids = consumes scope kids := by
  simp only [consumes, declaratorRole?, h]

end Walk

/-! Setters. -/

theorem Table.mem_insert {key value entry} {table : Table α}
    (h : entry ∈ table.insert key value) : entry = (key, value) ∨ entry ∈ table := by
  induction table with
  | nil => exact .inl (by simpa [Table.insert] using h)
  | cons =>
    rw [Table.insert] at h
    split at h <;> grind

theorem Table.mem_of_get? {key value} {table : Table α}
    (h : table.get? key = some value) : (key, value) ∈ table := by
  induction table with
  | nil => simp [Table.get?] at h
  | cons =>
    rw [Table.get?, lookup_cons] at h
    split at h <;> grind [Table.get?]

/-- A declaration that only feeds the symbol table has no names but `names`. -/
def Script.Tree.namesAt (scope : ComponentScope) (names : List String) (n : Node) : Bool :=
  match n.kind with
  | .variableDecl _ => !Walk.consumes scope n.kids || n.every fun m => m.ident?.all names.contains
  | _ => true

section

variable {source : Source} {scope : ComponentScope} {names : List String} {n : Node}
variable {R : String × String → Prop}

theorem Draft.Step.setters {P : String → Prop} {d d' : Draft}
    (hR : ∀ setter name, P setter → P name → R (setter, name)) (h : Step source P d d')
    (hd : ∀ entry ∈ d.scope.setters, R entry) : ∀ entry ∈ d'.scope.setters, R entry := by
  cases h with
  | setter hs hn =>
    intro entry hentry
    obtain rfl | hold := Table.mem_insert hentry
    · exact hR _ _ hs hn
    · exact hd entry hold
  | reactive => simpa using hd
  | _ => exact hd

theorem Walk.names_of_every (h : n.every (namesAt scope names)) :
    Names scope.propsBag (· ∈ names) n := by
  intro m hm _ hkind _ hbag hconsumes p hp _ hname
  have hat := hm.of_every h
  rw [consumes_congr hbag] at hconsumes
  simp only [namesAt, hkind, hconsumes] at hat
  simpa [hname] using hp.within.of_every hat

theorem Walk.setters_visit {w : Walk} (hn : n.every (namesAt scope names))
    (hR : ∀ setter name, setter ∈ names → name ∈ names → R (setter, name))
    (hbag : w.draft.scope.propsBag = scope.propsBag)
    (hw : ∀ entry ∈ w.draft.scope.setters, R entry) :
    ∀ entry ∈ (w.visit source n).draft.scope.setters, R entry := by
  have hreaches : Draft.Reaches source _ _ w.draft (w.visit source n).draft :=
    reaches_visit n (names_of_every hn) w
  exact hreaches.preserves (fun _ _ hstep hd => hstep.setters hR hd) hbag hw

end

end Sveltify
