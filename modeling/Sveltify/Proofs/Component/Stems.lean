import Sveltify.Proofs.Component.Rendering
import Sveltify.Proofs.Component.Sourcing

/-! What generated code consists of. Every node of the code that a walk makes is a node of the source
that is kept, a variable that the walk knows, or one of a few new nodes. What holds of all generated
code is read off from that. -/

namespace Sveltify

open List hiding contains
open Script (Node Kind)
open Script.Tree Walk SymbolTable Visit

def freeNames : List String :=
  ["tick", "undefined", "$$props"]

def Draft.Knows (d : Draft) (name : String) : Prop :=
  d.symbols.contains name ∨ name ∈ d.scope.methods ∨ name ∈ freeNames

variable {name : String}

theorem Draft.Knows.grows {d d' : Draft} (h : d.Knows name) (hd : d.Grows d') : d'.Knows name :=
  h.imp hd.symbols.contains (Or.imp_left fun hm => hd.scope.methods hm)

def Script.Kind.isFrame : Kind → Bool
  | .block | .switchCase | .call | .list | .paren | .expression => true
  | _ => false

def Script.Kind.isGlue : Kind → Bool
  | .paren | .call | .list | .absent | .sequence | .expression => true
  | _ => false

namespace Script.Tree

variable {α : Type}

def besides (t : Script.Tree α) : List (Script.Tree α) :=
  match t.kind, t.kids with
  | .call, [callee, .node _ .list _ _, types] => [callee, types]
  | _, _ => [t]

theorem within_of_mem_besides {t p : Script.Tree α} (h : p ∈ t.besides) : p.Within t := by
  unfold besides at h
  split at h
  · next hkids =>
    refine .kid (k := p) ?_ .self
    obtain rfl | rfl : p = _ ∨ p = _ := by simpa using h
    · simp [hkids]
    · simp [hkids]
  · obtain rfl := mem_singleton.1 h
    exact .self

/-- The parts of a node that are left as they stand, though a walk does not go on to them. -/
def idle (t : Script.Tree α) : List (Script.Tree α) :=
  match t.kind with
  | .this => [t]
  | .call => if isUpdateCall t then t.besides else []
  | _ => []

theorem idle_of_isUpdateCall {t : Script.Tree α} (h : isUpdateCall t) : t.idle = t.besides := by
  have hkind : t.kind = .call := by
    obtain ⟨_, hmember, -⟩ := (Option.any_eq_true _ _).1 h
    obtain ⟨_, hcallee, -⟩ := exists_of_calleeMember? hmember
    exact kind_of_callee? hcallee
  rw [idle, hkind]
  simp [h]

end Script.Tree

/-- Why a range of the source is dropped from the code that is made of `n`. -/
inductive Dropped (source : Source) (e : Draft) (n : Node) : Span → Prop
  | declaration {w : Walk} {m : Node} {word : String} (hm : m.Within n) (htied : w.draft.Tied)
      (hkind : m.kind = .variableDecl word) (h : consumes w.draft.scope m.kids)
      (he : (w.visit source m).draft.Grows e) : Dropped source e n (source.statementRange m.span)
  | update {m call : Node} {u : Update Unit} (hm : m.Within n) (hcall : call.Within m)
      (h : isUpdateCall call) (hu : update? call.arguments = some u)
      (hentries : u.entries = []) (hcallback : u.callback = none) :
      Dropped source e n (source.statementRange m.span)
  | review {m : Node} {reason code : String} (hm : m.Within n)
      (h : e.Reviews source reason code m.span.start) :
      Dropped source e n (source.statementRange m.span)

theorem Dropped.within {source e m n range}
    (h : Dropped source e m range) (hm : m.Within n) : Dropped source e n range := by
  cases h with
  | declaration hk htied hkind hconsumes he =>
    exact .declaration (hk.trans hm) htied hkind hconsumes he
  | update hk hcall h hu hentries hcallback =>
    exact .update (hk.trans hm) hcall h hu hentries hcallback
  | review hk h => exact .review (hk.trans hm) h

/-- A node of the code that is made of `n` by a walk which starts with the draft `d`, when all that
is known in the end is `e`; nodes that are left as they stand satisfy `U`. -/
inductive Stems (source : Source) (d e : Draft) (U : Node → Prop) (n : Node) : Output → Prop
  | kept {w : Walk} {m : Node} {os : List Output} (hm : m.Within n) (hw : d.Grows w.draft)
      (h : passes w.draft m) (hkids : RewritesAll source w m.kids os) :
      Stems source d e U n (.node .kept m.kind m.span os)
  | untouched {m : Node} (hm : m.Within n) (h : U m) : Stems source d e U n (.untouched m)
  | frame {kind : Kind} {span : Span} {os : List Output} (h : kind.isFrame) :
      Stems source d e U n (.node .kept kind span os)
  | caseBody {span : Span} {test body : Node} {os : List Output}
      (hm : (Script.Tree.node () .switchCase span [test, body] : Node).Within n) :
      Stems source d e U n (.node .kept body.kind body.span os)
  | name {span : Span} {name : String} (h : e.Knows name) : Stems source d e U n (.name span name)
  | bag {name : String} {span : Span} {os : List Output} :
      Stems source d e U n (.node (.word "$$props".toList) (.ident name) span os)
  | assignment {span : Span} {name : String} {value : Output} (h : e.symbols.isState name) :
      Stems source d e U n (.assignment span name value)
  | glue {kind : Kind} {span : Span} {os : List Output} (h : kind.isGlue) :
      Stems source d e U n (.node .made kind span os)
  | next {span : Span} {o : Output} : Stems source d e U n
      (.node .made .member span [o, .node (.word "then".toList) (.word "then") span []])
  | word {span : Span} :
      Stems source d e U n (.node (.word "then".toList) (.word "then") span [])
  | bound {text : Text} {span : Span} {os : List Output} :
      Stems source d e U n (.node (.word text) .list span os)
  | lines {indent : Text} {span : Span} {os : List Output} :
      Stems source d e U n (.node (.lines indent) .list span os)
  | gone {range span : Span} (h : Dropped source e n range) :
      Stems source d e U n (.gone range span)

/-! What holds of all nodes of generated code. -/

variable {o : Output} {call : Node}

namespace Output

def All (S : Output → Prop) (o : Output) : Prop :=
  ∀ q : Output, q.Within o → S q

/-- `S` holds of the new nodes of generated code and of those around code that is listed or
deferred; it holds of the variables that satisfy `K`, and of assignments to those that satisfy
`T`. -/
structure Fits (S : Output → Prop) (K T : String → Prop) : Prop where
  name : ∀ {span : Span} {name : String}, K name → S (.name span name)
  assignment : ∀ {span : Span} {name : String} {value : Output}, T name →
    S (.assignment span name value)
  target : ∀ {name : String}, T name → K name
  free : ∀ name ∈ freeNames, K name
  glue : ∀ {kind : Kind} {span : Span} {os : List Output}, kind.isGlue →
    S (.node .made kind span os)
  frame : ∀ {kind : Kind} {span : Span} {os : List Output}, kind.isFrame →
    S (.node .kept kind span os)
  next : ∀ {span : Span} {o : Output},
    S (.node .made .member span [o, .node (.word "then".toList) (.word "then") span []])
  word : ∀ {span : Span}, S (.node (.word "then".toList) (.word "then") span [])

namespace All

variable {S : Output → Prop} {K T : String → Prop}

theorem part {q} (h : All S o) (hq : q.Within o) : All S q :=
  fun r hr => h r (hr.trans hq)

variable {span : Span} {os args : List Output}

variable {kind : Kind}

theorem of_node {l} (hself : S (.node l kind span os)) (hparts : ∀ o ∈ os, All S o) :
    All S (.node l kind span os) := by
  intro q hq
  cases hq with
  | self => exact hself
  | kid hk hq => exact hparts _ hk q hq

theorem of_untouched {m} (h : ∀ k : Node, k.Within m → S (.untouched k)) :
    All S (.untouched m) := by
  intro q hq
  induction m using inside_induction with
  | h m ih =>
    cases hq with
    | self => exact h m .self
    | kid hk hq =>
      rw [untouched, kids_relabel, mem_map] at hk
      obtain ⟨k, hk, rfl⟩ := hk
      have hinside := inside_of_mem_kids hk
      exact ih k hinside (fun x hx => h x (hx.trans hinside.within)) hq

variable (hS : Fits S K T)

include hS

theorem of_name (h : K name) : All S (.name span name) :=
  of_node (hS.name h) (by simp)

theorem of_glue (h : kind.isGlue) (hparts : ∀ o ∈ os, All S o) : All S (.node .made kind span os) :=
  of_node (hS.glue h) hparts

theorem of_frame (h : kind.isFrame) (hparts : ∀ o ∈ os, All S o) :
    All S (.node .kept kind span os) :=
  of_node (hS.frame h) hparts

theorem of_call {callee} (hcallee : All S callee) (hargs : ∀ o ∈ args, All S o) :
    All S (.call span callee args) := by
  have hlist : All S (.node .made .list span args) := of_glue hS rfl hargs
  have habsent : All S (.node .made .absent span []) := of_glue hS rfl (by simp)
  exact of_glue hS rfl (by simp [hcallee, hlist, habsent])

theorem of_assignment {value} (h : T name) (hvalue : All S value) :
    All S (.assignment span name value) :=
  of_node (hS.assignment h) (by simp [of_name hS (hS.target h), hvalue])

theorem of_afterUpdate {callback} (h : All S callback) :
    All S (.afterUpdate span callback) := by
  have htick : All S (.call span (.name span "tick") []) :=
    of_call hS (of_name hS (hS.free _ (by simp [freeNames]))) (by simp)
  have hword : All S (.node (.word "then".toList) (.word "then") span []) :=
    of_node hS.word (by simp)
  have hparts := forall_mem_cons.2 ⟨htick, forall_mem_singleton.2 hword⟩
  exact of_call hS (of_node hS.next hparts) (by simp [h])

theorem of_updates {v} (hentries : ∀ entry ∈ v.entries, T entry.1 ∧ All S entry.2)
    (hcallback : ∀ o ∈ v.callback, All S o) : ∀ o ∈ updates span v, All S o := by
  intro o ho
  rcases mem_append.1 ho with ho | ho
  · obtain ⟨entry, hentry, rfl⟩ := mem_map.1 ho
    exact of_assignment hS (hentries entry hentry).1 (hentries entry hentry).2
  · obtain ⟨callback, hmem, rfl⟩ := Option.map_eq_some_iff.1 (Option.mem_toList.1 ho)
    exact of_afterUpdate hS (hcallback callback hmem)

theorem of_sequence (h : ∀ o ∈ os, All S o) : All S (.sequence span os) := by
  unfold sequence
  split
  · exact h _ (by simp)
  · exact of_glue hS rfl h

theorem of_withArguments (hidle : ∀ p ∈ call.besides, ∀ k : Node, k.Within p → S (.untouched k))
    (hargs : ∀ o ∈ args, All S o) : All S (.withArguments args call) := by
  fun_cases withArguments args call with
  | case1 l span callee l' inner kids types =>
    have hcallee : All S (.untouched callee) := of_untouched (hidle callee (by simp [besides]))
    have htypes : All S (.untouched types) := of_untouched (hidle types (by simp [besides]))
    have hlist : All S (.node .kept .list inner args) := of_frame hS rfl hargs
    exact of_frame hS rfl (by simp [hcallee, hlist, htypes])
  | case2 call hother =>
    refine of_untouched (hidle call ?_)
    unfold besides
    split
    · next callee l inner kids types hkind hkids =>
      obtain ⟨l', kind, span, parts⟩ := call
      obtain rfl : kind = .call := hkind
      obtain rfl : parts = [callee, .node l .list inner kids, types] := hkids
      exact (hother l' span callee l inner kids types rfl).elim
    · simp

theorem of_deferred {w}
    (hidle : w.statements.head?.isSome → ∀ p ∈ call.besides, ∀ k : Node, k.Within p → S (.untouched
    k))
    (hargs : ∀ o ∈ args, All S o) : All S (.deferred w call args) := by
  unfold deferred
  split
  · next hhead => exact of_withArguments hS (hidle (by simp [hhead])) hargs
  · exact of_name hS (hS.free _ (by simp [freeNames]))

theorem of_wrap {m} (h : All S o) : All S (.wrap o m) := by
  fun_induction wrap o m with
  | case1 l _ _ ih => exact of_frame hS rfl (by simpa using ih)
  | case2 => exact h

theorem of_setValue {target args} (h : K target) (hos : ∀ o ∈ os, All S o) :
    All S (.setValue span target (setArgument args os)) := by
  have hvalue : ∀ o ∈ os, All S o.spreadValue :=
    fun o ho => (hos o ho).part (spreadValue_within o)
  unfold setArgument
  split
  · next a args o os =>
    cases a.spreadValue.unparen.isFunction with
    | false => exact hvalue o (by simp)
    | true =>
      have hparen : All S (.parenthesized span o.spreadValue) :=
        of_glue hS rfl (by simpa using hvalue o (by simp))
      exact of_call hS hparen (by simpa using of_name hS h)
  · exact of_name hS (hS.free _ (by simp [freeNames]))

end All

end Output

open Output (All)

def AllStem (source : Source) (d e : Draft) (U : Node → Prop) (n : Node) (o : Output) : Prop :=
  ∀ q : Output, q.Within o → Stems source d e U n q

section

variable {source : Source} {d e : Draft} {U : Node → Prop} {n : Node}

theorem AllStem.within {m} (h : AllStem source d e U m o) (hm : m.Within n) :
    AllStem source d e U n o := by
  intro q hq
  cases h q hq with
  | kept hk hw hp hkids => exact .kept (hk.trans hm) hw hp hkids
  | untouched hk hU => exact .untouched (hk.trans hm) hU
  | frame hk => exact .frame hk
  | caseBody hk => exact .caseBody (hk.trans hm)
  | name hk => exact .name hk
  | assignment hk => exact .assignment hk
  | bag => exact .bag
  | glue hk => exact .glue hk
  | next => exact .next
  | word => exact .word
  | bound => exact .bound
  | lines => exact .lines
  | gone h => exact .gone (h.within hm)

theorem Stems.fits : Output.Fits (Stems source d e U n) e.Knows (e.symbols.isState ·) :=
  ⟨.name, .assignment, fun h => .inl (by simp [contains, h]),
    fun _ h => .inr (.inr h), .glue, .frame, .next, .word⟩

theorem AllStem.of_gone {range span} (h : Dropped source e n range) :
    AllStem source d e U n (.gone range span) :=
  All.of_node (.gone h) (by simp)

theorem AllStem.of_untouched {m} (hm : m.Within n) (hU : ∀ k : Node, k.Within m → U k) :
    AllStem source d e U n (.untouched m) :=
  All.of_untouched fun k hk => .untouched (hk.trans hm) (hU k hk)

theorem Stems.of_besides (hcall : call.Within n)
    (hU : ∀ p ∈ call.besides, ∀ k : Node, k.Within p → U k) :
    ∀ p ∈ call.besides, ∀ k : Node, k.Within p → Stems source d e U n (.untouched k) :=
  fun p hp k hk => .untouched ((hk.trans (within_of_mem_besides hp)).trans hcall) (hU p hp k hk)

theorem AllStem.of_settled {w span} (h : AllStem source d e U n o)
    (hdropped : w.deferred.any (·.1 == span) → Dropped source e n (source.statementRange span)) :
    AllStem source d e U n (.settled source w span o) := by
  unfold Output.settled
  split
  · next hdeferred => exact of_gone (hdropped (Bool.and_eq_true_iff.1 hdeferred).1)
  · exact h

end

/-! What a walk keeps on its way. -/

namespace Walk

variable {source : Source}

/-- The statement at a place is dropped, at the latest when the walk leaves it. -/
def Drops (source : Source) (span : Span) (w : Walk) : Prop :=
  w.deferred.any (·.1 == span) ∨ ⟨source.statementRange span, []⟩ ∈ w.edits.edits

/-- The walk that goes on is in the same statements, has all edits, and drops what was dropped. -/
structure Leads (source : Source) (w w' : Walk) : Prop where
  statements : w'.statements = w.statements
  edits : w.edits.edits ⊆ w'.edits.edits
  drops : ∀ span, w.Drops source span → w'.Drops source span

theorem Leads.refl (w : Walk) : w.Leads source w :=
  ⟨rfl, fun _ h => h, fun _ h => h⟩

variable {w : Walk}

theorem Leads.trans {w' w''} (h : w.Leads source w') (h' : w'.Leads source w'') :
    w.Leads source w'' :=
  ⟨h'.statements.trans h.statements, fun _ hx => h'.edits (h.edits hx),
    fun span hx => h'.drops span (h.drops span hx)⟩

instance : Std.Refl (Leads source) :=
  ⟨.refl⟩

instance : IsTrans Walk (Leads source) :=
  ⟨fun _ _ _ => .trans⟩

theorem leads_withDraft (w : Walk) (d : Draft) : w.Leads source (w.withDraft d) :=
  ⟨rfl, fun _ h => h, fun _ h => h⟩

theorem leads_replace (w : Walk) (span : Span) (text : Text) :
    w.Leads source (w.replace span text) :=
  ⟨rfl, subset_append_left _ _, fun _ h => h.imp_right (mem_append_left _)⟩

theorem leads_defer (w : Walk) (call : Node) : w.Leads source (w.defer source call) := by
  unfold defer
  split
  · split
    · exact .refl w
    · refine ⟨rfl, fun _ h => h, fun span h => h.imp_left fun hany => ?_⟩
      rw [any_append, hany, Bool.true_or]
  · exact (leads_withDraft w _).trans (leads_replace _ _ _)

theorem drops_leave {other} (h : w.Drops source other) (span : Span) :
    (w.leave source span).Drops source other := by
  unfold leave
  split
  · exact h
  by_cases heq : other = span
  · subst heq
    exact .inr (by simp [replace, EditSet.replace])
  · refine h.imp (fun hany => ?_) (mem_append_left _)
    obtain ⟨entry, hentry, hother⟩ := any_eq_true.1 hany
    have hne : ¬(entry.1 == span) := by
      rw [beq_iff_eq] at hother ⊢
      exact fun hspan => heq (hother.symm.trans hspan)
    have hmem : entry ∈ w.deferred.eraseP (·.1 == span) :=
      (mem_eraseP_of_neg (p := fun x : Span × String => x.1 == span) hne).2 hentry
    exact any_eq_true.2 ⟨entry, hmem, hother⟩

theorem edits_leave (w : Walk) (span : Span) :
    w.edits.edits ⊆ (w.leave source span).edits.edits := by
  unfold leave
  split
  · exact fun _ h => h
  · exact subset_append_left _ _

theorem statements_leave (w : Walk) (span : Span) :
    (w.leave source span).statements = w.statements.tail := by
  unfold leave
  split <;> rfl

theorem leads_listed {s} (h : (w.enter s.span).Leads source ((w.enter s.span).visit source s)) :
    w.Leads source (w.listed source s) := by
  refine ⟨?_, fun _ hx => edits_leave _ _ (h.edits hx), fun span hx => ?_⟩
  · rw [listed, statements_leave, h.statements]
    rfl
  · exact drops_leave (h.drops span hx) s.span

theorem leads_visit (w : Walk) (n : Node) : w.Leads source (w.visit source n) :=
  visit_relates leads_replace (fun _ _ w d _ => leads_withDraft w d)
    (fun _ _ _ _ w _ _ => leads_withDraft w _) (fun _ _ _ => leads_listed)
    (fun call _ _ _ _ h => h.trans (leads_defer _ call)) w

theorem leads_visits (w : Walk) (ns : List Node) : w.Leads source (w.visits source ns) :=
  foldl_relates (R := Leads source) (fun n _ w => leads_visit w n) w

theorem leads_foldl (w : Walk) (ss : List Node) : w.Leads source (ss.foldl (listed source) w) :=
  foldl_relates (R := Leads source) (fun s _ _ => leads_listed (leads_visit _ s)) w

end Walk

/-! Walks through lists. -/

section

variable {source : Source}

theorem Walk.grows_visits (w : Walk) (ns : List Node) : w.draft.Grows (w.visits source ns).draft := by
  induction ns generalizing w with
  | nil => exact .refl _
  | cons n _ ih => exact (w.grows_visit source n).trans (ih _)

variable {w : Walk}

theorem Walk.draft_listed (w : Walk) (s : Node) :
    ((w.enter s.span).visit source s).draft.Grows (w.listed source s).draft ∧
      (((w.enter s.span).visit source s).draft.Tied → (w.listed source s).draft.Tied) := by
  unfold listed leave
  split
  · exact ⟨.refl _, fun h => h⟩
  · exact ⟨(Draft.grows_cut _ _).trans (Draft.grows_review _ _ _ _ _),
      fun h => ⟨h.setters, h.hookRefs⟩⟩

theorem Walk.reviews_listed {s}
    (h : ((w.enter s.span).visit source s).deferred.any (·.1 == s.span)) :
    ∃ reason code, (w.listed source s).draft.Reviews source reason code s.span.start := by
  unfold listed leave
  split
  · next hfind =>
    obtain ⟨entry, hentry, hspan⟩ := any_eq_true.1 h
    exact absurd hspan (find?_eq_none.1 hfind entry hentry)
  · exact ⟨_, _, Draft.reviews_review _ _ _ _ _⟩

theorem Walk.grows_listed (w : Walk) (ss : List Node) :
    w.draft.Grows (ss.foldl (listed source) w).draft := by
  induction ss generalizing w with
  | nil => exact .refl _
  | cons s _ ih =>
    have hvisit : w.draft.Grows ((w.enter s.span).visit source s).draft :=
      grows_visit source (w.enter s.span) s
    exact (hvisit.trans (w.draft_listed s).1).trans (ih _)

/-- What holds after a node in the end of a walk, held after its parts and in its statements: all
that was known is known to `e`, and the nodes that are left as they stand satisfy `U`. -/
structure Walk.Retraces (source : Source) (e : Draft) (U : Node → Prop) (C : Node → Walk → Prop) :
    Prop where
  draft : ∀ {n : Node} {w : Walk}, C n w → w.draft.Grows e
  before : ∀ {n : Node} {w w' : Walk}, C n w' → w.Leads source w' → w.draft.Grows w'.draft → C n w
  within : ∀ {m n : Node} {w : Walk}, C n w → m.Within n → C m w
  statement : ∀ {n s : Node} {w : Walk}, C n (w.listed source s) → s.Within n →
    C s ((w.enter s.span).visit source s)
  this : ∀ {n : Node} {w : Walk}, C n (w.visit source n) → n.kind = .this →
    ∀ k : Node, k.Within n → U k
  besides : ∀ {call : Node} {w : Walk}, C call (w.defer source call) → isUpdateCall call →
    w.statements.head?.isSome → ∀ p ∈ call.besides, ∀ k : Node, k.Within p → U k

theorem Walk.retraces_of_idle {e : Draft} {U : Node → Prop} :
    Retraces source e U fun n w => w.draft.Grows e ∧
      ∀ m : Node, m.Within n → ∀ p ∈ m.idle, ∀ k : Node, k.Within p → U k where
  draft h := h.1
  before h _ hd := ⟨hd.trans h.1, h.2⟩
  within h hm := ⟨h.1, fun k hk => h.2 k (hk.trans hm)⟩
  statement h hs := ⟨(draft_listed _ _).1.trans h.1, fun k hk => h.2 k (hk.trans hs)⟩
  this h hkind := h.2 _ .self _ (by simp [idle, hkind])
  besides h hcall _ := idle_of_isUpdateCall hcall ▸ h.2 _ .self

variable {e : Draft} {U : Node → Prop} {C : Node → Walk → Prop} {m : Node} {os : List Output}

theorem RewritesAll.exists_walk (hC : Retraces source e U C) {ns}
    (h : RewritesAll source w ns os) (htied : w.draft.Tied) (hends : C m (w.visits source ns))
    (ho : o ∈ os) : ∃ n ∈ ns, ∃ w' : Walk, Rewrites source w' n o ∧
      w.draft.Grows w'.draft ∧ w'.draft.Tied ∧ C m (w'.visit source n) := by
  induction ns generalizing w os with
  | nil =>
    cases h
    simp at ho
  | cons n ns ih =>
    cases h with
    | cons hn hns =>
      obtain rfl | ho := mem_cons.1 ho
      · exact ⟨n, by simp, w, hn, .refl _, htied,
          hC.before hends (leads_visits _ ns) (grows_visits _ ns)⟩
      · obtain ⟨m, hm, w', hw', hgrows, hrest⟩ := ih hns (tied_visit htied n) hends ho
        exact ⟨m, by simp [hm], w', hw', (w.grows_visit source n).trans hgrows, hrest⟩

theorem RewritesListed.exists_walk (hC : Retraces source e U C) {ss}
    (h : RewritesListed source w ss os) (hss : ∀ s ∈ ss, s.Within m) (htied : w.draft.Tied)
    (hends : C m (ss.foldl (listed source) w)) (ho : o ∈ os) :
    ∃ s ∈ ss, ∃ (w' : Walk) (o' : Output), Rewrites source w' s o' ∧
      o = .settled source (w'.visit source s) s.span o' ∧ w.draft.Grows w'.draft ∧
      w'.draft.Tied ∧ C s (w'.visit source s) ∧
      ((w'.visit source s).deferred.any (·.1 == s.span) →
        ∃ reason code, e.Reviews source reason code s.span.start) := by
  induction ss generalizing w os with
  | nil =>
    cases h
    simp at ho
  | cons s ss ih =>
    cases h with
    | cons hs hss' =>
      obtain rfl | ho := mem_cons.1 ho
      · have hlisted : C m (w.listed source s) :=
          hC.before hends (leads_foldl _ ss) (grows_listed _ ss)
        refine ⟨s, by simp, w.enter s.span, _, hs, rfl, .refl _, htied,
          hC.statement hlisted (hss s (by simp)), fun hdeferred => ?_⟩
        obtain ⟨reason, code, hreviews⟩ := reviews_listed hdeferred
        exact ⟨reason, code, hreviews.grows (hC.draft hlisted)⟩
      · have hvisit : w.draft.Grows ((w.enter s.span).visit source s).draft :=
          grows_visit source (w.enter s.span) s
        have htied' : (w.listed source s).draft.Tied :=
          (w.draft_listed s).2 (tied_visit (w := w.enter s.span) htied s)
        obtain ⟨k, hk, w', o', hw', heq, hgrows, hrest⟩ :=
          ih hss' (fun k hk => hss k (by simp [hk])) htied' hends ho
        exact ⟨k, by simp [hk], w', o', hw', heq,
          (hvisit.trans (w.draft_listed s).1).trans hgrows, hrest⟩

end

/-! Names that are written. -/

section

variable {source : Source}

variable {n : Node}

theorem knows_of_memberReplacement? {draft} (htied : draft.Tied) {symbols}
    (h : memberReplacement? draft n = some (name, symbols)) :
    ({ draft with symbols } : Draft).Knows name := by
  have href : draft.symbols.isRef name → draft.Knows name :=
    fun h => .inl (by simp [contains, h])
  cases memberMeans h with
  | bag => exact .inr (.inr (by simp [freeNames]))
  | known _ hknown =>
    rcases hknown with hmethod | hknown
    · exact .inr (.inl hmethod)
    · exact href hknown
  | state => exact .inl (by simp [contains, isState_addState])
  | prop => exact .inl (by simp [contains, isProp_addProp])
  | current _ _ htarget =>
    rcases htarget with ⟨-, hknown⟩ | ⟨-, hmem⟩
    · exact href hknown
    · exact href (htied.hookRefs _ hmem)

theorem grows_foldl_addState (entries : List (String × Node)) (d : Draft) :
    d.Grows (entries.foldl (fun d entry => d.withSymbols (·.addState entry.1 none)) d) := by
  induction entries generalizing d with
  | nil => exact .refl d
  | cons entry _ ih =>
    exact (d.grows_withSymbols fun t => t.grows_addState entry.1 none).trans (ih _)

theorem isState_foldl_addState (entries : List (String × Node)) (d : Draft) :
    ∀ entry ∈ entries, (entries.foldl
      (fun d entry => d.withSymbols (·.addState entry.1 none)) d).symbols.isState entry.1 := by
  induction entries generalizing d with
  | nil => simp
  | cons _ rest ih =>
    intro entry hentry
    obtain rfl | hentry := mem_cons.1 hentry
    · exact (grows_foldl_addState rest _).symbols.state _ (isState_addState _ _ _)
    · exact ih _ entry hentry

namespace Visit.Update

theorem grows_note (u : Update Unit) (d : Draft) : d.Grows (u.note d) := by
  unfold note
  split
  · exact grows_foldl_addState _ d
  · exact (grows_foldl_addState _ d).trans (Draft.grows_addHelper _ _)

theorem isState_note (u : Update Unit) (d : Draft) :
    ∀ entry ∈ u.entries, (u.note d).symbols.isState entry.1 := by
  intro entry hentry
  unfold note
  split <;> exact isState_foldl_addState _ _ entry hentry

end Visit.Update

theorem Walk.grows_defer (w : Walk) (call : Node) : w.draft.Grows (w.defer source call).draft := by
  unfold defer
  split
  · split <;> exact .refl _
  · exact Draft.grows_review _ _ _ _ _

theorem Inner.within_output {m p} (h : Inner n o m p) : p.Within o := by
  induction h with
  | refl => exact .self
  | kid _ hmem _ ih => exact .kid (of_mem_zip hmem).2 ih

theorem RewritesAll.all_updates {S : Output → Prop} {K T : String → Prop}
    (hS : Output.Fits S K T) {w args os u v} (h : RewritesAll source w args os)
    (hu : update? args = some u) (hv : update? os = some v)
    (hos : ∀ o ∈ os, All S o) (hkeys : ∀ entry ∈ u.entries, T entry.1) (span : Span) :
    ∀ o ∈ Output.updates span v, All S o := by
  have hsame := h.sameUpdate hu hv
  have hcarried : ∀ {k : Node} {p : Output}, Carried source (fun _ => True) args os k p →
      All S p := by
    rintro k p ⟨⟨a, ha, hinner⟩, -⟩
    exact All.part (hos a.2 (of_mem_zip ha).2) hinner.within_output
  refine All.of_updates hS (fun entry hentry => ?_) fun callback hcallback => ?_
  · obtain ⟨entry', hentry', hkey, hvalue⟩ := exists_mem_of_forall₂ hsame.entries hentry
    exact ⟨hkey ▸ hkeys entry' hentry', hcarried hvalue⟩
  · have hrel := hsame.callback
    rw [Option.mem_def.1 hcallback] at hrel
    generalize u.callback = before at hrel
    cases hrel with
    | some hvalue => exact hcarried hvalue

theorem Rewrites.allStem_of_retraces {d e : Draft} {U : Node → Prop} {C : Node → Walk → Prop}
    (hC : Retraces source e U C) {w} (h : Rewrites source w n o) (htied : w.draft.Tied)
    (hd : d.Grows w.draft) (he : C n (w.visit source n)) : AllStem source d e U n o := by
  induction n using inside_induction generalizing w o with
  | h n ih =>
    have hin : ∀ {m : Node} {w : Walk} {o : Output}, m.Inside n → Rewrites source w m o →
        w.draft.Tied → d.Grows w.draft → C m (w.visit source m) → AllStem source d e U n o :=
      fun hm hw htied hd he => (ih _ hm hw htied hd he).within hm.within
    have hall : ∀ {ns : List Node} {w : Walk} {os : List Output}, (∀ k ∈ ns, k.Inside n) →
        RewritesAll source w ns os → w.draft.Tied → d.Grows w.draft → C n (w.visits source ns) →
        ∀ o ∈ os, AllStem source d e U n o := by
      intro _ w os hns hos htied hd he o ho
      obtain ⟨k, hk, w', hw, hgrows, htied', he'⟩ := hos.exists_walk hC htied he ho
      exact hin (hns k hk) hw htied' (hd.trans hgrows) (hC.within he' (hns k hk).within)
    have hlisted : ∀ {ss : List Node} {w : Walk} {os : List Output}, (∀ s ∈ ss, s.Inside n) →
        RewritesListed source w ss os → w.draft.Tied → d.Grows w.draft →
        C n (ss.foldl (listed source) w) → ∀ o ∈ os, AllStem source d e U n o := by
      intro _ w os hss hos htied hd he o ho
      obtain ⟨s, hs, _, _, hw, rfl, hgrows, htied', he', hreviews⟩ :=
        hos.exists_walk hC (fun s hs => (hss s hs).within) htied he ho
      refine (hin (hss s hs) hw htied' (hd.trans hgrows) he').of_settled fun hdeferred => ?_
      obtain ⟨_, _, hreview⟩ := hreviews hdeferred
      exact .review (hss s hs).within hreview
    have hargs : ∀ {m : Node} {os : List Output}, m.Within n →
        RewritesAll source w m.arguments os → C n (w.visits source m.arguments) →
        ∀ o ∈ os, AllStem source d e U n o :=
      fun hm hos => hall (fun a ha => (inside_of_mem_arguments ha).trans_within hm) hos htied hd
    have hupdates : ∀ {m : Node} {os : List Output} {u : Update Unit}
        {v : Update Layout} (span : Span), m.Within n → RewritesAll source w m.arguments os →
        update? m.arguments = some u → update? os = some v →
        C n ((w.visits source m.arguments).withDraft
          (u.note (w.visits source m.arguments).draft)) →
        ∀ o ∈ Output.updates span v, AllStem source d e U n o := by
      intro m os u v span hm hos hu hv he
      have hkeys : ∀ entry ∈ u.entries, e.symbols.isState entry.1 :=
        fun entry hentry => (hC.draft he).symbols.state _ (u.isState_note _ entry hentry)
      exact hos.all_updates Stems.fits hu hv
        (hargs hm hos (hC.before he (leads_withDraft _ _) (u.grows_note _))) hkeys span
    have hdeferred : ∀ {m : Node} {os : List Output}, m.Within n → isUpdateCall m →
        RewritesAll source w m.arguments os →
        C n ((w.visits source m.arguments).defer source m) →
        AllStem source d e U n (.deferred (w.visits source m.arguments) m os) := by
      intro m os hm hcall hos he
      exact All.of_deferred Stems.fits
        (fun hhead => Stems.of_besides hm (hC.besides (hC.within he hm) hcall hhead))
        (hargs hm hos (hC.before he (leads_defer _ m) (grows_defer _ m)))
    cases h with
    | kept hp hkids =>
      rw [visit_of_passes hp] at he
      exact All.of_node (.kept .self hd hp hkids)
        (hall (fun k hk => inside_of_mem_kids hk) hkids htied hd he)
    | this => exact .of_untouched .self (hC.this he rfl)
    | block hss =>
      rw [visit_block] at he
      exact All.of_frame Stems.fits rfl
        (hlisted (fun k hk => inside_of_mem_kids hk) hss htied hd he)
    | @switchCase _ span test body _ os htest hbody =>
      rw [visit_switchCase] at he
      have hmem : body ∈ (node () .switchCase span [test, body]).kids := by simp
      have hinside : test.Inside (.node () .switchCase span [test, body]) :=
        inside_of_mem_kids (by simp)
      have htestStem := hin hinside htest htied hd (hC.within
        (hC.before he (leads_foldl _ _) (grows_listed _ _)) hinside.within)
      have hbodyStem : AllStem source d e U (node () .switchCase span [test, body])
          (.node .kept body.kind body.span os) :=
        All.of_node (.caseBody .self) (hlisted
          (fun k hk => (inside_of_mem_kids hk).trans_within (.kid hmem .self)) hbody
          (tied_visit htied test) (hd.trans (w.grows_visit source test)) he)
      exact All.of_frame Stems.fits rfl
        (forall_mem_cons.2 ⟨htestStem, forall_mem_singleton.2 hbodyStem⟩)
    | @bag _ _ span kids os hp hkids =>
      rw [visit_bag _ _ hp] at he
      exact All.of_node .bag (hall (w := w.replace span _) (fun k hk => inside_of_mem_kids hk) hkids
        htied hd he)
    | member hp =>
      rw [visit_member hp] at he
      exact All.of_name Stems.fits ((knows_of_memberReplacement? htied hp).grows (hC.draft he))
    | declaration h => exact .of_gone (.declaration .self htied rfl h (hC.draft he))
    | @update _ span kids os u v hcall hos hu hv =>
      rw [visit_update hcall] at he
      simp only [hu] at he
      have hparts := hupdates span .self hos hu hv (hC.before he (leads_replace _ _ _) (.refl _))
      exact All.of_glue Stems.fits rfl
        (forall_mem_singleton.2 (All.of_sequence Stems.fits hparts))
    | updateDeferred hcall hos hu =>
      rw [visit_update hcall] at he
      simp only [hu] at he
      exact hdeferred .self hcall hos he
    | @updateStatement _ span e' os u v hcall hos hu hv =>
      rw [visit_updateStatement hcall] at he
      simp only [hu] at he
      refine All.of_node .lines fun o ho => ?_
      obtain ⟨part, hpart, rfl⟩ := mem_map.1 ho
      refine All.of_glue Stems.fits rfl (forall_mem_singleton.2
        (hupdates span (unparen_within_statement () span e') hos hu hv ?_ part hpart))
      split at he <;> exact hC.before he
        ((leads_withDraft _ _).trans (leads_replace _ _ _)) (Draft.grows_cut _ _)
    | @emptyUpdateStatement _ span e' os u v hcall hos hu hv hnil =>
      have hsame := hos.sameUpdate hu hv
      obtain ⟨hentries, hcallback⟩ := append_eq_nil_iff.1 hnil
      have hentries' : u.entries = [] := by
        have hsameEntries := hsame.entries
        rw [map_eq_nil_iff.1 hentries] at hsameEntries
        exact forall₂_nil_right_iff.1 hsameEntries
      have hcallback' : u.callback = none := by
        have hrel := hsame.callback
        have hnone : v.callback = none := by simpa using hcallback
        rw [hnone] at hrel
        generalize u.callback = before at hrel
        cases hrel
        rfl
      exact .of_gone (.update .self (unparen_within_statement () span e') hcall hu hentries' hcallback')
    | @updateStatementDeferred _ span e' os hcall hos hu =>
      rw [visit_updateStatement hcall] at he
      simp only [hu] at he
      have hcallStem := hdeferred (unparen_within_statement () span e') hcall hos he
      exact All.of_frame Stems.fits rfl
        (forall_mem_singleton.2 (All.of_wrap Stems.fits hcallStem))
    | bound hupdate hbound hmethod =>
      rw [visit_bound hupdate hbound] at he
      have hinside := boundMethod?_inside hbound
      have hstem := hin hinside hmethod htied hd
        (hC.within (hC.before he (leads_replace _ _ _) (.refl _)) hinside.within)
      exact All.of_node .bound (forall_mem_singleton.2 hstem)
    | @setter _ span kids _ target hupdate hbound hset hos =>
      rw [visit_setter hupdate hbound hset] at he
      have he := hC.before he (leads_replace _ _ _) (.refl _)
      have hstate : e.symbols.isState target := by
        obtain ⟨_, -, hget⟩ := Option.bind_eq_some_iff.1 hset
        have hgrows := (w.grows_visits (arguments (.node () .call span kids : Node))).trans
          (hC.draft he)
        exact hgrows.symbols.state _ (htied.setters _ (Table.mem_of_get? hget))
      have hknown : e.Knows target := .inl (by simp [contains, hstate])
      exact All.of_assignment Stems.fits hstate
        (All.of_setValue Stems.fits hknown (hargs .self hos he))

theorem Rewrites.allStem {w} (h : Rewrites source w n o) (htied : w.draft.Tied) {d e}
    (hd : d.Grows w.draft) (he : (w.visit source n).draft.Grows e) {U : Node → Prop}
    (hU : ∀ m : Node, m.Within n → ∀ p ∈ m.idle, ∀ k : Node, k.Within p → U k) :
    AllStem source d e U n o :=
  h.allStem_of_retraces retraces_of_idle htied hd ⟨he, hU⟩

/-! Codes. -/

theorem Output.text_untouched (n : Node) : (untouched n).text source = source.slice n.span := by
  have hpieces : pieces source [untouched n] = [] := pieces_untouched n
  obtain ⟨⟨⟩, kind, span, kids⟩ := n
  have hkept : untouched (.node () kind span kids) = .node .kept kind span (kids.map untouched) :=
    relabel_node ..
  rw [hkept, pieces_kept] at hpieces
  rw [hkept, text, hpieces]
  rfl

namespace Code

def node : Code → Node
  | .rendered _ n => n
  | .deferred _ call => call
  | .copied n => n

def start : Code → Draft
  | .rendered w _ | .deferred w _ => w.draft
  | .copied _ => {}

def Orderly (source : Source) : Code → Prop
  | .rendered w n => w = { draft := w.draft } ∧ n.orderly source w.draft.scope.propsBag ∧
    solid source n
  | .deferred .. => False
  | .copied _ => True

/-- The code is a tree with the property `P`; if it is orderly, its text is that of the tree. -/
def Spells (source : Source) (P : Output → Prop) (c : Code) : Prop :=
  ∃ o : Output, c.Becomes source o ∧ P o ∧ (c.Orderly source → c.text source = o.text source)

theorem exists_becomes (source : Source) (c : Code) : ∃ o, c.Becomes source o := by
  cases c with
  | rendered w n => exact exists_rewrites source n w
  | deferred w =>
    obtain ⟨os, hos⟩ := exists_rewritesAll (fun n _ => exists_rewrites source n) w
    exact ⟨_, os, hos, rfl⟩
  | copied => exact ⟨_, rfl⟩

variable {c : Code}

theorem text_eq (h : c.Becomes source o) (ho : c.Orderly source) :
    c.text source = o.text source := by
  cases c with
  | rendered w n =>
    obtain ⟨hw, horderly, hsolid⟩ := ho
    rw [hw] at h ⊢
    exact (render_text n).symm.trans (render_ofNode h horderly hsolid)
  | deferred => exact ho.elim
  | copied n =>
    obtain rfl := h
    exact (Output.text_untouched n).symm

theorem spells {P : Output → Prop} (h : ∀ o, c.Becomes source o → P o) : c.Spells source P := by
  obtain ⟨o, ho⟩ := c.exists_becomes source
  exact ⟨o, ho, h o ho, text_eq ho⟩

theorem allStem {e} (hknown : c.KnownTo source e) (h : c.Becomes source o) :
    AllStem source c.start e (fun _ => True) c.node o := by
  cases c with
  | rendered w n =>
    exact Rewrites.allStem h hknown.1 (.refl _) hknown.2 fun _ _ _ _ _ _ => trivial
  | deferred w call =>
    obtain ⟨_, hos, rfl⟩ := h
    refine All.of_withArguments Stems.fits (Stems.of_besides .self fun _ _ _ _ => trivial)
      fun o ho => ?_
    have hC := @retraces_of_idle source e fun _ => True
    obtain ⟨a, ha, _, hw, hgrows, htied, he⟩ := hos.exists_walk (m := call) hC hknown.1
      ⟨hknown.2, fun _ _ _ _ _ _ => trivial⟩ ho
    have hstem := hw.allStem htied hgrows he.1 fun _ _ _ _ _ _ => trivial
    exact hstem.within (inside_of_mem_arguments ha).within
  | copied =>
    obtain rfl := h
    exact .of_untouched .self fun _ _ => trivial

end Code

end

end Sveltify
