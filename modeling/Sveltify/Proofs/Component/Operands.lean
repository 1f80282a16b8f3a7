import Sveltify.Proofs.Component.ControlFlow

/-! Operands. An update in an expression becomes an assignment or a sequence of assignments. The code
is grammatical where every operand binds as tight as its place asks for: a sequence stands in
parentheses, but the assignment that a setter becomes does not, so that it may only stand where an
assignment may. -/

namespace Sveltify

open List
open Script (Node Kind)
open Script.Tree Visit

namespace Script

def Kind.level : Kind → Nat
  | .sequence => 0
  | .assign _ | .arrow _ | .yield => 1
  | .conditional => 2
  | .binary operator => 2 + (Grammar.precedence operator).getD 1
  | .unary _ | .await | .cast | .constCast => 14
  | .update _ _ => 15
  | .call | .chainCall | .chain | .taggedTemplate | .nonNull | .instantiation => 16
  | .member | .superMember | .new | .metaProperty => 17
  | _ => 18

theorem Kind.level_le (kind : Kind) : kind.level ≤ 18 := by
  have hstrength : ∀ operator, (Grammar.precedence operator).getD 1 ≤ 11 := by
    intro operator
    unfold Grammar.precedence
    split <;> simp
  cases kind <;> simp [level]
  case binary operator =>
    have := hstrength operator
    omega

def Kind.needs : Kind → Nat → Nat
  | .binary operator, i =>
    let strength := (Grammar.precedence operator).getD 1
    if i == 0 || operator == "**" then 2 + strength else 3 + strength
  | .unary _, _ | .await, _ => 14
  | .update _ _, _ => 15
  | .conditional, i => if i == 0 then 3 else 1
  | .assign _, i => if i == 0 then 15 else 1
  | .member, 0 | .call, 0 | .chainCall, 0 | .chain, 0 | .taggedTemplate, 0 | .nonNull, 0
  | .instantiation, 0 | .decorator, 0 | .classBody, 2 => 16
  | .new, 0 => 17
  | .cast, 0 | .constCast, 0 => 9
  | .sequence, _ | .list, _ | .array, _ | .spread, _ | .yield, _ | .arrow _, _ | .property, _
  | .declarator, _ | .assignPattern, _ | .defaulted, _ | .forOf, _ | .classField _, _
  | .exportDefaultExpr, _ => 1
  | _, _ => 0

/-- An `in` in the part with the number `i` stands in no brackets of the node. -/
def Kind.exposes : Kind → Nat → Bool
  | .binary _, _ | .sequence, _ | .yield, _ | .variableDecl _, _ => true
  | .assign _, i | .arrow _, i | .declarator, i => i == 1
  | .conditional, i => i != 1
  | _, _ => false

def Kind.isIn : Kind → Bool
  | .binary operator => operator == "in"
  | _ => false

def isVariable (name : String) : Bool :=
  (Token.readWord (.ofText name.toList)).any fun (scan, stop) =>
    stop.rest.isEmpty && !scan.escaped && !plainWords.contains name &&
      !Grammar.strictWords.contains name

def isTarget (name : String) : Bool :=
  isVariable name && name != "eval" && name != "arguments"

namespace Tree

variable {α : Type}

mutual

/-- An `in` stands in the tree outside of brackets, where `e` are the parts that are looked at. -/
def bareIn (e : Script.Tree α → Nat → Bool) : Script.Tree α → Bool
  | .node l kind span kids =>
    kind.isIn || bareInFrom e (e (.node l kind span kids)) 0 kids

/-- An `in` stands in those parts that are looked at, numbered from `i` on. -/
def bareInFrom (e : Script.Tree α → Nat → Bool) (looks : Nat → Bool) (i : Nat) : List (Script.Tree α) → Bool
  | [] => false
  | t :: ts => looks i && bareIn e t || bareInFrom e looks (i + 1) ts

end

variable {e : Script.Tree α → Nat → Bool}

theorem bareInFrom_eq_false_iff {looks i ts} :
    bareInFrom e looks i ts = false ↔
      ∀ j t, ts[j]? = some t → looks (i + j) → t.bareIn e = false := by
  induction ts generalizing i with
  | nil => simp [bareInFrom]
  | cons t _ ih =>
    rw [bareInFrom, Bool.or_eq_false_iff, ih]
    constructor
    · rintro ⟨hfirst, hrest⟩ (_ | j) u hu hj
      · obtain rfl : t = u := by simpa using hu
        simpa [show looks i by simpa using hj] using hfirst
      · exact hrest j u (by simpa using hu) (by rwa [show i + 1 + j = i + (j + 1) by omega])
    · intro h
      refine ⟨?_, fun j u hu hj => h (j + 1) u (by simpa using hu) ?_⟩
      · cases hi : looks i with
        | false => rfl
        | true => simpa using h 0 t rfl hi
      · rwa [show i + (j + 1) = i + 1 + j by omega]

theorem bareIn_eq_false_iff {t} : t.bareIn e = false ↔
    t.kind.isIn = false ∧ ∀ i k, t.kids[i]? = some k → e t i → k.bareIn e = false := by
  obtain ⟨l, _, _, _⟩ := t
  rw [bareIn, Bool.or_eq_false_iff, bareInFrom_eq_false_iff]
  simp

/-! What is asked of the source. -/

/-- A call that may be one of a setter, where only `names` may be names of setters. -/
def maySet (names : List String) (n : Node) : Bool :=
  (n.callee?.bind ident?).any names.contains

def isVoidUpdate (n : Node) : Bool :=
  isUpdateCall n &&
    (update? n.arguments).any fun u => u.entries.isEmpty && u.callback.isNone

/-- The node may stand, as it is and when it is rewritten, where an operand has to bind as tight as
`need`. -/
def stands (names : List String) (need : Nat) (n : Node) : Bool :=
  need ≤ n.kind.level && (need ≤ 1 || !n.maySet names) && !n.isVoidUpdate

/-- The parts in which an `in` is exposed when setters have become assignments. -/
def exposed (names : List String) (n : Node) (i : Nat) : Bool :=
  n.kind.exposes i || n.maySet names && i == 1 ||
    match n.kind with
    | .list | .spread => true
    | _ => false

def isUpdateStatement (n : Node) : Bool :=
  match n.kind, n.kids with
  | .expression, [e] => isUpdateCall e.unparen
  | _, _ => false

def namedAt (n : Node) : Bool :=
  match n.kind with
  | .ident name => isVariable name
  | .member => !n.mayRead || n.memberName?.all isVariable
  | .call => !isUpdateCall n ||
    (update? n.arguments).all fun u => u.entries.all fun entry => isTarget entry.1
  | _ => true

def steadyAt (scope : ComponentScope) (names : List String) (n : Node) : Bool :=
  (n.isUpdateStatement || n.kids.zipIdx.all fun (k, i) => k.stands names (n.kind.needs i)) &&
    n.namesAt scope names && n.namedAt &&
    match n.kind, n.kids with
    | .sequence, kids => !kids.isEmpty
    | .for, init :: _ => !init.bareIn (exposed names)
    | .switchCase, [_, body] => body.isList
    | _, _ => true

theorem bareIn_of_closed {t} (hin : t.kind.isIn = false) (he : ∀ i, e t i = false) :
    t.bareIn e = false :=
  bareIn_eq_false_iff.2 ⟨hin, fun i k _ hi => by simp [he] at hi⟩

end Tree

end Script

namespace Output

def level : Output → Nat
  | .node (.word _) .list _ [o] => level o
  | o => o.kind.level

def exposed (o : Output) (i : Nat) : Bool :=
  o.kind.exposes i

/-- No sequence is empty, no `in` is exposed at the start of a loop, and what is read and assigned to
are variables. -/
def filledAt (l : Layout) (kind : Kind) (os : List Output) : Bool :=
  match l, kind, os with
  | _, .sequence, os => !os.isEmpty
  | _, .for, init :: _ => !init.bareIn exposed
  | .made, .assign _, target :: _ => target.ident?.any Script.isTarget
  | .word text, .ident _, _ => Script.isVariable (String.ofList text)
  | _, _, _ => true

/-- Code that is grammatical at its root, where every part binds as tight as its place asks for. -/
def soundAt (o : Output) : Bool :=
  o.kids.zipIdx.all (fun (k, i) => o.kind.needs i ≤ level k) && filledAt o.label o.kind o.kids

end Output

section

variable {source : Source} {scope : ComponentScope} {names : List String} {w : Walk} {n : Node}
variable {o : Output}

/-- A walk that knows no setters, and no variables that they set, but `names`. -/
structure Walk.Knows (scope : ComponentScope) (names : List String) (w : Walk) : Prop where
  inScope : w.InScope scope
  setters : ∀ entry ∈ w.draft.scope.setters, entry.1 ∈ names ∧ entry.2 ∈ names

theorem namesAt_of_steady (h : n.every (steadyAt scope names)) : n.every (namesAt scope names) := by
  refine every_imp (fun m hm => ?_) h
  simp only [steadyAt, Bool.and_eq_true] at hm
  exact hm.1.1.2

theorem Walk.Knows.visit (h : w.Knows scope names) (hn : n.every (steadyAt scope names)) :
    (w.visit source n).Knows scope names where
  inScope := h.inScope.visit n
  setters := setters_visit (namesAt_of_steady hn) (fun _ _ hs hx => ⟨hs, hx⟩) h.inScope h.setters

theorem Walk.Knows.enter (h : w.Knows scope names) (span : Span) :
    (w.enter span).Knows scope names :=
  ⟨h.inScope, h.setters⟩

theorem Walk.leave_scope (w : Walk) (span : Span) :
    (w.leave source span).draft.scope = w.draft.scope := by
  unfold leave
  split <;> rfl

theorem Walk.Knows.listed (h : w.Knows scope names) (hn : n.every (steadyAt scope names)) :
    (w.listed source n).Knows scope names := by
  have hvisit : ((w.enter n.span).visit source n).Knows scope names := (h.enter n.span).visit hn
  obtain ⟨hscope, _⟩ := hvisit
  exact ⟨(congrArg _ (leave_scope _ n.span)).trans hscope, by rwa [Walk.listed, leave_scope]⟩

theorem namedAt_of_steadyAt (h : n.steadyAt scope names) : n.namedAt := by
  simp only [steadyAt, Bool.and_eq_true] at h
  exact h.1.2

variable {os : List Output} {args : List Node} {k : Node}

theorem stands_of_steadyAt {i} (h : n.steadyAt scope names)
    (hn : n.isUpdateStatement = false) (hk : n.kids[i]? = some k) :
    k.stands names (n.kind.needs i) := by
  simp only [steadyAt, hn, Bool.and_eq_true] at h
  exact all_eq_true.1 h.1.1.1 (k, i) (mem_zipIdx_iff_getElem?.2 hk)

theorem maySet_of_setVariable? {target} (hw : w.Knows scope names)
    (h : setVariable? w.draft n = some target) : n.maySet names ∧ target ∈ names := by
  obtain ⟨_, hname, hget⟩ := Option.bind_eq_some_iff.1 h
  obtain ⟨hs, ht⟩ := hw.setters _ (Table.mem_of_get? hget)
  exact ⟨by simpa [maySet, hname] using hs, ht⟩

theorem stands_boundMethod {method} (hn : n.every (steadyAt scope names))
    (h : boundMethod? n = some method) : method.stands names 16 := by
  obtain ⟨_, hmember, -, hobject⟩ := exists_of_boundMethod? h
  obtain ⟨callee, hcallee, rfl⟩ := exists_of_calleeMember? hmember
  have hwithin : callee.unparen.Within n :=
    (unparen_within callee).trans (inside_of_mem_kids (callee?_mem_kids hcallee)).within
  have hsteady := hwithin.of_every hn
  generalize callee.unparen = m at hobject hsteady
  fun_cases memberObject? m with
  | case1 l _ object =>
    obtain rfl : object = method := by simpa [memberObject?] using hobject
    exact stands_of_steadyAt (i := 0) hsteady rfl rfl
  | case2 => simp [memberObject?] at hobject

theorem exists_getElem?_of_forall₂ {α β : Type} {R : α → β → Prop} {as bs}
    (h : List.Forall₂ R as bs) {a} {i : Nat} (ha : as[i]? = some a) :
    ∃ b, bs[i]? = some b ∧ R a b := by
  obtain ⟨hi, rfl⟩ := List.getElem?_eq_some_iff.1 ha
  have hi' : i < bs.length := h.length_eq ▸ hi
  exact ⟨bs[i], List.getElem?_eq_some_iff.2 ⟨hi', rfl⟩, h.get hi hi'⟩

theorem Output.bareIn_setValue (span : Span) (target : String)
    (h : ∀ a rest o rest', args = a :: rest → os = o :: rest' →
      o.spreadValue.bareIn Output.exposed = false) :
    (Output.setValue span target (Output.setArgument args os)).bareIn Output.exposed = false := by
  fun_cases Output.setArgument args os with
  | case1 a rest o rest' =>
    cases a.spreadValue.unparen.isFunction with
    | false => exact h a rest o rest' rfl rfl
    | true => exact bareIn_of_closed rfl fun _ => rfl
  | case2 => exact bareIn_of_closed rfl fun _ => rfl

theorem bareIn_argument {a rest} (hset : n.maySet names)
    (harguments : n.arguments = a :: rest) (h : n.bareIn (exposed names) = false) :
    a.spreadValue.bareIn (exposed names) = false := by
  fun_cases arguments n with
  | case1 l span callee _ _ args =>
    obtain rfl : args = a :: rest := harguments
    have hlist := (bareIn_eq_false_iff.1 h).2 1 _ rfl (by simp [exposed, hset])
    have ha := (bareIn_eq_false_iff.1 hlist).2 0 a rfl (by simp [exposed])
    fun_cases spreadValue a with
    | case1 l _ value => exact (bareIn_eq_false_iff.1 ha).2 0 value rfl (by simp [exposed])
    | case2 => exact ha
  | case2 => simp [maySet, callee?] at hset
  | case3 => simp [arguments] at harguments

/-! What is made of a steady tree is grammatical. -/

namespace Output

def Sound (o : Output) : Prop :=
  o.every soundAt

variable {os : List Output}

theorem sound_node {l kind span}
    (hlevels : ∀ i p, os[i]? = some p → kind.needs i ≤ level p) (hfilled : filledAt l kind os)
    (hos : ∀ o ∈ os, Sound o) : Sound (.node l kind span os) := by
  have hparts : os.zipIdx.all (fun (p, i) => kind.needs i ≤ level p) := by
    rw [all_eq_true]
    rintro ⟨p, i⟩ hp
    exact decide_eq_true (hlevels i p (mem_zipIdx_iff_getElem?.1 hp))
  refine every_node_iff.2 ⟨?_, hos⟩
  rw [soundAt, kind_node, kids_node, hparts]
  exact hfilled

theorem filledAt_kept {kind} (hsequence : kind = .sequence → os ≠ [])
    (hfor : kind = .for → ∀ p rest, os = p :: rest → p.bareIn exposed = false) :
    filledAt .kept kind os := by
  unfold filledAt
  split
  · simpa using hsequence rfl
  · next init rest => simpa using hfor rfl init rest rfl
  all_goals first | rfl | contradiction

theorem forall_getElem?_cons {α : Type} {P : Nat → α → Prop} {a as} :
    (∀ i b, (a :: as)[i]? = some b → P i b) ↔ P 0 a ∧ ∀ i b, as[i]? = some b → P (i + 1) b := by
  constructor
  · exact fun h => ⟨h 0 a rfl, fun i b hb => h (i + 1) b (by simpa using hb)⟩
  · rintro ⟨hfirst, hrest⟩ (_ | i) b hb
    · obtain rfl : a = b := by simpa using hb
      exact hfirst
    · exact hrest i b (by simpa using hb)

variable (span : Span)

theorem sound_name {id} (h : Script.isVariable id) : Sound (name span id) := by
  refine sound_node (by simp) ?_ (by simp)
  simpa [filledAt] using h

theorem sound_assignment {target o} (ht : Script.isTarget target)
    (ho : Sound o) (hlevel : 1 ≤ level o) : Sound (assignment span target o) := by
  have hname : Script.isVariable target := by
    simp only [Script.isTarget, Bool.and_eq_true] at ht
    exact ht.1.1
  refine sound_node ?_ ht (by simpa using ⟨sound_name span hname, ho⟩)
  rw [forall_getElem?_cons, forall_getElem?_cons]
  exact ⟨show 15 ≤ 18 by omega, hlevel, by simp⟩

theorem sound_parenthesized {o} (ho : Sound o) : Sound (parenthesized span o) :=
  sound_node (fun i p _ => Nat.zero_le _) rfl (by simpa using ho)

theorem sound_list {l} (hos : ∀ o ∈ os, Sound o ∧ 1 ≤ level o) :
    Sound (.node l .list span os) := by
  refine sound_node (fun i p hp => (hos p (mem_of_getElem? hp)).2) ?_ fun o ho => (hos o ho).1
  cases l <;> rfl

theorem sound_call {callee args} (hc : Sound callee)
    (hlevel : 16 ≤ level callee) (hargs : ∀ o ∈ args, Sound o ∧ 1 ≤ level o) :
    Sound (call span callee args) := by
  have htypes : Sound (.node .made .absent span []) := sound_node (by simp) rfl (by simp)
  refine sound_node ?_ rfl (by simpa using ⟨hc, sound_list span hargs, htypes⟩)
  rw [forall_getElem?_cons]
  exact ⟨hlevel, fun i p _ => Nat.zero_le _⟩

theorem sound_afterUpdate {o} (ho : Sound o) (hlevel : 1 ≤ level o) :
    Sound (afterUpdate span o) := by
  have htick : Sound (call span (name span "tick") []) :=
    sound_call span (sound_name span (by decide)) (show 16 ≤ 18 by omega) (by simp)
  have hword : Sound (.node (.word "then".toList) (.word "then") span []) :=
    sound_node (by simp) rfl (by simp)
  refine sound_call span ?_ (show 16 ≤ 17 by omega) (by simpa using ⟨ho, hlevel⟩)
  refine sound_node ?_ rfl (by simpa using ⟨htick, hword⟩)
  rw [forall_getElem?_cons]
  exact ⟨show 16 ≤ 16 by omega, fun i p _ => Nat.zero_le _⟩

theorem sound_sequence (hne : os ≠ []) (hos : ∀ o ∈ os, Sound o ∧ 1 ≤ level o) :
    Sound (sequence span os) := by
  fun_cases sequence span os with
  | case1 o => exact (hos o (by simp)).1
  | case2 =>
    refine sound_node (fun i p hp => (hos p (mem_of_getElem? hp)).2) ?_ fun o ho => (hos o ho).1
    simpa [filledAt] using hne

theorem sound_statement {o} (ho : Sound o) : Sound (statement span o) :=
  sound_node (fun i p _ => Nat.zero_le _) rfl (by simpa using ho)

theorem sound_gone (range : Span) : Sound (gone range span) :=
  sound_node (by simp) rfl (by simp)

end Output

/-- The code may stand wherever the node may. -/
structure Fit (names : List String) (p : Output) (k : Node) : Prop where
  sound : p.Sound
  level : ∀ need, k.stands names need → need ≤ Output.level p
  bare : k.bareIn (exposed names) = false → p.bareIn Output.exposed = false

theorem level_of_stands {need} (h : k.stands names need) : need ≤ k.kind.level := by
  simp only [stands, Bool.and_eq_true, decide_eq_true_eq] at h
  exact h.1.1

theorem not_void_of_stands {need} (h : k.stands names need) : k.isVoidUpdate = false := by
  simp only [stands, Bool.and_eq_true, Bool.not_eq_true'] at h
  exact h.2

theorem Fit.of_level {p} (hsound : p.Sound) (hlevel : k.kind.level ≤ Output.level p)
    (hin : p.kind.isIn = false) (hclosed : ∀ i, p.kind.exposes i = false) : Fit names p k :=
  ⟨hsound, fun _ h => (level_of_stands h).trans hlevel, fun _ => bareIn_of_closed hin hclosed⟩

theorem filledAt_of_steadyAt (h : n.steadyAt scope names)
    (hpairs : List.Forall₂ (Fit names) os n.kids) : Output.filledAt .kept n.kind os := by
  simp only [steadyAt, Bool.and_eq_true] at h
  have hfilled := h.2
  obtain ⟨⟨⟩, kind, _, _⟩ := n
  refine Output.filledAt_kept (fun hkind => ?_) fun hkind p rest hos => ?_
  · obtain rfl : kind = .sequence := hkind
    rintro rfl
    cases hpairs
    simp at hfilled
  · obtain rfl : kind = .for := hkind
    subst hos
    cases hpairs with
    | cons hfit => exact hfit.bare (by simpa using hfilled)

theorem Fit.kept (h : n.steadyAt scope names) (hpairs : List.Forall₂ (Fit names) os n.kids) :
    Fit names (.node .kept n.kind n.span os) n := by
  refine ⟨Output.sound_node (fun i p hp => ?_) (filledAt_of_steadyAt h hpairs) fun p hp => ?_,
    fun need hneed => level_of_stands hneed, fun hbare => ?_⟩
  · obtain ⟨k, hk, hfit⟩ := exists_getElem?_of_forall₂ hpairs hp
    by_cases hn : n.isUpdateStatement
    · -- an expression that is a statement need not bind
      have hkind : n.kind = .expression := by
        obtain ⟨⟨⟩, kind, _, _⟩ := n
        cases kind <;> first | rfl | simp [isUpdateStatement] at hn
      rw [hkind]
      exact Nat.zero_le _
    · exact hfit.level _ (stands_of_steadyAt h (by simpa using hn) hk)
  · obtain ⟨i, hi⟩ := getElem?_of_mem hp
    obtain ⟨k, -, hfit⟩ := exists_getElem?_of_forall₂ hpairs hi
    exact hfit.sound
  · obtain ⟨hin, hparts⟩ := bareIn_eq_false_iff.1 hbare
    refine bareIn_eq_false_iff.2 ⟨hin, fun i p hp hi => ?_⟩
    obtain ⟨k, hk, hfit⟩ := exists_getElem?_of_forall₂ hpairs hp
    exact hfit.bare (hparts i k hk (by simp [exposed, show n.kind.exposes i from hi]))

theorem Fit.untouched (h : n.every (steadyAt scope names)) : Fit names (Output.untouched n) n := by
  induction n using inside_induction with
  | h n ih =>
    obtain ⟨hat, hkids⟩ := every_node_iff.1 h
    obtain ⟨⟨⟩, kind, span, kids⟩ := n
    rw [Output.untouched, relabel_node]
    refine Fit.kept (n := .node () kind span kids) hat ?_
    rw [forall₂_map_left_iff]
    exact forall₂_same.2 fun k hk => ih k (inside_of_mem_kids hk) (hkids k hk)

theorem Fit.withArguments (h : n.every (steadyAt scope names))
    (hos : List.Forall₂ (Fit names) os n.arguments) : Fit names (Output.withArguments os n) n := by
  fun_cases Output.withArguments os n with
  | case1 l span callee l' inner args types =>
    obtain ⟨hat, hkids⟩ := every_node_iff.1 h
    have hlist : Fit names (.node .kept .list inner os) (.node l' .list inner args) :=
      Fit.kept (n := .node l' .list inner args) (every_node_iff.1 (hkids _ (by simp))).1 hos
    exact Fit.kept (n := .node l .call span [callee, .node l' .list inner args, types]) hat
      (.cons (Fit.untouched (hkids callee (by simp)))
        (.cons hlist (.cons (Fit.untouched (hkids types (by simp))) .nil)))
  | case2 => exact Fit.untouched h

theorem sound_wrap {e} (h : o.Sound) : (Output.wrap o e).Sound := by
  fun_induction Output.wrap o e with
  | case1 l _ _ ih =>
    exact Output.sound_node (fun i p _ => Nat.zero_le _) rfl (by simpa using ih)
  | case2 => exact h

theorem stands_of_mem_arguments {a} (hn : n.every (steadyAt scope names))
    (ha : a ∈ n.arguments) : a.stands names 1 := by
  obtain ⟨i, hi⟩ := getElem?_of_mem ha
  fun_cases arguments n with
  | case1 l span callee l' inner args types | case2 l _ _ l' inner args =>
    have hlist := (every_node_iff.1 ((every_node_iff.1 hn).2 (.node l' .list inner args) (by simp))).1
    exact stands_of_steadyAt hlist rfl hi
  | case3 => simp [arguments] at ha

theorem stands_spreadValue (hn : n.every (steadyAt scope names)) (h : n.stands names 1) :
    n.spreadValue.stands names 1 := by
  fun_cases spreadValue n with
  | case1 => exact stands_of_steadyAt (i := 0) (every_node_iff.1 hn).1 rfl rfl
  | case2 => exact h

theorem stands_entry {key value} (hn : n.every (steadyAt scope names))
    (h : entry? n = some (key, value)) : value.stands names 1 := by
  obtain ⟨l, span, k, rfl, -⟩ | ⟨rfl, hkind⟩ := entry?_cases h
  · exact stands_of_steadyAt (i := 1) (every_node_iff.1 hn).1 rfl rfl
  · obtain ⟨⟨⟩, kind, _, _⟩ := n
    obtain rfl : kind = .ident key := hkind
    rfl

theorem stands_of_update {u m} (hu : update? args = some u)
    (hargs : ∀ a ∈ args, a.every (steadyAt scope names)) (hstands : ∀ a ∈ args, a.stands names 1)
    (hm : m ∈ u.entries.map Prod.snd ∨ u.callback = some m) : m.stands names 1 := by
  obtain ⟨first, _, l, _, _, rfl, hobject, hentries, hrest⟩ := exists_of_update? hu
  obtain hvalue | hcallback := hm
  · obtain ⟨⟨_, _⟩, hmem, rfl⟩ := mem_map.1 hvalue
    obtain ⟨property, hproperty, hentry⟩ := exists_mem_of_forall₂ hentries hmem
    have hwithin : property.Within first := by
      have hmem : property ∈ first.unparen.kids := by simpa [hobject] using hproperty
      exact (inside_of_mem_kids hmem).within.trans (unparen_within first)
    exact stands_entry (hwithin.every (hargs first (by simp))) hentry
  · obtain ⟨after, hafter, rfl⟩ := Option.map_eq_some_iff.1 (hrest.symm.trans hcallback)
    have hmem := mem_cons_of_mem first (mem_of_head? hafter)
    exact stands_spreadValue (hargs after hmem) (hstands after hmem)

theorem sound_updates {u : Update Unit} {v : Update Layout} (span : Span)
    (h : SameUpdate source (Walk.Knows scope names) args os u v)
    (hkeys : ∀ entry ∈ u.entries, Script.isTarget entry.1)
    (hvalues : ∀ m p, m ∈ u.entries.map Prod.snd ∨ u.callback = some m →
      Carried source (Walk.Knows scope names) args os m p → p.Sound ∧ 1 ≤ Output.level p) :
    ∀ o ∈ Output.updates span v, o.Sound ∧ 1 ≤ Output.level o := by
  intro o ho
  rw [Output.updates, mem_append] at ho
  obtain hassignment | hcallback := ho
  · obtain ⟨_, hentry, rfl⟩ := mem_map.1 hassignment
    obtain ⟨i, hi⟩ := getElem?_of_mem hentry
    obtain ⟨before, hbefore, hkey, hcarried⟩ := exists_getElem?_of_forall₂ h.entries.flip hi
    have hmem := mem_of_getElem? hbefore
    obtain ⟨hsound, hlevel⟩ := hvalues _ _ (.inl (mem_map_of_mem hmem)) hcarried
    exact ⟨Output.sound_assignment span (hkey ▸ hkeys before hmem) hsound hlevel,
      show 1 ≤ 1 by omega⟩
  · have hrel := h.callback
    generalize u.callback = before, v.callback = after at hrel hcallback hvalues
    cases hrel with
    | none => simp at hcallback
    | some hcarried =>
      obtain ⟨hsound, hlevel⟩ := hvalues _ _ (.inr rfl) hcarried
      obtain rfl : o = _ := by simpa using hcallback
      exact ⟨Output.sound_afterUpdate span hsound hlevel, show 1 ≤ 16 by omega⟩

theorem sound_setValue (span : Span) {target} (ht : Script.isVariable target)
    (h : ∀ a rest p rest', args = a :: rest → os = p :: rest' →
      Output.Sound p.spreadValue ∧ 1 ≤ Output.level p.spreadValue) :
    let value := Output.setValue span target (Output.setArgument args os)
    value.Sound ∧ 1 ≤ Output.level value := by
  intro value
  have hundefined : (Output.name span "undefined").Sound := Output.sound_name span (by decide)
  unfold value
  fun_cases Output.setArgument args os with
  | case1 a rest p rest' =>
    obtain ⟨hsound, hlevel⟩ := h a rest p rest' rfl rfl
    cases a.spreadValue.unparen.isFunction with
    | false => exact ⟨hsound, hlevel⟩
    | true =>
      have hname : (Output.name span target).Sound := Output.sound_name span ht
      refine ⟨Output.sound_call span (Output.sound_parenthesized span hsound)
        (show 16 ≤ 18 by omega) ?_, show 1 ≤ 16 by omega⟩
      simpa using ⟨hname, show 1 ≤ 18 by omega⟩
  | case2 => exact ⟨hundefined, show 1 ≤ 18 by omega⟩

theorem isVariable_of_ident? {x} (hn : n.namedAt) (h : n.ident? = some x) :
    Script.isVariable x := by
  fun_cases ident? n with
  | case1 l name =>
    obtain rfl : name = x := by simpa [ident?] using h
    exact hn
  | case2 => simp [ident?] at h

theorem isVariable_of_thisMember? {ref} (hn : n.namedAt) (h : n.thisMember? = some ref) :
    Script.isVariable ref := by
  unfold thisMember? at h
  split at h
  · next hthis =>
    obtain ⟨_, hobject, hisThis⟩ := (Option.any_eq_true ..).1 hthis
    have hmay : n.mayRead := by
      simp [mayRead, hobject, isThis_unparen, hisThis]
    simpa [namedAt, kind_of_memberObject? hobject, hmay, h] using hn
  · simp at h

theorem isVariable_of_memberReplacement? {d name symbols} (hn : n.every (steadyAt scope names))
    (h : memberReplacement? d n = some (name, symbols)) : Script.isVariable name := by
  have hmember : ∀ {member : String}, n.memberName? = some member → Script.isVariable member := by
    intro _ hname
    cases hobject : n.memberObject? with
    | none => simp [memberReplacement?, hobject] at h
    | some object =>
      simpa [namedAt, kind_of_memberObject? hobject, mayRead_of_memberReplacement? h, hname] using
        namedAt_of_steadyAt (Within.self.of_every hn)
  cases Walk.memberMeans h with
  | bag => decide
  | known hname | state hname | prop hname => exact hmember hname
  | @current object _ _ hobject htarget =>
    have hwithin : object.unparen.Within n :=
      (unparen_within object).trans (.kid (memberObject?_mem_kids hobject) .self)
    have hnamed := namedAt_of_steadyAt (hwithin.of_every hn)
    rcases htarget with ⟨href, -⟩ | ⟨hident, -⟩
    · exact isVariable_of_thisMember? hnamed href
    · exact isVariable_of_ident? hnamed hident

theorem Fit.settled {source p} (h : Fit names p k) (w : Walk) (span : Span) :
    Fit names (Output.settled source w span p) k := by
  unfold Output.settled
  split
  · exact .of_level (Output.sound_gone ..) k.kind.level_le rfl fun _ => rfl
  · exact h

theorem Rewrites.fit (h : Rewrites source w n o) (hw : w.Knows scope names)
    (hn : n.every (steadyAt scope names)) (hnames : ∀ name ∈ names, Script.isTarget name)
    (hvoid : n.isVoidUpdate = false) : Fit names o n := by
  induction n using inside_induction generalizing w o with
  | h n ih =>
    have hkids := (every_node_iff.1 hn).2
    have hat := (every_node_iff.1 hn).1
    have hvisit : ∀ m : Node, m.Within n → ∀ w : Walk, w.Knows scope names →
        (w.visit source m).Knows scope names := fun m hm w hw => hw.visit (hm.every hn)
    have hfits : ∀ {m : Node} {p : Output} {w : Walk} {need : Nat}, m.Inside n →
        m.stands names need → w.Knows scope names → Rewrites source w m p → Fit names p m :=
      fun hm hstands hw hp => ih _ hm hp hw (hm.within.every hn) (not_void_of_stands hstands)
    have hpart : ∀ k ∈ n.kids, n.isUpdateStatement = false → ∀ w p, w.Knows scope names →
        Rewrites source w k p → Fit names p k := by
      intro k hk hnot w p hw hp
      obtain ⟨i, hi⟩ := getElem?_of_mem hk
      exact hfits (inside_of_mem_kids hk) (stands_of_steadyAt hat hnot hi) hw hp
    have hargs : ∀ m : Node, m.Within n → ∀ os, RewritesAll source w m.arguments os →
        List.Forall₂ (Fit names) os m.arguments := by
      intro m hm os hos
      refine hos.forall₂ (Q := Walk.Knows scope names) (fun a ha => ?_) hw fun a ha w p hw hp => ?_
      · exact hvisit a ((inside_of_mem_arguments ha).within.trans hm)
      · have hstands := stands_of_mem_arguments (hm.every hn) ha
        exact hfits ((inside_of_mem_arguments ha).trans_within hm) hstands hw hp
    have hupdates : ∀ m : Node, m.Within n → isUpdateCall m → ∀ os u v span,
        RewritesAll source w m.arguments os → update? m.arguments = some u →
        update? os = some v →
        ∀ p ∈ Output.updates span v, p.Sound ∧ 1 ≤ Output.level p := by
      intro m hm hcall os u v span hall hu hv
      have hsteady := hm.every hn
      have hinside : ∀ a ∈ m.arguments, a.Inside n :=
        fun a ha => (inside_of_mem_arguments ha).trans_within hm
      obtain ⟨v', hv', hsame⟩ := hall.update hu
        (fun a ha p hp => hvisit p (hp.trans (hinside a ha).within)) hw
      obtain rfl : v = v' := by simpa [hv] using hv'
      have hkeys : ∀ entry ∈ u.entries, Script.isTarget entry.1 := by
        have hnamed := namedAt_of_steadyAt (every_node_iff.1 hsteady).1
        simpa [namedAt, kind_of_isUpdateCall hcall, hcall, hu] using hnamed
      refine sound_updates span hsame hkeys fun m p hm ⟨⟨⟨a, q⟩, ha, hin⟩, w', hw', hp⟩ => ?_
      have ha := (of_mem_zip ha).1
      have hstands := stands_of_update hu (fun a ha => (hinside a ha).within.every hn)
        (fun a ha => stands_of_mem_arguments hsteady ha) hm
      have hfit := hfits (hin.within.trans_inside (hinside a ha)) hstands hw' hp
      exact ⟨hfit.sound, hfit.level 1 hstands⟩
    have hdeferred : ∀ m : Node, m.Within n → ∀ w' os, m.kind = .call →
        RewritesAll source w m.arguments os → Fit names (Output.deferred w' m os) m := by
      intro m hm _ os hkind hall
      unfold Output.deferred
      split
      · exact .withArguments (hm.every hn) (hargs m hm os hall)
      · refine .of_level (Output.sound_name _ (by decide)) ?_ rfl fun _ => rfl
        exact m.kind.level_le
    cases h with
    | @kept _ _ os h hall =>
      have hnot : n.isUpdateStatement = false := by
        unfold isUpdateStatement
        split
        · next hkind hkids => simpa [Walk.passes, hkind, hkids] using h
        · rfl
      refine .kept hat (hall.forall₂ (Q := Walk.Knows scope names) (fun k hk => ?_) hw ?_)
      · exact hvisit k (inside_of_mem_kids hk).within
      · exact fun k hk w p hw hp => hpart k hk hnot w p hw hp
    | this => exact .untouched hn
    | @block _ span ss os hss =>
      refine .kept (n := .node () .block span ss) hat ?_
      refine hss.forall₂ (Q := Walk.Knows scope names) (fun s hs w hw => hw.listed (hkids s hs)) hw ?_
      exact fun s hs w p hw hp => (hpart s hs rfl _ p (hw.enter s.span) hp).settled _ _
    | @switchCase _ span test body o os htest hbody =>
      have hmem : body ∈ (node () .switchCase span [test, body]).kids := by simp
      obtain ⟨hbodyAt, hbodyKids⟩ := every_node_iff.1 (hkids body hmem)
      have hnot : body.isUpdateStatement = false := by
        simp only [steadyAt, Bool.and_eq_true] at hat
        have hlist : body.isList := hat.2
        obtain ⟨⟨⟩, kind, _, _⟩ := body
        cases kind <;> first | rfl | simp [isList] at hlist
      have hlist : Fit names (.node .kept body.kind body.span os) body := by
        refine .kept hbodyAt ?_
        refine hbody.forall₂ (Q := Walk.Knows scope names)
          (fun s hs w hw => hw.listed (hbodyKids s hs)) (hw.visit (hkids test (by simp))) ?_
        intro s hs w p hw hp
        obtain ⟨i, hi⟩ := getElem?_of_mem hs
        have hinside := (inside_of_mem_kids hs).trans_within (.kid hmem .self)
        have hstands := stands_of_steadyAt hbodyAt hnot hi
        exact (hfits hinside hstands (hw.enter s.span) hp).settled _ _
      exact .kept (n := .node () .switchCase span [test, body]) hat
        (.cons (hpart test (by simp) rfl w o hw htest) (.cons hlist .nil))
    | @bag _ name span kids os h hall =>
      have hpairs : List.Forall₂ (Fit names) os kids :=
        hall.forall₂ (Q := Walk.Knows scope names)
          (fun k hk => hvisit k (inside_of_mem_kids (n := .node () (.ident name) span kids) hk).within)
          ⟨hw.inScope, hw.setters⟩ fun k hk w p hw hp => hpart k hk rfl w p hw hp
      have hsound : Output.Sound (.node (.word "$$props".toList) (.ident name) span os) := by
        have hprops : Script.isVariable (String.ofList "$$props".toList) := by decide
        refine Output.sound_node (fun i p _ => Nat.zero_le _) hprops fun p hp => ?_
        obtain ⟨i, hi⟩ := getElem?_of_mem hp
        obtain ⟨k, -, hfit⟩ := exists_getElem?_of_forall₂ hpairs hi
        exact hfit.sound
      exact .of_level hsound (show 18 ≤ 18 by omega) rfl fun _ => rfl
    | member h =>
      exact .of_level (Output.sound_name _ (isVariable_of_memberReplacement? hn h))
        (show 17 ≤ 18 by omega) rfl fun _ => rfl
    | declaration h => exact .of_level (Output.sound_gone ..) (show 18 ≤ 18 by omega) rfl fun _ => rfl
    | @update _ span kids os u v h hall hu hv =>
      have hne : Output.updates span v ≠ [] := by
        intro hnil
        have hsize : u.size = 0 := by
          rw [← hall.size_eq hu hv, ← Output.length_updates span v, hnil, length_nil]
        obtain ⟨hentries, hcallback⟩ : u.entries = [] ∧ u.callback = none := by
          simpa [Update.size] using hsize
        simp [isVoidUpdate, h, hu, hentries, hcallback] at hvoid
      have hsound := Output.sound_parenthesized span
        (Output.sound_sequence span hne (hupdates _ .self h os u v span hall hu hv))
      exact .of_level hsound (show 16 ≤ 18 by omega) rfl fun _ => rfl
    | @updateDeferred _ span kids os h hall hu => exact hdeferred _ .self _ _ rfl hall
    | @updateStatement _ span e os u v h hall hu hv =>
      refine .of_level (Output.sound_list span fun p hp => ?_) (show 18 ≤ 18 by omega) rfl fun _ => rfl
      obtain ⟨q, hq, rfl⟩ := mem_map.1 hp
      have hsound := hupdates _ (unparen_within_statement () span e) h os u v span hall hu hv q hq
      exact ⟨Output.sound_statement span hsound.1, show 1 ≤ 18 by omega⟩
    | emptyUpdateStatement h hall hu =>
      exact .of_level (Output.sound_gone ..) (show 18 ≤ 18 by omega) rfl fun _ => rfl
    | @updateStatementDeferred _ span e os h hall =>
      have hfit := hdeferred e.unparen (unparen_within_statement () span e)
        (w.visits source e.unparen.arguments) os (kind_of_isUpdateCall h) hall
      have hsound := sound_wrap (e := e) hfit.sound
      exact .of_level (Output.sound_node (fun i p _ => Nat.zero_le _) rfl (by simpa using hsound))
        (show 18 ≤ 18 by omega) rfl fun _ => rfl
    | bound hnot h hmethod =>
      have hstands := stands_boundMethod hn h
      have hfit := hfits (boundMethod?_inside h) hstands hw hmethod
      have hlevel := hfit.level 16 hstands
      refine .of_level (Output.sound_list _ ?_) hlevel rfl fun _ => rfl
      simpa using ⟨hfit.sound, show 1 ≤ _ by omega⟩
    | @setter _ span kids os target _ _ h hall =>
      obtain ⟨hset, htarget⟩ := maySet_of_setVariable? hw h
      have ht := hnames target htarget
      have hargument : ∀ a rest p rest', (node () .call span kids).arguments = a :: rest →
          os = p :: rest' → a.spreadValue.stands names 1 ∧ Fit names p.spreadValue a.spreadValue := by
        intro a rest p rest' hargs hos
        have ha : a ∈ (node () .call span kids).arguments := by simp [hargs]
        have hinside : a.spreadValue.Inside (.node () .call span kids) :=
          (spreadValue_within a).trans_inside (inside_of_mem_arguments ha)
        have hstands := stands_spreadValue ((inside_of_mem_arguments ha).within.every hn)
          (stands_of_mem_arguments hn ha)
        rw [hargs, hos] at hall
        cases hall with
        | cons hfirst => exact ⟨hstands, hfits hinside hstands hw hfirst.spreadValue.2⟩
      have hvariable : Script.isVariable target := by
        simp only [Script.isTarget, Bool.and_eq_true] at ht
        exact ht.1.1
      obtain ⟨hsound, hlevel⟩ := sound_setValue span hvariable fun a rest p rest' ha hp => by
        obtain ⟨hstands, hfit⟩ := hargument a rest p rest' ha hp
        exact ⟨hfit.sound, hfit.level 1 hstands⟩
      refine ⟨Output.sound_assignment span ht hsound hlevel, fun need hneed => ?_, fun hbare => ?_⟩
      · simp only [stands, hset, Bool.not_true, Bool.or_false, Bool.and_eq_true,
          decide_eq_true_eq] at hneed
        exact hneed.1.2
      · refine bareIn_eq_false_iff.2 ⟨rfl, fun i p hp hi => ?_⟩
        obtain rfl : i = 1 := by simpa [Output.exposed, Output.assignment, Kind.exposes] using hi
        obtain rfl : Output.setValue span target _ = p := by simpa [Output.assignment] using hp
        refine Output.bareIn_setValue span target fun a rest p rest' ha hp => ?_
        exact (hargument a rest p rest' ha hp).2.bare (bareIn_argument hset ha hbare)

/-- Updates in expressions are written as expressions that may stand where the calls stood: no
sequence is empty, and an assignment is no operand of what binds tighter, where no setter is called
and no update without effect is made at such a place. -/
theorem updates_stand_as_operands {draft : Draft} (ho : n.orderly source draft.scope.propsBag)
    (hsolid : solid source n) (hnames : ∀ name ∈ names, Script.isTarget name)
    (hknown : ∀ entry ∈ draft.scope.setters, entry.1 ∈ names ∧ entry.2 ∈ names)
    (hsteady : n.every (steadyAt draft.scope names)) (hvoid : n.isVoidUpdate = false) :
    ∃ o : Output, Rewrites source { draft } n o ∧
      (render source (Part.ofNode source n) draft).1 = o.text source ∧ o.Sound := by
  obtain ⟨o, h⟩ := exists_rewrites source n { draft }
  exact ⟨o, h, render_ofNode h ho hsolid, (h.fit ⟨rfl, hknown⟩ hsteady hnames hvoid).sound⟩

end

def Draft.withSetter (setter name : String) : Draft :=
  { scope := { setters := [(setter, name)] } }

/-- Setters with a function and without an argument, and updates in updates. -/
theorem updates_stand_as_operands_nested :
    let source : Source := .ofString ("x && (setOpen(f => !f), y ? setOpen() : " ++
      "this.setState(\x7b a: 1, b: z && this.setState(\x7b c: 2 \x7d, done) \x7d));")
    let draft := Draft.withSetter "setOpen" "open"
    let n := Script.firstStatement (String.ofList source.text)
    let names := ["setOpen", "open"]
    n.orderly source none ∧ solid source n ∧ (∀ name ∈ names, Script.isTarget name) ∧
      (∀ entry ∈ draft.scope.setters, entry.1 ∈ names ∧ entry.2 ∈ names) ∧
      n.every (steadyAt draft.scope names) ∧ n.isVoidUpdate = false ∧
      ∃ o : Output, Rewrites source { draft } n o ∧
        (render source (Part.ofNode source n) draft).1 = o.text source ∧ o.Sound ∧
        o.text source = ("x && (open = (f => !f)(open), y ? open = undefined : " ++
          "(a = 1, b = z && (c = 2, tick().then(done))));").toList := by
  intro source draft n names
  have hcheck : n.orderly source none ∧ solid source n ∧ names.all Script.isTarget ∧
      draft.scope.setters.all (fun entry => names.contains entry.1 && names.contains entry.2) ∧
      n.every (steadyAt draft.scope names) ∧ n.isVoidUpdate = false ∧
      (render source (Part.ofNode source n) draft).1 =
        ("x && (open = (f => !f)(open), y ? open = undefined : " ++
          "(a = 1, b = z && (c = 2, tick().then(done))));").toList := by
    decide +kernel
  obtain ⟨ho, hsolid, hall, hsetters, hsteady, hvoid, htext⟩ := hcheck
  have hnames : ∀ name ∈ names, Script.isTarget name := List.all_eq_true.1 hall
  have hknown : ∀ entry ∈ draft.scope.setters, entry.1 ∈ names ∧ entry.2 ∈ names := by
    simpa using List.all_eq_true.1 hsetters
  obtain ⟨o, h, hrender, hsound⟩ :=
    @updates_stand_as_operands source names n draft ho hsolid hnames hknown hsteady hvoid
  exact ⟨ho, hsolid, hnames, hknown, hsteady, hvoid, o, h, hrender, hsound, hrender ▸ htext⟩

/-- A setter that is an operand of `&&` becomes an assignment without parentheses, and an update of
nothing becomes parentheses around nothing: neither is an expression. -/
theorem update_not_operand :
    (let source : Source := .ofString "x && setOpen(true);"
      let draft := Draft.withSetter "setOpen" "open"
      let n := Script.firstStatement (String.ofList source.text)
      let text := (render source (Part.ofNode source n) draft).1
      n.orderly source none ∧ solid source n ∧ text = "x && open = true;".toList ∧
        (Script.parse {} text).toOption.isNone) ∧
    (let source : Source := .ofString "x && this.setState(\x7b\x7d);"
      let n := Script.firstStatement (String.ofList source.text)
      let text := (render source (Part.ofNode source n) {}).1
      n.orderly source none ∧ solid source n ∧ text = "x && ();".toList ∧
        (Script.parse {} text).toOption.isNone) := by
  decide +kernel

end Sveltify
