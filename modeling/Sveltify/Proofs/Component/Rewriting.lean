import Mathlib.Data.List.Forall2
import Sveltify.Proofs.Component.Visit

/-! The code that a walk makes of a node, as a tree. Most nodes are kept: they are written as the
source writes them, apart from their parts. The others have a text of their own, are made up of new
code, or are gone. `Rewrites` says which tree a walk makes of a node, one rule for every way in which
a node is treated. -/

namespace Sveltify

open Script (Node Kind)
open Script.Tree Visit Walk

/-- How a node of generated code is written. -/
inductive Layout where
  | kept
  | word (text : Text)
  | made
  /-- As statements, each on a line of its own that starts with `indent`. -/
  | lines (indent : Text)
  | gone (range : Span)

abbrev Output := Script.Tree Layout

namespace Output

def print : Kind → List Text → Text
  | .assign operator, [target, value] => target ++ [' '] ++ operator.toList ++ [' '] ++ value
  | .paren, [inner] => ['('] ++ inner ++ [')']
  | .member, [object, name] => object ++ ['.'] ++ name
  | .call, callee :: args :: _ => callee ++ ['('] ++ args ++ [')']
  | .sequence, parts | .list, parts => Text.joinWith ", ".toList parts
  | .expression, [e] => e ++ [';']
  | _, parts => parts.flatten

mutual

def text (source : Source) : Output → Text
  | .node .kept _ span kids => EditSet.render ⟨pieces source kids⟩ source span
  | .node (.word text) _ _ _ => text
  | .node .made kind _ kids => print kind (texts source kids)
  | .node (.lines indent) _ _ kids => Text.joinWith ('\n' :: indent) (texts source kids)
  | .node (.gone _) _ _ _ => []

def texts (source : Source) : List Output → List Text
  | [] => []
  | o :: os => text source o :: texts source os

/-- The outermost places at which the code differs from the source, with what stands there. -/
def pieces (source : Source) : List Output → List Edit
  | [] => []
  | .node .kept _ _ kids :: os => pieces source kids ++ pieces source os
  | .node (.word text) _ span _ :: os => ⟨span, text⟩ :: pieces source os
  | .node .made kind span kids :: os => ⟨span, print kind (texts source kids)⟩ :: pieces source os
  | .node (.lines indent) _ span kids :: os =>
    ⟨span, Text.joinWith ('\n' :: indent) (texts source kids)⟩ :: pieces source os
  | .node (.gone range) _ _ _ :: os => ⟨range, []⟩ :: pieces source os

end

def untouched (n : Node) : Output :=
  n.relabel fun _ _ => .kept

def name (span : Span) (id : String) : Output :=
  .node (.word id.toList) (.ident id) span []

def assignment (span : Span) (target : String) (value : Output) : Output :=
  .node .made (.assign "=") span [name span target, value]

def parenthesized (span : Span) (inner : Output) : Output :=
  .node .made .paren span [inner]

def call (span : Span) (callee : Output) (args : List Output) : Output :=
  .node .made .call span [callee, .node .made .list span args, .node .made .absent span []]

def afterUpdate (span : Span) (callback : Output) : Output :=
  call span (.node .made .member span [call span (name span "tick") [],
    .node (.word "then".toList) (.word "then") span []]) [callback]

def sequence (span : Span) : List Output → Output
  | [o] => o
  | os => .node .made .sequence span os

def statement (span : Span) (o : Output) : Output :=
  .node .made .expression span [o]

def gone (range span : Span) : Output :=
  .node (.gone range) .absent span []

def updates (span : Span) (u : Update Layout) : List Output :=
  u.entries.map (fun entry => assignment span entry.1 entry.2) ++
    (u.callback.map (afterUpdate span)).toList

def setValue (span : Span) (target : String) : Option (Bool × Output) → Output
  | none => name span "undefined"
  | some (false, value) => value
  | some (true, value) => call span (parenthesized span value) [name span target]

def setArgument : List Node → List Output → Option (Bool × Output)
  | arg :: _, o :: _ => some (arg.spreadValue.unparen.isFunction, o.spreadValue)
  | _, _ => none

def withArguments (args : List Output) : Node → Output
  | .node _ .call span [callee, .node _ .list inner _, types] =>
    .node .kept .call span [untouched callee, .node .kept .list inner args, untouched types]
  | n => untouched n

def wrap (o : Output) : Node → Output
  | .node _ .paren span [inner] => .node .kept .paren span [wrap o inner]
  | _ => o

def deferred (w : Walk) (call : Node) (args : List Output) : Output :=
  match w.statements.head? with
  | some _ => withArguments args call
  | none => name call.span "undefined"

/-- What becomes of a statement of a list after its walk: it is dropped if it is moved to manual
review, unless its range has been replaced before. -/
def settled (source : Source) (w : Walk) (span : Span) (o : Output) : Output :=
  if w.deferred.any (·.1 == span) &&
      !w.edits.edits.any (·.span == source.statementRange span) then
    gone (source.statementRange span) span
  else o

end Output

mutual

/-- A walk makes the code `o` of the node `n`. -/
inductive Rewrites (source : Source) : Walk → Node → Output → Prop
  | kept {w : Walk} {n : Node} {os : List Output} (h : passes w.draft n)
      (hkids : RewritesAll source w n.kids os) : Rewrites source w n (.node .kept n.kind n.span os)
  | this {w : Walk} {span : Span} {kids : List Node} :
      Rewrites source w (.node () .this span kids) (.untouched (.node () .this span kids))
  | block {w : Walk} {span : Span} {ss : List Node} {os : List Output}
      (hss : RewritesListed source w ss os) :
      Rewrites source w (.node () .block span ss) (.node .kept .block span os)
  | switchCase {w : Walk} {span : Span} {test body : Node} {o : Output} {os : List Output}
      (htest : Rewrites source w test o)
      (hbody : RewritesListed source (w.visit source test) body.kids os) :
      Rewrites source w (.node () .switchCase span [test, body])
        (.node .kept .switchCase span [o, .node .kept body.kind body.span os])
  | bag {w : Walk} {name : String} {span : Span} {kids : List Node} {os : List Output}
      (h : w.draft.scope.propsBag = some name)
      (hkids : RewritesAll source (w.replace span "$$props".toList) kids os) :
      Rewrites source w (.node () (.ident name) span kids)
        (.node (.word "$$props".toList) (.ident name) span os)
  | member {w : Walk} {span : Span} {kids : List Node} {name : String} {symbols : SymbolTable}
      (h : memberReplacement? w.draft (.node () .member span kids : Node) =
        some (name, symbols)) :
      Rewrites source w (.node () .member span kids) (.name span name)
  | declaration {w : Walk} {word : String} {span : Span} {kids : List Node}
      (h : consumes w.draft.scope kids) :
      Rewrites source w (.node () (.variableDecl word) span kids)
        (.gone (source.statementRange span) span)
  | update {w : Walk} {span : Span} {kids : List Node} {os : List Output}
      {u : Update Unit} {v : Update Layout}
      (h : isUpdateCall (.node () .call span kids : Node))
      (hargs : RewritesAll source w (arguments (.node () .call span kids : Node)) os)
      (hu : update? (arguments (.node () .call span kids : Node)) = some u)
      (hv : update? os = some v) :
      Rewrites source w (.node () .call span kids)
        (.parenthesized span (.sequence span (Output.updates span v)))
  | updateDeferred {w : Walk} {span : Span} {kids : List Node} {os : List Output}
      (h : isUpdateCall (.node () .call span kids : Node))
      (hargs : RewritesAll source w (arguments (.node () .call span kids : Node)) os)
      (hu : update? (arguments (.node () .call span kids : Node)) = none) :
      Rewrites source w (.node () .call span kids) (.deferred
        (w.visits source (arguments (.node () .call span kids : Node)))
        (.node () .call span kids) os)
  | updateStatement {w : Walk} {span : Span} {e : Node} {os : List Output}
      {u : Update Unit} {v : Update Layout} (h : isUpdateCall e.unparen)
      (hargs : RewritesAll source w e.unparen.arguments os)
      (hu : update? e.unparen.arguments = some u) (hv : update? os = some v)
      (hne : Output.updates span v ≠ []) :
      Rewrites source w (.node () .expression span [e])
        (.node (.lines (source.lineIndent span.start)) .list span
          ((Output.updates span v).map (Output.statement span)))
  | emptyUpdateStatement {w : Walk} {span : Span} {e : Node} {os : List Output}
      {u : Update Unit} {v : Update Layout} (h : isUpdateCall e.unparen)
      (hargs : RewritesAll source w e.unparen.arguments os)
      (hu : update? e.unparen.arguments = some u) (hv : update? os = some v)
      (hnil : Output.updates span v = []) :
      Rewrites source w (.node () .expression span [e])
        (.gone (source.statementRange span) span)
  | updateStatementDeferred {w : Walk} {span : Span} {e : Node} {os : List Output}
      (h : isUpdateCall e.unparen) (hargs : RewritesAll source w e.unparen.arguments os)
      (hu : update? e.unparen.arguments = none) :
      Rewrites source w (.node () .expression span [e])
        (.node .kept .expression span [Output.wrap
          (.deferred (w.visits source e.unparen.arguments) e.unparen os) e])
  | bound {w : Walk} {span : Span} {kids : List Node} {method : Node} {o : Output}
      (hupdate : isUpdateCall (.node () .call span kids : Node) = false)
      (h : boundMethod? (.node () .call span kids : Node) = some method)
      (hmethod : Rewrites source w method o) :
      Rewrites source w (.node () .call span kids)
        (.node (.word (Output.text source o)) .list span [o])
  | setter {w : Walk} {span : Span} {kids : List Node} {os : List Output} {target : String}
      (hupdate : isUpdateCall (.node () .call span kids : Node) = false)
      (hbound : boundMethod? (.node () .call span kids : Node) = none)
      (h : setVariable? w.draft (.node () .call span kids : Node) = some target)
      (hargs : RewritesAll source w (arguments (.node () .call span kids : Node)) os) :
      Rewrites source w (.node () .call span kids) (.assignment span target
        (.setValue span target (Output.setArgument (arguments (.node () .call span kids : Node)) os)))

/-- A walk makes the codes of a list of nodes. -/
inductive RewritesAll (source : Source) : Walk → List Node → List Output → Prop
  | nil {w : Walk} : RewritesAll source w [] []
  | cons {w : Walk} {n : Node} {ns : List Node} {o : Output} {os : List Output}
      (hn : Rewrites source w n o) (hns : RewritesAll source (w.visit source n) ns os) :
      RewritesAll source w (n :: ns) (o :: os)

/-- A walk makes the codes of the statements of a list. -/
inductive RewritesListed (source : Source) : Walk → List Node → List Output → Prop
  | nil {w : Walk} : RewritesListed source w [] []
  | cons {w : Walk} {s : Node} {ss : List Node} {o : Output} {os : List Output}
      (hs : Rewrites source (w.enter s.span) s o)
      (hss : RewritesListed source (w.listed source s) ss os) :
      RewritesListed source w (s :: ss)
        (.settled source ((w.enter s.span).visit source s) s.span o :: os)

end

namespace Output

@[simp] theorem kind_untouched (n : Node) : (untouched n).kind = n.kind :=
  kind_relabel _ n

@[simp] theorem span_untouched (n : Node) : (untouched n).span = n.span :=
  span_relabel _ n

@[simp] theorem kind_withArguments (args : List Output) (n : Node) :
    (withArguments args n).kind = n.kind := by
  fun_cases withArguments args n with
  | case1 => rfl
  | case2 => exact kind_untouched n

@[simp] theorem span_withArguments (args : List Output) (n : Node) :
    (withArguments args n).span = n.span := by
  fun_cases withArguments args n with
  | case1 => rfl
  | case2 => exact span_untouched n

@[simp] theorem span_deferred (w : Walk) (n : Node) (args : List Output) :
    (deferred w n args).span = n.span := by
  unfold deferred
  split
  · exact span_withArguments args n
  · rfl

end Output

/-! The values of an update and what is made of them. -/

def Script.Kind.isPlain : Kind → Bool
  | .block | .switchCase | .this | .member | .expression | .call | .variableDecl _ | .ident _ =>
    false
  | _ => true

/-- A kind whose nodes stand between a call and the values that it is given. -/
def Script.Kind.carries : Kind → Bool
  | .paren | .spread | .object | .property => true
  | _ => false

/-- `m` stands in `n`, and `p` at the same place in `o`, with nothing but parentheses, spreads,
objects and properties around them. -/
inductive Inner : Node → Output → Node → Output → Prop
  | refl {n : Node} {o : Output} : Inner n o n o
  | kid {n : Node} {span : Span} {os : List Output} {k : Node} {q : Output} {m : Node} {p : Output}
      (hn : n.kind.carries) (hmem : (k, q) ∈ n.kids.zip os) (h : Inner k q m p) :
      Inner n (.node .kept n.kind span os) m p

/-! Updates, read off their arguments. -/

theorem forall₂_of_mapM {α β : Type} {as bs} {f : α → Option β}
    (h : as.mapM f = some bs) : List.Forall₂ (fun a b => f a = some b) as bs := by
  induction as generalizing bs with
  | nil =>
    obtain rfl : [] = bs := by simpa using h
    exact .nil
  | cons a _ ih =>
    rw [List.mapM_cons] at h
    simp only [Option.bind_eq_bind, Option.bind_eq_some_iff, Option.pure_def, Option.some.injEq] at h
    obtain ⟨b, hb, _, hrest, rfl⟩ := h
    exact .cons hb (ih hrest)

theorem exists_mem_of_forall₂ {α β : Type} {R : α → β → Prop} {as bs}
    (h : List.Forall₂ R as bs) {b} (hb : b ∈ bs) : ∃ a ∈ as, R a b := by
  induction h with
  | nil => simp at hb
  | cons hfirst _ ih =>
    obtain rfl | hb := List.mem_cons.1 hb
    · exact ⟨_, by simp, hfirst⟩
    · exact (ih hb).imp fun a ha => ⟨by simp [ha.1], ha.2⟩

variable {key : String}

theorem entry?_cases {α : Type} {t value : Script.Tree α} (h : entry? t = some (key, value)) :
    (∃ l span k, t = .node l .property span [k, value] ∧ k.keyName? = some key) ∨
      t = value ∧ t.kind = .ident key := by
  fun_cases entry? t with
  | case1 l span k =>
    simp only [ entry?, Option.map_eq_some_iff] at h
    obtain ⟨name, hname, rfl, rfl⟩ := h
    exact .inl ⟨l, span, k, rfl, hname⟩
  | case2 l name =>
    obtain ⟨rfl, rfl⟩ : name = key ∧ _ = value := by simpa [ entry?] using h
    exact .inr ⟨rfl, rfl⟩
  | case3 => simp [ entry?] at h

theorem exists_of_update? {α : Type} {u} {ts : List (Script.Tree α)}
    (h : update? ts = some u) : ∃ first rest l span properties, ts = first :: rest ∧
      first.unparen = .node l .object span properties ∧
      List.Forall₂ (fun t e => entry? t = some e) properties u.entries ∧
      u.callback = rest.head?.map spreadValue := by
  unfold update? at h
  split at h
  · cases h
  next first rest =>
  split at h
  · next l span properties hobject =>
    obtain ⟨_, hentries, rfl⟩ := Option.map_eq_some_iff.1 h
    exact ⟨first, rest, l, span, properties, rfl, hobject, forall₂_of_mapM hentries, rfl⟩
  · cases h

variable {source : Source} {Q : Walk → Prop} {os : List Output} {method n : Node}

theorem Inner.trans {m k o p q} (h : Inner n o m p) (h' : Inner m p k q) : Inner n o k q := by
  induction h with
  | refl => exact h'
  | kid hn hmem _ ih => exact .kid hn hmem (ih h')

namespace Rewrites

variable {source : Source} {w : Walk} {n : Node} {o : Output}

section

variable (h : Rewrites source w n o)

include h

theorem kept_of_isPlain (hn : n.kind.isPlain) :
    ∃ os, o = .node .kept n.kind n.span os ∧ RewritesAll source w n.kids os := by
  cases h with
  | kept _ hkids => exact ⟨_, rfl, hkids⟩
  | _ => simp [Script.Kind.isPlain] at hn

theorem kind_ne_spread (hn : n.kind ≠ .spread) : o.kind ≠ .spread := by
  cases h with
  | kept => exact hn
  | updateDeferred =>
    unfold Output.deferred
    split
    · simp
    · simp [Output.name]
  | _ => simp [Output.name, Output.gone, Output.parenthesized, Output.assignment]

theorem spreadValue :
    Inner n o n.spreadValue o.spreadValue ∧ Rewrites source w n.spreadValue o.spreadValue := by
  by_cases hk : n.kind = .spread
  · obtain ⟨_, rfl, hkids⟩ := h.kept_of_isPlain (by rw [hk]; rfl)
    obtain ⟨⟨⟩, kind, span, kids⟩ := n
    obtain rfl : kind = .spread := hk
    cases hkids with
    | nil => exact ⟨.refl, h⟩
    | @cons _ v _ p _ hv hrest =>
      cases hrest with
      | nil =>
        have hin : Inner (.node () .spread span [v]) (.node .kept .spread span [p]) v p :=
          .kid rfl (by simp) .refl
        exact ⟨hin, hv⟩
      | cons => exact ⟨.refl, h⟩
  · have hn : n.spreadValue = n := by
      obtain ⟨⟨⟩, kind, span, kids⟩ := n
      cases kind <;> first | rfl | exact absurd rfl hk
    have ho : o.spreadValue = o := by
      have := h.kind_ne_spread hk
      obtain ⟨l, kind, _, _⟩ := o
      cases kind <;> first | rfl | exact absurd rfl this
    rw [hn, ho]
    exact ⟨.refl, h⟩

theorem unparen_object {span properties}
    (hn : n.unparen = .node () .object span properties) :
    ∃ ps, o.unparen = .node .kept .object span ps ∧ RewritesAll source w properties ps ∧
      Inner n o n.unparen o.unparen := by
  fun_induction unparen n generalizing o with
  | case1 l _ _ ih =>
    obtain ⟨_, rfl, hkids⟩ := h.kept_of_isPlain rfl
    cases hkids with
    | cons hi hnil =>
      cases hnil
      obtain ⟨ps, ho, hps, hin⟩ := ih hi hn
      exact ⟨ps, ho, hps, .kid rfl (by simp) hin⟩
  | case2 =>
    subst hn
    obtain ⟨ps, rfl, hps⟩ := h.kept_of_isPlain rfl
    exact ⟨ps, rfl, hps, .refl⟩

theorem keyName? (hn : n.keyName? = some key) : o.keyName? = some key := by
  have hplain : n.kind.isPlain := by
    obtain ⟨⟨⟩, kind, span, kids⟩ := n
    cases kind <;> first | rfl | simp [Script.Tree.keyName?] at hn
  obtain ⟨_, rfl, -⟩ := h.kept_of_isPlain hplain
  obtain ⟨⟨⟩, kind, _, _⟩ := n
  cases kind <;> exact hn

theorem entry {value : Node} {Q : Walk → Prop}
    (hn : entry? n = some (key, value))
    (hQ : ∀ m : Node, m.Within n → ∀ w, Q w → Q (w.visit source m)) (hw : Q w) :
    ∃ p, entry? o = some (key, p) ∧ Inner n o value p ∧
      ∃ w', Q w' ∧ Rewrites source w' value p := by
  obtain ⟨⟨⟩, span, k, rfl, hkey⟩ | ⟨rfl, hkind⟩ := entry?_cases hn
  · obtain ⟨_, rfl, hkids⟩ := h.kept_of_isPlain rfl
    cases hkids with
    | cons hk hrest =>
      cases hrest with
      | cons hv hnil =>
        cases hnil
        refine ⟨_, by simp [ entry?, hk.keyName? hkey], .kid rfl (by simp) .refl, _, ?_, hv⟩
        exact hQ k (.kid (by simp) .self) w hw
  · obtain ⟨⟨⟩, kind, _, _⟩ := n
    obtain rfl : kind = .ident key := hkind
    cases h with
    | kept hp hkids => exact ⟨_, rfl, .refl, w, hw, .kept hp hkids⟩
    | bag hp hkids => exact ⟨_, rfl, .refl, w, hw, .bag hp hkids⟩

end

end Rewrites

/-- A value in the arguments of a call and what a walk with the property `Q` makes of it. -/
def Carried (source : Source) (Q : Walk → Prop) (args : List Node) (os : List Output) (m : Node)
    (p : Output) : Prop :=
  (∃ a ∈ args.zip os, Inner a.1 a.2 m p) ∧ ∃ w, Q w ∧ Rewrites source w m p

theorem Carried.cons {args : List Node} {m : Node} {p : Output} (h : Carried source Q args os m p)
    (a : Node) (o : Output) : Carried source Q (a :: args) (o :: os) m p := by
  obtain ⟨⟨q, hq, hin⟩, hw⟩ := h
  exact ⟨⟨q, List.mem_cons_of_mem _ hq, hin⟩, hw⟩

/-- The same update before and after, its values carried by the arguments. -/
structure SameUpdate (source : Source) (Q : Walk → Prop) (args : List Node) (os : List Output)
    (u : Update Unit) (v : Update Layout) : Prop where
  entries : List.Forall₂ (fun e f => e.1 = f.1 ∧ Carried source Q args os e.2 f.2)
    u.entries v.entries
  callback : Option.Rel (Carried source Q args os) u.callback v.callback

variable {u : Update Unit}

namespace RewritesAll

variable {source : Source} {w : Walk} {ns : List Node} {os : List Output} {Q : Walk → Prop}

section

variable (h : RewritesAll source w ns os)

include h

theorem entries {entries}
    (hn : List.Forall₂ (fun n e => entry? n = some e) ns entries)
    (hQ : ∀ n ∈ ns, ∀ m : Node, m.Within n → ∀ w, Q w → Q (w.visit source m)) (hw : Q w) :
    ∃ outs, os.mapM entry? = some outs ∧
      List.Forall₂ (fun e f => e.1 = f.1 ∧ Carried source Q ns os e.2 f.2) entries outs := by
  induction hn generalizing w os with
  | nil =>
    cases h
    exact ⟨[], rfl, .nil⟩
  | @cons n entry _ _ hentry _ ih =>
    cases h with
    | @cons _ _ _ o _ hfirst hrest =>
      obtain ⟨p, hp, hin, hw'⟩ := hfirst.entry hentry (hQ n (by simp)) hw
      obtain ⟨outs, houts, hall⟩ := ih hrest (fun m hm => hQ m (by simp [hm]))
        (hQ n (by simp) n .self w hw)
      refine ⟨(entry.1, p) :: outs, by simp [hp, houts], .cons ?_ ?_⟩
      · exact ⟨rfl, ⟨(n, o), by simp, hin⟩, hw'⟩
      · exact hall.imp fun _ _ hc => ⟨hc.1, hc.2.cons n o⟩

theorem update (hu : update? ns = some u)
    (hQ : ∀ n ∈ ns, ∀ m : Node, m.Within n → ∀ w, Q w → Q (w.visit source m)) (hw : Q w) :
    ∃ v, update? os = some v ∧ SameUpdate source Q ns os u v := by
  obtain ⟨n, _, ⟨⟩, _, properties, rfl, hobject, hentries, hcallback⟩ := exists_of_update? hu
  cases h with
  | @cons _ _ _ o os hn hns =>
    obtain ⟨ps, ho, hps, hin⟩ := hn.unparen_object hobject
    have hwithin : ∀ p ∈ properties, p.Within n := by
      intro p hp
      have hp : p ∈ n.unparen.kids := by simpa [hobject] using hp
      exact (inside_of_mem_kids hp).within.trans (unparen_within n)
    obtain ⟨outs, houts, hall⟩ := hps.entries hentries
      (fun p hp m hm => hQ n (by simp) m (hm.trans (hwithin p hp))) hw
    refine ⟨⟨outs, os.head?.map Script.Tree.spreadValue⟩, by simp [update?, ho, houts], ?_, ?_⟩
    · refine hall.imp fun e f hc => ⟨hc.1, ?_, hc.2.2⟩
      obtain ⟨q, hq, hinner⟩ := hc.2.1
      refine ⟨(n, o), by simp, hin.trans ?_⟩
      rw [hobject, ho]
      exact .kid rfl hq hinner
    · rw [hcallback]
      cases hns with
      | nil => exact .none
      | @cons _ m _ p _ hm =>
        refine .some ⟨⟨(m, p), by simp, hm.spreadValue.1⟩, _, ?_, hm.spreadValue.2⟩
        exact hQ n (by simp) n .self w hw

theorem exists_sameUpdate (hu : update? ns = some u) :
    ∃ v, update? os = some v ∧ SameUpdate source (fun _ => True) ns os u v :=
  h.update hu (fun _ _ _ _ _ _ => trivial) trivial

theorem sameUpdate {v} (hu : update? ns = some u)
    (hv : update? os = some v) : SameUpdate source (fun _ => True) ns os u v := by
  obtain ⟨_, hv', hsame⟩ := h.exists_sameUpdate hu
  obtain rfl := Option.some.inj (hv.symm.trans hv')
  exact hsame

end

end RewritesAll

/-! Lists, pair by pair. The property `Q` of the walks is kept by every node of the list. -/

theorem RewritesAll.forall₂ {w ns} {R : Output → Node → Prop}
    (h : RewritesAll source w ns os) (hQ : ∀ n ∈ ns, ∀ w, Q w → Q (w.visit source n)) (hw : Q w)
    (hR : ∀ n ∈ ns, ∀ w o, Q w → Rewrites source w n o → R o n) : List.Forall₂ R os ns := by
  induction ns generalizing w os with
  | nil =>
    cases h
    exact .nil
  | cons n _ ih =>
    cases h with
    | cons hn hns =>
      exact .cons (hR n (by simp) w _ hw hn) (ih hns (fun m hm => hQ m (by simp [hm]))
        (hQ n (by simp) w hw) fun m hm => hR m (by simp [hm]))

theorem RewritesListed.forall₂ {w ss} {R : Output → Node → Prop}
    (h : RewritesListed source w ss os) (hQ : ∀ s ∈ ss, ∀ w, Q w → Q (w.listed source s)) (hw : Q w)
    (hR : ∀ s ∈ ss, ∀ w o, Q w → Rewrites source (w.enter s.span) s o →
      R (Output.settled source ((w.enter s.span).visit source s) s.span o) s) :
    List.Forall₂ R os ss := by
  induction ss generalizing w os with
  | nil =>
    cases h
    exact .nil
  | cons s _ ih =>
    cases h with
    | cons hs hss =>
      exact .cons (hR s (by simp) w _ hw hs) (ih hss (fun m hm => hQ m (by simp [hm]))
        (hQ s (by simp) w hw) fun m hm => hR m (by simp [hm]))

/-! A walk makes code of every node. -/

theorem Visit.exists_of_boundMethod? (h : boundMethod? n = some method) :
    ∃ member, n.calleeMember? = some member ∧ member.memberName? = some "bind" ∧
      member.memberObject? = some method := by
  unfold boundMethod? at h
  split at h
  case h_2 => simp at h
  case h_1 member argument hmember _ =>
    split at h
    case h_2 => simp at h
    case h_1 =>
      split at h
      case isFalse => simp at h
      case isTrue hname => exact ⟨member, hmember, beq_iff_eq.1 hname, h⟩

theorem Visit.boundMethod?_inside (h : boundMethod? n = some method) : method.Inside n := by
  obtain ⟨_, hmember, -, hobject⟩ := exists_of_boundMethod? h
  have hmethod := inside_of_mem_kids (memberObject?_mem_kids hobject)
  exact hmethod.trans_within (calleeMember?_inside hmember).within

theorem Visit.isUpdateCall_of_boundMethod? (h : boundMethod? n = some method) :
    isUpdateCall n = false := by
  obtain ⟨_, hmember, hname, -⟩ := exists_of_boundMethod? h
  simp only [isUpdateCall, hmember, Option.any_some, isThisMember, thisMember?, hname]
  split <;> simp

theorem exists_rewritesAll {ns} (h : ∀ n ∈ ns, ∀ w, ∃ o, Rewrites source w n o)
    (w : Walk) : ∃ os, RewritesAll source w ns os := by
  induction ns generalizing w with
  | nil => exact ⟨[], .nil⟩
  | cons n _ ih =>
    obtain ⟨o, ho⟩ := h n (by simp) w
    obtain ⟨os, hos⟩ := ih (fun m hm => h m (by simp [hm])) (w.visit source n)
    exact ⟨o :: os, .cons ho hos⟩

theorem exists_rewritesListed {ss} (h : ∀ s ∈ ss, ∀ w, ∃ o, Rewrites source w s o)
    (w : Walk) : ∃ os, RewritesListed source w ss os := by
  induction ss generalizing w with
  | nil => exact ⟨[], .nil⟩
  | cons s _ ih =>
    obtain ⟨o, ho⟩ := h s (by simp) (w.enter s.span)
    obtain ⟨os, hos⟩ := ih (fun m hm => h m (by simp [hm])) (w.listed source s)
    exact ⟨_ :: os, .cons ho hos⟩

theorem exists_rewrites (source : Source) (n : Node) (w : Walk) : ∃ o, Rewrites source w n o := by
  induction n using inside_induction generalizing w with
  | h n hinside =>
    have hargs : ∀ m : Node, m.Within n → ∀ w, ∃ os, RewritesAll source w m.arguments os :=
      fun m hm w => exists_rewritesAll
        (fun a ha => hinside a ((inside_of_mem_arguments ha).trans_within hm)) w
    by_cases hp : passes w.draft n
    · obtain ⟨os, hos⟩ := exists_rewritesAll (fun k hk => hinside k (inside_of_mem_kids hk)) w
      exact ⟨_, .kept hp hos⟩
    obtain ⟨⟨⟩, kind, span, kids⟩ := n
    cases kind
    case block =>
      obtain ⟨os, hos⟩ := exists_rewritesListed (fun k hk => hinside k (inside_of_mem_kids hk)) w
      exact ⟨_, .block hos⟩
    case this => exact ⟨_, .this⟩
    case switchCase =>
      rcases kids with _ | ⟨test, _ | ⟨body, _ | ⟨other, rest⟩⟩⟩ <;> try simp [passes] at hp
      have hbody : body ∈ (node () .switchCase span [test, body]).kids := by simp
      obtain ⟨o, ho⟩ := hinside test (inside_of_mem_kids (by simp)) w
      obtain ⟨os, hos⟩ := exists_rewritesListed
        (fun k hk => hinside k ((inside_of_mem_kids hk).trans_within (.kid hbody .self)))
        (w.visit source test)
      exact ⟨_, .switchCase ho hos⟩
    case member =>
      simp only [passes, kind_node, Option.isNone_iff_eq_none, Option.ne_none_iff_exists'] at hp
      obtain ⟨⟨name, _⟩, h⟩ := hp
      exact ⟨_, .member h⟩
    case variableDecl word => exact ⟨_, .declaration (by simpa [passes] using hp)⟩
    case ident name =>
      obtain ⟨os, hos⟩ := exists_rewritesAll (fun k hk => hinside k (inside_of_mem_kids hk))
        (w.replace span "$$props".toList)
      exact ⟨_, .bag (by simpa [passes] using hp) hos⟩
    case expression =>
      rcases kids with _ | ⟨e, _ | ⟨_, _⟩⟩ <;> try simp [passes] at hp
      obtain ⟨os, hos⟩ := hargs e.unparen (unparen_within_statement ..) w
      cases hu : update? e.unparen.arguments with
      | none => exact ⟨_, .updateStatementDeferred hp hos hu⟩
      | some u =>
        obtain ⟨v, hv, -⟩ := hos.exists_sameUpdate hu
        by_cases hnil : Output.updates span v = []
        · exact ⟨_, .emptyUpdateStatement hp hos hu hv hnil⟩
        · exact ⟨_, .updateStatement hp hos hu hv hnil⟩
    case call =>
      obtain ⟨_, hos⟩ := hargs _ .self w
      by_cases hupdate : isUpdateCall (.node () .call span kids : Node)
      · cases hu : update? (arguments (.node () .call span kids : Node)) with
        | none => exact ⟨_, .updateDeferred hupdate hos hu⟩
        | some =>
          obtain ⟨v, hv, -⟩ := hos.exists_sameUpdate hu
          exact ⟨_, .update hupdate hos hu hv⟩
      rw [Bool.not_eq_true] at hupdate
      cases hbound : boundMethod? (.node () .call span kids : Node) with
      | some method =>
        obtain ⟨o, ho⟩ := hinside method (boundMethod?_inside hbound) w
        exact ⟨_, .bound hupdate hbound ho⟩
      | none =>
        simp only [passes, kind_node, hupdate, hbound, Bool.not_false, Option.isNone_none,
          Bool.true_and, Option.isNone_iff_eq_none, Option.ne_none_iff_exists'] at hp
        obtain ⟨_, h⟩ := hp
        exact ⟨_, .setter hupdate hbound h hos⟩
    all_goals simp [passes] at hp

end Sveltify
