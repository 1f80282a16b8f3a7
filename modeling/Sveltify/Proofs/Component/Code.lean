import Sveltify.Component.Class
import Sveltify.Markup.Build
import Sveltify.Proofs.Component.Growth

/-! Where generated code comes from. Everything that a conversion writes is put together from codes:
what a walk makes of a node, or a part of the source as it stands. A conversion takes a number of
small steps, and a step that writes a text shows how it is made of codes that a policy permits. -/

namespace Sveltify

open List
open Script (Node Kind)
open Script.Tree

/-- The names of a scope stand for variables: the setters that are known set state variables, and
what holds an element is an element reference. -/
structure Draft.Tied (d : Draft) : Prop where
  setters : ∀ entry ∈ d.scope.setters, d.symbols.isState entry.2
  hookRefs : ∀ name ∈ d.scope.hookRefs, d.symbols.isRef name

/-- Code in a generated component. -/
inductive Code where
  | rendered (walk : Walk) (node : Node)
  | deferred (walk : Walk) (call : Node)
  | copied (node : Node)

namespace Code

def text (source : Source) : Code → Text
  | .rendered w n => (w.visit source n).edits.render source n.span
  | .deferred w call => (w.visits source call.arguments).edits.render source call.span
  | .copied n => source.slice n.span

def Becomes (source : Source) (o : Output) : Code → Prop
  | .rendered w n => Rewrites source w n o
  | .deferred w call =>
    ∃ os, RewritesAll source w call.arguments os ∧ o = Output.withArguments os call
  | .copied n => o = Output.untouched n

def KnownTo (source : Source) (d : Draft) : Code → Prop
  | .rendered w n => w.draft.Tied ∧ (w.visit source n).draft.Grows d
  | .deferred w call => w.draft.Tied ∧ (w.visits source call.arguments).draft.Grows d
  | .copied _ => True

theorem KnownTo.grows {source d d'} {c : Code} (h : c.KnownTo source d)
    (hd : d.Grows d') : c.KnownTo source d' := by
  cases c with
  | rendered w n => exact ⟨h.1, h.2.trans hd⟩
  | deferred => exact ⟨h.1, h.2.trans hd⟩
  | copied => trivial

end Code

/-! The forms of the texts of a script, over the codes `A`. -/

section

variable (source : Source) (A : Code → Prop)

def dedented (text : Text) (margin : Nat) : Text :=
  Text.tidyBlankLines (Text.reindent text margin [])

def headText (async generator : Bool) (name : String) (params : List Text) : String :=
  let list := ", ".intercalate (params.map String.ofList)
  let mark := if async then "async " else ""
  let star := if generator then "*" else ""
  s!"{mark}function{star} {name}({list})"

/-- The framework functions that run code at a moment in a component's life. -/
def moments : List String :=
  ["onMount", "onDestroy", "afterUpdate"]

def lifecycleHead (helper : String) (async : Bool) : String :=
  let mark := if async then "async " else ""
  s!"{helper}({mark}() =>"

/-- A function of the script, or a call that runs at a moment in a component's life. -/
inductive IsRoutine : String → Prop
  | function (async generator : Bool) (name : String) {params : List Code} {body : Code}
      (margin : Nat) (hparams : ∀ c ∈ params, A c) (hbody : A body) :
      IsRoutine (String.ofList (dedented
        ((headText async generator name (params.map (·.text source))).toList ++
          ' ' :: body.text source) margin))
  | constant (name : String) {value : Code} (margin : Nat) (hvalue : A value) :
      IsRoutine (String.ofList (Text.reindent
        (s!"const {name} = ".toList ++ value.text source ++ [';']) margin []))
  | lifecycle {helper : String} (async : Bool) {body : Code} (margin : Nat)
      (hhelper : helper ∈ moments) (hbody : A body) :
      IsRoutine (String.ofList (dedented
        ((lifecycleHead helper async).toList ++ ' ' :: body.text source) margin ++ ");".toList))
  | effect {helper : String} {callback : Code} (margin : Nat) (hhelper : helper ∈ moments)
      (hcallback : A callback) :
      IsRoutine (String.ofList (dedented
        (s!"{helper}(".toList ++ callback.text source ++ ");".toList) margin))

/-- A reactive statement, over the props `N`. -/
inductive IsReaction (N : String → Prop) : String → Prop
  | rename (inner : String) {name : String} (hname : N name) :
      IsReaction N s!"$: {inner} = {name};"
  | unpack {pattern : Code} {name : String} (hpattern : A pattern) (hname : N name) :
      IsReaction N s!"$: ({String.ofList (pattern.text source)} = {name});"
  | computed (name : String) {value : Code} (margin : Nat) (hvalue : A value) :
      IsReaction N s!"$: {name} = {String.ofList (dedented (value.text source) margin)};"
  | memo (name : String) {factory : Code} (margin : Nat) (hfactory : A factory) :
      IsReaction N s!"$: {name} = ({String.ofList (dedented (factory.text source) margin)})();"

/-- The value with which a name is declared. -/
inductive IsValue (name : String) : String → Prop
  | code {value : Code} (hvalue : A value) : IsValue name (String.ofList (value.text source))
  | own : IsValue name name
  | rest : IsValue name "$$restProps"

/-- A statement of the module around a component. -/
inductive IsModuleCode : String → Prop
  | item {item : Code} (margin : Nat) (hitem : A item) :
      IsModuleCode (String.ofList (dedented (item.text source) margin))

def helperText (statements : List Text) : Text :=
  (statements.map fun text =>
    Markup.spaces 4 ++ Text.reindent text 0 (Markup.spaces 4) ++ ['\n']).flatten

/-- Code for manual review. -/
inductive IsReview : String → Prop
  | part {part : Code} (margin : Nat) (hpart : A part) :
      IsReview (String.ofList (dedented (part.text source) margin))
  | call {call : Code} (hcall : A call) : IsReview (String.ofList (call.text source))
  | parts {parts : List (Code × Nat)} (hparts : ∀ c ∈ parts, A c.1) :
      IsReview ("\n".intercalate
        (parts.map fun c => String.ofList (dedented (c.1.text source) c.2)))
  | helper (name params : String) {statements : List (Code × Nat)} (names : List String)
      (hstatements : ∀ c ∈ statements, A c.1) :
      IsReview (String.ofList
        (s!"function {name}(items) \x7b\n  return items.map(({params}) => \x7b\n".toList ++
          helperText (statements.map fun c => dedented (c.1.text source) c.2) ++
          "    return ".toList ++ Markup.namesInBraces names ++ ";\n  \x7d);\n\x7d".toList))

end

section

variable {source : Source} {A B : Code → Prop} (h : ∀ c, A c → B c)

include h

variable {t : String}

theorem IsRoutine.imp (ht : IsRoutine source A t) : IsRoutine source B t := by
  cases ht with
  | function async generator name margin hparams hbody =>
    exact .function async generator name margin (fun c hc => h c (hparams c hc)) (h _ hbody)
  | constant name margin hvalue => exact .constant name margin (h _ hvalue)
  | lifecycle async margin hhelper hbody => exact .lifecycle async margin hhelper (h _ hbody)
  | effect margin hhelper hcallback => exact .effect margin hhelper (h _ hcallback)

theorem IsReaction.imp {N M : String → Prop} (hN : ∀ name, N name → M name)
    (ht : IsReaction source A N t) : IsReaction source B M t := by
  cases ht with
  | rename inner hname => exact .rename inner (hN _ hname)
  | unpack hpattern hname => exact .unpack (h _ hpattern) (hN _ hname)
  | computed name margin hvalue => exact .computed name margin (h _ hvalue)
  | memo name margin hfactory => exact .memo name margin (h _ hfactory)

theorem IsValue.imp {name} (ht : IsValue source A name t) : IsValue source B name t := by
  cases ht with
  | code hvalue => exact .code (h _ hvalue)
  | own => exact .own
  | rest => exact .rest

theorem IsModuleCode.imp (ht : IsModuleCode source A t) : IsModuleCode source B t := by
  obtain ⟨margin, hitem⟩ := ht
  exact ⟨margin, h _ hitem⟩

theorem IsReview.imp (ht : IsReview source A t) : IsReview source B t := by
  cases ht with
  | part margin hpart => exact .part margin (h _ hpart)
  | call hcall => exact .call (h _ hcall)
  | parts hparts => exact .parts fun c hc => h _ (hparts c hc)
  | helper name params names hstatements =>
    exact .helper name params names fun c hc => h _ (hstatements c hc)

end

/-! Numbers of markers. -/

/-- The number of the marker that a block for manual review stands for: its reason ends in it. -/
def ReviewBlock.markerIn? (reason : String) : Option Nat :=
  let digits := reason.toList.reverse.takeWhile Char.isDigit
  match digits, reason.toList.reverse.dropWhile Char.isDigit with
  | _ :: _, '#' :: ' ' :: _ => some (Nat.ofDigitChars 10 digits.reverse 0)
  | _, _ => none

namespace ReviewBlock

theorem markerIn?_numbered (start : String) (k : Nat) : markerIn? s!"{start} #{k}" = some k := by
  have htext : (s!"{start} #{k}").toList.reverse =
      (Nat.toDigits 10 k).reverse ++ '#' :: ' ' :: start.toList.reverse := by
    simp [toString]
  have hdigits : ∀ c ∈ (Nat.toDigits 10 k).reverse, c.isDigit := by
    intro c hc
    exact Nat.isDigit_of_mem_toDigits (by decide) (by decide) (mem_reverse.1 hc)
  unfold markerIn?
  rw [htext, takeWhile_append_of_pos hdigits, dropWhile_append_of_pos hdigits]
  obtain ⟨c, rest, heq⟩ := exists_cons_of_ne_nil
    (reverse_ne_nil_iff.2 (Nat.toDigits_ne_nil (n := k) (b := 10)))
  have hvalue : Nat.ofDigitChars 10 (c :: rest).reverse 0 = k := by
    rw [← heq, reverse_reverse, Nat.ofDigitChars_ten_toDigits]
  rw [heq]
  simpa using hvalue

theorem markerIn?_of_not_mem {reason} (h : '#' ∉ reason.toList) :
    markerIn? reason = none := by
  unfold markerIn?
  dsimp only
  split
  · next hrest =>
    have hmem : '#' ∈ reason.toList.reverse.dropWhile Char.isDigit := by simp [hrest]
    exact absurd (mem_reverse.1 ((dropWhile_suffix _).subset hmem)) h
  · rfl

theorem markerIn?_append {start stop}
    (h : stop.toList.getLast?.any (!·.isDigit)) : markerIn? (start ++ stop) = none := by
  obtain ⟨c, hc, hdigit⟩ := (Option.any_eq_true _ _).1 h
  obtain ⟨front, hfront⟩ := getLast?_eq_some_iff.1 hc
  have htext : (start ++ stop).toList.reverse = c :: (front.reverse ++ start.toList.reverse) := by
    simp [hfront]
  unfold markerIn?
  rw [htext, takeWhile_cons_of_neg (by simpa using hdigit)]

end ReviewBlock

/-! Policies. -/

/-- Which nodes may become code, given what is known then. -/
structure Policy where
  renders : Draft → Node → Prop
  visits : Draft → Node → Prop
  copies : Node → Prop
  methods : String → Prop
  /-- Whether the items of the module around the component may be taken over. -/
  takesItems : Prop
  names : String → Prop := fun _ => True
  cuts : Nat → Prop := fun _ => True
  marks : Prop := True
  renders_grows {d d' : Draft} {n : Node} : d.Grows d' → renders d n → renders d' n
  visits_grows {d d' : Draft} {n : Node} : d.Grows d' → visits d n → visits d' n
  renders_within {d : Draft} {m n : Node} : m.Within n → renders d n → renders d m
  visits_within {d : Draft} {m n : Node} : m.Within n → visits d n → visits d m
  visits_of_renders {d : Draft} {n : Node} : renders d n → visits d n
  /-- Declarations that are consumed feed the component, wherever they stand. -/
  renders_declaration {d : Draft} {n : Node} {word : String} : visits d n →
    n.kind = .variableDecl word → Walk.consumes d.scope n.kids → renders d n
  copies_value {d : Draft} {span : Span} {key value : Node} :
    renders d (.node () .patternProperty span [key, value]) → copies value
  names_of_calls {d : Draft} {n : Node} {name : String} : visits d n → n.Calls name → names name :=
    by intros; trivial
  cuts_of_visits {d : Draft} {n : Node} : visits d n → cuts n.span.start ∧ cuts n.span.stop :=
    by intros; trivial

namespace Policy

def free (methods : String → Prop) (takesItems : Prop) : Policy where
  renders _ _ := True
  visits _ _ := True
  copies _ := True
  methods := methods
  takesItems := takesItems
  renders_grows _ h := h
  visits_grows _ h := h
  renders_within _ h := h
  visits_within _ h := h
  visits_of_renders h := h
  renders_declaration _ _ _ := trivial
  copies_value _ := trivial

/-- Why an export that gives nothing to the component is left to manual review. -/
def exportReason : String := "module export"

variable (p : Policy) (source : Source)

def reviews (reason : String) : Prop :=
  (reason = exportReason → p.takesItems) ∧
    ((ReviewBlock.markerIn? reason).isSome → p.marks)

/-- The source may be cut at the offset, or after the blanks that start there. -/
def mayCut (offset : Nat) : Prop :=
  ∃ start, p.cuts start ∧ (offset = start ∨ offset = start + source.blanksAfter start)

/-- The policy permits the code, which is rendered by a walk of its own. -/
def permits : Code → Prop
  | .rendered w n => w = { draft := w.draft } ∧ p.renders w.draft n
  | .deferred _ _ => False
  | .copied n => p.copies n

def Allows (d : Draft) (c : Code) : Prop :=
  c.KnownTo source d ∧ p.permits c

def Admits (d : Draft) (part : Part) : Prop :=
  ∃ n, part = Part.ofNode source n ∧ p.renders d n

def Sees (d : Draft) (part : Part) : Prop :=
  ∃ n, part = Part.ofNode source n ∧ p.visits d n

variable {p source}

theorem reviews_of_ne {reason}
    (h : reason ≠ exportReason ∧ ReviewBlock.markerIn? reason = none) : p.reviews reason :=
  ⟨fun heq => absurd heq h.1, fun hsome => by simp [h.2] at hsome⟩

theorem ne_exportReason {reason} (c : Char) (hc : c ∈ reason.toList)
    (h : c ∉ exportReason.toList) : reason ≠ exportReason :=
  fun heq => h (heq ▸ hc)

theorem reviews_quoted {start name stop}
    (h : '\x60' ∈ start.toList ∧ stop.toList.getLast?.any (!·.isDigit)) :
    p.reviews (start ++ name ++ stop) :=
  reviews_of_ne ⟨ne_exportReason '\x60' (by simp [h.1]) (by decide),
    ReviewBlock.markerIn?_append h.2⟩

variable {part : Part} {d : Draft}

variable {d' : Draft}

theorem Allows.grows {c : Code} (h : p.Allows source d c) (hd : d.Grows d') :
    p.Allows source d' c :=
  ⟨h.1.grows hd, h.2⟩

theorem Admits.grows (h : p.Admits source d part) (hd : d.Grows d') : p.Admits source d' part := by
  obtain ⟨n, rfl, hn⟩ := h
  exact ⟨n, rfl, p.renders_grows hd hn⟩

theorem Sees.grows (h : p.Sees source d part) (hd : d.Grows d') : p.Sees source d' part := by
  obtain ⟨n, rfl, hn⟩ := h
  exact ⟨n, rfl, p.visits_grows hd hn⟩

theorem Admits.sees (h : p.Admits source d part) : p.Sees source d part := by
  obtain ⟨n, rfl, hn⟩ := h
  exact ⟨n, rfl, p.visits_of_renders hn⟩

theorem exists_within_relabel {n} (h : part.Within (Part.ofNode source n)) :
    ∃ m : Node, m.Within n ∧ part = Part.ofNode source m :=
  within_relabel h

theorem Admits.within {whole} (h : p.Admits source d whole) (hpart : part.Within whole) :
    p.Admits source d part := by
  obtain ⟨n, rfl, hn⟩ := h
  obtain ⟨m, hm, rfl⟩ := exists_within_relabel hpart
  exact ⟨m, rfl, p.renders_within hm hn⟩

theorem Sees.within {whole} (h : p.Sees source d whole) (hpart : part.Within whole) :
    p.Sees source d part := by
  obtain ⟨n, rfl, hn⟩ := h
  obtain ⟨m, hm, rfl⟩ := exists_within_relabel hpart
  exact ⟨m, rfl, p.visits_within hm hn⟩

theorem Sees.names {name} (h : p.Sees source d part) (hname : part.Calls name) :
    p.names name := by
  obtain ⟨n, rfl, hn⟩ := h
  exact p.names_of_calls hn hname.of_relabel

theorem Sees.cuts (h : p.Sees source d part) : p.cuts part.span.start ∧ p.cuts part.span.stop := by
  obtain ⟨n, rfl, hn⟩ := h
  rw [Part.ofNode, span_relabel]
  exact p.cuts_of_visits hn

end Policy

/-! Steps. -/

namespace Draft

/-- One step of a conversion. -/
inductive Change (source : Source) (p : Policy) : Draft → Draft → Prop
  | prop (d : Draft) {name : String} {value : Option String} (hname : p.names name)
      (h : ∀ v ∈ value, IsValue source (p.Allows source d) name v) :
      Change source p d (d.withSymbols (·.addProp name value))
  | initialState (d : Draft) {name : String} {value : Option String} (hname : p.names name)
      (h : ∀ v ∈ value, IsValue source (p.Allows source d) name v) :
      Change source p d (d.withSymbols (·.addInitialState name value))
  | state (d : Draft) {name : String} {value : Option String} (hname : p.names name)
      (h : ∀ v ∈ value, IsValue source (p.Allows source d) name v) :
      Change source p d (d.withSymbols (·.addState name value))
  | ref (d : Draft) {name : String} (hname : p.names name ∨ Markup.isIdentifier name.toList) :
      Change source p d (d.withSymbols (·.addRef name))
  | method (d : Draft) {name : String} (h : p.methods name) :
      Change source p d (d.withScope fun s => { s with methods := name :: s.methods })
  | propsBag (d : Draft) (name : String) :
      Change source p d (d.withScope fun s => { s with propsBag := some name })
  | setter (d : Draft) (setter : String) {name : String} (h : d.symbols.isState name) :
      Change source p d (d.withScope fun s => { s with setters := s.setters.insert setter name })
  | hookRef (d : Draft) {name : String} (h : d.symbols.isRef name) :
      Change source p d (d.withScope fun s => { s with hookRefs := name :: s.hookRefs })
  | reactive (d : Draft) {text : String}
      (h : IsReaction source (p.Allows source d) (d.symbols.isProp ·) text) :
      Change source p d (d.addReactive text)
  | function (d : Draft) {text : String} (h : IsRoutine source (p.Allows source d) text) :
      Change source p d (d.addFunction text)
  | moduleCode (d : Draft) {text : String} (hitems : p.takesItems)
      (h : IsModuleCode source (p.Allows source d) text) :
      Change source p d (d.addModuleCode text)
  | helper (d : Draft) (name : String) : Change source p d (d.addHelper name)
  | report (d : Draft) (finding : Finding) (message : String) (offset : Nat) :
      Change source p d (d.report source finding message offset)
  | review (d : Draft) {reason code : String} (offset : Nat) (hreason : p.reviews reason)
      (h : IsReview source (Code.KnownTo source d) code) :
      Change source p d (d.review source reason code offset)
  | marker (d : Draft) (h : p.marks) : Change source p d d.nextMarker.2
  | helperName (d : Draft) (base : String) : Change source p d (d.helperName base).2
  | slot (d : Draft) : Change source p d { d with usesSlot := true }
  | cut (d : Draft) {offsets : List Nat} (h : ∀ offset ∈ offsets, p.mayCut source offset) :
      Change source p d (d.cut offsets)

abbrev Run (source : Source) (p : Policy) : Draft → Draft → Prop :=
  Relation.ReflTransGen (Change source p)

variable {source : Source} {p : Policy} {d d' : Draft}

theorem Change.grows (h : Change source p d d') : d.Grows d' := by
  cases h with
  | prop => exact d.grows_withSymbols fun t => t.grows_addProp _ _
  | initialState => exact d.grows_withSymbols fun t => t.grows_addInitialState _ _
  | state => exact d.grows_withSymbols fun t => t.grows_addState _ _
  | ref => exact d.grows_withSymbols fun t => t.grows_addRef _
  | method => exact d.grows_addMethod _
  | propsBag => exact d.grows_setPropsBag _
  | setter => exact d.grows_insertSetter _ _
  | hookRef => exact d.grows_addHookRef _
  | reactive => exact d.grows_addReactive _
  | function => exact d.grows_addFunction _
  | moduleCode => exact d.grows_addModuleCode _
  | helper => exact d.grows_addHelper _
  | report => exact d.grows_report source _ _ _
  | review => exact d.grows_review source _ _ _
  | cut => exact d.grows_cut _
  | marker | helperName | slot => exact ⟨.refl _, .refl _, fun _ h => h, fun _ h => h, fun _ h => h⟩

theorem Run.grows (h : Run source p d d') : d.Grows d' := by
  induction h with
  | refl => exact .refl d
  | tail _ hstep ih => exact ih.trans hstep.grows

theorem Change.tied (h : Change source p d d') (hd : d.Tied) : d'.Tied := by
  have hgrows := h.grows
  have hsetters : ∀ entry ∈ d.scope.setters, d'.symbols.isState entry.2 :=
    fun entry hmem => hgrows.symbols.state _ (hd.setters entry hmem)
  have hrefs : ∀ name ∈ d.scope.hookRefs, d'.symbols.isRef name :=
    fun name hmem => hgrows.symbols.isRef (hd.hookRefs name hmem)
  cases h with
  | setter _ hname =>
    refine ⟨fun entry hentry => ?_, hrefs⟩
    obtain rfl | hmem := Table.mem_insert hentry
    · exact hname
    · exact hsetters entry hmem
  | hookRef hname =>
    refine ⟨hsetters, fun name hmem => ?_⟩
    obtain rfl | hmem := mem_cons.1 hmem
    · exact hname
    · exact hrefs name hmem
  | reactive =>
    rw [← scope_addReactive d] at hsetters hrefs
    exact ⟨hsetters, hrefs⟩
  | _ => exact ⟨hsetters, hrefs⟩

theorem Run.tied (h : Run source p d d') (hd : d.Tied) : d'.Tied := by
  induction h with
  | refl => exact hd
  | tail _ hstep ih => exact hstep.tied ih

end Draft

end Sveltify
