import Sveltify.Proofs.Markup.Markers

/-! Markup is built in steps too, and every expression in it is made of codes that the policy
permits. What is shown as markup need not be let into the component as code; the attributes, tests
and collections in it must be. -/

namespace Sveltify

open List Script.Tree ComponentSource Part

/-! The places of an expression that become code in markup made of it. -/

namespace Script.Tree

variable {α : Type}

def embedded (t : Script.Tree α) : List (Script.Tree α) :=
  match t.kind, t.kids with
  | .jsxAttribute, [_, .node _ .jsxExpression _ [e]] => [e]
  | .spread, [e] => [e]
  | .binary "&&", [left, _] => [left]
  | .conditional, [test, _, _] => [test]
  | .call, _ =>
    if t.calleeMember?.any (·.memberName? == some "map") then
      (t.calleeMember?.bind Script.Tree.memberObject?).toList
    else []
  | _, _ => []

theorem within_of_mem_embedded {t e : Script.Tree α} (h : e ∈ t.embedded) : e.Within t := by
  unfold embedded at h
  split at h
  · next l span inner _ hkids =>
    have hmem : .node l .jsxExpression span [inner] ∈ t.kids := by simp [hkids]
    exact .kid hmem (.kid h .self)
  · next hkids => exact .kid (hkids ▸ h) .self
  · next hkids => exact .kid (by simp [hkids, mem_singleton.1 h]) .self
  · next hkids => exact .kid (by simp [hkids, mem_singleton.1 h]) .self
  · split at h
    · obtain ⟨member, hmember, hobject⟩ := Option.bind_eq_some_iff.1 (Option.mem_toList.1 h)
      have hinner : e.Within member := .kid (memberObject?_mem_kids hobject) .self
      exact hinner.trans (calleeMember?_inside hmember).within
    · simp at h
  · simp at h

/-- The attributes of an element. -/
def attributes (t : Script.Tree α) : List (Script.Tree α) :=
  match t.kids with
  | .node _ (.jsxOpening _) _ (_ :: list :: _) :: _ => list.kids
  | _ => []

theorem within_of_mem_attributes {t a : Script.Tree α} (h : a ∈ t.attributes) : a.Within t := by
  unfold attributes at h
  split at h
  · next hkids =>
    exact .kid (hkids ▸ mem_cons_self) (.kid (mem_cons_of_mem _ mem_cons_self)
      (.kid h .self))
  · simp at h

/-- The parts of a node that are written as they stand in the markup made of it. -/
def transcribed (t : Script.Tree α) : List (Script.Tree α) :=
  match t.kind, t.kids with
  | .jsxAttribute, [_, .node _ .jsxExpression _ [_]] => []
  | .jsxAttribute, [_, value] => [value]
  | .arrow _, params :: _ => params.kids
  | .function _ _, params :: _ => params.kids.map parameterPattern
  | _, _ => []

theorem parameterPattern_within (t : Script.Tree α) : (parameterPattern t).Within t := by
  unfold parameterPattern
  split
  · exact .kid (by simp) .self
  · exact .self

theorem parameterPattern_relabel {β : Type} {f : Script.Tree α → List (Script.Tree β) → β}
    (t : Script.Tree α) : parameterPattern (t.relabel f) = (parameterPattern t).relabel f := by
  obtain ⟨l, kind, _, kids⟩ := t
  rcases kids with _ | ⟨_, _ | ⟨_, _ | ⟨_, _⟩⟩⟩ <;> cases kind <;>
    simp [parameterPattern, relabel_node]

end Script.Tree

def Policy.Shows (p : Policy) (d : Draft) (n : Script.Node) : Prop :=
  ∀ m : Script.Node, m.Within n → p.visits d m ∧ (m.containsMarkup = false → p.renders d m) ∧
    (∀ e ∈ m.embedded, p.renders d e) ∧ ∀ v ∈ m.transcribed, p.copies v

theorem Policy.Shows.grows {d d' n} {p : Policy} (h : p.Shows d n)
    (hd : d.Grows d') : p.Shows d' n := by
  intro m hm
  obtain ⟨hvisits, hplain, hembedded, hcopied⟩ := h m hm
  exact ⟨p.visits_grows hd hvisits, fun hm => p.renders_grows hd (hplain hm),
    fun e he => p.renders_grows hd (hembedded e he), hcopied⟩

/-- What an attribute gives may be shown. -/
def Policy.Gives (p : Policy) (d : Draft) (a : Script.Node) : Prop :=
  p.visits d a ∧ (∀ e ∈ a.embedded, p.renders d e) ∧ ∀ v ∈ a.transcribed, p.copies v

theorem Policy.Gives.grows {d d' a} {p : Policy} (h : p.Gives d a)
    (hd : d.Grows d') : p.Gives d' a :=
  ⟨p.visits_grows hd h.1, fun e he => p.renders_grows hd (h.2.1 e he), h.2.2⟩

theorem Policy.Shows.gives {d n a} {p : Policy} (h : p.Shows d n)
    (ha : a ∈ n.attributes) : p.Gives d a :=
  have hshown := h a (within_of_mem_attributes ha)
  ⟨hshown.1, hshown.2.2⟩

/-! Names of helper functions hold no number sign. -/

theorem Text.ofNat_ne_hash {n} (h : n ≠ 35) : Char.ofNat n ≠ '#' := by
  by_cases hvalid : n.isValidChar
  · rw [Char.ofNat, dif_pos hvalid]
    exact fun heq => h (congrArg Char.toNat heq)
  · rw [Char.ofNat, dif_neg hvalid]
    decide

theorem Text.hash_not_mem_upperChar {c} (h : c ≠ '#') : '#' ∉ upperChar c := by
  have hlong : ∀ entry ∈ upperLong, ∀ n ∈ entry.2, n ≠ 35 := by decide +kernel
  have hruns : ∀ r ∈ upperRuns, 35 < (r.lo : Int) + r.shift := by decide +kernel
  unfold upperChar
  split
  · next hc =>
    have hupper : ∀ n : Fin 128, (Char.ofNat n).toUpper = '#' → Char.ofNat n = '#' := by decide
    intro hmem
    have heq : '#' = c.toUpper := mem_singleton.1 hmem
    exact h (by simpa using hupper ⟨c.toNat, hc⟩ (by simpa using heq.symm))
  unfold caseForm
  split
  · next form hform =>
    intro hmem
    obtain ⟨n, hn, heq⟩ := mem_map.1 hmem
    obtain ⟨_, _, hmem, -⟩ := lookup_eq_some_iff.1 hform
    exact ofNat_ne_hash (hlong (c.toNat, form) (by simp [hmem]) n hn) heq
  split
  · next n hn =>
    obtain ⟨r, hr, rfl⟩ := Option.map_eq_some_iff.1 hn
    have hshift := hruns r (mem_of_find?_eq_some hr)
    have hlo : r.lo ≤ c.toNat := by
      have hfound := find?_some hr
      simp only [Bool.and_eq_true, decide_eq_true_eq] at hfound
      exact hfound.1.1
    intro hmem
    exact ofNat_ne_hash (by omega) (mem_singleton.1 hmem).symm
  · simpa using h.symm

theorem Draft.freshName_cases (taken : List String) (base : String) (tries counter : Nat)
    (name : String) : freshName taken base tries counter name = name ∨
      ∃ k : Nat, freshName taken base tries counter name = s!"{base}{k}" := by
  induction tries generalizing counter name with
  | zero => exact .inl rfl
  | succ _ ih =>
    rw [freshName]
    split
    · exact .inr ((ih (counter + 1) s!"{base}{counter}").elim (⟨counter, ·⟩) id)
    · exact .inl rfl

theorem Draft.hash_not_mem_helperName (d : Draft) {base} (h : '#' ∉ base.toList) :
    '#' ∉ (d.helperName base).1.toList := by
  have hdigits : ∀ k : Nat, '#' ∉ Nat.toDigits 10 k := by
    intro k hmem
    exact absurd (Nat.isDigit_of_mem_toDigits (by decide) (by decide) hmem) (by decide)
  unfold helperName
  rcases freshName_cases d.helperNames base (d.helperNames.length + 1) 2 base with heq | ⟨k, heq⟩
  · rwa [heq]
  · rw [heq]
    simp [toString, h, hdigits k]

variable {trees : List (Script.Tree Roles)} {span : Span} {l : Roles}

namespace Markup

/-! Code in markup. -/

def Attribute.Every (P : Text → Prop) (a : Attribute) : Prop :=
  match a.value with
  | .none => True
  | .literal text | .expression text | .interpolated text => P text

mutual

/-- Every expression of a node satisfies `P`, and every item that an iteration binds satisfies `Q`. -/
def Node.Every (P Q : Text → Prop) : Node → Prop
  | .element _ attributes children _ _ => (∀ a ∈ attributes, a.Every P) ∧ EveryNode P Q children
  | .text _ | .comment _ | .slot | .review _ => True
  | .expression code => P code
  | .conditional branches otherwise _ => EveryBranch P Q branches ∧ EveryOtherwise P Q otherwise
  | .iteration collection item _ body _ => P collection ∧ Q item ∧ EveryBody P Q body

def EveryNode (P Q : Text → Prop) : List Node → Prop
  | [] => True
  | first :: rest => first.Every P Q ∧ EveryNode P Q rest

def EveryBody (P Q : Text → Prop) : Body Node → Prop
  | ⟨nodes, _⟩ => EveryNode P Q nodes

def Branch.Every (P Q : Text → Prop) : Branch Node → Prop
  | ⟨test, body⟩ => P test ∧ EveryBody P Q body

def EveryBranch (P Q : Text → Prop) : List (Branch Node) → Prop
  | [] => True
  | branch :: rest => Branch.Every P Q branch ∧ EveryBranch P Q rest

def EveryOtherwise (P Q : Text → Prop) : Option (Body Node) → Prop
  | none => True
  | some body => EveryBody P Q body

end

section

variable (source : Source) (root : Script.Node) (A : Code → Prop)

/-- An expression of the markup, over the codes `A`. -/
inductive IsShown : Text → Prop
  | code {c : Code} (hc : A c) : IsShown (c.text source)
  | negated {c : Code} (hc : A c) : IsShown (negate (c.text source))
  | mapped (helper : String) {c : Code} (hc : A c) :
      IsShown (s!"{helper}(".toList ++ c.text source ++ [')'])
  | words {pieces : List ClassPiece} (h : ClassPiece.liveCodes pieces = []) :
      IsShown ('"' :: ClassPiece.collapse false false (ClassPiece.marked 0 pieces) ++ ['"'])
  | classes {pieces : List ClassPiece}
      (h : ∀ t ∈ ClassPiece.liveCodes pieces, IsCode source A t) :
      IsShown (ClassPiece.fill 0 (ClassPiece.liveCodes pieces)
        (ClassPiece.collapse false false (ClassPiece.marked 0 pieces)))

def IsVariable (name : String) : Prop :=
  ∃ n : Script.Node, n.Within root ∧ n.ident? = some name

/-- What an iteration binds. -/
inductive IsItem : Text → Prop
  | name {name : String} (h : IsVariable root name) : IsItem name.toList
  | pattern {c : Code} (hc : A c) : IsItem (c.text source)
  | names {names : List String} (h : ∀ name ∈ names, IsVariable root name) :
      IsItem (namesInBraces names)

def Made (nodes : List Node) : Prop :=
  EveryNode (IsShown source A) (IsItem source root A) nodes

end

section

variable {P P' Q Q' : Text → Prop}

variable {nodes : List Node}

theorem everyNode_iff : EveryNode P Q nodes ↔ ∀ node ∈ nodes, node.Every P Q := by
  induction nodes with
  | nil => simp [EveryNode]
  | cons _ _ ih => simp [EveryNode, ih]

theorem everyBody_iff {body} : EveryBody P Q body ↔ EveryNode P Q body.nodes := by
  rw [EveryBody]

theorem everyNode_append {first second} (h : EveryNode P Q first)
    (h' : EveryNode P Q second) : EveryNode P Q (first ++ second) := by
  rw [everyNode_iff] at *
  intro node hnode
  exact (mem_append.1 hnode).elim (h node) (h' node)

theorem every_mapText (f : Text → Text) {node : Node} (h : node.Every P Q) :
    (node.mapText f).Every P Q := by
  unfold Node.mapText
  split
  · trivial
  · exact h

theorem everyNode_mapFirst {f}
    (hf : ∀ node : Node, node.Every P Q → (f node).Every P Q) (h : EveryNode P Q nodes) :
    EveryNode P Q (mapFirst f nodes) := by
  cases nodes with
  | nil => exact h
  | cons node => exact ⟨hf node h.1, h.2⟩

theorem everyNode_mapLast {f}
    (hf : ∀ node : Node, node.Every P Q → (f node).Every P Q) (h : EveryNode P Q nodes) :
    EveryNode P Q (mapLast f nodes) := by
  have hreverse : ∀ {nodes : List Node}, EveryNode P Q nodes → EveryNode P Q nodes.reverse := by
    intro _ h
    rw [everyNode_iff] at h ⊢
    exact fun node hnode => h node (mem_reverse.1 hnode)
  exact hreverse (everyNode_mapFirst hf (hreverse h))

variable (hP : ∀ t, P t → P' t) (hQ : ∀ t, Q t → Q' t)

include hP

theorem Attribute.every_imp {a : Attribute} (h : a.Every P) : a.Every P' := by
  unfold Attribute.Every at h ⊢
  split at h
  · trivial
  all_goals exact hP _ h

include hQ

mutual

theorem Node.every_imp : ∀ {node : Node}, node.Every P Q → node.Every P' Q'
  | .element .., h => ⟨fun a ha => Attribute.every_imp hP (h.1 a ha), everyNode_imp h.2⟩
  | .text _, _ | .comment _, _ | .slot, _ | .review _, _ => trivial
  | .expression _, h => hP _ h
  | .conditional .., h => ⟨everyBranch_imp h.1, everyOtherwise_imp h.2⟩
  | .iteration .., h => ⟨hP _ h.1, hQ _ h.2.1, everyBody_imp h.2.2⟩

theorem everyNode_imp : ∀ {nodes : List Node}, EveryNode P Q nodes → EveryNode P' Q' nodes
  | [], _ => trivial
  | _ :: _, h => ⟨Node.every_imp h.1, everyNode_imp h.2⟩

theorem everyBody_imp : ∀ {body : Body Node}, EveryBody P Q body → EveryBody P' Q' body
  | ⟨_, _⟩, h => everyNode_imp h

theorem Branch.every_imp :
    ∀ {branch : Branch Node}, Branch.Every P Q branch → Branch.Every P' Q' branch
  | ⟨_, _⟩, h => ⟨hP _ h.1, everyBody_imp h.2⟩

theorem everyBranch_imp :
    ∀ {branches : List (Branch Node)}, EveryBranch P Q branches → EveryBranch P' Q' branches
  | [], _ => trivial
  | _ :: _, h => ⟨Branch.every_imp h.1, everyBranch_imp h.2⟩

theorem everyOtherwise_imp :
    ∀ {otherwise : Option (Body Node)}, EveryOtherwise P Q otherwise → EveryOtherwise P' Q' otherwise
  | none, _ => trivial
  | some _, h => everyBody_imp h

end

end

theorem IsShown.imp {source} {A B : Code → Prop} (h : ∀ c, A c → B c) {t}
    (ht : IsShown source A t) : IsShown source B t := by
  cases ht with
  | code hc => exact .code (h _ hc)
  | negated hc => exact .negated (h _ hc)
  | mapped helper hc => exact .mapped helper (h _ hc)
  | words hpieces => exact .words hpieces
  | classes hpieces =>
    refine .classes fun t ht => ?_
    obtain ⟨c, hc, rfl⟩ := hpieces t ht
    exact ⟨c, h c hc, rfl⟩

theorem IsItem.imp {source root} {A B : Code → Prop}
    (h : ∀ c, A c → B c) {t} (ht : IsItem source root A t) : IsItem source root B t := by
  cases ht with
  | name hname => exact .name hname
  | pattern hc => exact .pattern (h _ hc)
  | names hnames => exact .names hnames

/-! The labelled tree of an expression. -/

def treeOf (setting : Setting) (n : Script.Node) : Script.Tree Roles :=
  (ofNode setting.source n).relabel (roles setting)

section

variable {setting : Setting}

theorem treeOf_node (kind : Script.Kind) (span : Span) (kids : List Script.Node) :
    treeOf setting (.node () kind span kids) =
      .node (roles setting (ofNode setting.source (.node () kind span kids))
        (kids.map (treeOf setting))) kind span (kids.map (treeOf setting)) := by
  unfold treeOf ofNode
  rw [relabel_node, relabel_node, map_map]
  rfl

theorem treeOf_eq_node {n kind} (h : treeOf setting n = .node l kind span trees) :
    ∃ kids, n = .node () kind span kids ∧ trees = kids.map (treeOf setting) := by
  obtain ⟨⟨⟩, k, s, kids⟩ := n
  rw [treeOf_node] at h
  obtain ⟨-, rfl, rfl, rfl⟩ := node.inj h
  exact ⟨kids, rfl, rfl⟩

@[simp] theorem part_treeOf (n : Script.Node) :
    (treeOf setting n).label.part = ofNode setting.source n := by
  obtain ⟨⟨⟩, _, _, _⟩ := n
  rfl

@[simp] theorem kind_treeOf (n : Script.Node) : (treeOf setting n).kind = n.kind := by
  simp [treeOf, ofNode]

@[simp] theorem span_treeOf (n : Script.Node) : (treeOf setting n).span = n.span := by
  simp [treeOf, ofNode]

@[simp] theorem kids_treeOf (n : Script.Node) :
    (treeOf setting n).kids = n.kids.map (treeOf setting) := by
  obtain ⟨⟨⟩, _, _, _⟩ := n
  rw [treeOf_node, kids_node, kids_node]

@[simp] theorem unparen_treeOf (n : Script.Node) :
    (treeOf setting n).unparen = treeOf setting n.unparen := by
  simp [treeOf, ofNode]

@[simp] theorem ident?_treeOf (n : Script.Node) : (treeOf setting n).ident? = n.ident? := by
  simp [treeOf, ofNode]

/-- A node of the labelled tree, with any label that knows the node. -/
structure Views (setting : Setting) (n : Script.Node) (t : Script.Tree Roles) : Prop where
  part : t.label.part = ofNode setting.source n
  kind : t.kind = n.kind
  span : t.span = n.span
  kids : t.kids = n.kids.map (treeOf setting)

theorem views_treeOf (n : Script.Node) : Views setting n (treeOf setting n) :=
  ⟨part_treeOf n, kind_treeOf n, span_treeOf n, kids_treeOf n⟩

theorem views_node {kind kids} (hl : l.part = ofNode setting.source (.node () kind span kids)) :
    Views setting (.node () kind span kids)
      (.node l (ofNode setting.source (.node () kind span kids)).kind
        (ofNode setting.source (.node () kind span kids)).span (kids.map (treeOf setting))) :=
  ⟨hl, by simp [ofNode], by simp [ofNode], by simp⟩

namespace Views

variable {n : Script.Node} {t : Script.Tree Roles} (h : Views setting n t)

include h

theorem eq_node : ∃ l, t = .node l n.kind n.span
    ((n.kids.map (ofNode setting.source)).map (relabel (roles setting))) := by
  obtain ⟨l, _, _, _⟩ := t
  obtain ⟨-, rfl, rfl, rfl⟩ := h
  exact ⟨l, by rw [map_map]; rfl⟩

theorem calleeMember?_eq : t.calleeMember? = n.calleeMember?.map (treeOf setting) := by
  obtain ⟨l, rfl⟩ := h.eq_node
  obtain ⟨⟨⟩, _, _, _⟩ := n
  rw [calleeMember?_node _ _ (pure ()), Walk.ofNode_eq, calleeMember?_node _ _ (), Option.map_map]
  rfl

theorem arguments_eq : t.arguments = n.arguments.map (treeOf setting) := by
  obtain ⟨l, rfl⟩ := h.eq_node
  obtain ⟨⟨⟩, _, _, _⟩ := n
  rw [arguments_node _ _ (pure ()), Walk.ofNode_eq, arguments_node _ _ (), map_map]
  rfl

theorem exists_opening {selfClosing name attributes others rest}
    (hkids : t.kids = .node l (.jsxOpening selfClosing) span (name :: attributes :: others) :: rest)
    : ∃ tag list : Script.Node, name = treeOf setting tag ∧ attributes = treeOf setting list ∧
    n.elementName? = some tag ∧ n.attributes = list.kids := by
  rw [h.kids] at hkids
  obtain ⟨_, _, hn, hopening, -⟩ := map_eq_cons_iff.1 hkids
  obtain ⟨parts, rfl, hparts⟩ := treeOf_eq_node hopening
  obtain ⟨tag, _, rfl, rfl, hrest⟩ := map_eq_cons_iff.1 hparts.symm
  obtain ⟨list, _, rfl, rfl, -⟩ := map_eq_cons_iff.1 hrest
  exact ⟨tag, list, rfl, rfl, by simp [elementName?, hn], by simp [Script.Tree.attributes, hn]⟩

end Views

end

/-! Attributes. -/

section

open Conversion

variable {setting : Setting} {p : Policy} {d : Draft}

variable {n : Script.Node}

theorem yields_codeOf {t} (ht : t.label.part = ofNode setting.source n) (hn : p.renders d n) :
    Yields setting.source p d (codeOf setting t) fun text e =>
      IsCode setting.source (p.Allows setting.source e) text := by
  unfold codeOf
  rw [ht]
  exact yields_render ⟨n, rfl, hn⟩

theorem exists_fixed_of_styleClass? {name piece}
    (h : styleClass? setting name = some piece) : ∃ text, piece = .fixed text := by
  obtain ⟨_, -, h⟩ := Option.bind_eq_some_iff.1 h
  split at h
  · exact ⟨[], (Option.some.inj h).symm⟩
  · obtain ⟨value, -, rfl⟩ := Option.map_eq_some_iff.1 h
    exact ⟨value, rfl⟩

def PiecesMade (source : Source) (p : Policy) (pieces : List ClassPiece) (e : Draft) : Prop :=
  ∀ text ∈ ClassPiece.liveCodes pieces, IsCode source (p.Allows source e) text

theorem yields_templatePieces {raws} {ns : List Script.Node} (h : ∀ n ∈ ns, p.renders d n) :
    Yields setting.source p d (templatePieces setting raws (ns.map (treeOf setting)))
      (PiecesMade setting.source p) := by
  induction raws generalizing ns d with
  | nil =>
    exact .of_pure (by simp [PiecesMade, ClassPiece.liveCodes])
  | cons _ raws ih =>
    cases ns with
    | nil =>
      have hrest : Yields setting.source p d (templatePieces setting raws []) _ :=
        ih (forall_mem_nil _)
      exact .bind hrest fun pieces e _ hpieces => .of_pure hpieces
    | cons n ns =>
      rw [map_cons, templatePieces]
      have hrest : ∀ e, d.Grows e → ∀ m ∈ ns, p.renders e m :=
        fun e he m hm => p.renders_grows he (h m (by simp [hm]))
      split
      · next piece hpiece =>
        obtain ⟨_, -, hstyle⟩ := Option.bind_eq_some_iff.1 hpiece
        obtain ⟨text, rfl⟩ := exists_fixed_of_styleClass? hstyle
        exact .pure_bind (.bind (ih (hrest d (.refl d))) fun pieces e _ hpieces => .of_pure hpieces)
      · refine .bind (yields_codeOf (part_treeOf n) (h n (by simp))) fun code e he hcode => ?_
        refine .pure_bind (.bind (ih (hrest e he)) fun pieces e' he' hpieces => .of_pure ?_)
        intro text htext
        obtain rfl | htext := mem_cons.1 htext
        · exact hcode.grows he'
        · exact hpieces text htext

theorem every_compose {pieces e v}
    (h : PiecesMade setting.source p pieces e) (hv : ClassPiece.compose pieces = some v)
    (kind : AttributeKind) (name : String) (leading : Text) :
    (Attribute.mk kind name v leading).Every
      (IsShown setting.source (p.Allows setting.source e)) := by
  unfold ClassPiece.compose at hv
  dsimp only at hv
  split at hv
  · simp at hv
  · next hcodes _ =>
    obtain rfl := Option.some.inj hv
    exact .words hcodes
  · obtain rfl := Option.some.inj hv
    exact .classes h

def AttributesMade (source : Source) (p : Policy) (attributes : List Attribute) (e : Draft) : Prop :=
  ∀ a ∈ attributes, a.Every (IsShown source (p.Allows source e))

theorem yields_classAttribute (leading : Text) (hn : p.renders d n) :
    Yields setting.source p d (classAttribute setting (treeOf setting n) leading)
      fun a e => AttributesMade setting.source p a.toList e := by
  have hinner : p.renders d n.unparen := p.renders_within (unparen_within n) hn
  have hcompose : ∀ pieces e, PiecesMade setting.source p pieces e →
      AttributesMade setting.source p ((ClassPiece.compose pieces).map fun value =>
        Attribute.mk .classNames "class" value leading).toList e := by
    intro pieces e hpieces a ha
    obtain ⟨v, hv, rfl⟩ := Option.map_eq_some_iff.1 (Option.mem_toList.1 ha)
    exact every_compose hpieces hv _ _ _
  unfold classAttribute
  rw [unparen_treeOf]
  split
  · next raw _ _ _ _ parts htemplate =>
    obtain ⟨_, hn', hkids⟩ := treeOf_eq_node htemplate
    obtain ⟨_, rfl, hlist⟩ := map_eq_singleton_iff.1 hkids.symm
    obtain ⟨_, rfl, rfl⟩ := treeOf_eq_node hlist
    refine .bind (yields_templatePieces fun m hm => p.renders_within ?_ hinner)
      fun pieces e _ hpieces => .of_pure (hcompose pieces e hpieces)
    rw [hn']
    exact .kid mem_cons_self (.kid hm .self)
  · exact .of_pure (hcompose _ _ (by simp [PiecesMade, ClassPiece.liveCodes]))
  · next hident =>
    split
    · next piece hpiece =>
      obtain ⟨_, rfl⟩ := exists_fixed_of_styleClass? hpiece
      exact .of_pure (hcompose _ _ (by simp [PiecesMade, ClassPiece.liveCodes]))
    · rw [← hident]
      refine .bind (yields_codeOf (part_treeOf _) hinner) fun code e _ hcode => .of_pure ?_
      exact hcompose _ _ (by simpa [PiecesMade, ClassPiece.liveCodes] using hcode)
  · refine .bind (yields_codeOf (part_treeOf _) hinner) fun code e _ hcode => .of_pure fun a ha => ?_
    obtain rfl := Option.some.inj (Option.mem_toList.1 ha)
    obtain ⟨c, hc, rfl⟩ := hcode
    exact .code hc

theorem yields_refAttribute (leading : Text) (hn : p.renders d n) :
    Yields setting.source p d (refAttribute setting (treeOf setting n) leading)
      fun a e => AttributesMade setting.source p [a] e := by
  refine .bind (yields_codeOf (part_treeOf _) hn) fun code e _ hcode => ?_
  have hmade : ∀ kind name e', e.Grows e' →
      AttributesMade setting.source p [⟨kind, name, .expression code, leading⟩] e' := by
    intro _ _ e' he' a ha
    obtain rfl := mem_singleton.1 ha
    obtain ⟨c, hc, rfl⟩ := hcode.grows he'
    exact .code hc
  split
  · next hcode =>
    exact .change_bind (.ref e (.inr (by simpa using hcode)))
      fun e' he' => .of_pure (hmade _ _ e' he')
  · exact .change_bind (.report e _ _ _) fun e' he' => .of_pure (hmade _ _ e' he')

def GivenAllowed (setting : Setting) (p : Policy) (d : Draft) : GivenValue → Prop
  | .expression t => ∃ n, t = treeOf setting n ∧ p.renders d n
  | .literal text => ∃ v : Script.Node, text = setting.source.slice v.span ∧ p.copies v
  | .missing => True

theorem givenAllowed (hembedded : ∀ e ∈ n.embedded, p.renders d e)
    (hcopied : ∀ v ∈ n.transcribed, p.copies v) :
    GivenAllowed setting p d (givenValue setting (treeOf setting n)) := by
  unfold givenValue
  split
  · next hn =>
    obtain ⟨kids, rfl, hkids⟩ := treeOf_eq_node hn
    rcases kids with _ | ⟨name, _ | ⟨value, _ | ⟨other, rest⟩⟩⟩ <;> simp at hkids
    obtain ⟨_, rfl, hinner⟩ := treeOf_eq_node hkids.2.symm
    obtain ⟨e, rfl, he⟩ := map_eq_singleton_iff.1 hinner.symm
    exact ⟨e, he.symm, hembedded e (by simp [embedded])⟩
  · next hnot hn =>
    obtain ⟨kids, rfl, hkids⟩ := treeOf_eq_node hn
    rcases kids with _ | ⟨_, _ | ⟨value, _ | ⟨_, _⟩⟩⟩ <;> simp at hkids
    split
    · trivial
    refine ⟨value, by rw [hkids.2, span_treeOf], hcopied value ?_⟩
    unfold transcribed
    split
    · next hvalue =>
      obtain ⟨rfl, rfl⟩ : _ ∧ value = _ := by simpa using hvalue
      rw [hkids.2] at hnot
      exact (hnot _ _ _ rfl).elim
    · next hvalue => simp_all
    all_goals simp_all
  · trivial

theorem yields_convertValue {given} (h : GivenAllowed setting p d given)
    (kind : AttributeKind) (name : String) (leading : Text) :
    Yields setting.source p d (convertValue setting given) fun value e => ∀ e', e.Grows e' →
      (Attribute.mk kind name value leading).Every
        (IsShown setting.source (p.Allows setting.source e')) := by
  cases given with
  | expression =>
    obtain ⟨n, rfl, hn⟩ := h
    refine .bind (yields_codeOf (part_treeOf _) hn) fun code e _ hcode => .of_pure fun e' he' => ?_
    obtain ⟨c, hc, rfl⟩ := hcode.grows he'
    exact .code hc
  | literal =>
    obtain ⟨v, rfl, hv⟩ := h
    have hcode : ∀ e, p.Allows setting.source e (.copied v) := fun e => ⟨trivial, hv⟩
    exact .of_pure fun e' _ => .code (hcode e')
  | missing => exact .of_pure fun _ _ => trivial

theorem yields_convertAttribute (isComponent : Bool) (leading : Text)
    (hembedded : ∀ e ∈ n.embedded, p.renders d e) (hcopied : ∀ v ∈ n.transcribed, p.copies v) :
    Yields setting.source p d (convertAttribute setting isComponent (treeOf setting n) leading)
      fun a e => AttributesMade setting.source p a.toList e := by
  have hgiven : GivenAllowed setting p d (givenValue setting (treeOf setting n)) :=
    givenAllowed hembedded hcopied
  have hplain : ∀ name given, GivenAllowed setting p d given → Yields setting.source p d
      (convertAttribute.plain setting isComponent leading name given)
      fun a e => AttributesMade setting.source p a.toList e := by
    intro name _ hgiven
    have hmade : ∀ value e, (∀ kind name, (Attribute.mk kind name value leading).Every
        (IsShown setting.source (p.Allows setting.source e))) → ∀ kind name,
        AttributesMade setting.source p (some (Attribute.mk kind name value leading)).toList e := by
      intro value e h kind name a ha
      obtain rfl := Option.some.inj (Option.mem_toList.1 ha)
      exact h kind name
    have hvalue := yields_convertValue hgiven .plain name leading
    refine .bind hvalue fun value e _ hvalue => ?_
    have hall := hmade value e fun kind name => hvalue e (.refl e)
    split
    · exact .of_pure (hall _ _)
    · split
      · exact .of_pure (hall _ _)
      · exact .of_pure (hall _ _)
  unfold convertAttribute
  dsimp only
  split
  · split
    · next heq =>
      rw [heq] at hgiven
      obtain ⟨m, rfl, hm⟩ := hgiven
      exact yields_classAttribute leading hm
    · next heq =>
      rw [heq] at hgiven
      obtain ⟨v, rfl, hv⟩ := hgiven
      refine .of_pure fun a ha => ?_
      obtain rfl := Option.some.inj (Option.mem_toList.1 ha)
      have hcode : p.Allows setting.source d (.copied v) := ⟨trivial, hv⟩
      exact .code hcode
    · exact .of_pure (by simp [AttributesMade])
  · split
    · next heq =>
      split
      · rw [heq] at hgiven
        obtain ⟨m, rfl, hm⟩ := hgiven
        exact .bind (yields_refAttribute leading hm) fun a e _ ha => .of_pure ha
      · exact hplain _ _ hgiven
    · exact hplain _ _ hgiven

theorem yields_convertAttributes (isComponent stripKey : Bool) (cursor : Nat)
    {ns : List Script.Node}
    (h : ∀ n ∈ ns, ¬ (stripKey && attributeName (treeOf setting n) == "key") → p.Gives d n) :
    Yields setting.source p d
      (convertAttributes setting isComponent stripKey cursor (ns.map (treeOf setting)))
      fun result e => AttributesMade setting.source p result.1 e := by
  induction ns generalizing cursor d with
  | nil =>
    exact .of_pure (by simp [AttributesMade])
  | cons n ns ih =>
    have hrest : ∀ e, d.Grows e → ∀ m ∈ ns,
        ¬ (stripKey && attributeName (treeOf setting m) == "key") → p.Gives e m :=
      fun e he m hm hkept => (h m (by simp [hm]) hkept).grows he
    by_cases hspread : ∃ l span expression, treeOf setting n = .node l .spread span [expression]
    · obtain ⟨l, span, expression, hspread⟩ := hspread
      obtain ⟨_, rfl, hkids⟩ := treeOf_eq_node hspread
      obtain ⟨e, rfl, rfl⟩ := map_eq_singleton_iff.1 hkids.symm
      obtain ⟨hvisits, hembedded, -⟩ := h _ mem_cons_self (by simp [hspread, attributeName])
      have hrenders : p.renders d e := hembedded e (by simp [embedded])
      have hcuts : ∀ offset ∈ [span.start, (treeOf setting e).span.stop],
          p.mayCut setting.source offset := by
        rw [(views_treeOf e).span]
        intro _ hoffset
        obtain rfl | rfl := mem_pair.1 hoffset
        · exact ⟨_, (p.cuts_of_visits hvisits).1, .inl rfl⟩
        · exact ⟨_, (p.cuts_of_visits (p.visits_of_renders hrenders)).2, .inl rfl⟩
      refine .change_bind (.cut d hcuts) fun d' hd => ?_
      refine .bind (yields_codeOf (part_treeOf e) (p.renders_grows hd hrenders))
        fun code e' he' hcode => ?_
      refine .bind (ih _ (hrest e' (hd.trans he'))) fun result e'' he'' hresult =>
        .of_pure fun a ha => ?_
      obtain rfl | ha := mem_cons.1 ha
      · obtain ⟨c, hc, rfl⟩ := hcode.grows he''
        exact .code hc
      · exact hresult a ha
    · have hothers : ∀ (converted : Option Attribute) e, d.Grows e →
          AttributesMade setting.source p converted.toList e →
          Yields setting.source p e (do
            let result ← convertAttributes setting isComponent stripKey
              (treeOf setting n).span.stop (ns.map (treeOf setting))
            return (converted.toList ++ result.1, result.2))
          fun result e => AttributesMade setting.source p result.1 e := by
        intro converted e he hconverted
        refine .bind (ih _ (hrest e he)) fun result e' he' hresult => .of_pure fun a ha => ?_
        obtain ha | ha := mem_append.1 ha
        · exact Attribute.every_imp (fun t ht => ht.imp fun c hc => hc.grows he') (hconverted a ha)
        · exact hresult a ha
      rw [map_cons, convertAttributes]
      · split
        · exact .pure_bind (hothers none d (.refl d) (by simp [AttributesMade]))
        · next hkept =>
          obtain ⟨-, hembedded, hcopied⟩ := h n mem_cons_self hkept
          refine .bind (yields_convertAttribute isComponent _ hembedded hcopied) ?_
          exact fun converted e he hconverted => hothers converted e he hconverted
      · exact fun l span expression heq => hspread ⟨l, span, expression, heq⟩

end

/-! Nodes. -/

section

open Conversion

variable {setting : Setting} {p : Policy} {d d' e : Draft} {root : Script.Node} {nodes : List Node}

def NodesMade (setting : Setting) (p : Policy) (root : Script.Node) (nodes : List Node) (e : Draft) :
    Prop :=
  Made setting.source root (p.Allows setting.source e) nodes

theorem NodesMade.grows (h : NodesMade setting p root nodes d) (he : d.Grows e) :
    NodesMade setting p root nodes e :=
  everyNode_imp (fun _ ht => ht.imp fun _ hc => hc.grows he)
    (fun _ ht => ht.imp fun _ hc => hc.grows he) h

/-- What is made between two drafts: it is made of codes, its tags are those of the source, and its
markers are the ones given out in the meantime. -/
structure Accounted (setting : Setting) (p : Policy) (root : Script.Node) (d : Draft)
    (nodes : List Node) (e : Draft) : Prop where
  made : NodesMade setting p root nodes e
  tagged : Tagged setting.source root nodes
  numbers : d.Numbers (markersOf nodes) e

namespace Accounted

theorem of_numbers (h : d.Numbers [] e) : Accounted setting p root d [] e :=
  ⟨trivial, by simp [Tagged, tagsOf], h⟩

theorem refl (d : Draft) : Accounted setting p root d [] d :=
  of_numbers (.refl d)

theorem append {more} (h : Accounted setting p root d nodes d')
    (h' : Accounted setting p root d' more e) (he : d'.Grows e) :
    Accounted setting p root d (nodes ++ more) e := by
  have hnumbers := h.numbers.append h'.numbers
  refine ⟨everyNode_append (h.made.grows he) h'.made, ?_, ?_⟩
  · unfold Tagged
    rw [tagsOf_eq, flatMap_append, ← tagsOf_eq, ← tagsOf_eq]
    exact forall_mem_append.2 ⟨h.tagged, h'.tagged⟩
  · rwa [markersOf_eq, flatMap_append, ← markersOf_eq, ← markersOf_eq]

theorem after (h : Accounted setting p root d' nodes e) (hd : d.Numbers [] d') :
    Accounted setting p root d nodes e :=
  ⟨h.made, h.tagged, hd.append h.numbers⟩

theorem quiet (h : Accounted setting p root d nodes d') (he : d'.Grows e) (hn : d'.Numbers [] e) :
    Accounted setting p root d nodes e := by
  simpa using h.append (of_numbers hn) he

theorem congr {others} (h : Accounted setting p root d nodes e)
    (halike : Alike others nodes) (hmade : NodesMade setting p root others e) :
    Accounted setting p root d others e := by
  refine ⟨hmade, ?_, ?_⟩
  · unfold Tagged
    rw [halike.1]
    exact h.tagged
  · rw [halike.2]
    exact h.numbers

theorem trimmed (h : Accounted setting p root d nodes e) (first last : Text → Text) :
    Accounted setting p root d (mapLast (.mapText last) (mapFirst (.mapText first) nodes)) e := by
  have hfirst := alike_mapFirst (alike_mapText first) nodes
  have hlast := alike_mapLast (alike_mapText last) (mapFirst (.mapText first) nodes)
  exact h.congr ⟨hlast.1.trans hfirst.1, hlast.2.trans hfirst.2⟩
    (everyNode_mapLast (fun _ => every_mapText _) (everyNode_mapFirst (fun _ => every_mapText _) h.made))

theorem element {tag attributes} (htag : IsTag setting.source root tag)
    (hattributes : AttributesMade setting.source p attributes e) (selfClosing : Bool) (before : Text)
    (h : Accounted setting p root d nodes e) :
    Accounted setting p root d [.element tag attributes nodes selfClosing before] e := by
  refine ⟨⟨⟨hattributes, h.made⟩, trivial⟩, ?_, ?_⟩
  · simp only [Tagged, tagsOf, append_nil]
    exact forall_mem_cons.2 ⟨htag, h.tagged⟩
  · simpa [markersOf, Node.markers] using h.numbers

variable {text item : Text} {body : Body Node}

theorem iteration (htext : IsShown setting.source (p.Allows setting.source e) text)
    (hitem : IsItem setting.source root (p.Allows setting.source e) item) (index : Option String)
    (base : Nat) (h : Accounted setting p root d body.nodes e) :
    Accounted setting p root d [.iteration text item index body base] e := by
  refine h.congr ?_ ⟨⟨htext, hitem, everyBody_iff.2 h.made⟩, trivial⟩
  simp [Alike, tagsOf, markersOf, Node.tags, Node.markers, bodyTags_eq, bodyMarkers_eq]

theorem otherwise {last} (base : Nat) (h : Accounted setting p root d (last.getD {}).nodes e) :
    Accounted setting p root d [.conditional [] last base] e := by
  cases last with
  | none => exact h.congr ⟨rfl, rfl⟩ ⟨⟨trivial, trivial⟩, trivial⟩
  | some =>
    refine h.congr ?_ ⟨⟨trivial, everyBody_iff.2 h.made⟩, trivial⟩
    simp [Alike, tagsOf, markersOf, Node.tags, Node.markers, branchTags, branchMarkers, otherwiseTags,
      otherwiseMarkers, bodyTags_eq, bodyMarkers_eq]

theorem branch {branches last base} (h : Accounted setting p root d body.nodes d')
    (h' : Accounted setting p root d' [.conditional branches last base] e) (he : d'.Grows e)
    (htext : IsShown setting.source (p.Allows setting.source e) text) :
    Accounted setting p root d [.conditional (⟨text, body⟩ :: branches) last base] e := by
  have hbody := everyBody_iff.2 (h.made.grows he)
  refine (h.append h' he).congr ?_ ⟨⟨⟨⟨htext, hbody⟩, h'.made.1.1⟩, h'.made.1.2⟩, trivial⟩
  simp [Alike, tagsOf_eq, markersOf_eq, Node.tags, Node.markers, branchTags, branchMarkers,
    bodyTags_eq, bodyMarkers_eq]

end Accounted

/-- The nodes in what a conversion gives are accounted for. -/
abbrev Makes {α : Type} (setting : Setting) (p : Policy) (root : Script.Node) (d : Draft)
    (c : Conversion α) (g : α → List Node) : Prop :=
  Yields setting.source p d c fun a => Accounted setting p root d (g a)

/-- Nothing is made by a step before that gives out no marker. -/
theorem quiet_bind {α β : Type} {c f} {Q : α → Draft → Prop}
    {g : β → List Node} (hc : Yields setting.source p d c fun a e => Q a e ∧ d.Numbers [] e)
    (hf : ∀ a e, d.Grows e → Q a e → Makes setting p root e (f a) g) :
    Makes setting p root d (c >>= f) g :=
  .bind hc fun a e he ha => (hf a e he ha.1).mono fun _ _ _ hb => hb.after ha.2

/-- The markup of a tree in the place of a child is made of codes, and it may be laid out. -/
def ChildMade (setting : Setting) (p : Policy) (d : Draft) (root : Script.Node)
    (t : Script.Tree Roles) : Prop :=
  p.cuts t.span.start ∧
    ∀ e, d.Grows e → Makes setting p root e t.label.child id

variable {t : Script.Tree Roles} {n : Script.Node} {callback : Callback}

theorem ChildMade.grows (h : ChildMade setting p d root t) (he : d.Grows e) :
    ChildMade setting p e root t :=
  ⟨h.1, fun e' he' => h.2 e' (he.trans he')⟩

theorem yields_convertChildren (h : ∀ t ∈ trees, ChildMade setting p d root t) :
    Makes setting p root d (convertChildren trees) id := by
  suffices hall : ∀ e, d.Grows e →
      Yields setting.source p e (convertChildren trees) (Accounted setting p root e) from
    hall d (.refl d)
  induction trees with
  | nil => exact fun e _ => .of_pure (.refl e)
  | cons t _ ih =>
    intro e he
    refine .bind ((h t (by simp)).2 e he) fun nodes e' he' hnodes => ?_
    refine .bind (ih (fun t ht => h t (by simp [ht])) e' (he.trans he')) fun rest e'' he'' hrest => ?_
    exact .of_pure (hnodes.append hrest he'')

theorem mem_of_mem_dropEndWhile {α : Type} {as a} {f : α → Bool}
    (h : a ∈ Text.dropEndWhile f as) : a ∈ as := by
  induction as with
  | nil => simp [Text.dropEndWhile] at h
  | cons =>
    rw [Text.dropEndWhile] at h
    split at h <;> grind

theorem quiet_codeOf (ht : t.label.part = ofNode setting.source n) (hn : p.renders d n) :
    Yields setting.source p d (codeOf setting t) fun code e =>
      IsCode setting.source (p.Allows setting.source e) code ∧ d.Numbers [] e :=
  (yields_codeOf ht hn).quiet (yields_codeOf ht trivial)

theorem quiet_columnAt {offset} (h : p.mayCut setting.source offset) :
    Yields setting.source p d (columnAt setting offset) fun a e => anything a e ∧ d.Numbers [] e :=
  .bind (.of_change (Q := fun _ e => d.Numbers [] e) (.cut d (by simpa using h)) (.of_eq rfl rfl))
    fun _ _ _ hquiet => .of_pure ⟨trivial, hquiet⟩

theorem quiet_columnOf (h : p.cuts t.span.start) :
    Yields setting.source p d (columnOf setting t) fun a e => anything a e ∧ d.Numbers [] e :=
  quiet_columnAt ⟨_, h, .inl rfl⟩

theorem yields_leadingAnchor (h : p.cuts t.span.start) :
    Yields setting.source p d (leadingAnchor setting t) fun anchor _ =>
      p.mayCut setting.source anchor := by
  have hstart : p.mayCut setting.source t.span.start := ⟨_, h, .inl rfl⟩
  unfold leadingAnchor
  split
  · exact .change_bind (.cut d (by simpa using hstart)) fun _ _ => .of_pure ⟨_, h, .inr rfl⟩
  · exact .of_pure hstart

theorem yields_fragmentBody (h : ∀ t ∈ trees, ChildMade setting p d root t) :
    Makes setting p root d (fragmentBody setting trees) fun body => (body.getD {}).nodes := by
  unfold fragmentBody
  dsimp only
  split
  · exact .of_pure (.refl d)
  next first rest hinner =>
  have hsub : ∀ t ∈ first :: rest, ChildMade setting p d root t := by
    intro t ht
    rw [← hinner] at ht
    exact h t ((dropWhile_suffix _).subset (mem_of_mem_dropEndWhile ht))
  rw [hinner]
  have hstart := (hsub first (by simp)).1
  refine quiet_bind ((yields_leadingAnchor hstart).quiet (yields_leadingAnchor trivial))
    fun anchor d' hd hanchor => ?_
  refine .bind (yields_convertChildren fun t ht => (hsub t ht).grows hd) fun nodes e _ hnodes => ?_
  refine .bind (quiet_columnAt hanchor) fun column e' he' hcolumn => .of_pure ?_
  exact (hnodes.quiet he' hcolumn.2).trimmed _ _

theorem yields_reviewExpression (hmarks : p.marks) (reason : String)
    (ht : t.label.part = ofNode setting.source n) (hn : p.visits d n) :
    Makes setting p root d (reviewExpression setting t reason) ([·]) := by
  refine .bind (.of_modifyGet (.marker d hmarks) (Q := fun marker e =>
    marker = d.markers + 1 ∧ e = d.nextMarker.2) ⟨rfl, rfl⟩) fun marker e he hmarker => ?_
  obtain ⟨rfl, rfl⟩ := hmarker
  rw [ht]
  refine .bind (.quiet (yields_renderDedented_known ⟨n, rfl, p.visits_grows he hn⟩)
    (yields_renderDedented_known ⟨n, rfl, trivial⟩)) fun code e' _ hcode => ?_
  obtain ⟨⟨c, margin, hc, rfl⟩, hquiet⟩ := hcode
  have hreason : p.reviews s!"{reason} #{d.markers + 1}" :=
    ⟨(absurd · (Policy.ne_exportReason '#' (by simp [toString]) (by decide))), fun _ => hmarks⟩
  refine .bind (.of_change (Q := fun _ e => d.Numbers [d.markers + 1] e)
    (.review e' _ hreason (.part margin hc)) (hquiet.review reason _ _)) fun _ e _ hnumbers => ?_
  exact .of_pure ⟨⟨trivial, trivial⟩, by simp [Tagged, tagsOf, Node.tags], hnumbers⟩

/-- The branches of a conditional, and what stands in the place of the last one. -/
def BranchesMade (setting : Setting) (p : Policy) (root : Script.Node) (d : Draft)
    (result : List (Branch Node) × Option (Body Node)) (e : Draft) : Prop :=
  ∀ base, Accounted setting p root d [.conditional result.1 result.2 base] e

/-- What is known of the roles of a node. -/
structure RolesMade (setting : Setting) (p : Policy) (d : Draft) (root n : Script.Node) : Prop where
  body : ∀ e, d.Grows e → Makes setting p root e (treeOf setting n).label.body
    fun body => (body.getD {}).nodes
  expression : ∀ e, d.Grows e → ∀ base, Yields setting.source p e
    ((treeOf setting n).label.expression base) (Accounted setting p root e)
  child : ChildMade setting p d root (treeOf setting n)
  element : ∀ e, d.Grows e → ∀ strip, Yields setting.source p e
    ((treeOf setting n).label.element strip) fun node => Accounted setting p root e [node]
  branches : n.kind = .conditional → ∀ e, d.Grows e → Yields setting.source p e
    (treeOf setting n).label.branches (BranchesMade setting p root e)

def PartsMade (setting : Setting) (p : Policy) (d : Draft) (root n : Script.Node) : Prop :=
  ∀ m : Script.Node, m.Inside n → RolesMade setting p d root m

theorem RolesMade.grows (h : RolesMade setting p d root n) (he : d.Grows e) :
    RolesMade setting p e root n :=
  ⟨fun e' he' => h.body e' (he.trans he'), fun e' he' => h.expression e' (he.trans he'),
    h.child.grows he, fun e' he' => h.element e' (he.trans he'),
    fun hkind e' he' => h.branches hkind e' (he.trans he')⟩

theorem exists_childrenOf (ht : Views setting n t) :
    ∃ ns : List Script.Node, childrenOf t = ns.map (treeOf setting) ∧ ∀ m ∈ ns, m.Inside n := by
  unfold childrenOf
  rw [ht.kids]
  split
  · next opening l span children rest heq =>
    rcases hkids : n.kids with _ | ⟨_, _ | ⟨_, _⟩⟩ <;> rw [hkids] at heq <;>
      simp at heq
    obtain ⟨kids, rfl, rfl⟩ := treeOf_eq_node heq.2.1
    refine ⟨kids, rfl, fun m hm => ⟨.node () .list span kids, by simp [hkids], .kid hm .self⟩⟩
  · exact ⟨[], rfl, by simp⟩

theorem childMade_childrenOf (ht : Views setting n t) (ih : PartsMade setting p d root n) :
    ∀ c ∈ childrenOf t, ChildMade setting p d root c := by
  obtain ⟨_, heq, hns⟩ := exists_childrenOf ht
  rw [heq]
  intro c hc
  obtain ⟨m, hm, rfl⟩ := mem_map.1 hc
  exact (ih m (hns m hm)).child

theorem yields_convertElement (strip : Bool) (ht : Views setting n t) (hroot : n.Within root)
    (hattributes : ∀ a ∈ n.attributes,
      ¬ (strip && attributeName (treeOf setting a) == "key") → p.Gives d a)
    (hchildren : ∀ c ∈ childrenOf t, ChildMade setting p d root c) :
    Makes setting p root d (convertElement setting t strip) ([·]) := by
  unfold convertElement
  split
  case h_2 => exact .of_pure ⟨⟨trivial, trivial⟩, by simp [Tagged, tagsOf, Node.tags], .refl d⟩
  case h_1 selfClosing _ _ _ _ _ hkids =>
    obtain ⟨tag, _, rfl, rfl, hname, hlist⟩ := ht.exists_opening hkids
    have htag : IsTag setting.source root (String.ofList (tagOf setting t)) :=
      ⟨n, tag, hroot, hname, by simp [tagOf, hkids]⟩
    dsimp only
    rw [kids_treeOf]
    rw [hlist] at hattributes
    have hconverted := (yields_convertAttributes (isComponentTag (tagOf setting t)) strip
      (treeOf setting tag).span.stop hattributes).quiet
      (yields_convertAttributes _ strip _ fun _ _ _ =>
        ⟨trivial, fun _ _ => trivial, fun _ _ => trivial⟩)
    refine quiet_bind hconverted fun result e he hresult => ?_
    have hfinish : ∀ children e', e.Grows e' → Accounted setting p root e children e' →
        ∀ before, Yields setting.source p e' (pure (.element (String.ofList (tagOf setting t)) result.1
          children selfClosing before)) fun node => Accounted setting p root e [node] := by
      intro children e' he' hchildren before
      refine .of_pure (hchildren.element htag (fun a ha => ?_) selfClosing before)
      exact Attribute.every_imp (fun t ht => ht.imp fun c hc => hc.grows he') (hresult a ha)
    split
    · exact .pure_bind (hfinish [] e (.refl e) (.refl e) _)
    · refine .bind (yields_convertChildren fun c hc => (hchildren c hc).grows he) ?_
      exact fun children e' he' hmade => hfinish children e' he' hmade _

/-! Iterations. -/

theorem yields_eachBody (hcuts : p.cuts (treeOf setting n).span.start)
    (helement : Makes setting p root d ((treeOf setting n).label.element true) ([·]))
    (hchildren : ∀ c ∈ childrenOf (treeOf setting n), ChildMade setting p d root c) :
    Makes setting p root d (eachBody setting (treeOf setting n)) (·.nodes) := by
  unfold eachBody
  split
  · exact .bind (yields_fragmentBody hchildren) fun body e _ hbody => .of_pure hbody
  · refine .bind helement fun node e _ hnode => ?_
    exact .bind (quiet_columnOf hcuts) fun _ e' he' hcolumn => .of_pure (hnode.quiet he' hcolumn.2)

theorem PartsMade.eachBody {m} (ih : PartsMade setting p d root n) (hm : m.Inside n) :
    Makes setting p root d (eachBody setting (treeOf setting m)) (·.nodes) := by
  refine yields_eachBody (ih m hm).child.1 ((ih m hm).element d (.refl d) true) ?_
  exact childMade_childrenOf (views_treeOf m) fun k hk => ih k (hk.trans_within hm.within)

theorem exists_of_callbackParts? {params body} {a : Script.Node} (h : callbackParts? (treeOf setting a) = some (params, body)) :
    ∃ (ps : List Script.Node) (b f : Script.Node), params = ps.map (treeOf setting) ∧
      body = treeOf setting b ∧ f.Within a ∧ b.Within a ∧ (∀ q ∈ ps, q ∈ f.transcribed) ∧
      ∀ q ∈ ps, q.Within a := by
  unfold callbackParts? at h
  split at h
  · next harrow =>
    obtain ⟨kids, rfl, hkids⟩ := treeOf_eq_node harrow
    rcases kids with _ | ⟨ps, _ | ⟨b, rest⟩⟩ <;> simp at hkids
    obtain ⟨rfl, rfl⟩ : _ ∧ _ := by simpa using h
    refine ⟨ps.kids, b, _, ?_, hkids.2.1, .self, .kid (by simp) .self, ?_, fun q hq => ?_⟩
    · rw [hkids.1, kids_treeOf]
    · simp [transcribed]
    · exact .kid (by simp) (.kid hq .self)
  · next async generator span params' _ _ _ hfunction =>
    obtain ⟨kids, rfl, hkids⟩ := treeOf_eq_node hfunction
    rcases kids with _ | ⟨_, _ | ⟨f, _ | ⟨_, rest⟩⟩⟩ <;> simp at hkids
    obtain ⟨fkids, rfl, hfkids⟩ := treeOf_eq_node hkids.2.symm
    rcases fkids with _ | ⟨ps, _ | ⟨x, _ | ⟨b, rest⟩⟩⟩ <;> simp at hfkids
    obtain ⟨hparams, rfl⟩ := Prod.mk.inj (Option.some.inj h)
    rw [map_congr_left (g := parameterPattern) fun t _ => by
      unfold parameterPattern
      split
      · rfl
      · next hnot =>
        split
        · exact (hnot _ _ _ _ rfl).elim
        · rfl] at hparams
    have hps : ps ∈ (node () (.function async generator) span (ps :: x :: b :: rest)).kids := by simp
    have hb : b ∈ (node () (.function async generator) span (ps :: x :: b :: rest)).kids := by simp
    refine ⟨ps.kids.map parameterPattern, b,
      .node () (.function async generator) span (ps :: x :: b :: rest), ?_, hfkids.2.2.1,
      .kid (by simp) .self, .kid (by simp) (.kid hb .self), ?_, ?_⟩
    · rw [← hparams, hfkids.1, kids_treeOf, map_map, map_map]
      exact map_congr_left fun q _ => by simp [treeOf, ofNode, parameterPattern_relabel]
    · simp [transcribed]
    · intro q hq
      obtain ⟨r, hr, rfl⟩ := mem_map.1 hq
      exact (parameterPattern_within r).trans (.kid (by simp) (.kid hps (.kid hr .self)))
  · simp at h

/-- A callback of an iteration over nodes of the source. -/
structure CallbackOf (setting : Setting) (n : Script.Node) (callback : Callback) : Prop where
  element : ∃ m : Script.Node, callback.element = treeOf setting m ∧ m.Inside n
  item : ∃ q f : Script.Node, callback.item = treeOf setting q ∧ q.Within n ∧ f.Within n ∧
    q ∈ f.transcribed
  locals : ∃ ss : List Script.Node, callback.locals = ss.map (treeOf setting) ∧
    ∀ s ∈ ss, s.Within n
  named : callback.locals = [] ∨ ∃ name, callback.item.ident? = some name

theorem exists_of_element? {m} (h : element? (treeOf setting m) = some t) :
    t = treeOf setting m.unparen := by
  unfold element? at h
  split at h
  · rw [← unparen_treeOf]
    exact (Option.some.inj h).symm
  · simp at h

theorem exists_of_returned? {item locals element} {kids : List Script.Node}
    (h : returned? item (kids.map (treeOf setting)) = some (locals, element)) :
    ∃ v : Script.Node, (∃ k ∈ kids, v.Within k) ∧ locals = kids.dropLast.map (treeOf setting) ∧
      element = treeOf setting v.unparen ∧
      (locals = [] ∨ ∃ name, item.ident? = some name) := by
  unfold returned? at h
  split at h
  case h_2 => simp at h
  case h_1 l span value hlast =>
    rw [getLast?_map] at hlast
    obtain ⟨k, hk, hreturn⟩ := Option.map_eq_some_iff.1 hlast
    obtain ⟨_, rfl, hparts⟩ := treeOf_eq_node hreturn
    obtain ⟨v, rfl, rfl⟩ := map_eq_singleton_iff.1 hparts.symm
    dsimp only at h
    split at h
    case isFalse => simp at h
    case isTrue hcondition =>
      obtain ⟨t, ht, heq⟩ := Option.map_eq_some_iff.1 h
      obtain ⟨rfl, rfl⟩ := Prod.mk.inj heq
      refine ⟨v, ⟨_, mem_of_getLast? hk, .kid (by simp) .self⟩, by rw [map_dropLast],
        exists_of_element? ht, ?_⟩
      rw [Bool.or_eq_true, Bool.and_eq_true] at hcondition
      refine hcondition.imp List.isEmpty_iff.1 fun hdeclares => ?_
      exact Option.isSome_iff_exists.1 hdeclares.1

theorem callbackOf (ht : Views setting n t) (h : callback? t = some callback) :
    CallbackOf setting n callback := by
  unfold callback? at h
  rw [ht.arguments_eq] at h
  simp only [Option.bind_eq_bind, Option.bind_eq_some_iff, head?_map] at h
  obtain ⟨_, hargument, ⟨_, _⟩, hparts, ⟨item, _⟩, hitem, h⟩ := h
  obtain ⟨a, ha, rfl⟩ := Option.map_eq_some_iff.1 hargument
  have hinside : a.unparen.Inside n :=
    (unparen_within a).trans_inside (inside_of_mem_arguments (mem_of_head? ha))
  rw [unparen_treeOf] at hparts
  obtain ⟨ps, b, f, rfl, rfl, hf, hb, hcopied, hps⟩ := exists_of_callbackParts? hparts
  obtain ⟨q, hq, rfl⟩ : ∃ q ∈ ps, item = treeOf setting q := by
    rcases ps with _ | ⟨q, _ | ⟨r, _ | ⟨s, _⟩⟩⟩ <;> simp [itemAndIndex?] at hitem
    · exact ⟨q, by simp, hitem.1.symm⟩
    · obtain ⟨_, _, rfl, _⟩ := hitem
      exact ⟨q, by simp, rfl⟩
  have hparam : ∃ q' f' : Script.Node, treeOf setting q = treeOf setting q' ∧ q'.Within n ∧
      f'.Within n ∧ q' ∈ f'.transcribed :=
    ⟨q, f, rfl, (hps q hq).trans hinside.within, hf.trans hinside.within, hcopied q hq⟩
  have hbody : b.Inside n := hb.trans_inside hinside
  split at h
  · next l span statements hblock =>
    obtain ⟨kids, rfl, rfl⟩ := treeOf_eq_node hblock
    simp only [Option.bind_eq_some_iff] at h
    obtain ⟨⟨_, element⟩, hreturned, h⟩ := h
    obtain rfl := Option.some.inj h
    obtain ⟨v, hv, hlocals, helement, hnamed⟩ := exists_of_returned? hreturned
    refine ⟨⟨v.unparen, helement, ?_⟩, hparam, ⟨kids.dropLast, hlocals, fun s hs => ?_⟩, hnamed⟩
    · obtain ⟨k, hk, hvk⟩ := hv
      exact ((unparen_within v).trans (.kid hk hvk)).trans_inside hbody
    · have hs : s ∈ (node () .block span kids).kids := dropLast_subset _ hs
      exact (inside_of_mem_kids hs).within.trans hbody.within
  · split at h
    · simp at h
    simp only [Option.bind_eq_some_iff] at h
    obtain ⟨_, helement, h⟩ := h
    obtain rfl := Option.some.inj h
    exact ⟨⟨b.unparen, exists_of_element? helement, (unparen_within b).trans_inside hbody⟩, hparam,
      ⟨[], rfl, by simp⟩, .inl rfl⟩

theorem yields_helperStatements {ss : List Script.Node} (h : ∀ s ∈ ss, p.visits d s) :
    Yields setting.source p d (helperStatements setting (ss.map (treeOf setting))) fun text e =>
      ∃ cs : List (Code × Nat), (∀ c ∈ cs, c.1.KnownTo setting.source e) ∧
        text = helperText (cs.map fun c => dedented (c.1.text setting.source) c.2) := by
  induction ss generalizing d with
  | nil =>
    exact .of_pure ⟨[], by simp, rfl⟩
  | cons s _ ih =>
    rw [map_cons, helperStatements, part_treeOf]
    refine .bind (yields_renderDedented_known ⟨s, rfl, h s (by simp)⟩) fun text e he htext => ?_
    have hrest := ih fun m hm => p.visits_grows he (h m (by simp [hm]))
    refine .bind hrest fun rest e' he' hrest => .of_pure ?_
    obtain ⟨c, margin, hc, rfl⟩ := htext
    obtain ⟨cs, hcs, rfl⟩ := hrest
    refine ⟨(c, margin) :: cs, ?_, ?_⟩
    · intro x hx
      obtain rfl | hx := mem_cons.1 hx
      · exact hc.grows he'
      · exact hcs x hx
    · simp [helperText]

theorem yields_reportShadowing (call : Script.Tree Roles) (names : List String) :
    Yields setting.source p d (reportShadowing setting call names) anything := by
  refine .of_forM fun name _ e _ => .of_get ?_
  split
  · exact .of_change (.report e _ _ _) trivial
  · exact .of_pure trivial

theorem exists_within_treeOf (h : t.Within (treeOf setting n)) :
    ∃ m : Script.Node, m.Within n ∧ t = treeOf setting m := by
  obtain ⟨_, hpart, rfl⟩ := within_relabel h
  obtain ⟨m, hm, rfl⟩ := within_relabel hpart
  exact ⟨m, hm, rfl⟩

theorem isVariable_of_mem_locals {ss : List Script.Node} (hss : ∀ s ∈ ss, s.Within root)
    {name} (h : name ∈ (ss.map (treeOf setting)).flatMap fun statement =>
      statement.kids.flatMap fun declarator =>
        (declarator.kids.head?.map Script.Tree.bindingNames).getD []) : IsVariable root name := by
  obtain ⟨t, ht, h⟩ := mem_flatMap.1 h
  obtain ⟨s, hs, rfl⟩ := mem_map.1 ht
  obtain ⟨declarator, hdeclarator, h⟩ := mem_flatMap.1 h
  cases htarget : declarator.kids.head? with
  | none => simp [htarget] at h
  | some =>
    obtain ⟨m, hm, hident⟩ := exists_of_mem_bindingNames (by simpa [htarget] using h)
    have hwithin : m.Within (treeOf setting s) :=
      .kid hdeclarator (.kid (mem_of_head? htarget) hm)
    obtain ⟨m', hm', rfl⟩ := exists_within_treeOf hwithin
    exact ⟨m', hm'.trans (hss s hs), by rwa [ident?_treeOf] at hident⟩

theorem hash_not_mem_lastWord (text : Text) : '#' ∉ lastWord text := by
  unfold lastWord
  dsimp only
  split
  · decide
  · intro hmem
    have hword := all_eq_true.1 all_takeWhile _ (mem_reverse.1 hmem)
    exact absurd hword (by decide +kernel)

theorem hash_not_mem_capitalize {text} (h : '#' ∉ text) : '#' ∉ capitalize text := by
  cases text with
  | nil => exact h
  | cons =>
    rw [mem_cons, not_or] at h
    rw [capitalize, mem_append, not_or]
    exact ⟨Text.hash_not_mem_upperChar fun heq => h.1 heq.symm, h.2⟩

/-- The helper of an iteration is called by its name, and its block carries no number. -/
theorem markerIn?_helperName (d : Draft) (collection : Text) {base}
    (h : base = "map" ++ String.ofList (capitalize (lastWord collection))) :
    ReviewBlock.markerIn? s!"iteration helper {(d.helperName base).1}" = none := by
  have hbase : '#' ∉ base.toList := by
    simpa [h] using hash_not_mem_capitalize (hash_not_mem_lastWord collection)
  exact ReviewBlock.markerIn?_of_not_mem
    (by simpa [toString] using d.hash_not_mem_helperName hbase)

theorem yields_eachTransformed {collection : Text} (base : Nat) (hroot : n.Within root)
    (hshows : p.Shows d n)
    (hcollection : IsCode setting.source (p.Allows setting.source d) collection)
    (hcallback : CallbackOf setting n callback) (hlocals : callback.locals ≠ [])
    (ih : PartsMade setting p d root n) :
    Makes setting p root d (eachTransformed setting t collection callback base) ([·]) := by
  obtain ⟨q, f, hitem, hq, -, -⟩ := hcallback.item
  obtain ⟨name, hname⟩ := hcallback.named.resolve_left hlocals
  obtain ⟨ss, hss, hwithin⟩ := hcallback.locals
  obtain ⟨m, helement, hm⟩ := hcallback.element
  have hvariable : IsVariable root name := ⟨q, hq.trans hroot, by rw [← hname, hitem, ident?_treeOf]⟩
  unfold eachTransformed
  simp only [itemText, hname, String.ofList_toList]
  refine quiet_bind ((yields_reportShadowing t _).quiet (yields_reportShadowing t _))
    fun _ e he _ => ?_
  refine quiet_bind (.of_modifyGet (.helperName e _) (Q := fun helper e' =>
    ReviewBlock.markerIn? s!"iteration helper {helper}" = none ∧ e.Numbers [] e')
    ⟨markerIn?_helperName e collection rfl, .of_eq rfl rfl⟩) fun helper e' he' hhelper => ?_
  have hgrows := he.trans he'
  rw [hss]
  have hstatements : ∀ s ∈ ss, p.visits e' s :=
    fun s hs => p.visits_grows hgrows (hshows s (hwithin s hs)).1
  refine quiet_bind ((yields_helperStatements hstatements).quiet
    (yields_helperStatements fun _ _ => trivial)) fun statements e'' he'' hstatements => ?_
  obtain ⟨_, hcs, rfl⟩ := hstatements
  have hreason : p.reviews s!"iteration helper {helper}" :=
    Policy.reviews_of_ne ⟨Policy.ne_exportReason 'i' (by simp [toString]) (by decide), hhelper⟩
  refine quiet_bind (.of_change (Q := fun a e => anything a e ∧ e''.Numbers [] e)
    (.review e'' _ hreason (.helper helper _ _ hcs)) ⟨trivial, Draft.numbers_review _ _ hhelper⟩)
    fun _ e₃ he₃ _ => ?_
  have hall := (hgrows.trans he'').trans he₃
  rw [helement]
  have hroles : PartsMade setting p e₃ root n := fun m hm => (ih m hm).grows hall
  refine .bind (hroles.eachBody hm) fun body e₄ he₄ hbody => .of_pure ?_
  obtain ⟨c, hc, rfl⟩ := hcollection.grows (hall.trans he₄)
  refine hbody.iteration (.mapped helper hc) (.names fun x hx => ?_) _ base
  obtain rfl | hx := mem_cons.1 hx
  · exact hvariable
  · exact isVariable_of_mem_locals (fun s hs => (hwithin s hs).trans hroot) hx

theorem exists_collection {object} (ht : Views setting n t)
    (hkind : n.kind = .call) (hmap : t.calleeMember?.any (·.memberName? == some "map"))
    (hobject : t.calleeMember?.bind Script.Tree.memberObject? = some object) :
    ∃ o : Script.Node, object = treeOf setting o ∧ o ∈ n.embedded := by
  rw [ht.calleeMember?_eq] at hmap hobject
  cases hmember : n.calleeMember? with
  | none => simp [hmember] at hobject
  | some member =>
    simp only [hmember] at hmap hobject
    have hname : member.memberName? == some "map" := by
      simpa [treeOf, ofNode] using hmap
    obtain ⟨o, ho, rfl⟩ : ∃ o, member.memberObject? = some o ∧ treeOf setting o = object := by
      simpa [treeOf, ofNode] using hobject
    obtain ⟨⟨⟩, kind, _, _⟩ := n
    obtain rfl : kind = .call := hkind
    simp [embedded, hmember, hname, ho]

theorem isItem_itemText (hroot : n.Within root) (hshows : p.Shows d n)
    (hcallback : CallbackOf setting n callback) (e : Draft) :
    IsItem setting.source root (p.Allows setting.source e) (itemText setting callback.item) := by
  obtain ⟨q, f, hitem, hq, hf, hcopied⟩ := hcallback.item
  rw [hitem]
  unfold itemText
  split
  · next name hname => exact .name ⟨q, hq.trans hroot, by rwa [ident?_treeOf] at hname⟩
  · rw [span_treeOf]
    exact .pattern (c := .copied q) ⟨trivial, (hshows f hf).2.2.2 q hcopied⟩

theorem yields_convertIteration? (ht : Views setting n t) (base : Nat) (hroot : n.Within root)
    (hshows : p.Shows d n) (hkind : n.kind = .call)
    (hmap : t.calleeMember?.any (·.memberName? == some "map")) (ih : PartsMade setting p d root n) :
    Makes setting p root d (convertIteration? setting t base) (·.toList) := by
  unfold convertIteration?
  split
  case h_2 => exact .of_pure (.refl d)
  case h_1 object callback hobject hcall =>
    have hcallback := callbackOf ht hcall
    obtain ⟨o, rfl, ho⟩ := exists_collection ht hkind hmap hobject
    refine quiet_bind (quiet_codeOf (part_treeOf o) ((hshows n .self).2.2.1 o ho))
      fun collection e he hcollection => ?_
    have hroles : PartsMade setting p e root n := fun m hm => (ih m hm).grows he
    split
    · obtain ⟨m, helement, hm⟩ := hcallback.element
      rw [helement]
      refine .bind (hroles.eachBody hm) fun body e' he' hbody => .of_pure ?_
      obtain ⟨c, hc, rfl⟩ := hcollection.grows he'
      exact hbody.iteration (.code hc) (isItem_itemText hroot hshows hcallback _) _ base
    · next hlocals =>
      exact .bind (yields_eachTransformed base hroot (hshows.grows he) hcollection hcallback
        (by simpa using hlocals) hroles) fun x e' _ hx => .of_pure hx

/-! The roles of a node. -/

theorem yields_convertBranches {test yes no} (htest : p.renders d test)
    (hyes : RolesMade setting p d root yes.unparen) (hno : RolesMade setting p d root no.unparen) :
    Yields setting.source p d
      (convertBranches setting (treeOf setting test) (treeOf setting yes) (treeOf setting no))
      (BranchesMade setting p root d) := by
  refine .bind (quiet_codeOf (part_treeOf test) htest) fun code e he hcode => ?_
  obtain ⟨hcode, hquiet⟩ := hcode
  simp only [unparen_treeOf]
  split
  · refine .bind (hno.body e he) fun body e' he' hbody => ?_
    cases body with
    | none => exact .of_pure (hbody.after hquiet).otherwise
    | some =>
      obtain ⟨c, hc, rfl⟩ := hcode.grows he'
      exact .of_pure fun base => (hbody.after hquiet).branch (.otherwise base (.refl e'))
        (.refl e') (.negated hc)
  · refine .bind (hyes.body e he) fun body e' he' hbody => ?_
    have hfirst : ∀ branches last e'', e'.Grows e'' →
        (∀ base, Accounted setting p root e' [.conditional branches last base] e'') →
        BranchesMade setting p root d (⟨code, body.getD {}⟩ :: branches, last) e'' := by
      intro branches last e'' he'' hresult
      obtain ⟨c, hc, rfl⟩ := hcode.grows (he'.trans he'')
      exact fun base => (hbody.after hquiet).branch (hresult base) he'' (.code hc)
    rw [kind_treeOf]
    split
    · next hkind =>
      refine .bind (hno.branches hkind e' (he.trans he')) fun result e'' he'' hresult => .of_pure ?_
      exact hfirst result.1 result.2 e'' he'' hresult
    · refine .bind (hno.body e' (he.trans he')) fun last e'' he'' hlast => .of_pure ?_
      exact hfirst [] last e'' he'' hlast.otherwise

/-- A conditional without branches has nothing in the place of the last one either. -/
theorem otherwise_of_convertBranches (setting : Setting) (test yes no : Script.Tree Roles) (d : Draft) :
    let result := ((convertBranches setting test yes no).run d).1
    result.1 = [] → result.2 = none := by
  have hbind : ∀ {α : Type} {c : Conversion α}
      {f : α → Conversion (List (Branch Node) × Option (Body Node))},
      (∀ a d, ((f a).run d).1.1 = [] → ((f a).run d).1.2 = none) →
      ∀ d, ((c >>= f).run d).1.1 = [] → ((c >>= f).run d).1.2 = none :=
    fun hf _ => hf _ _
  refine hbind (fun code d => ?_) d
  split
  · refine hbind (fun body d => ?_) d
    cases body with
    | none => exact fun _ => rfl
    | some => exact fun _ => rfl
  · split
    · refine hbind (fun result d hempty => ?_) d
      exact absurd hempty (cons_ne_nil _ _)
    · refine hbind (fun otherwise d hempty => ?_) d
      exact absurd hempty (cons_ne_nil _ _)

theorem Views.containsMarkup_eq (ht : Views setting n t) : t.containsMarkup = n.containsMarkup := by
  obtain ⟨l, rfl⟩ := ht.eq_node
  unfold containsMarkup
  rw [Bool.eq_iff_iff, any_node_iff, any_node_iff, kids_node]
  refine or_congr_right ⟨?_, ?_⟩
  · rintro ⟨_, hmem, hany⟩
    simp only [map_map, mem_map] at hmem
    obtain ⟨k, hk, rfl⟩ := hmem
    exact ⟨k, hk, by simpa [ofNode] using hany⟩
  · rintro ⟨k, hk, hany⟩
    refine ⟨treeOf setting k, ?_, by simpa [treeOf, ofNode] using hany⟩
    rw [map_map]
    exact mem_map_of_mem hk

section

variable (hmarks : p.marks) (ht : Views setting n t) (hshows : p.Shows d n)

include ht hshows

include hmarks in
theorem yields_convertExpression_other :
    Makes setting p root d (convertExpression.other setting t) id := by
  unfold convertExpression.other
  split
  · exact .bind (yields_reviewExpression hmarks _ ht.part (hshows n .self).1) fun node e _ hnode =>
      .of_pure hnode
  · next hplain =>
    rw [ht.containsMarkup_eq, Bool.not_eq_true] at hplain
    refine .bind (quiet_codeOf ht.part ((hshows n .self).2.1 hplain)) fun code e _ hcode => ?_
    obtain ⟨⟨c, hc, rfl⟩, hquiet⟩ := hcode
    exact .of_pure ((Accounted.of_numbers hquiet).congr ⟨rfl, rfl⟩ ⟨.code hc, trivial⟩)

variable (hroot : n.Within root) (ih : PartsMade setting p d root n)

include hroot ih

theorem yields_convertElement_of_shows {strip : Bool} :
    Makes setting p root d (convertElement setting t strip) ([·]) :=
  yields_convertElement strip ht hroot (fun _ ha _ => hshows.gives ha) (childMade_childrenOf ht ih)

include hmarks

theorem yields_convertExpression (base : Nat) :
    Makes setting p root d (convertExpression setting t base) id := by
  have helement : Yields setting.source p d (do return [← convertElement setting t false])
      (Accounted setting p root d) :=
    .bind (yields_convertElement_of_shows ht hshows hroot ih) fun node e _ hnode => .of_pure hnode
  have hchildren := yields_convertChildren (childMade_childrenOf ht ih)
  have hother : Yields setting.source p d (convertExpression.other setting t)
      (Accounted setting p root d) := yields_convertExpression_other hmarks ht hshows
  have hembedded := (hshows n .self).2.2.1
  refine .of_get ?_
  split
  · refine .bind (.of_change (Q := fun _ e => d.Numbers [] e) (.slot d) (.of_eq rfl rfl)) ?_
    exact fun _ _ _ hquiet => .of_pure ((Accounted.of_numbers hquiet).congr ⟨rfl, rfl⟩
      ⟨trivial, trivial⟩)
  split
  · split
    · exact hchildren
    · exact helement
  · exact hchildren
  · next left right hkind hkids =>
    split
    · obtain ⟨l, r, rfl, rfl, hn⟩ : ∃ l r, left = treeOf setting l ∧ right = treeOf setting r ∧
          n.kids = [l, r] := by
        rw [ht.kids] at hkids
        rcases hn : n.kids with _ | ⟨l, _ | ⟨r, _ | ⟨x, rest⟩⟩⟩ <;> simp [hn] at hkids
        exact ⟨l, r, hkids.1.symm, hkids.2.symm, rfl⟩
      have hleft : p.renders d l := hembedded l (by simp [embedded, ← ht.kind, hkind, hn])
      refine quiet_bind (g := id) (quiet_codeOf (part_treeOf l) hleft) fun code e he hcode => ?_
      rw [unparen_treeOf]
      have hr : r.unparen.Inside n := ⟨r, by simp [hn], unparen_within r⟩
      refine .bind ((ih _ hr).body e he) fun body e' he' hbody => ?_
      cases body with
      | none => exact .of_pure hbody
      | some b =>
        obtain ⟨c, hc, rfl⟩ := hcode.grows he'
        exact .of_pure (hbody.branch (.otherwise base (.refl e')) (.refl e') (.code hc))
    · exact hother
  · next test yes no hkind hkids =>
    split
    · obtain ⟨a, b, c, rfl, rfl, rfl, hn⟩ : ∃ a b c, test = treeOf setting a ∧
          yes = treeOf setting b ∧ no = treeOf setting c ∧ n.kids = [a, b, c] := by
        rw [ht.kids] at hkids
        rcases hn : n.kids with _ | ⟨a, _ | ⟨b, _ | ⟨c, _ | ⟨x, _⟩⟩⟩⟩ <;> simp [hn] at hkids
        exact ⟨a, b, c, hkids.1.symm, hkids.2.1.symm, hkids.2.2.symm, rfl⟩
      have htest : p.renders d a := hembedded a (by simp [embedded, ← ht.kind, hkind, hn])
      have hyes := ih b.unparen ⟨b, by simp [hn], unparen_within b⟩
      have hno := ih c.unparen ⟨c, by simp [hn], unparen_within c⟩
      refine .bind (.and (S := fun result _ => result.1 = [] → result.2 = none)
        (yields_convertBranches htest hyes hno) (otherwise_of_convertBranches _ _ _ _ d))
        fun result e _ hresult => ?_
      dsimp only
      split
      · next hempty =>
        have hnone := List.isEmpty_iff.1 hempty
        have hmade := hresult.1 base
        rw [hnone, hresult.2 hnone] at hmade
        exact .of_pure (hmade.congr ⟨rfl, rfl⟩ trivial)
      · exact .of_pure (hresult.1 base)
    · exact hother
  · next hkind =>
    split
    · next hmap =>
      rw [ht.kind] at hkind
      refine .bind (yields_convertIteration? ht base hroot hshows hkind hmap ih)
        fun node e he hnode => ?_
      cases node with
      | none =>
        exact .bind (yields_reviewExpression hmarks _ ht.part ((hshows.grows he) n .self).1)
          fun node e _ hreview => .of_pure (hreview.after hnode.numbers)
      | some => exact .of_pure hnode
    · exact hother
  · exact hother

theorem yields_convertBody :
    Makes setting p root d (convertBody setting t) fun body => (body.getD {}).nodes := by
  have hfragment := yields_fragmentBody (childMade_childrenOf ht ih)
  have hstart : p.cuts t.span.start := by
    rw [ht.span]
    exact (p.cuts_of_visits (hshows n .self).1).1
  unfold convertBody
  split
  · exact .of_pure (.refl d)
  split
  · split
    · exact hfragment
    · refine .bind (yields_convertElement_of_shows ht hshows hroot ih) fun node e _ hnode => ?_
      exact .bind (quiet_columnOf hstart) fun _ e' he' hcolumn => .of_pure (hnode.quiet he' hcolumn.2)
  · exact hfragment
  · refine quiet_bind (quiet_columnOf hstart) fun _ d' hd _ => ?_
    exact .bind (yields_convertExpression hmarks ht (hshows.grows hd) hroot (fun m hm =>
      (ih m hm).grows hd) _) fun nodes e _ hnodes => .of_pure hnodes

theorem yields_convertChild :
    Makes setting p root d (convertChild setting t) id := by
  have hchildren := yields_convertChildren (childMade_childrenOf ht ih)
  rw [convertChild, ht.kids]
  split
  · exact .of_pure ((Accounted.refl d).congr ⟨rfl, rfl⟩ ⟨trivial, trivial⟩)
  · refine .of_pure ?_
    unfold convertComment
    dsimp only
    split
    · exact (Accounted.refl d).congr ⟨rfl, rfl⟩ ⟨trivial, trivial⟩
    · split
      · exact (Accounted.refl d).congr ⟨rfl, rfl⟩ ⟨trivial, trivial⟩
      · exact .refl d
  · next expression _ _ hkids =>
    obtain ⟨m, hm, rfl⟩ := map_eq_singleton_iff.1 hkids
    rw [unparen_treeOf]
    have hinside : m.unparen.Inside n := ⟨m, by simp [hm], unparen_within m⟩
    have hstart : p.cuts t.span.start := by
      rw [ht.span]
      exact (p.cuts_of_visits (hshows n .self).1).1
    exact quiet_bind (g := id) (quiet_columnOf hstart) fun _ e he _ =>
      (ih _ hinside).expression e he _
  · split
    · exact hchildren
    · exact .bind (yields_convertElement_of_shows ht hshows hroot ih) fun node e _ hnode => .of_pure hnode
  · exact hchildren
  · next expression _ hkids =>
    obtain ⟨m, hm, rfl⟩ := map_eq_singleton_iff.1 hkids
    have hvisits : p.visits d m := (hshows m (.kid (by simp [hm]) .self)).1
    exact .bind (yields_reviewExpression hmarks _ (part_treeOf m) hvisits) fun node e _ hnode =>
      .of_pure hnode
  · exact .of_pure (.refl d)

end

theorem rolesMade (hmarks : p.marks) (hroot : n.Within root) (hshows : p.Shows d n) :
    RolesMade setting p d root n := by
  induction n using inside_induction generalizing d with
  | h n ih =>
    obtain ⟨⟨⟩, kind, span, kids⟩ := n
    have hparts : ∀ e, d.Grows e → PartsMade setting p e root (.node () kind span kids) :=
      fun e he m hm => ih m hm (hm.within.trans hroot) fun k hk =>
        hshows.grows he k (hk.trans hm.within)
    have hnode : ∀ e, d.Grows e → p.Shows e (.node () kind span kids) := fun e he => hshows.grows he
    constructor
    · intro e he
      rw [treeOf_node]
      exact yields_convertBody hmarks (views_node rfl) (hnode e he) hroot (hparts e he)
    · intro e he base
      rw [treeOf_node]
      exact yields_convertExpression hmarks (views_node rfl) (hnode e he) hroot (hparts e he) base
    · refine ⟨?_, fun e he => ?_⟩
      · exact (p.cuts_of_visits (hnode d (.refl d) _ .self).1).1
      · rw [treeOf_node]
        exact yields_convertChild hmarks (views_node rfl) (hnode e he) hroot (hparts e he)
    · intro e he _
      rw [treeOf_node]
      exact yields_convertElement_of_shows (views_node rfl) (hnode e he) hroot (hparts e he)
    · intro hkind e he
      obtain rfl : kind = .conditional := hkind
      rcases kids with _ | ⟨test, _ | ⟨yes, _ | ⟨no, _ | ⟨_, _⟩⟩⟩⟩
      case cons.cons.cons.nil =>
        have htest : p.renders e test := (hnode e he _ .self).2.2.1 test (by simp [embedded])
        refine yields_convertBranches htest (hparts e he _ ⟨yes, by simp, unparen_within yes⟩)
          (hparts e he _ ⟨no, by simp, unparen_within no⟩)
      all_goals exact .of_pure fun base => .otherwise base (.refl e)

/-! The markup that is written. -/

/-- The markup of the expression that a component returns, before it is written. -/
def tree (setting : Setting) (root : Part) : Conversion (Body Node) := do
  return (← (root.relabel (roles setting)).unparen.label.body).getD {}

def Body.layout (body : Body Node) : Text :=
  Text.trimEnd (Text.reindent (writeAll body.nodes) body.indent [])

theorem build_eq (setting : Setting) (root : Part) :
    build setting root = do return (← tree setting root).layout := by
  unfold build tree
  simp only [bind_assoc]
  refine bind_congr fun body => ?_
  cases body <;> rfl

theorem yields_tree (hmarks : p.marks) (hshows : p.Shows d root) :
    Makes setting p root d (tree setting (ofNode setting.source root)) (·.nodes) := by
  have htree : ((ofNode setting.source root).relabel (roles setting)).unparen =
      treeOf setting root.unparen := unparen_treeOf root
  have hroles : RolesMade setting p d root root.unparen :=
    rolesMade hmarks (unparen_within root) fun m hm => hshows m (hm.trans (unparen_within root))
  unfold tree
  rw [htree]
  exact .bind (hroles.body d (.refl d)) fun body e _ hbody => .of_pure hbody

theorem accounted_tree (setting : Setting) (root : Script.Node) {d} (hd : d.Tied) :
    let result := (tree setting (ofNode setting.source root)).run d
    Accounted setting (.free (fun _ => True) True) root d result.1.nodes result.2 :=
  (yields_tree trivial (fun _ _ => ⟨trivial, fun _ => trivial, fun _ _ => trivial, fun _ _ => trivial⟩)
    hd).2

def IsMarkup (setting : Setting) (p : Policy) (root : Script.Node) (text : Text) (e : Draft) :
    Prop :=
  text = [] ∨ p.Shows e root ∧ ∃ nodes indent, NodesMade setting p root nodes e ∧
    Tagged setting.source root nodes ∧
      text = Text.trimEnd (Text.reindent (writeAll nodes) indent [])

theorem yields_build (hmarks : p.marks) (hshows : p.Shows d root) :
    Yields setting.source p d (build setting (ofNode setting.source root))
      (IsMarkup setting p root) := by
  rw [build_eq]
  refine .bind (yields_tree hmarks hshows) fun body e he hbody => ?_
  exact .of_pure (.inr ⟨hshows.grows he, body.nodes, body.indent, hbody.made, hbody.tagged, rfl⟩)

end

end Markup

end Sveltify
