import Sveltify.Proofs.Markup.Sourcing

/-! Conditionals as blocks. A chain of conditional expressions becomes one block with a branch for
each test. Whatever the tests come to, the block shows the operand that the expression selects. -/

namespace Sveltify

open Script.Tree Part

namespace Markup

/-! What a conditional expression selects. -/

/-- An expression that shows nothing. -/
def isNothing : Script.Node → Bool
  | .node _ .null _ _ | .node _ (.bool false) _ _ | .node _ (.ident "undefined") _ _ => true
  | _ => false

/-- Every conditional of the chain has three operands. The chain goes on in the place of the last
one, through parentheses. -/
def isChain : Script.Node → Bool
  | .node _ .paren _ [inner] => isChain inner
  | .node _ .conditional _ [_, _, no] => isChain no
  | .node _ .conditional _ _ => false
  | _ => true

def isTernary : Script.Node → Bool
  | .node _ .conditional _ [_, _, no] => isChain no
  | _ => false

/-- What an expression comes to, when the tests of its conditionals come to `v`. -/
def settled (v : Script.Node → Bool) : Script.Node → Script.Node
  | .node _ .paren _ [inner] => settled v inner
  | .node _ .conditional _ [test, yes, no] => if v test then settled v yes else settled v no
  | n => n

/-- The operand that a chain of conditionals selects. Where a first operand shows nothing, the last
one is selected as it stands, a conditional or not. -/
def operand (v : Script.Node → Bool) : Script.Node → Script.Node
  | .node _ .paren _ [inner] => operand v inner
  | .node _ .conditional _ [test, yes, no] =>
    if v test then yes.unparen
    else if isNothing yes.unparen then no.unparen
    else operand v no
  | n => n

/-- What a branch asks: whether a test holds, or whether it does not. -/
structure Guard where
  test : Script.Node
  negated : Bool

def Guard.holds (v : Script.Node → Bool) (g : Guard) : Bool :=
  v g.test != g.negated

/-- The guards of a chain of conditionals, in order. -/
def guards : Script.Node → List Guard
  | .node _ .paren _ [inner] => guards inner
  | .node _ .conditional _ [test, yes, no] =>
    if isNothing yes.unparen then [⟨test, true⟩] else ⟨test, false⟩ :: guards no
  | _ => []

/-- The body that a block shows, when its branches are under the given guards: that of the first
branch whose guard holds. -/
def shown (v : Script.Node → Bool) :
    List Guard → List (Branch Node) → Option (Body Node) → Option (Body Node)
  | g :: gs, b :: bs, otherwise => if g.holds v then some b.body else shown v gs bs otherwise
  | _, _, otherwise => otherwise

variable {v : Script.Node → Bool} {n : Script.Node}

@[simp] theorem guards_unparen (n : Script.Node) : guards n.unparen = guards n := by
  fun_induction unparen n with
  | case1 _ _ _ ih => rw [ih, guards]
  | case2 => rfl

@[simp] theorem operand_unparen (n : Script.Node) : operand v n.unparen = operand v n := by
  fun_induction unparen n with
  | case1 _ _ _ ih => rw [ih, operand]
  | case2 => rfl

@[simp] theorem settled_unparen (n : Script.Node) : settled v n.unparen = settled v n := by
  fun_induction unparen n with
  | case1 _ _ _ ih => rw [ih, settled]
  | case2 => rfl

theorem settled_operand (n : Script.Node) : settled v (operand v n) = settled v n := by
  fun_induction operand v n <;> simp_all [settled]

theorem operand_eq_unparen (h : n.unparen.kind ≠ .conditional) : operand v n = n.unparen := by
  fun_induction unparen n with
  | case1 _ _ inner ih =>
    exact ih h
  | case2 n hn =>
    fun_cases operand v n with
    | case1 _ _ inner => exact absurd rfl (hn _ _ inner)
    | case2 | case3 | case4 => exact absurd rfl h
    | case5 => rfl

theorem shown_nil (gs : List Guard) (otherwise : Option (Body Node)) :
    shown v gs [] otherwise = otherwise := by
  cases gs <;> rfl

section

variable {setting : Setting}

theorem isNullish_treeOf (n : Script.Node) :
    isNullish (treeOf setting n) = isNothing n.unparen := by
  unfold isNullish
  rw [unparen_treeOf]
  obtain ⟨⟨⟩, kind, _, _⟩ := n.unparen
  cases kind
  case bool value => cases value <;> rfl
  case ident name =>
    by_cases h : name = "undefined"
    · subst h
      rfl
    · simp [isNothing, h]
  all_goals rfl

theorem fst_run_bind {α β : Type} (c : Conversion α) (f : α → Conversion β) (d : Draft) :
    ((c >>= f).run d).1 = ((f (c.run d).1).run (c.run d).2).1 :=
  rfl

/-! What a node becomes in a draft. -/

def codeAt (setting : Setting) (n : Script.Node) (e : Draft) : Text :=
  ((codeOf setting (treeOf setting n)).run e).1

def bodyAt (setting : Setting) (n : Script.Node) (e : Draft) : Option (Body Node) :=
  ((treeOf setting n).label.body.run e).1

def branchesAt (setting : Setting) (n : Script.Node) (e : Draft) :
    List (Branch Node) × Option (Body Node) :=
  ((treeOf setting n).label.branches.run e).1

def nodesAt (setting : Setting) (n : Script.Node) (base : Nat) (e : Draft) : List Node :=
  (((treeOf setting n).label.expression base).run e).1

theorem bodyAt_of_isNothing (h : isNothing n) (e : Draft) : bodyAt setting n e = none := by
  fun_cases isNothing n with
  | case1 | case2 | case3 =>
    rfl
  | case4 => simp [isNothing] at h

/-- How the branches of a conditional are made of its operands. -/
inductive Splits (setting : Setting) (test yes no : Script.Node) :
    List (Branch Node) × Option (Body Node) → Prop
  | negated (hyes : isNothing yes.unparen) (e e' : Draft) :
    Splits setting test yes no (((bodyAt setting no.unparen e').map fun body =>
      ⟨negate (codeAt setting test e), body⟩).toList, none)
  | chained (hyes : ¬ isNothing yes.unparen) (hno : no.unparen.kind = .conditional)
      (e e' e'' : Draft) :
    Splits setting test yes no
      (⟨codeAt setting test e, (bodyAt setting yes.unparen e').getD {}⟩ ::
        (branchesAt setting no.unparen e'').1, (branchesAt setting no.unparen e'').2)
  | last (hyes : ¬ isNothing yes.unparen) (hno : no.unparen.kind ≠ .conditional)
      (e e' e'' : Draft) :
    Splits setting test yes no
      ([⟨codeAt setting test e, (bodyAt setting yes.unparen e').getD {}⟩],
        bodyAt setting no.unparen e'')

theorem branchesAt_conditional (span : Span) (test yes no : Script.Node) (d : Draft) :
    branchesAt setting (.node () .conditional span [test, yes, no]) d =
      ((convertBranches setting (treeOf setting test) (treeOf setting yes)
        (treeOf setting no)).run d).1 := by
  rfl

theorem splits_branchesAt (span : Span) (test yes no : Script.Node) (d : Draft) :
    Splits setting test yes no
      (branchesAt setting (.node () .conditional span [test, yes, no]) d) := by
  rw [branchesAt_conditional, convertBranches, fst_run_bind]
  simp only [unparen_treeOf, isNullish_treeOf, kind_treeOf]
  split
  · next hyes =>
    have hnegated : Splits setting test yes no _ :=
      .negated hyes d ((codeOf setting (treeOf setting test)).run d).2
    rw [fst_run_bind]
    generalize hbody : bodyAt _ _ _ = body at hnegated
    unfold bodyAt at hbody
    rw [hbody]
    cases body with
    | none => exact hnegated
    | some => exact hnegated
  · next hyes =>
    split
    · next hno =>
      exact .chained hyes hno _ _ _
    · next hno =>
      exact .last hyes hno _ _ _

/-- The text asks what the guard asks. -/
def Guard.Asks (setting : Setting) (g : Guard) (text : Text) : Prop :=
  ∃ e, text = if g.negated then negate (codeAt setting g.test e) else codeAt setting g.test e

/-- The branches ask the guards of a chain in order, and whatever the tests come to, the block shows
the body of the operand that is selected. A branch whose operand has no body is empty. -/
structure Follows (setting : Setting) (n : Script.Node) (branches : List (Branch Node))
    (otherwise : Option (Body Node)) : Prop where
  asks : List.Forall₂ (fun g b => g.Asks setting b.test) ((guards n).take branches.length) branches
  shows : ∀ v, ∃ e, shown v (guards n) branches otherwise = bodyAt setting (operand v n) e ∨
    bodyAt setting (operand v n) e = none ∧ shown v (guards n) branches otherwise = some {}
  nothing : ∀ v, isNothing (operand v n) → shown v (guards n) branches otherwise = none

theorem follows_operand (h : n.unparen.kind ≠ .conditional) (e : Draft) :
    Follows setting n.unparen [] (bodyAt setting n.unparen e) := by
  have hoperand : ∀ v, operand v n.unparen = n.unparen := fun v => by
    rw [operand_unparen, operand_eq_unparen h]
  refine ⟨.nil, fun v => ⟨e, .inl ?_⟩, fun v hv => ?_⟩
  · rw [shown_nil, hoperand]
  · rw [hoperand] at hv
    rw [shown_nil, bodyAt_of_isNothing hv]

section

variable {span : Span} {test yes no : Script.Node}

theorem follows_negated (hyes : isNothing yes.unparen) (e e' : Draft) :
    Follows setting (.node () .conditional span [test, yes, no])
      (((bodyAt setting no.unparen e').map fun body =>
        ⟨negate (codeAt setting test e), body⟩).toList) none := by
  have hguards : guards (.node () .conditional span [test, yes, no]) = [⟨test, true⟩] := by
    simp [guards, hyes]
  have hoperand : ∀ v, operand v (.node () .conditional span [test, yes, no]) =
      if v test then yes.unparen else no.unparen := by
    simp [operand, hyes]
  have hshown : ∀ v (text : Text) (body : Option (Body Node)),
      shown v [⟨test, true⟩] (body.map fun body => ⟨text, body⟩).toList none =
        if v test then none else body := by
    intro v _ body
    cases hv : v test <;> cases body <;> simp [shown, Guard.holds, hv]
  refine ⟨?_, fun v => ⟨e', .inl ?_⟩, fun v hnothing => ?_⟩
  · rw [hguards]
    cases bodyAt setting no.unparen e' with
    | none => exact .nil
    | some => exact .cons ⟨e, rfl⟩ .nil
  · rw [hguards, hshown, hoperand]
    split
    · rw [bodyAt_of_isNothing hyes]
    · rfl
  · rw [hoperand] at hnothing
    rw [hguards, hshown]
    split at hnothing
    · next hv => rw [if_pos hv]
    · next hv => rw [if_neg hv, bodyAt_of_isNothing hnothing]

theorem Follows.cons {branches : List (Branch Node)} {otherwise : Option (Body Node)}
    (h : Follows setting no.unparen branches otherwise) (hyes : ¬ isNothing yes.unparen)
    (e e' : Draft) :
    Follows setting (.node () .conditional span [test, yes, no])
      (⟨codeAt setting test e, (bodyAt setting yes.unparen e').getD {}⟩ :: branches) otherwise := by
  have hguards : guards (.node () .conditional span [test, yes, no]) =
      ⟨test, false⟩ :: guards no.unparen := by
    simp [guards, hyes]
  have hoperand : ∀ v, operand v (.node () .conditional span [test, yes, no]) =
      if v test then yes.unparen else operand v no.unparen := by
    simp [operand, hyes]
  have hshown : ∀ v (b : Branch Node),
      shown v (⟨test, false⟩ :: guards no.unparen) (b :: branches) otherwise =
        if v test then some b.body else shown v (guards no.unparen) branches otherwise := by
    intro v b
    cases hv : v test <;> simp [shown, Guard.holds, hv]
  refine ⟨?_, fun v => ?_, fun v hnothing => ?_⟩
  · rw [hguards]
    exact .cons ⟨e, rfl⟩ h.asks
  · rw [hguards, hshown, hoperand]
    split
    · refine ⟨e', ?_⟩
      cases hbody : bodyAt setting yes.unparen e' with
      | none => exact .inr ⟨rfl, rfl⟩
      | some => exact .inl rfl
    · exact h.shows v
  · rw [hoperand] at hnothing
    rw [hguards, hshown]
    split at hnothing
    · exact absurd hnothing hyes
    · next hv =>
      rw [if_neg hv]
      exact h.nothing v hnothing

end

theorem follows_branchesAt (h : isChain n) (hkind : n.unparen.kind = .conditional) (d : Draft) :
    Follows setting n.unparen (branchesAt setting n.unparen d).1
      (branchesAt setting n.unparen d).2 := by
  fun_induction isChain n generalizing d with
  | case1 _ _ _ ih => exact ih h hkind d
  | case2 l span test yes no ih =>
    have hself : unparen (.node l .conditional span [test, yes, no]) =
      .node () .conditional span [test, yes, no] := rfl
    have hsplits : Splits setting test yes no _ := splits_branchesAt span test yes no d
    rw [hself]
    generalize branchesAt setting _ d = result at hsplits ⊢
    cases hsplits with
    | negated hyes e e' => exact follows_negated hyes e e'
    | chained hyes hno e e' e'' => exact (ih h hno e'').cons hyes e e'
    | last hyes hno e e' e'' => exact (follows_operand hno e'').cons hyes e e'
  | case3 => cases h
  | case4 n hparen _ hconditional =>
    rw [unparen] at hkind
    · obtain ⟨l, kind, span, kids⟩ := n
      obtain rfl : kind = .conditional := hkind
      exact absurd rfl (hconditional l span kids)
    · exact hparen

theorem convertExpression_conditional {t span test yes no} (ht : Views setting (.node () .conditional span [test, yes, no]) t)
    (hmarkup : (Script.Tree.node () .conditional span [test, yes, no]).containsMarkup) (base : Nat)
    (d : Draft) :
    let result := ((convertBranches setting (treeOf setting test) (treeOf setting yes)
      (treeOf setting no)).run d).1
    ((convertExpression setting t base).run d).1 =
      if result.1.isEmpty then [] else [.conditional result.1 result.2 base] := by
  rw [← ht.containsMarkup_eq] at hmarkup
  obtain ⟨l, _, _, _⟩ := t
  obtain ⟨-, rfl, -, rfl⟩ := ht
  unfold convertExpression
  rw [StateT.run_bind, StateT.run_get, pure_bind, if_neg (by exact Bool.false_ne_true)]
  simp only [kind_node, kids_node, List.map_cons, List.map_nil]
  rw [if_pos (by exact hmarkup), fst_run_bind]
  split <;> rfl

/-- A conditional in the place of a body is converted on its own. -/
theorem bodyAt_ternary (h : isTernary n) (e : Draft) :
    ∃ column e', bodyAt setting n e = some ⟨nodesAt setting n column e', column⟩ := by
  fun_cases isTernary n with
  | case1 =>
    exact ⟨_, _, rfl⟩
  | case2 => simp [isTernary] at h

/-- The nodes are a block that follows a chain of conditionals, left out if it has no branches. -/
def IsBlockOf (setting : Setting) (n : Script.Node) (base : Nat) (nodes : List Node) : Prop :=
  ∃ branches otherwise, Follows setting n branches otherwise ∧
    (branches = [] → otherwise = none) ∧
    nodes = if branches.isEmpty then [] else [.conditional branches otherwise base]

/-- A chain of conditionals becomes a block that shows what the chain selects, whatever its tests come
to. A conditional that is selected becomes a block in turn. -/
theorem conditional_shows_operand (h : isTernary n) (hmarkup : n.containsMarkup) (base : Nat)
    (d : Draft) :
    IsBlockOf setting n base (nodesAt setting n base d) ∧
      ∀ v, settled v (operand v n) = settled v n ∧ (isTernary (operand v n) → ∀ e, ∃ column e',
        bodyAt setting (operand v n) e =
          some ⟨nodesAt setting (operand v n) column e', column⟩) := by
  refine ⟨?_, fun v => ⟨settled_operand n, bodyAt_ternary⟩⟩
  fun_cases isTernary n with
  | case1 _ span test yes no =>
    have hfollows : Follows setting (.node () .conditional span [test, yes, no])
        (branchesAt setting (.node () .conditional span [test, yes, no]) d).1
        (branchesAt setting (.node () .conditional span [test, yes, no]) d).2 :=
      follows_branchesAt (n := .node () .conditional span [test, yes, no]) h rfl d
    refine ⟨_, _, hfollows, otherwise_of_convertBranches _ _ _ _ d, ?_⟩
    exact convertExpression_conditional (views_node rfl) hmarkup base d
  | case2 => simp [isTernary] at h

/-- Under a test, a second one that is negated, and a third one in a block of its own. -/
theorem conditional_shows_operand_nested :
    let source : Source := .ofString "a ? <i/> : b ? null : (c ? <u/> : false);"
    let n := ((Script.parse { jsx := true } source.text).toOption.map fun parsed =>
      (parsed.module.kid 0).kid 0).getD default
    isTernary n ∧ n.containsMarkup ∧
      writeAll (nodesAt ⟨source, none⟩ n 0 {}) =
        ("\x7b#if a\x7d\n  <i/>\n\x7b:else if !b\x7d\n" ++
          "  \x7b#if c\x7d\n    <u/>\n  \x7b/if\x7d\n\x7b/if\x7d").toList ∧
      IsBlockOf ⟨source, none⟩ n 0 (nodesAt ⟨source, none⟩ n 0 {}) := by
  intro source n
  have hcheck : isTernary n ∧ n.containsMarkup ∧ writeAll (nodesAt ⟨source, none⟩ n 0 {}) =
      ("\x7b#if a\x7d\n  <i/>\n\x7b:else if !b\x7d\n" ++
        "  \x7b#if c\x7d\n    <u/>\n  \x7b/if\x7d\n\x7b/if\x7d").toList := by
    decide +kernel
  obtain ⟨hternary, hmarkup, htext⟩ := hcheck
  exact ⟨hternary, hmarkup, htext, (conditional_shows_operand hternary hmarkup 0 {}).1⟩

end

end Markup

end Sveltify
