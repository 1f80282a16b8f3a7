import Sveltify.Config.Basic
import Sveltify.Proofs.Script.Shape

/-! Declarations that a configuration script does not use. An expression depends on the names that
occur in it. A declaration that fails is a fault where its name is used, so that one whose name occurs
nowhere changes nothing. -/

namespace Sveltify.Config

open List
open Script (Node)

namespace Scope

def isIdent (name : String) : Script.Kind → Bool
  | .ident found => found == name
  | _ => false

abbrev Free (name : String) (n : Node) : Prop :=
  n.any (isIdent name) = false

abbrev AllFree (name : String) (ns : List Node) : Prop :=
  Script.Tree.anyOf (isIdent name) ns = false

theorem Free.of_mem {name kind span kids}
    (h : Free name (.of kind span kids)) {n} (hn : n ∈ kids) : Free name n := by
  have hkids := (Bool.or_eq_false_iff.1 h).2
  exact Bool.eq_false_iff.2 fun hany =>
    Bool.eq_false_iff.1 hkids (Script.Tree.anyOf_iff.2 ⟨n, hn, hany⟩)

theorem run_variableDecl (s : Scope) (found : Option Value) (word : String) (span : Span)
    (declarators items : List Node) :
    s.run found (.of (.variableDecl word) span declarators :: items) =
      (declarators.foldl declare s).run found items :=
  rfl

/-- An item declares variables, or it is asked for what it exports. -/
theorem run_cases (item : Node) :
    (∃ word span declarators, item = .of (.variableDecl word) span declarators) ∨
    ∀ (s : Scope) (found : Option Value) (rest : List Node), s.run found (item :: rest) =
      s.exported? item >>= fun value => s.run (value <|> found) rest := by
  refine (Classical.em _).imp_right fun h s found rest => ?_
  rw [run]
  exact fun word span declarators heq => h ⟨word, span, declarators, heq⟩

/-- Scopes that differ in what one name stands for. -/
structure Agrees (name : String) (s s' : Scope) : Prop where
  source : s'.source = s.source
  directory : s'.directory = s.directory
  bindings : ∀ other, other ≠ name → s'.bindings.get? other = s.bindings.get? other

namespace Agrees

variable {name : String} {s s' : Scope} (h : Agrees name s s')

include h

theorem line_eq (span : Span) : s'.line span = s.line span := by
  rw [line, h.source, line]

theorem unsupported_eq (span : Span) : s'.unsupported span = s.unsupported span := by
  rw [unsupported, h.line_eq, h.source, unsupported]

theorem textOf_eq (value : Value) (span : Span) : s'.textOf value span = s.textOf value span := by
  rw [textOf, h.unsupported_eq, textOf]

theorem addValues_eq (left right : Value) (leftSpan rightSpan : Span) :
    s'.addValues left right leftSpan rightSpan = s.addValues left right leftSpan rightSpan := by
  unfold addValues
  simp [h.textOf_eq]

theorem applyPath_eq (function : PathFunction) (segments : List String) :
    s'.applyPath function segments = s.applyPath function segments := by
  unfold applyPath
  rw [h.directory]

theorem lookup_eq {other} (hne : other ≠ name) (span : Span) :
    s'.lookup other span = s.lookup other span := by
  rw [lookup, h.directory, h.bindings other hne, h.line_eq, lookup]

/-- The value of an expression depends on the names that occur in it. -/
theorem evaluate_eq (n : Node) : Free name n → s'.evaluate n = s.evaluate n := by
  apply evaluate.induct s (fun n => Free name n → s'.evaluate n = s.evaluate n)
    (fun span ns => AllFree name ns → s'.evaluateSegments span ns = s.evaluateSegments span ns)
    (fun ns => AllFree name ns → s'.evaluateFirst ns = s.evaluateFirst ns)
    (fun span n => Free name n → s'.evaluateProperty span n = s.evaluateProperty span n)
    (fun done ns => AllFree name ns → s'.evaluateProperties done ns = s.evaluateProperties done ns)
    (fun ns => AllFree name ns → s'.evaluateElements ns = s.evaluateElements ns)
    (fun raw ns => AllFree name ns → s'.evaluateTemplate raw ns = s.evaluateTemplate raw ns)
  all_goals intros
  case case27 ih hfree =>
    rw [evaluateFirst, evaluateFirst, ih (by simp_all [Free, AllFree, Script.Tree.any, Script.Tree.anyOf])]
  case case28 hother ih hfree =>
    rw [evaluateFirst, evaluateFirst, ih (by simp_all [Free, AllFree, Script.Tree.anyOf])] <;>
      exact hother
  all_goals simp_all [evaluate, evaluateSegments, evaluateProperty, evaluateProperties,
    evaluateElements, evaluateTemplate, Free, AllFree, Script.Tree.any, Script.Tree.anyOf, isIdent,
    h.unsupported_eq, h.textOf_eq, h.addValues_eq, h.applyPath_eq, h.lookup_eq]
  rfl

theorem unknown_eq (span : Span) : s'.unknown span = s.unknown span := by
  rw [unknown, h.line_eq, h.source, unknown]

theorem bind (other : String) (binding : Binding) :
    Agrees name (s.bind other binding) (s'.bind other binding) where
  source := h.source
  directory := h.directory
  bindings o ho := by simp [Scope.bind, Table.get?_insert, h.bindings o ho]

theorem bindMember (value : Option Value) (property : Node) :
    Agrees name (bindMember value s property) (bindMember value s' property) := by
  unfold Scope.bindMember
  dsimp only
  split
  · exact h
  · rw [h.unknown_eq]
    split <;> exact h.bind _ _

theorem foldl {f} {P : Node → Prop}
    (hstep : ∀ {s s'}, Agrees name s s' → ∀ n, P n → Agrees name (f s n) (f s' n)) {ns : List Node}
    (hns : ∀ n ∈ ns, P n) : Agrees name (ns.foldl f s) (ns.foldl f s') := by
  induction ns generalizing s s' with
  | nil => exact h
  | cons n _ ih =>
    obtain ⟨hn, hns⟩ := forall_mem_cons.1 hns
    exact ih (hstep h n hn) hns

theorem declare {declarator : Node} (hfree : Free name declarator) :
    Agrees name (s.declare declarator) (s'.declare declarator) := by
  obtain ⟨_, _, _, kids⟩ := declarator
  unfold Scope.declare
  rw [Script.Tree.kids]
  split
  · next target initial =>
    have hinitial : Free name initial := by simp_all [Free, Script.Tree.any, Script.Tree.anyOf]
    rw [h.evaluate_eq initial hinitial, h.unknown_eq]
    split
    · exact h
    · split
      · exact h.bind _ _
      · exact h.foldl (fun h n _ => h.bindMember _ n) fun _ _ => trivial
      · exact h
  · exact h

theorem exported?_eq {item} (hfree : Free name item) :
    s'.exported? item = s.exported? item := by
  unfold exported?
  split
  · next value =>
    rw [h.evaluate_eq value (by simp_all [Free, Script.Tree.any, Script.Tree.anyOf])]
  · next value =>
    rw [h.evaluate_eq value (by simp_all [Free, Script.Tree.any, Script.Tree.anyOf])]
  · rfl

theorem run_eq (found : Option Value) {items : List Node} (hfree : ∀ item ∈ items, Free name item) :
    s'.run found items = s.run found items := by
  induction items generalizing s s' found with
  | nil => rfl
  | cons item _ ih =>
    obtain ⟨hitem, hitems⟩ := forall_mem_cons.1 hfree
    obtain ⟨_, _, _, rfl⟩ | hrun := run_cases item
    · exact ih (h.foldl (fun h _ => h.declare) fun _ => hitem.of_mem) found hitems
    · simp [hrun, h.exported?_eq hitem, ih h _ hitems]

end Agrees

theorem agrees_bind (s : Scope) (name : String) (binding : Binding) :
    Agrees name s (s.bind name binding) where
  source := rfl
  directory := rfl
  bindings other hne := by rw [Scope.bind, Table.get?_insert, if_neg (Ne.symm hne)]

theorem agrees_declare {kind span nameSpan name kids initial} (s : Scope) :
    Agrees name s (s.declare (.of kind span [.of (.ident name) nameSpan kids, initial])) := by
  unfold declare
  dsimp only [Script.Tree.kids]
  split
  · exact ⟨rfl, rfl, fun _ _ => rfl⟩
  · exact agrees_bind s name _

/-- A declarator is put among the declarations of a script. -/
inductive Inserted (declarator : Node) : List Node → List Node → Prop
  | alone (word : String) (span : Span) (items : List Node) :
      Inserted declarator items (.of (.variableDecl word) span [declarator] :: items)
  | among (word : String) (span : Span) (before after items : List Node) :
      Inserted declarator (.of (.variableDecl word) span (before ++ after) :: items)
        (.of (.variableDecl word) span (before ++ declarator :: after) :: items)
  | later {items items' : List Node} (item : Node) (h : Inserted declarator items items') :
      Inserted declarator (item :: items) (item :: items')

theorem run_inserted {name items items'} {declarator : Node}
    (hdeclarator : ∀ s : Scope, Agrees name s (s.declare declarator))
    (hfree : ∀ item ∈ items, Free name item) (h : Inserted declarator items items') (s : Scope)
    (found : Option Value) : s.run found items' = s.run found items := by
  induction h generalizing s found with
  | alone word span items => exact (hdeclarator s).run_eq found hfree
  | among word span before =>
    obtain ⟨hitem, hitems⟩ := forall_mem_cons.1 hfree
    rw [run_variableDecl, run_variableDecl, foldl_append, foldl_append]
    exact ((hdeclarator _).foldl (fun h _ => h.declare) fun n hn =>
      hitem.of_mem (mem_append_right before hn)).run_eq found hitems
  | later item h ih =>
    obtain ⟨_, hitems⟩ := forall_mem_cons.1 hfree
    obtain ⟨_, _, _, rfl⟩ | hrun := run_cases item
    · exact ih hitems _ found
    · simp [hrun, ih hitems]

end Scope

/-- A declaration whose name occurs nowhere in a script leaves what the script gives. -/
theorem evaluateItems_inserted (scope : Scope) (name : String) (initial : Node)
    (span nameSpan : Span) (kids items items' : List Node)
    (hfree : ∀ item ∈ items, Scope.Free name item)
    (h : Scope.Inserted (.of .declarator span [.of (.ident name) nameSpan kids, initial])
      items items') :
    evaluateItems scope items' = evaluateItems scope items := by
  rw [evaluateItems, Scope.run_inserted (fun s => Scope.agrees_declare s) hfree h]
  rfl

/-- The value of the declaration is unknown. -/
theorem evaluateItems_inserted_unknown :
    let exported : Node := .of .exportDefaultExpr ⟨0, 0⟩ [.of (.bool true) ⟨0, 0⟩ []]
    let declarator : Node := .of .declarator ⟨0, 0⟩ [.of (.ident "a") ⟨0, 0⟩ [], .of .this ⟨0, 0⟩ []]
    (∀ item ∈ [exported], Scope.Free "a" item) ∧
    evaluateItems ⟨⟨[]⟩, ⟨[]⟩, []⟩ [.of (.variableDecl "const") ⟨0, 0⟩ [declarator], exported] =
      .ok (.bool true) :=
  ⟨by decide, evaluateItems_inserted _ "a" _ _ _ _ _ _ (by decide) (.alone _ _ _)⟩

end Sveltify.Config
