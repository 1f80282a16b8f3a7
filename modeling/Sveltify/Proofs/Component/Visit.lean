import Sveltify.Component.Part
import Sveltify.Proofs.Script.Shape

/-! A walk, node by node. What a walk does at a node is given as one equation for every way in which
a node can be treated; none of them mentions the labels that the walk is made of. -/

namespace Sveltify

open List hiding span
open Script (Node Kind)
open Script.Tree Visit StateT

/-! What is looked for does not depend on labels. -/

section

variable {α β : Type} (f : Script.Tree α → List (Script.Tree β) → β)

@[simp] theorem declaratorRole?_relabel (scope : ComponentScope) (t : Script.Tree α) :
    declaratorRole? scope (t.relabel f) = declaratorRole? scope t := by
  unfold declaratorRole?
  rw [kids_relabel]
  rcases t.kids with _ | ⟨_, _ | ⟨_, _ | ⟨_, _⟩⟩⟩
  · rfl
  · rfl
  · simp
  · rfl

namespace Visit

variable (l : β) (l' : α) (kind : Kind) (span : Span) (kids : List (Script.Tree α))

theorem isUpdateCall_node : isUpdateCall (node l kind span (kids.map (relabel f))) =
    isUpdateCall (node l' kind span kids) := by
  simp [isUpdateCall, calleeMember?_node f l l', Option.any_map]

@[simp] theorem isUpdateCall_relabel (t : Script.Tree α) :
    isUpdateCall (t.relabel f) = isUpdateCall t := by
  obtain ⟨_, _, _, _⟩ := t
  rw [relabel_node, isUpdateCall_node]

theorem memberReplacement?_node (draft : Draft) :
    memberReplacement? draft (node l kind span (kids.map (relabel f))) =
      memberReplacement? draft (node l' kind span kids) := by
  simp only [memberReplacement?, memberObject?_node f l l', memberName?_node f l l']
  cases (node l' kind span kids).memberObject? with
  | none => rfl
  | some => simp

theorem boundMethod?_node : boundMethod? (node l kind span (kids.map (relabel f))) =
    (boundMethod? (node l' kind span kids)).map (relabel f) := by
  simp only [boundMethod?, calleeMember?_node f l l', arguments_node f l l']
  rcases (node l' kind span kids).calleeMember? with _ | _
  · rfl
  rcases (node l' kind span kids).arguments with _ | ⟨_, _ | ⟨_, _⟩⟩
  · rfl
  · simp only [Option.map_some, map_cons, map_nil, spreadValue_relabel, kind_relabel,
      memberName?_relabel, memberObject?_relabel]
    split
    · split <;> rfl
    · rfl
  · rfl

theorem setVariable?_node (draft : Draft) :
    setVariable? draft (node l kind span (kids.map (relabel f))) =
      setVariable? draft (node l' kind span kids) := by
  simp [setVariable?, callee?_node f l l', Option.bind_map, Function.comp_def]

theorem updateReason_node : updateReason (node l kind span (kids.map (relabel f))) =
    updateReason (node l' kind span kids) := by
  simp [updateReason, arguments_node f l l', Function.comp_def]

@[simp] theorem updateReason_relabel (t : Script.Tree α) :
    updateReason (t.relabel f) = updateReason t := by
  obtain ⟨_, _, _, _⟩ := t
  rw [relabel_node, updateReason_node]

end Visit

end

namespace Visit

def entry? {α : Type} : Script.Tree α → Option (String × Script.Tree α)
  | .node _ .property _ [key, value] => key.keyName?.map fun name => (name, value)
  | .node l (.ident name) span kids => some (name, .node l (.ident name) span kids)
  | _ => none

/-- What an update call with an object of plain entries gives. -/
structure Update (α : Type) where
  entries : List (String × Script.Tree α)
  callback : Option (Script.Tree α)

/-- The update that arguments stand for, if the first one is an object of plain entries. -/
def update? {α : Type} : List (Script.Tree α) → Option (Update α)
  | [] => none
  | first :: rest =>
    match first.unparen with
    | .node _ .object _ properties =>
      (properties.mapM entry?).map fun entries => ⟨entries, rest.head?.map spreadValue⟩
    | _ => none

/-- What is known after an update: its keys are state variables, and a callback needs a helper. -/
def Update.note {α : Type} (u : Update α) (draft : Draft) : Draft :=
  let known := u.entries.foldl (fun d entry => d.withSymbols (·.addState entry.1 none)) draft
  match u.callback with
  | none => known
  | some _ => known.addHelper "tick"

end Visit

namespace Walk

variable {source : Source}

def visit (source : Source) (w : Walk) (n : Node) : Walk :=
  ((Part.ofNode source n).label.run w).2

def visits (source : Source) (w : Walk) (ns : List Node) : Walk :=
  ns.foldl (visit source) w

def withDraft (w : Walk) (draft : Draft) : Walk :=
  { w with draft }

def cut (w : Walk) (offsets : List Nat) : Walk :=
  w.withDraft (w.draft.cut offsets)

def replace (w : Walk) (span : Span) (text : Text) : Walk :=
  { w with edits := w.edits.replace span text }

def defer (source : Source) (w : Walk) (call : Node) : Walk :=
  match w.statements.head? with
  | some span =>
    if w.deferred.any (·.1 == span) then w
    else { w with deferred := w.deferred ++ [(span, updateReason call)] }
  | none =>
    let code := String.ofList (w.edits.render source call.span)
    (w.withDraft (w.draft.review source (updateReason call) code call.span.start)).replace
      call.span "undefined".toList

def enter (w : Walk) (span : Span) : Walk :=
  { w with statements := span :: w.statements }

/-- The walk at the end of a statement of a list, which is moved to manual review if an update call
in it was deferred. -/
def leave (source : Source) (w : Walk) (span : Span) : Walk :=
  let outer := { w with statements := w.statements.tail }
  match w.deferred.find? (·.1 == span) with
  | none => outer
  | some (_, reason) =>
    let code := Text.tidyBlankLines (Text.reindent (w.edits.render source span)
      (source.lineIndent span.start).length [])
    let left := { outer with deferred := w.deferred.eraseP (·.1 == span) }
    let draft := w.draft.cut (span.start :: source.statementCuts span)
    (left.withDraft (draft.review source reason (String.ofList code) span.start)).replace
      (source.statementRange span) []

def listed (source : Source) (w : Walk) (n : Node) : Walk :=
  ((w.enter n.span).visit source n).leave source n.span

/-! The equations. -/

variable {α : Type}

theorem forM_map_run {β : Type} {r g} {f : α → Visit}
    (h : ∀ w b, (f (r b)).run w = pure ((), g w b)) (bs : List β) (w : Walk) :
    ((bs.map r).forM f).run w = pure ((), bs.foldl g w) := by
  induction bs generalizing w with
  | nil => rfl
  | cons b bs ih =>
    change (f (r b) >>= fun _ => (bs.map r).forM f).run w = _
    rw [run_bind, h]
    exact ih (g w b)

variable {w : Walk} {kids : List Node} {span : Span}

theorem mapM_map_run {β γ : Type} {r g} {f : α → StateM Walk γ}
    (h : ∀ b, (f (r b)).run w = pure (g b, w)) (bs : List β) :
    ((bs.map r).mapM f).run w = pure (bs.map g, w) := by
  induction bs with
  | nil => rfl
  | cons b _ ih => simp only [map_cons, mapM_cons, run_bind, h, pure_bind, ih,
      run_pure]

theorem ofNode_eq : Part.ofNode source = relabel (ofNode source) :=
  rfl

theorem visit_eq (w : Walk) (kind : Kind) (span : Span) (kids : List Node) :
    w.visit source (.node () kind span kids) = ((ofNode source (.node () kind span kids)
      (kids.map (relabel (ofNode source)))).run w).2 := by
  rw [visit, ofNode_eq, relabel_node]
  rfl

/-! What a walk does at the nodes that it does not leave to their parts. -/

section

variable (span : Span) (ns : List Node) (kids : List Part)

theorem ofNode_switchCase (test body : Part) :
    ofNode source (.node () .switchCase span ns) [test, body] = (do
      test.label
      body.kids.forM (visitStatement source)) :=
  rfl

theorem ofNode_ident (name : String) : ofNode source (.node () (.ident name) span ns) kids = (do
    if (← get).draft.scope.propsBag == some name then Visit.replace span "$$props".toList
    visitAll kids) :=
  rfl

theorem ofNode_member : ofNode source (.node () .member span ns) kids =
    visitMember (.node (pure ()) .member span kids) :=
  rfl

theorem ofNode_call : ofNode source (.node () .call span ns) kids =
    visitCall source (.node (pure ()) .call span kids) :=
  rfl

theorem ofNode_expression : ofNode source (.node () .expression span ns) kids =
    visitExpression source (.node (pure ()) .expression span kids) :=
  rfl

theorem ofNode_variableDecl (word : String) :
    ofNode source (.node () (.variableDecl word) span ns) kids =
      visitVariables source (.node (pure ()) (.variableDecl word) span kids) :=
  rfl

end

theorem label_run (w : Walk) (n : Node) :
    (n.relabel (ofNode source)).label.run w = pure ((), w.visit source n) :=
  rfl

theorem visitAll_run (w : Walk) (ns : List Node) :
    (visitAll (ns.map (relabel (ofNode source)))).run w =
      pure ((), w.visits source ns) :=
  forM_map_run label_run ns w

@[simp] theorem visits_nil (w : Walk) : w.visits source [] = w :=
  rfl

@[simp] theorem visits_cons (w : Walk) (n : Node) (ns : List Node) :
    w.visits source (n :: ns) = (w.visit source n).visits source ns :=
  rfl

theorem visitStatement_run (w : Walk) (n : Node) :
    (visitStatement source (n.relabel (ofNode source))).run w =
      pure ((), w.listed source n) := by
  have henter : { w with statements := n.span :: w.statements } = w.enter n.span := rfl
  simp only [visitStatement, run_bind, run_modify, run_get, pure_bind,
    span_relabel, label_run, henter, listed, leave]
  cases hfind : ((w.enter n.span).visit source n).deferred.find? (·.1 == n.span) with
  | none => rfl
  | some => rfl

theorem visit_block (w : Walk) (span : Span) (ss : List Node) :
    w.visit source (.node () .block span ss) = ss.foldl (listed source) w := by
  rw [visit_eq]
  exact congrArg Prod.snd (forM_map_run visitStatement_run ss w)

theorem visit_switchCase (w : Walk) (span : Span) (test body : Node) :
    w.visit source (.node () .switchCase span [test, body]) =
      body.kids.foldl (listed source) (w.visit source test) := by
  rw [visit_eq]
  simp only [ofNode_switchCase, map_cons, map_nil, kids_relabel]
  exact congrArg Prod.snd (forM_map_run visitStatement_run body.kids (w.visit source test))

theorem visit_this (w : Walk) (span : Span) (kids : List Node) :
    w.visit source (.node () .this span kids) = w.withDraft (w.draft.report source .unresolvedThis
      "`this` reference could not be rewritten" span.start) := by
  rfl

theorem visit_bag {name} (span : Span) (kids : List Node)
    (h : w.draft.scope.propsBag = some name) : w.visit source (.node () (.ident name) span kids) =
      (w.replace span "$$props".toList).visits source kids := by
  rw [visit_eq]
  simp only [ofNode_ident, run_bind, run_get, pure_bind, h,
    beq_self_eq_true]
  exact congrArg Prod.snd (visitAll_run (w.replace span "$$props".toList) kids)

theorem visit_member {name symbols}
    (h : memberReplacement? w.draft (.node () .member span kids) = some (name, symbols)) :
    w.visit source (.node () .member span kids) =
      (w.withDraft { w.draft with symbols }).replace span name.toList := by
  rw [visit_eq]
  simp only [ofNode_member, visitMember, run_bind, run_get,
    pure_bind, memberReplacement?_node _ _ (), h]
  rfl

/-! State updates. -/

theorem deferUpdate_run (w : Walk) (call : Part) (n : Node) (hspan : call.span = n.span)
    (hreason : updateReason call = updateReason n) :
    (deferUpdate source call).run w = pure ((), w.defer source n) := by
  simp only [deferUpdate, run_bind, run_get, pure_bind, hspan, hreason, defer]
  cases w.statements.head? <;> rfl

def assignmentText (key : String) (value : Text) : Text :=
  key.toList ++ " = ".toList ++ value

def callbackText (callback : Text) : Text :=
  "tick().then(".toList ++ callback ++ [')']

/-- The texts that an update is written as, when its values have been visited. -/
def updateTexts (source : Source) (w : Walk) (u : Update Unit) : List Text :=
  u.entries.map (fun entry => assignmentText entry.1 (w.edits.render source entry.2.span)) ++
    (u.callback.map fun callback => callbackText (w.edits.render source callback.span)).toList

theorem plainEntry?_relabel (t : Node) : plainEntry? (t.relabel (ofNode source)) =
    ( entry? t).map fun entry => (entry.1, entry.2.span) := by
  obtain ⟨⟨⟩, kind, _, kids⟩ := t
  cases kind
  case property =>
    rcases kids with _ | ⟨key, _ | ⟨_, _ | ⟨_, _⟩⟩⟩
    · rfl
    · rfl
    · simp only [relabel_node, map_cons, map_nil, plainEntry?, entry?,
        keyName?_relabel, span_relabel]
      cases key.keyName? <;> rfl
    · rfl
  all_goals rfl

theorem mapM_plainEntry? (ts : List Node) :
    (ts.map (relabel (ofNode source))).mapM plainEntry? =
      (ts.mapM entry?).map (List.map fun entry => (entry.1, entry.2.span)) := by
  induction ts with
  | nil => rfl
  | cons t ts ih =>
    rw [map_cons, mapM_cons, mapM_cons, plainEntry?_relabel, ih]
    cases entry? t with
    | none => rfl
    | some entry => cases ts.mapM entry? <;> rfl

theorem foldl_withDraft (f : Draft → α → Draft) (as : List α) (w : Walk) :
    as.foldl (fun w a => w.withDraft (f w.draft a)) w = w.withDraft (as.foldl f w.draft) := by
  induction as generalizing w with
  | nil => rfl
  | cons a _ ih =>
    rw [foldl_cons, ih]
    rfl

theorem objectAssignments_run (w : Walk) (l : Visit) (span : Span) (properties : List Node) :
    (objectAssignments source
      (.node l .object span (properties.map (relabel (ofNode source))))).run w =
    match properties.mapM entry? with
    | none => pure (none, w)
    | some entries => pure (some (entries.map fun entry =>
        assignmentText entry.1 (w.edits.render source entry.2.span)),
        w.withDraft ((⟨entries, none⟩ : Update Unit).note w.draft)) := by
  simp only [objectAssignments, kids_node, mapM_plainEntry?]
  cases properties.mapM entry? with
  | none => rfl
  | some entries =>
    have hassign := mapM_map_run (f := fun p : String × Span => do
        return p.1.toList ++ " = ".toList ++ (← rendered source p.2))
      (r := fun entry : String × Node => (entry.1, entry.2.span)) (w := w) (fun _ => rfl) entries
    have hkeys := forM_map_run (f := fun p : String × Span =>
        modifyDraft (·.withSymbols (·.addState p.1 none)))
      (r := fun entry : String × Node => (entry.1, entry.2.span)) (fun _ _ => rfl) entries w
    simp only [Option.map_some, run_bind, hassign, pure_bind, hkeys]
    have hdraft := foldl_withDraft (fun d (entry : String × Node) =>
      d.withSymbols (·.addState entry.1 none)) entries w
    rw [run_pure]
    exact congrArg (fun w' : Walk => pure (some _, w')) hdraft

def written (source : Source) (w : Walk) (u : Update Unit) : StateUpdate :=
  ⟨u.entries.map fun entry => assignmentText entry.1 (w.edits.render source entry.2.span),
    u.callback.map fun callback => callbackText (w.edits.render source callback.span)⟩

theorem stateUpdate_run (w : Walk) (call : Part) (args : List Node)
    (hargs : call.arguments = args.map (relabel (ofNode source))) :
    (stateUpdate source call).run w = match update? args with
    | none => pure (none, w)
    | some u => pure (some (w.written source u), w.withDraft (u.note w.draft)) := by
  unfold stateUpdate
  rw [hargs]
  cases args with
  | nil => rfl
  | cons first rest =>
    simp only [map_cons, unparen_relabel, update?]
    rcases first.unparen with ⟨⟨⟩, kind, _, kids⟩
    cases kind
    case object =>
      simp only [relabel_node, run_bind, objectAssignments_run]
      cases kids.mapM entry? with
      | none => rfl
      | some =>
        simp only [head?_map]
        cases rest.head? with
        | none => rfl
        | some =>
          simp only [Option.map_some, spreadValue_relabel, span_relabel]
          rfl
    all_goals rfl

theorem updateTexts_eq (w : Walk) (u : Update Unit) :
    (w.written source u).assignments ++ (w.written source u).callback.toList =
      w.updateTexts source u :=
  rfl

theorem visit_update (h : isUpdateCall (.node () .call span kids : Node)) :
    w.visit source (.node () .call span kids) =
      let args := arguments (.node () .call span kids : Node)
      let inner := w.visits source args
      match update? args with
      | none => inner.defer source (.node () .call span kids)
      | some u => (inner.withDraft (u.note inner.draft)).replace span
          (['('] ++ Text.joinWith ", ".toList (inner.updateTexts source u) ++ [')']) := by
  rw [visit_eq]
  simp only [ofNode_call, visitCall, isUpdateCall_node _ _ (), h,
    if_true, visitUpdateCall, run_bind, arguments_node _ _ (), visitAll_run, pure_bind]
  rw [stateUpdate_run _ _ _ (arguments_node _ _ () _ _ _)]
  cases update? (arguments (.node () .call span kids : Node)) with
  | none =>
    exact congrArg Prod.snd (deferUpdate_run _ _ _ rfl (updateReason_node _ _ () _ _ _))
  | some => rfl

theorem visit_updateStatement {e} (h : isUpdateCall e.unparen) :
    w.visit source (.node () .expression span [e]) =
      let args := e.unparen.arguments
      let inner := w.visits source args
      match update? args with
      | none => inner.defer source e.unparen
      | some u =>
        let known := inner.withDraft (u.note inner.draft)
        let texts := inner.updateTexts source u
        if texts.isEmpty then
          (known.cut (source.statementCuts span)).replace (source.statementRange span) []
        else (known.cut [span.start]).replace span
          (Text.joinWith ('\n' :: source.lineIndent span.start) (texts.map (· ++ [';']))) := by
  rw [visit_eq]
  simp only [ofNode_expression, visitExpression, kids_node, map_cons,
    map_nil, unparen_relabel, isUpdateCall_relabel, h, if_true,
    visitUpdateStatement, run_bind, arguments_relabel, visitAll_run, pure_bind]
  rw [stateUpdate_run _ _ _ (arguments_relabel _ _)]
  cases update? e.unparen.arguments with
  | none =>
    exact congrArg Prod.snd
      (deferUpdate_run _ _ _ (span_relabel _ _) (updateReason_relabel _ _))
  | some u =>
    simp only [pure_bind, updateTexts_eq, isEmpty_map]
    by_cases hempty : (updateTexts source (visits source w e.unparen.arguments) u).isEmpty
    · simp only [hempty]
      rfl
    · simp only [hempty]
      rfl

theorem visit_bound {method} (hupdate : isUpdateCall (.node () .call span kids : Node) = false)
    (h : boundMethod? (.node () .call span kids : Node) = some method) :
    w.visit source (.node () .call span kids) =
      let inner := w.visit source method
      inner.replace span (inner.edits.render source method.span) := by
  rw [visit_eq]
  simp only [ofNode_call, visitCall, isUpdateCall_node _ _ (),
    hupdate, boundMethod?_node _ _ (), h, Option.map_some,
    span_relabel]
  rfl

/-- The text that a call of a setter becomes, given the value and whether it is a function. -/
def setterText (target : String) : Option (Bool × Text) → Text
  | none => assignmentText target "undefined".toList
  | some (false, value) => assignmentText target value
  | some (true, value) =>
    assignmentText target (['('] ++ value ++ ")(".toList ++ target.toList ++ [')'])

theorem visit_setter {target} (hupdate : isUpdateCall (.node () .call span kids : Node) = false)
    (hbound : boundMethod? (.node () .call span kids : Node) = none)
    (h : setVariable? w.draft (.node () .call span kids : Node) = some target) :
    w.visit source (.node () .call span kids) =
      let args := arguments (.node () .call span kids : Node)
      let inner := w.visits source args
      inner.replace span (setterText target ((args.head?.map spreadValue).map fun value =>
        (value.unparen.isFunction, inner.edits.render source value.span))) := by
  rw [visit_eq]
  simp only [ofNode_call, visitCall, isUpdateCall_node _ _ (),
    hupdate, Bool.false_eq_true, if_false, boundMethod?_node _ _ (), hbound, Option.map_none,
    run_bind, run_get, pure_bind, setVariable?_node _ _ (), h,
    visitSetterCall, arguments_node _ _ (), visitAll_run, head?_map]
  cases (arguments (.node () .call span kids : Node)).head? with
  | none =>
    change (visits source w _).replace span (String.toList _) = _
    simp [setterText, assignmentText, toString]
  | some argument =>
    simp only [Option.map_some, spreadValue_relabel, unparen_relabel,
      isFunction_relabel]
    cases argument.spreadValue.unparen.isFunction
    all_goals
      change (visits source w _).replace span (String.toList _) = _
      simp [setterText, assignmentText, toString]

/-! Declarations. -/

def consumes (scope : ComponentScope) (declarators : List Node) : Bool :=
  !declarators.isEmpty && declarators.all fun d => (declaratorRole? scope d).isSome

def registered (source : Source) (draft : Draft) (declarators : List Node) : Draft :=
  (((declarators.map (Part.ofNode source)).forM (registerDeclarator source)).run draft).2

theorem consumeDeclaration_run (draft : Draft) (declarators : List Node) :
    (consumeDeclaration source (declarators.map (relabel (ofNode source)))).run draft =
      if consumes draft.scope declarators then pure (true, registered source draft declarators)
      else pure (false, draft) := by
  have hall : ((declarators.map (relabel (ofNode source))).all fun d =>
      (declaratorRole? draft.scope d).isSome) =
      declarators.all fun d => (declaratorRole? draft.scope d).isSome := by
    simp [Function.comp_def]
  simp only [consumeDeclaration, run_bind, run_get, pure_bind, isEmpty_map, hall]
  change run (if consumes draft.scope declarators then _ else _) draft = _
  by_cases h : consumes draft.scope declarators
  · simp only [h]
    rfl
  · simp only [h]
    rfl

theorem visit_consumed {word} (h : consumes w.draft.scope kids) :
    w.visit source (.node () (.variableDecl word) span kids) =
      ((w.withDraft (registered source w.draft kids)).cut (source.statementCuts span)).replace
        (source.statementRange span) [] := by
  rw [visit_eq]
  simp only [ofNode_variableDecl, visitVariables, run_bind,
    run_get, pure_bind, kids_node, consumeDeclaration_run, h]
  rfl

/-! Every other node is left to its parts. -/

def passes (draft : Draft) (n : Node) : Bool :=
  match n.kind, n.kids with
  | .block, _ | .switchCase, [_, _] | .this, _ => false
  | .member, _ => (memberReplacement? draft n).isNone
  | .expression, [e] => !Visit.isUpdateCall e.unparen
  | .call, _ => !Visit.isUpdateCall n && (boundMethod? n).isNone &&
      (setVariable? draft n).isNone
  | .variableDecl _, kids => !consumes draft.scope kids
  | .ident name, _ => draft.scope.propsBag != some name
  | _, _ => true

theorem visit_of_passes {n} (h : passes w.draft n) :
    w.visit source n = w.visits source n.kids := by
  obtain ⟨⟨⟩, kind, _, kids⟩ := n
  have hall : ((visitAll (kids.map (relabel (ofNode source)))).run w).2 =
      w.visits source kids := congrArg Prod.snd (visitAll_run w kids)
  rw [visit_eq, kids_node, ← hall]
  cases kind
  case block | this => simp [passes] at h
  case switchCase =>
    rcases kids with _ | ⟨_, _ | ⟨_, _ | ⟨other, rest⟩⟩⟩
    · rfl
    · rfl
    · simp [passes] at h
    · rfl
  case member =>
    simp only [passes, kind_node, Option.isNone_iff_eq_none] at h
    simp only [ofNode_member, visitMember, run_bind,
      run_get, pure_bind, memberReplacement?_node _ _ (), h]
    rfl
  case expression =>
    rcases kids with _ | ⟨e, _ | ⟨_, _⟩⟩
    · rfl
    · simp only [passes, kind_node, kids_node, Bool.not_eq_true'] at h
      simp only [ofNode_expression, visitExpression, kids_node, map_cons,
        map_nil, unparen_relabel, isUpdateCall_relabel, h]
      rfl
    · rfl
  case call =>
    simp only [passes, kind_node, Bool.and_eq_true, Bool.not_eq_true', Option.isNone_iff_eq_none]
      at h
    simp [ofNode_call, visitCall, isUpdateCall_node _ _ (), h.1.1, boundMethod?_node _ _ (), h.1.2,
      setVariable?_node _ _ (), h.2]
  case variableDecl word =>
    simp only [passes, kind_node, kids_node, Bool.not_eq_true'] at h
    simp only [ofNode_variableDecl, visitVariables, run_bind, run_get,
      pure_bind, kids_node, consumeDeclaration_run, h]
    rfl
  case ident name =>
    simp only [passes, kind_node, bne_iff_ne] at h
    simp only [ofNode_ident, run_bind, run_get, pure_bind, beq_iff_eq, h,
      if_false]
  all_goals rfl

end Walk

end Sveltify
