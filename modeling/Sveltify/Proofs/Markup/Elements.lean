import Sveltify.Proofs.Component.Stems
import Sveltify.Proofs.Provenance

/-! Markup stays out of generated code. A policy lets only parts without markup become code; a module
is converted under it if its markup stands where it is turned into nodes of the document or moved to
manual review. Then no code of the document has an element in it. -/

namespace Sveltify

open List
open Script (Node Kind)
open Script.Tree ComponentSource Part Policy

/-! Where markup may stand. -/

namespace Script.Tree

variable {α : Type} (t : Script.Tree α)

/-- No declaration in the tree that may unpack props or state holds markup. -/
def unpacksPlain : Bool :=
  t.every fun m => match m.kind with
    | .variableDecl _ => !m.unpacks || !m.containsMarkup
    | _ => true

/-- A statement of a body without markup, or one that is left to manual review. -/
def isPlainStatement : Bool :=
  !t.containsMarkup || (t.unpacksPlain && t.isLeftover)

/-- A member of a class without markup, or one that is left to manual review; the statements of
`render` are taken one by one. -/
def isPlainMember : Bool :=
  !t.containsMarkup || (t.unpacksPlain &&
    (t.isReviewed || t.renderBody?.any fun statements => statements.all isPlainStatement))

def showsPlain : Bool :=
  t.unpacksPlain && t.every fun m =>
    m.embedded.all (!·.containsMarkup) && m.transcribed.all (!·.containsMarkup)

/-- An item of a module without markup, or one that is no code of the module. -/
def isPlainItem : Bool :=
  !t.containsMarkup || (t.unpacksPlain && t.isBoundary)

/-! All of this can be read off a labelled tree. -/

section

variable {β : Type} (f : Script.Tree α → List (Script.Tree β) → β)

@[simp] theorem containsMarkup_relabel (t : Script.Tree α) :
    (t.relabel f).containsMarkup = t.containsMarkup :=
  any_relabel f _ t

theorem unpacks_relabel (t : Script.Tree α) : (t.relabel f).unpacks = t.unpacks := by
  simp [unpacks, Function.comp_def, Option.bind_map]

theorem embedded_relabel (t : Script.Tree α) :
    (t.relabel f).embedded = t.embedded.map (relabel f) := by
  obtain ⟨l, kind, span, kids⟩ := t
  cases kind
  case jsxAttribute =>
    rcases kids with _ | ⟨_, _ | ⟨⟨_, kind', _, kids'⟩, _ | ⟨other, rest⟩⟩⟩
    case cons.cons.nil =>
      rcases kids' with _ | ⟨e, _ | ⟨e', rest⟩⟩ <;> cases kind' <;> simp [embedded, relabel_node]
    all_goals simp [embedded]
  case spread =>
    rcases kids with _ | ⟨e, _ | ⟨_, rest⟩⟩ <;> simp [embedded]
  case binary operator =>
    by_cases hand : operator = "&&"
    · subst hand
      rcases kids with _ | ⟨_, _ | ⟨_, _ | ⟨other, rest⟩⟩⟩ <;> simp [embedded]
    · simp [embedded, hand]
  case conditional =>
    rcases kids with _ | ⟨_, _ | ⟨_, _ | ⟨_, _ | ⟨_, _⟩⟩⟩⟩ <;>
      simp [embedded]
  case call =>
    simp only [embedded, kind_relabel, kind_node, calleeMember?_relabel]
    cases calleeMember? (.node l .call span kids) with
    | none => simp
    | some member =>
      simp only [Option.map_some, Option.any_some, memberName?_relabel, Option.bind_some,
        memberObject?_relabel]
      split <;> cases member.memberObject? <;> simp
  all_goals rfl

theorem transcribed_relabel (t : Script.Tree α) :
    (t.relabel f).transcribed = t.transcribed.map (relabel f) := by
  obtain ⟨l, kind, _, kids⟩ := t
  cases kind
  case jsxAttribute =>
    rcases kids with _ | ⟨_, _ | ⟨⟨_, kind', _, kids'⟩, _ | ⟨_, rest⟩⟩⟩
    case cons.cons.nil =>
      rcases kids' with _ | ⟨e, _ | ⟨_, _⟩⟩ <;> cases kind' <;> simp [transcribed, relabel_node]
    all_goals simp [transcribed]
  case arrow => cases kids <;> simp [transcribed]
  case function => cases kids <;> simp [transcribed, parameterPattern_relabel]
  all_goals rfl

theorem unpacksPlain_relabel (t : Script.Tree α) : (t.relabel f).unpacksPlain = t.unpacksPlain :=
  every_relabel f (fun m => by simp [unpacks_relabel]) t

theorem showsPlain_relabel (t : Script.Tree α) : (t.relabel f).showsPlain = t.showsPlain := by
  unfold showsPlain
  rw [unpacksPlain_relabel, every_relabel f fun m => ?_]
  simp [embedded_relabel, transcribed_relabel, Function.comp_def]

end

end Script.Tree

/-- The markup of a component stands where it is shown or left to manual review. -/
def ComponentSource.confinesMarkup {α : Type} : ComponentSource α → Bool
  | .ofMembers members => members.all isPlainMember &&
      (members.filterMap renderBody?).all fun statements => (returned? statements).all showsPlain
  | .function params body => params.head?.all (!·.containsMarkup) &&
      if body.isBlock then body.kids.all isPlainStatement && (returned? body.kids).all showsPlain
      else body.showsPlain

/-- The markup of a module stands where it is shown or left to manual review. -/
def Transformation.confinesMarkup {files : FileSystem} {text : String} {options : Options}
    (t : Transformation files text options) : Bool :=
  (t.items.all fun item => !item.isExpression || !item.containsMarkup) &&
    (t.items.zipIdx.all fun item => t.component.items.contains item.2 || item.1.isPlainItem) &&
    t.component.source.confinesMarkup

/-! The policy. -/

variable {α : Type} {n : Script.Tree α}

theorem containsMarkup_of_within {m : Script.Tree α} (h : m.Within n)
    (hn : n.containsMarkup = false) : m.containsMarkup = false := by
  rw [← Bool.not_eq_true] at hn ⊢
  exact fun hm => hn (any_of_within h hm)

theorem Script.Tree.Within.unpacksPlain {m : Script.Tree α} (h : m.Within n) (hn : n.unpacksPlain) :
    m.unpacksPlain :=
  h.every hn

theorem unpacksPlain_of_plain (h : n.containsMarkup = false) : n.unpacksPlain := by
  induction n using inside_induction with
  | h n ih =>
    refine every_node_iff.2 ⟨?_, fun k hk => ?_⟩
    · split
      · simp [h]
      · rfl
    · exact ih k (inside_of_mem_kids hk) (containsMarkup_of_within (inside_of_mem_kids hk).within h)

theorem containsMarkup_of_unpacks {word} (h : n.unpacksPlain)
    (hkind : n.kind = .variableDecl word) (hn : n.unpacks) : n.containsMarkup = false := by
  have hroot := (every_node_iff.1 h).1
  simpa [hkind, hn] using hroot

def Policy.plain : Policy where
  renders _ n := n.containsMarkup = false
  visits _ n := n.unpacksPlain
  copies n := n.containsMarkup = false
  methods _ := True
  takesItems := True
  renders_grows _ h := h
  visits_grows _ h := h
  renders_within hm h := containsMarkup_of_within hm h
  visits_within hm h := hm.unpacksPlain h
  visits_of_renders h := unpacksPlain_of_plain h
  renders_declaration h hkind hconsumes := by
    obtain ⟨hne, hroles⟩ := Bool.and_eq_true_iff.1 hconsumes
    exact containsMarkup_of_unpacks h hkind (unpacks_of_roles hne hroles)
  copies_value h := containsMarkup_of_within (.kid (by simp) .self) h

/-! Conversions under the policy. -/

section

variable {source : Source} {d : Draft} {n : Node}

theorem plain_admits (h : (ofNode source n).containsMarkup = false) :
    plain.Admits source d (ofNode source n) :=
  ⟨n, rfl, (containsMarkup_relabel _ n).symm.trans h⟩

theorem plain_sees (h : (ofNode source n).unpacksPlain) : plain.Sees source d (ofNode source n) :=
  ⟨n, rfl, by rwa [ofNode, unpacksPlain_relabel] at h⟩

theorem plain_takes (h : (ofNode source n).isPlainStatement) :
    plain.Takes source d (ofNode source n) := by
  rw [isPlainStatement, Bool.or_eq_true, Bool.not_eq_true', Bool.and_eq_true] at h
  exact h.imp plain_admits fun h => ⟨plain_sees h.1, h.2⟩

theorem plain_takesItem (h : (ofNode source n).isPlainItem) :
    plain.TakesItem source d (ofNode source n) := by
  rw [isPlainItem, Bool.or_eq_true, Bool.not_eq_true', Bool.and_eq_true] at h
  exact h.imp plain_admits fun h => ⟨plain_sees h.1, h.2⟩

theorem plain_takesMember (h : (ofNode source n).isPlainMember) :
    plain.TakesMember source d (ofNode source n) := by
  rw [isPlainMember, Bool.or_eq_true, Bool.not_eq_true', Bool.and_eq_true, Bool.or_eq_true] at h
  refine h.imp plain_admits fun h => ⟨plain_sees h.1, h.2.imp_right fun hbody => ?_⟩
  obtain ⟨statements, hstatements, hall⟩ := (Option.any_eq_true _ _).1 hbody
  refine ⟨statements, hstatements, fun s hs => ?_⟩
  obtain ⟨m, -, rfl⟩ := exists_within_relabel (renderBody?_within hstatements s hs)
  exact plain_takes (all_eq_true.1 hall _ hs)

theorem plain_shows (h : (ofNode source n).showsPlain) : plain.Shows d n := by
  rw [ofNode, showsPlain_relabel, showsPlain, Bool.and_eq_true] at h
  intro m hm
  have hparts := hm.of_every h.2
  rw [Bool.and_eq_true, all_eq_true, all_eq_true] at hparts
  exact ⟨hm.unpacksPlain h.1, fun hplain => hplain,
    fun e he => (Bool.not_eq_true' _).mp (hparts.1 e he),
    fun v hv => (Bool.not_eq_true' _).mp (hparts.2 v hv)⟩

theorem plain_hooks {s ds} (hs : s = ofNode source n)
    (hplain : s.isPlainStatement) (hds : hookDeclarators? s = some ds)
    (hroles : !ds.isEmpty && ds.all fun q => (declaratorRole? d.scope q).isSome) :
    ∀ q ∈ ds, plain.Admits source d q := by
  intro q hq
  obtain ⟨rfl, _, hkind⟩ := kids_of_hookDeclarators? hds
  obtain ⟨hne, hall⟩ := Bool.and_eq_true_iff.1 hroles
  have hmarkup : s.containsMarkup = false := by
    rw [isPlainStatement, Bool.or_eq_true, Bool.not_eq_true', Bool.and_eq_true] at hplain
    exact hplain.elim id fun h => containsMarkup_of_unpacks h.1 hkind (unpacks_of_roles hne hall)
  subst hs
  exact (plain_admits hmarkup).within (.kid hq .self)

theorem plain_converts {component item}
    (hof : component.Of (ofNode source item)) (h : component.confinesMarkup) :
    plain.Converts source component := by
  cases component with
  | ofMembers members =>
    rw [confinesMarkup, Bool.and_eq_true, all_eq_true, all_eq_true] at h
    refine .members (fun _ _ _ _ => trivial) (fun e _ m hm => ?_) fun e _ part hpart => ?_
    · obtain ⟨n, rfl⟩ := hof.exists_node hm .self
      exact plain_takesMember (h.1 _ hm)
    · obtain ⟨n, rfl⟩ := hof.exists_node_shown hpart
      obtain ⟨m, hm, statements, hbody, hreturned⟩ := hpart
      have hshown := h.2 statements (mem_filterMap.2 ⟨m, hm, hbody⟩)
      rw [hreturned] at hshown
      exact ⟨n, rfl, plain_shows hshown⟩
  | function params body =>
    rw [confinesMarkup, Bool.and_eq_true] at h
    have hbody : body ∈ (function params body).parts := mem_cons_self
    obtain ⟨hparams, hbodyPlain⟩ := h
    have hblock : body.kind = .block → (∀ s ∈ body.kids, s.isPlainStatement) ∧
        ∀ part ∈ returned? body.kids, part.showsPlain := by
      intro hkind
      rw [if_pos (isBlock_iff.2 hkind), Bool.and_eq_true, all_eq_true] at hbodyPlain
      refine ⟨hbodyPlain.1, fun part hpart => ?_⟩
      rw [Option.mem_def.1 hpart] at hbodyPlain
      exact hbodyPlain.2
    have hstatement : ∀ s ∈ body.kids, ∃ n, s = ofNode source n :=
      fun s hs => hof.exists_node hbody (.kid hs .self)
    refine .function (fun q hq e => ?_) (fun hkind ds hds e => ?_) (fun hkind e _ s hs => ?_)
      fun e _ part hpart => ?_
    · obtain ⟨n, rfl⟩ := hof.exists_node (mem_cons_of_mem _ (mem_of_head? hq)) .self
      rw [Option.mem_def.1 hq] at hparams
      exact plain_admits (by simpa using hparams)
    · obtain ⟨s, hs, hds⟩ := mem_filterMap.1 hds
      obtain ⟨n, hn⟩ := hstatement s hs
      exact plain_hooks hn ((hblock hkind).1 s hs) hds
    · obtain ⟨n, rfl⟩ := hstatement s hs
      exact plain_takes ((hblock hkind).1 _ hs)
    · have hshown : part.showsPlain := by
        rcases hpart with ⟨hkind, hreturned⟩ | ⟨hkind, rfl⟩
        · exact (hblock hkind).2 part hreturned
        · rwa [if_neg (mt isBlock_iff.1 hkind)] at hbodyPlain
      obtain ⟨n, rfl⟩ := hof.exists_node hbody hpart.within
      exact ⟨n, rfl, plain_shows hshown⟩

theorem Transformation.plain_covers {files text options} {t : Transformation files text options} (h : t.confinesMarkup) :
    plain.Covers t.source t.items t.component := by
  rw [confinesMarkup, Bool.and_eq_true, Bool.and_eq_true, all_eq_true, all_eq_true] at h
  obtain ⟨⟨hstatics, hothers⟩, hcomponent⟩ := h
  obtain ⟨n, hof⟩ := t.exists_component
  refine ⟨⟨fun item hitem hkind => ?_, fun item hitem hown => ?_,
    plain_converts hof hcomponent, trivial⟩, trivial⟩
  · obtain ⟨n, -, rfl⟩ := mem_map.1 hitem
    have hplain := hstatics _ hitem
    rw [isExpression, hkind] at hplain
    exact plain_admits (by simpa using hplain)
  · have hmem : item.1 ∈ t.items := (mem_zipIdx' hitem).2 ▸ getElem_mem _
    obtain ⟨n, -, hn⟩ := mem_map.1 hmem
    have hplain := hothers item hitem
    rw [Bool.or_eq_true, contains_iff_mem] at hplain
    rw [← hn] at hplain ⊢
    exact plain_takesItem (hplain.resolve_left hown)

theorem containsMarkup_of_allStem {e} {U : Node → Prop} {o}
    (h : AllStem source d e U n o) (hn : n.containsMarkup = false) : o.containsMarkup = false := by
  rw [← Bool.not_eq_true] at hn ⊢
  intro ho
  obtain ⟨q, hq, hkind⟩ := any_iff_within.1 ho
  refine hn ?_
  cases h q hq with
  | kept hm => exact any_iff_within.2 ⟨_, hm, hkind⟩
  | untouched hm => exact any_iff_within.2 ⟨_, hm, by simpa using hkind⟩
  | caseBody hm => exact any_iff_within.2 ⟨_, .trans (.kid (by simp) .self) hm, hkind⟩
  | @frame kind _ _ hframe => cases kind <;> simp [Kind.isFrame] at hframe <;> simp at hkind
  | @glue kind _ _ hglue => cases kind <;> simp [Kind.isGlue] at hglue <;> simp at hkind
  | _ => simp [Output.name, Output.assignment, Output.gone] at hkind

end

/-- A component with a method and a statement of `render` that return markup. -/
def Transformation.panel : String :=
  "class Panel extends React.Component \x7b\n  row() \x7b return <li />; \x7d\n  render() \x7b\n" ++
    "    if (this.props.off) \x7b return <b />; \x7d\n" ++
    "    return <p title=\x7bthis.props.text\x7d>\x7bthis.state.on && <i />\x7d</p>;\n  \x7d\n\x7d\n"

end Sveltify
