import Sveltify.Proofs.Style.Flattener

/-! The meaning of nested rules by recursion on their bodies, and the flattening machine against it.
A machine that has read part of a body stands at the path of heads around that body, with the run of
declarations that it has not yet turned into a rule; every token sequence of a body takes it to the
rules that the body means there. -/

namespace Sveltify.Style

open List hiding head
open Text (trim)
open Frame Flattener

/-- The body of a rule, or a whole sheet: declarations, blank lines and rules, in order. -/
inductive Body where
  | empty
  | declaration (text : Text) (rest : Body)
  | blank (rest : Body)
  | rule (head : Text) (inner rest : Body)
deriving DecidableEq, Repr

def isAtRule (head : Text) : Bool :=
  head.head? == some '@'

/-! ### Paths -/

namespace Path

/-- The flat selector alternatives below a path of heads, innermost first: its selectors, each
joined with the ones around it. -/
def alternatives (path : List Text) : Option (List Text) :=
  (path.filter (!isAtRule ·)).foldr (fun head outer => some (joinSelector outer head)) none

/-- The flat rule of a run of declarations at a path. With no selector on the path, the innermost
at-rule takes the selector's place; at top level it is the root selector. -/
def rule (root : Option Text) (path : List Text) (run : List Text) : Rule :=
  match alternatives path, path.filter isAtRule with
  | some texts, preludes => ⟨Text.joinWith [',', ' '] texts, run, preludes.reverse⟩
  | none, innermost :: preludes => ⟨innermost, run, preludes.reverse⟩
  | none, [] => ⟨root.getD [], run, []⟩

def rules (root : Option Text) (path : List Text) (run : List Text) : List Rule :=
  if run.isEmpty then [] else [rule root path run]

end Path

/-! ### Bodies -/

namespace Body

def run : Body → List Text
  | .declaration text rest => trim text :: rest.run
  | .empty | .blank _ | .rule .. => []

/-- The flat rules of a body at a path: one for each maximal run of consecutive declarations, in
order. `inRun` says that a declaration stands right before the body. -/
def rules (root : Option Text) (path : List Text) (inRun : Bool) : Body → List Rule
  | .empty => []
  | .declaration text rest =>
    if inRun then rest.rules root path true
    else Path.rule root path (trim text :: rest.run) :: rest.rules root path true
  | .blank rest => rest.rules root path false
  | .rule head inner rest => inner.rules root (head :: path) false ++ rest.rules root path false

def bare : Body → Bool
  | .empty => false
  | .declaration .. => true
  | .blank rest => rest.bare
  | .rule _ _ rest => rest.bare

def ofTexts (texts : List Text) : Body :=
  texts.foldr .declaration .empty

def rulesAfter (root : Option Text) (path : List Text) (before : List Text) (body : Body) :
    List Rule :=
  if before.isEmpty then body.rules root path false
  else Path.rule root path (before ++ body.run) :: body.rules root path true

/-- The token sequences of a body, with any line numbers. A rule of declarations alone may also
stand on one line. -/
inductive Spells : Body → List (Nat × Token) → Prop
  | empty : Spells .empty []
  | declaration {text : Text} {rest : Body} {tokens : List (Nat × Token)} (n : Nat) :
      Spells rest tokens → Spells (.declaration text rest) ((n, .declaration text) :: tokens)
  | blank {rest : Body} {tokens : List (Nat × Token)} (n : Nat) :
      Spells rest tokens → Spells (.blank rest) ((n, .blank) :: tokens)
  | rule {head : Text} {inner rest : Body} {inside tokens : List (Nat × Token)} (n k : Nat) :
      Spells inner inside → Spells rest tokens →
        Spells (.rule head inner rest) ((n, .open head) :: inside ++ (k, .close) :: tokens)
  | inlineRule {head text : Text} {texts : List Text} {rest : Body} {tokens : List (Nat × Token)}
      (n : Nat) : texts.map trim = splitDeclarations text → Spells rest tokens →
        Spells (.rule head (ofTexts texts) rest) ((n, .inlineRule head text) :: tokens)

theorem run_ofTexts (texts : List Text) : (ofTexts texts).run = texts.map trim := by
  induction texts with
  | nil => rfl
  | cons _ _ ih => simpa [ofTexts, run] using ih

variable (root : Option Text) (path : List Text)

theorem rules_ofTexts_true (texts : List Text) :
    (ofTexts texts).rules root path true = [] := by
  induction texts with
  | nil => rfl
  | cons _ _ ih => simpa [ofTexts, rules] using ih

theorem rules_ofTexts (texts : List Text) :
    (ofTexts texts).rules root path false = Path.rules root path (texts.map trim) := by
  cases texts with
  | nil => rfl
  | cons _ texts =>
    have hrun := run_ofTexts texts
    have hrules := rules_ofTexts_true root path texts
    unfold ofTexts at hrun hrules
    simp [ofTexts, rules, Path.rules, hrun, hrules]

/-! One equation for each way in which a run goes on or ends. -/

@[simp] theorem rulesAfter_nil (body : Body) :
    body.rulesAfter root path [] = body.rules root path false :=
  rfl

theorem rulesAfter_empty (before : List Text) :
    Body.empty.rulesAfter root path before = Path.rules root path before := by
  simp [rulesAfter, Path.rules, rules, run]

theorem rulesAfter_declaration (before : List Text) (text : Text)
    (rest : Body) : (Body.declaration text rest).rulesAfter root path before =
      rest.rulesAfter root path (before ++ [trim text]) := by
  cases before with
  | nil => simp [rulesAfter, rules]
  | cons => simp [rulesAfter, rules, run]

theorem rulesAfter_blank (before : List Text) (rest : Body) :
    (Body.blank rest).rulesAfter root path before =
      Path.rules root path before ++ rest.rules root path false := by
  cases before with
  | nil => simp [rules, Path.rules]
  | cons => simp [rulesAfter, rules, run, Path.rules]

theorem rulesAfter_rule (before : List Text) (head : Text)
    (inner rest : Body) : (Body.rule head inner rest).rulesAfter root path before =
      Path.rules root path before ++
        (inner.rules root (head :: path) false ++ rest.rules root path false) := by
  cases before with
  | nil => simp [rules, Path.rules]
  | cons => simp [rulesAfter, rules, run, Path.rules]

end Body

/-! ### The machine at a path -/

namespace Flattener

def frameOf (head : Text) (outer : List Text) : Frame :=
  { kind := if isAtRule head then .atRule head
            else .selector (joinSelector (Path.alternatives outer) head) }

def frames : List Text → List Frame
  | [] => []
  | head :: outer => frameOf head outer :: frames outer

/-- The frames of a path with a run of declarations in the innermost one; at top level the run
waits in an implicit frame. -/
def place (root : Option Text) (run : List Text) : List Text → List Frame
  | [] =>
    if run.isEmpty then []
    else [{ kind := .selector [root.getD []], segment := run, implicit := true }]
  | head :: outer => { frameOf head outer with segment := run } :: frames outer

/-- A machine that stands at a path with a run of declarations. -/
structure At (root : Option Text) (path run : List Text) (m : Flattener) : Prop where
  root_eq : m.root = root
  stack_eq : m.stack = place root run path
  -- a second blank line changes nothing only because the first one ended the run
  run_eq_nil : m.previousBlank = true → run = []

@[simp] theorem place_nil (root : Option Text) (path : List Text) :
    place root [] path = frames path := by
  cases path <;> rfl

variable {root : Option Text} {path run : List Text} {tokens : List (Nat × Token)} {m : Flattener}

theorem segment_of_mem_frames {frame} (h : frame ∈ frames path) : frame.segment = [] := by
  induction path with
  | nil => simp [frames] at h
  | cons _ _ ih =>
    rcases mem_cons.mp h with rfl | h
    · rfl
    · exact ih h

theorem tail_place {frame} (h : frame ∈ (place root run path).tail) :
    frame.segment = [] := by
  cases path with
  | nil =>
    cases run <;> simp [place] at h
  | cons => exact segment_of_mem_frames h

theorem parents_frames (path : List Text) :
    (frames path).findSome? alternatives? = Path.alternatives path := by
  induction path with
  | nil => rfl
  | cons head _ ih =>
    rw [frames, findSome?_cons, ih]
    cases hat : isAtRule head with
    | true => simp [frameOf, alternatives?, hat, Path.alternatives]
    | false => simp [frameOf, alternatives?, hat, Path.alternatives]

theorem conditions_frames (path : List Text) :
    conditions (frames path) = (path.filter isAtRule).reverse := by
  unfold conditions
  congr 1
  induction path with
  | nil => rfl
  | cons head _ ih =>
    rw [frames, filterMap_cons, ih]
    cases hat : isAtRule head with
    | true => simp [frameOf, prelude?, hat]
    | false => simp [frameOf, prelude?, hat]

theorem find_alternatives (stack : List Frame) :
    (stack.find? (·.alternatives?.isSome)).map Frame.head =
      (stack.findSome? alternatives?).map (Text.joinWith [',', ' ']) := by
  induction stack with
  | nil => rfl
  | cons frame _ ih =>
    obtain ⟨kind, _, _⟩ := frame
    cases kind with
    | selector => rfl
    | atRule => exact ih

theorem rule_eq (frame : Frame) (outer : List Frame) :
    frame.rule outer =
      match (frame :: outer).findSome? alternatives? with
      | some texts =>
        ⟨Text.joinWith [',', ' '] texts, frame.segment, conditions (frame :: outer)⟩
      | none => ⟨frame.head, frame.segment, conditions outer⟩ := by
  have hfind := find_alternatives (frame :: outer)
  unfold Frame.rule
  cases hown : (frame :: outer).find? (·.alternatives?.isSome) with
  | none =>
    rw [hown, Option.map_none, eq_comm, Option.map_eq_none_iff] at hfind
    rw [hfind]
  | some =>
    rw [hown, Option.map_some, eq_comm, Option.map_eq_some_iff] at hfind
    obtain ⟨_, htexts, hhead⟩ := hfind
    rw [htexts]
    simp [hhead]

theorem rule_frameOf (root : Option Text) (run : List Text) (head : Text) (outer : List Text) :
    Frame.rule { frameOf head outer with segment := run } (frames outer) =
      Path.rule root (head :: outer) run := by
  have hparents : ({ frameOf head outer with segment := run } :: frames outer).findSome?
      alternatives? = Path.alternatives (head :: outer) := parents_frames (head :: outer)
  have hconditions : conditions ({ frameOf head outer with segment := run } :: frames outer) =
      ((head :: outer).filter isAtRule).reverse := conditions_frames (head :: outer)
  rw [rule_eq, hparents, hconditions, conditions_frames, Path.rule]
  cases hat : isAtRule head with
  | false => simp [Path.alternatives, hat]
  | true =>
    cases Path.alternatives (head :: outer) with
    | some => rfl
    | none => simp [frameOf, Frame.head, hat]

theorem waiting_place (root : Option Text) (run path : List Text) :
    waiting (place root run path) = Path.rules root path run := by
  cases run with
  | nil => rw [place_nil, waiting_of_empty fun _ => segment_of_mem_frames]; rfl
  | cons =>
    cases path with
    | nil => rfl
    | cons =>
      simp [place, waiting, Path.rules, rule_frameOf root]

theorem At.tidy (h : At root path run m) : m.Tidy := by
  unfold Tidy
  rw [h.stack_eq]
  exact fun _ => tail_place

theorem At.finish (h : At root path run m) : m.finish = m.rules ++ Path.rules root path run := by
  rw [finish_eq h.tidy, h.stack_eq, waiting_place]

theorem At.start (root : Option Text) : At root [] [] (start root) :=
  ⟨rfl, rfl, fun _ => rfl⟩

/-! ### One token -/

section Step

variable {root : Option Text} {path run : List Text} {m : Flattener}

/-- What a machine that stands at a path leaves when its run becomes a rule. -/
def settled (root : Option Text) (path run : List Text) (m : Flattener) : Flattener :=
  { m with stack := frames path, rules := m.rules ++ Path.rules root path run }

theorem At.parted (h : At root path run m) : m.parted = settled root path run m := by
  have hwaiting := waiting_place root run path
  unfold Flattener.parted Flattener.closeImplicit topImplicit settled
  cases path with
  | cons =>
    simp [place, frameOf, flush_eq, h.stack_eq, ← hwaiting, cleared, frames]
  | nil =>
    cases run with
    | nil => simp [frames, flush_eq, h.stack_eq, cleared, waiting, Path.rules]
    | cons =>
      simp [place, flush_eq, pop_eq, h.stack_eq, cleared, waiting, frames, ← hwaiting]

/-- A token moves the machine to another path and run and adds the given rules. -/
def Moves (m : Flattener) (token : Token) (root : Option Text) (path run : List Text)
    (rules : List Rule) : Prop :=
  ∀ line, ∃ m', m.step line token = (m', none) ∧ At root path run m' ∧ m'.rules = m.rules ++ rules

theorem frameKind_settled (root : Option Text) (path run : List Text) (m : Flattener)
    (head : Text) : (settled root path run m).frameKind head = (frameOf head path).kind := by
  simp only [frameKind, parents, settled, parents_frames]
  rfl

theorem At.moves_open (h : At root path run m) (head : Text) :
    Moves m (.open head) root (head :: path) [] (Path.rules root path run) := by
  intro _
  simp only [step, openRule_eq, h.parted, frameKind_settled]
  exact ⟨_, rfl, ⟨h.root_eq, rfl, fun _ => rfl⟩, rfl⟩

theorem At.moves_close {head} (h : At root (head :: path) run m) :
    Moves m .close root path [] (Path.rules root (head :: path) run) := by
  intro line
  have hstack := h.stack_eq
  have hwaiting := waiting_place root run (head :: path)
  simp only [place] at hstack hwaiting
  have hclose : m.closeRule line = (m.pop, none) := by
    simp [closeRule, closeImplicit, topImplicit, hstack, frameOf]
  rw [step, hclose, pop_eq, hstack, hwaiting]
  exact ⟨_, rfl, ⟨h.root_eq, by simp, fun _ => rfl⟩, rfl⟩

theorem At.moves_declaration (h : At root path run m) (text : Text)
    (hroot : root = none → path ≠ []) :
    Moves m (.declaration text) root path (run ++ [trim text]) [] := by
  intro _
  have hstack := h.stack_eq
  rw [step]
  cases path with
  | cons =>
    rw [declare_of_open hstack]
    exact ⟨_, rfl, ⟨h.root_eq, rfl, nofun⟩, (append_nil _).symm⟩
  | nil =>
    cases run with
    | cons =>
      rw [declare_of_open hstack]
      exact ⟨_, rfl, ⟨h.root_eq, rfl, nofun⟩, (append_nil _).symm⟩
    | nil =>
      obtain ⟨selector, rfl⟩ : ∃ selector, root = some selector :=
        Option.ne_none_iff_exists'.mp fun hnone => hroot hnone rfl
      rw [declare_of_root hstack h.root_eq]
      exact ⟨_, rfl, ⟨h.root_eq, rfl, nofun⟩, (append_nil _).symm⟩

theorem At.moves_blank (h : At root path run m) :
    Moves m .blank root path [] (Path.rules root path run) := by
  intro _
  have hblank : m.blankLine = settled root path run m := by
    unfold blankLine
    cases hprevious : m.previousBlank with
    | true =>
      obtain rfl := h.run_eq_nil hprevious
      have hstack : m.stack = frames path := by rw [h.stack_eq, place_nil]
      obtain ⟨stack, rules, _, _⟩ := m
      subst hstack
      simp [settled, Path.rules]
    | false =>
      rw [← h.parted, Flattener.parted, closeImplicit]
      cases himplicit : m.topImplicit with
      | false => rfl
      | true =>
        -- only the frame at top level is implicit, and below it there is none to flush
        have htail : m.stack.tail = [] := by
          rw [topImplicit, h.stack_eq] at himplicit
          rw [h.stack_eq]
          cases path with
          | nil => cases run <;> rfl
          | cons => simp [place, frameOf] at himplicit
        simp [flush_eq, pop_eq, htail, cleared, waiting]
  rw [step, hblank]
  exact ⟨_, rfl, ⟨h.root_eq, by simp [settled], fun _ => rfl⟩, rfl⟩

theorem At.moves_inlineRule (h : At root path run m) (head text : Text) :
    Moves m (.inlineRule head text) root path []
      (Path.rules root path run ++ Path.rules root (head :: path) (splitDeclarations text)) := by
  intro _
  have hwaiting := waiting_place root (splitDeclarations text) (head :: path)
  rw [step, inlineRule_eq, h.parted, frameKind_settled]
  refine ⟨_, rfl, ⟨h.root_eq, by simp [settled], fun _ => rfl⟩, ?_⟩
  simp only [settled, append_assoc]
  rw [← hwaiting]
  rfl

end Step

/-! ### A whole body -/

theorem run_cons_of_step {m' line token}
    (h : m.step line token = (m', none)) (rest : List (Nat × Token)) :
    m.run ((line, token) :: rest) = m'.run rest := by
  rw [Flattener.run, h]

theorem run_append_of_ok {m'} (h : m.run tokens = .ok m') (rest : List (Nat × Token)) :
    m.run (tokens ++ rest) = m'.run rest := by
  induction tokens generalizing m with
  | nil =>
    obtain rfl : m = m' := by simpa [Flattener.run] using h
    rfl
  | cons token _ ih =>
    obtain ⟨line, token⟩ := token
    rw [Flattener.run] at h
    rw [cons_append, Flattener.run]
    cases hstep : m.step line token with
    | mk _ error =>
      rw [hstep] at h
      cases error with
      | none => exact ih h
      | some => cases h

/-- A machine that stands at a path takes any token sequence of a body, and then has the rules that
the body means at that path. -/
theorem At.run_spells {body : Body} (hspells : body.Spells tokens) (h : At root path run m)
    (hbare : root = none → path = [] → body.bare = false) :
    ∃ m' run', m.run tokens = .ok m' ∧ At root path run' m' ∧
      m'.rules ++ Path.rules root path run' = m.rules ++ body.rulesAfter root path run := by
  -- the run that waits in the machine changes with every token, so the rules are those after a run
  induction hspells generalizing path run m with
  | empty => exact ⟨m, run, rfl, h, by rw [Body.rulesAfter_empty]⟩
  | @declaration text rest tokens n _ ih =>
    have hroot : root = none → path ≠ [] := fun hnone hpath => by
      simpa [Body.bare] using hbare hnone hpath
    obtain ⟨next, hstep, hnext, hrules⟩ := h.moves_declaration text hroot n
    obtain ⟨m', run', hrun, hat, hrest⟩ := ih hnext fun hnone hpath => absurd hpath (hroot hnone)
    refine ⟨m', run', by rw [run_cons_of_step hstep, hrun], hat, ?_⟩
    rw [hrest, hrules, Body.rulesAfter_declaration, append_nil]
  | @blank rest tokens n _ ih =>
    obtain ⟨next, hstep, hnext, hrules⟩ := h.moves_blank n
    obtain ⟨m', run', hrun, hat, hrest⟩ := ih hnext hbare
    refine ⟨m', run', by rw [run_cons_of_step hstep, hrun], hat, ?_⟩
    rw [hrest, hrules, Body.rulesAfter_blank, Body.rulesAfter_nil, append_assoc]
  | @rule head _ rest _ tokens n k _ _ ihinner ihrest =>
    obtain ⟨_, hopen, hopened, hbefore⟩ := h.moves_open head n
    obtain ⟨_, _, hinside, hlast, hinner⟩ := ihinner hopened nofun
    obtain ⟨_, hclose, hclosed, hafter⟩ := hlast.moves_close k
    obtain ⟨m', run', hrun, hat, hrest⟩ := ihrest hclosed hbare
    refine ⟨m', run', ?_, hat, ?_⟩
    · rw [cons_append, run_cons_of_step hopen, run_append_of_ok hinside,
        run_cons_of_step hclose, hrun]
    · rw [hrest, hafter, hinner, hbefore, Body.rulesAfter_rule]
      simp
  | @inlineRule head text _ _ _ n htexts _ ih =>
    obtain ⟨_, hstep, hnext, hrules⟩ := h.moves_inlineRule head text n
    obtain ⟨m', run', hrun, hat, hrest⟩ := ih hnext hbare
    refine ⟨m', run', by rw [run_cons_of_step hstep, hrun], hat, ?_⟩
    rw [hrest, hrules, Body.rulesAfter_rule, Body.rules_ofTexts, htexts]
    simp

theorem run_finish_of_spells {body : Body} (hspells : body.Spells tokens)
    (hbare : root = none → body.bare = false) :
    ((start root).run tokens).map finish = .ok (body.rules root [] false) := by
  obtain ⟨m, _, hrun, hat, hrules⟩ :=
    At.run_spells hspells (.start root) fun hnone _ => hbare hnone
  rw [hrun]
  simp only [Except.map, hat.finish, hrules]
  rfl

theorem exists_spells (body : Body) : ∃ tokens, body.Spells tokens := by
  induction body with
  | empty => exact ⟨_, .empty⟩
  | declaration _ rest ih =>
    obtain ⟨tokens, htokens⟩ := ih
    exact ⟨_, .declaration 0 htokens⟩
  | blank rest ih =>
    obtain ⟨tokens, htokens⟩ := ih
    exact ⟨_, .blank 0 htokens⟩
  | rule _ _ _ ihinner ihrest =>
    obtain ⟨_, hinside⟩ := ihinner
    obtain ⟨_, htokens⟩ := ihrest
    exact ⟨_, .rule 0 0 hinside htokens⟩

/-- The machine flattens nested rules to their recursive meaning: every token sequence of a body
succeeds and gives the body's rules. With no root selector the body has no bare declarations. -/
theorem flatten_nested_body (root : Option Text) (body : Body)
    (hbare : root = none → body.bare = false) :
    (∃ tokens, body.Spells tokens) ∧
      ∀ tokens, body.Spells tokens →
        ((start root).run tokens).map finish = .ok (body.rules root [] false) :=
  ⟨exists_spells body, fun _ hspells => run_finish_of_spells hspells hbare⟩

/-- A selector inside an at-rule inside a selector, resumed after a rule on one line, with no root
selector. -/
theorem flatten_nested_body_resumed :
    ((start none).run
        [(1, .open ['a']), (2, .open ['@', 'm']), (3, .declaration [' ', 'x']), (4, .blank),
          (5, .open ['&', 'b', ',', 'c']), (6, .declaration ['y']), (6, .declaration ['z', ';']),
          (7, .close), (8, .inlineRule ['d'] ['u', ';', 'v']), (9, .declaration ['w']),
          (10, .close), (11, .close)]).map finish =
      .ok [⟨['a'], [['x']], [['@', 'm']]⟩,
        ⟨['a', 'b', ',', ' ', 'a', ' ', 'c'], [['y'], ['z', ';']], [['@', 'm']]⟩,
        ⟨['a', ' ', 'd'], [['u', ';'], ['v']], [['@', 'm']]⟩,
        ⟨['a'], [['w']], [['@', 'm']]⟩] :=
  (flatten_nested_body none
    (.rule ['a'] (.rule ['@', 'm'] (.declaration [' ', 'x'] (.blank
      (.rule ['&', 'b', ',', 'c'] (.declaration ['y'] (.declaration ['z', ';'] .empty))
        (.rule ['d'] (.ofTexts [['u', ';'], ['v']]) (.declaration ['w'] .empty))))) .empty) .empty)
    (by decide)).2 _
    (.rule 1 11 (.rule 2 10 (.declaration 3 (.blank 4
      (.rule 5 7 (.declaration 6 (.declaration 6 .empty))
        (.inlineRule 8 (by decide) (.declaration 9 .empty))))) .empty) .empty)

end Flattener

end Sveltify.Style
