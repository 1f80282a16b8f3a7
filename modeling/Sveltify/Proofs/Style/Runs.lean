import Mathlib.Algebra.Ring.Nat
import Sveltify.Proofs.Style.Nesting
import Sveltify.Proofs.Style.Tally

/-! A machine without a root selector over a whole token sequence. Its rules declare the maximal
runs of consecutive declarations, and their heads are heads of the tokens. -/

namespace Sveltify.Style

open List Flattener Token

namespace Flattener

/-! ### Tokens without their line numbers -/

def takes (m : Flattener) : List Token → Option Flattener
  | [] => some m
  | token :: rest =>
    match m.step 0 token with
    | (m, none) => m.takes rest
    | (_, some _) => none

theorem step_line (m : Flattener) (line : Nat) (token : Token) :
    (m.step line token).1 = (m.step 0 token).1 ∧
      (m.step line token).2.isSome = (m.step 0 token).2.isSome := by
  cases token with
  | blank | «open» head => exact ⟨rfl, rfl⟩
  | close =>
    simp only [step, closeRule]
    split <;> exact ⟨rfl, rfl⟩
  | declaration =>
    simp only [step]
    cases hstack : m.stack with
    | cons => simp [declare_of_open hstack]
    | nil =>
      cases hroot : m.root with
      | none => simp [declare_of_no_root hstack hroot, after]
      | some => simp [declare_of_root hstack hroot]
  | inlineRule => simp [step, inlineRule_eq]

theorem toOption_run (m : Flattener) (tokens : List (Nat × Token)) :
    (m.run tokens).toOption = m.takes (tokens.map Prod.snd) := by
  induction tokens generalizing m with
  | nil => rfl
  | cons token _ ih =>
    obtain ⟨line, token⟩ := token
    obtain ⟨hnext, herror⟩ := m.step_line line token
    rw [run, map_cons, takes]
    cases hstep : m.step line token with
    | mk next error =>
      cases hzero : m.step 0 token with
      | mk next' error' =>
        rw [hstep, hzero] at hnext herror
        obtain rfl : next = next' := hnext
        cases error with
        | none =>
          obtain rfl : error' = none := by simpa using herror
          exact ih next
        | some =>
          cases error' with
          | none => simp at herror
          | some => rfl

variable {m m' : Flattener} {tokens : List Token} {stack : List Frame} {rules : List Rule}
variable {token : Token}

theorem flattenRules_eq_ok {s root} (h : flattenRules s root = .ok rules) :
    ∃ m, (start root).takes (reads [] (Text.lines s)) = some m ∧ m.finish = rules := by
  rw [flattenRules] at h
  rw [← map_snd_ofLines [] 1, ← tokenize, ← toOption_run]
  cases hrun : (start root).run (tokenize s) with
  | error => simp [hrun, Except.map] at h
  | ok m =>
    refine ⟨m, rfl, ?_⟩
    simpa [hrun, Except.map] using h

theorem takes_invariant {P : Flattener → Prop}
    (hstep : ∀ m m' token, token ∈ tokens → P m → m.step 0 token = (m', none) → P m') (hm : P m)
    (htakes : m.takes tokens = some m') : P m' := by
  induction tokens generalizing m with
  | nil =>
    obtain rfl : m = m' := by simpa [takes] using htakes
    exact hm
  | cons token _ ih =>
    rw [takes] at htakes
    split at htakes
    · rename_i next hnext
      exact ih (fun a b t ht => hstep a b t (by simp [ht])) (hstep m next token (by simp) hm hnext)
        htakes
    · cases htakes

theorem Moves.takes {root path run} (h : Moves m token root path run rules) (rest : List Token) :
    ∃ m', m.takes (token :: rest) = m'.takes rest ∧ At root path run m' ∧
      m'.rules = m.rules ++ rules := by
  obtain ⟨m', hstep, hat, hrules⟩ := h 0
  exact ⟨m', by rw [Flattener.takes, hstep], hat, hrules⟩

/-! ### Runs of declarations -/

/-- A run of declarations as a list of one run, or of none if it is empty. -/
def runOf (run : List Text) : List (List Text) :=
  if run.isEmpty then [] else [run]

/-- The runs that a token ends, and the run that it leaves, after a run of declarations. -/
def effect (run : List Text) : Token → List (List Text) × List Text
  | .declaration text => ([], run ++ [Text.trim text])
  | .inlineRule _ body => (runOf run ++ runOf (splitDeclarations body), [])
  | .blank | .open _ | .close => (runOf run, [])

/-- The maximal runs of consecutive declarations of a token sequence, after a run. -/
def cuts (run : List Text) : List Token → List (List Text)
  | [] => runOf run
  | token :: rest => (effect run token).1 ++ cuts (effect run token).2 rest

/-- A machine without a root selector between two tokens. -/
structure Rootless (m : Flattener) : Prop where
  root_eq : m.root = none
  explicit : ∀ frame ∈ m.stack, frame.implicit = false
  tidy : m.Tidy
  segment_eq : m.previousBlank = true → segment m.stack = []

theorem map_declarations_waiting (stack : List Frame) :
    (waiting stack).map Rule.declarations = runOf (segment stack) := by
  cases stack with
  | nil => rfl
  | cons frame =>
    by_cases h : frame.segment = [] <;> simp [waiting, runOf, segment, h]

theorem Rootless.start : (start none).Rootless :=
  ⟨rfl, by simp [Flattener.start], by simp [Tidy, Flattener.start], fun _ => rfl⟩

theorem Rootless.topImplicit_eq (h : m.Rootless) : m.topImplicit = false := by
  unfold topImplicit
  cases hs : m.stack with
  | nil => rfl
  | cons frame => simpa using h.explicit frame (by simp [hs])

theorem Rootless.closeImplicit_eq (h : m.Rootless) : m.closeImplicit = m := by
  simp [closeImplicit, h.topImplicit_eq]

theorem segment_of_empty (h : ∀ frame ∈ stack, frame.segment = []) : segment stack = [] := by
  cases stack with
  | nil => rfl
  | cons frame => exact h frame (by simp)

theorem explicit_of_mem_cleared (h : ∀ frame ∈ stack, frame.implicit = false) :
    ∀ frame ∈ cleared stack, frame.implicit = false := by
  cases stack with
  | nil => simp [cleared]
  | cons => simpa [cleared] using h

/-- A machine whose frames hold nothing, with the rules of another and the run that waited in it. -/
theorem Rootless.of_empty {blank} (h : m.Rootless)
    (hexplicit : ∀ frame ∈ stack, frame.implicit = false)
    (hempty : ∀ frame ∈ stack, frame.segment = []) :
    Rootless { m with stack, rules, previousBlank := blank } :=
  ⟨h.root_eq, hexplicit, fun frame hframe => hempty frame (mem_of_mem_tail hframe),
    fun _ => segment_of_empty hempty⟩

theorem Rootless.parted_eq (h : m.Rootless) :
    m.parted = { m with stack := cleared m.stack, rules := m.rules ++ waiting m.stack } := by
  rw [parted, h.closeImplicit_eq, flush_eq]

theorem Rootless.segment_cleared (h : m.Rootless) :
    ∀ frame ∈ cleared m.stack, frame.segment = [] := fun _ hframe =>
  segment_of_mem_cleared h.tidy hframe

/-- What an accepted token does to a machine without a root selector. -/
inductive Advances (m : Flattener) : Token → Flattener → Prop
  | again : m.previousBlank = true → Advances m .blank { m with previousBlank := true }
  | blank : Advances m .blank
      { m with
        stack := cleared m.stack, rules := m.rules ++ waiting m.stack, previousBlank := true }
  | «open» (head : Text) : Advances m (.open head)
      { m with
        stack := { kind := m.parted.frameKind head } :: cleared m.stack
        rules := m.rules ++ waiting m.stack, previousBlank := false }
  | close : Advances m .close
      { m with
        stack := m.stack.tail, rules := m.rules ++ waiting m.stack, previousBlank := false }
  | declaration {frame : Frame} {outer : List Frame} (text : Text) : m.stack = frame :: outer →
      Advances m (.declaration text)
        { m with
          stack := { frame with segment := frame.segment ++ [Text.trim text] } :: outer
          previousBlank := false }
  | inlineRule (selector body : Text) : Advances m (.inlineRule selector body)
      { m with
        stack := cleared m.stack
        rules := m.rules ++ (waiting m.stack ++
          waiting ({ kind := m.parted.frameKind selector, segment := splitDeclarations body } ::
            cleared m.stack))
        previousBlank := false }

theorem Rootless.advances (h : m.Rootless) (hstep : m.step 0 token = (m', none)) :
    m.Advances token m' := by
  cases token with
  | blank =>
    obtain rfl : { m.blankLine with previousBlank := true } = m' := by
      simpa [step, after] using hstep
    unfold blankLine
    cases hprevious : m.previousBlank with
    | true => exact .again hprevious
    | false =>
      simp only [h.topImplicit_eq, flush_eq]
      exact .blank
  | «open» head =>
    obtain rfl : { m.openRule head with previousBlank := false } = m' := by
      simpa [step, after] using hstep
    have hadvances := Advances.open (m := m) head
    rw [openRule_eq]
    rw [h.parted_eq] at hadvances ⊢
    exact hadvances
  | close =>
    simp only [step, closeRule, h.closeImplicit_eq] at hstep
    split at hstep
    · simp [after] at hstep
    · obtain rfl : { m.pop with previousBlank := false } = m' := by
        simpa [after] using hstep
      rw [pop_eq]
      exact .close
  | declaration text =>
    cases hs : m.stack with
    | nil => simp [step, declare_of_no_root hs h.root_eq, after] at hstep
    | cons =>
      have hadvances := Advances.declaration text hs
      simp only [step, declare_of_open hs, after, Prod.mk.injEq, and_true] at hstep
      rwa [hstep] at hadvances
  | inlineRule selector body =>
    obtain rfl : { (m.inlineRule selector body 0).1 with previousBlank := false } = m' := by
      simpa [step, after, inlineRule_eq] using hstep
    have hadvances := Advances.inlineRule (m := m) selector body
    rw [inlineRule_eq]
    rw [h.parted_eq] at hadvances ⊢
    simpa only [append_assoc] using hadvances

/-- The rules that an accepted token adds declare the runs that it ends. -/
theorem Rootless.step (h : m.Rootless) (hstep : m.step 0 token = (m', none)) :
    m'.Rootless ∧
      (∃ added, m'.rules = m.rules ++ added ∧
        added.map Rule.declarations = (effect (segment m.stack) token).1) ∧
      segment m'.stack = (effect (segment m.stack) token).2 := by
  have hcleared := explicit_of_mem_cleared h.explicit
  have hempty := h.segment_cleared
  have hwaiting := map_declarations_waiting m.stack
  cases h.advances hstep with
  | again hprevious =>
    have hsegment := h.segment_eq hprevious
    refine ⟨⟨h.root_eq, h.explicit, h.tidy, fun _ => hsegment⟩, ⟨[], ?_⟩, hsegment⟩
    simp [effect, runOf, hsegment]
  | blank => exact ⟨h.of_empty hcleared hempty, ⟨_, rfl, hwaiting⟩, segment_of_empty hempty⟩
  | «open» head =>
    exact ⟨h.of_empty (by simpa using hcleared) (by simpa using hempty), ⟨_, rfl, hwaiting⟩, rfl⟩
  | close =>
    have htail : ∀ frame ∈ m.stack.tail, frame.implicit = false := fun frame hframe =>
      h.explicit frame (mem_of_mem_tail hframe)
    exact ⟨h.of_empty htail h.tidy, ⟨_, rfl, hwaiting⟩, segment_of_empty h.tidy⟩
  | @declaration _ _ _ hs =>
    have htidy := h.tidy
    have hexplicit := h.explicit
    unfold Tidy at htidy
    rw [hs] at htidy hexplicit
    refine ⟨⟨h.root_eq, by simpa using hexplicit, htidy, by simp⟩, ⟨[], by simp [effect]⟩, ?_⟩
    rw [hs]
    rfl
  | inlineRule =>
    refine ⟨h.of_empty hcleared hempty, ⟨_, rfl, ?_⟩, segment_of_empty hempty⟩
    rw [map_append, hwaiting, map_declarations_waiting]
    rfl

/-- The rules of a machine without a root selector declare the maximal runs of the tokens. -/
theorem Rootless.map_finish (h : m.Rootless) (htakes : m.takes tokens = some m') :
    m'.finish.map Rule.declarations =
      m.rules.map Rule.declarations ++ cuts (segment m.stack) tokens := by
  induction tokens generalizing m with
  | nil =>
    obtain rfl : m = m' := by simpa [takes] using htakes
    rw [finish_eq h.tidy, map_append, map_declarations_waiting, cuts]
  | cons _ _ ih =>
    rw [takes] at htakes
    split at htakes
    · rename_i next hnext
      obtain ⟨hrootless, ⟨_, hrules, hadded⟩, hsegment⟩ := h.step hnext
      rw [ih hrootless htakes, hrules, map_append, hadded, hsegment, cuts, append_assoc]
    · cases htakes

theorem Rootless.keeps_rules (h : m.Rootless) (htakes : m.takes tokens = some m') :
    m.rules <+: m'.finish := by
  obtain ⟨hrootless, hkept⟩ := takes_invariant (P := fun x => x.Rootless ∧ m.rules <+: x.rules)
    (fun a b token _ ha hstep => by
      obtain ⟨hb, ⟨_, hrules, -⟩, -⟩ := ha.1.step hstep
      exact ⟨hb, hrules ▸ ha.2.trans (prefix_append _ _)⟩) ⟨h, prefix_rfl⟩ htakes
  rw [finish_eq hrootless.tidy]
  exact hkept.trans (prefix_append _ _)

theorem flatten_cuts (run : List Text) (tokens : List Token) :
    (cuts run tokens).flatten = run ++ tokens.flatMap texts := by
  have hrun : ∀ r : List Text, (runOf r).flatten = r := by
    intro r
    unfold runOf
    split
    · simp_all
    · simp
  induction tokens generalizing run with
  | nil => simp [cuts, hrun]
  | cons token _ ih =>
    rw [cuts, flatten_append, ih]
    cases token <;> simp [effect, texts, hrun]

/-- The declarations of a run that end with a comma and are not its last. -/
def commas (run : List Text) : Nat :=
  run.dropLast.countP (endsIn ',')

theorem commas_concat (run : List Text) (text : Text) :
    commas (run ++ [text]) = commas run + (run.getLast?.any (endsIn ',')).toNat := by
  unfold commas
  rcases eq_nil_or_concat run with rfl | ⟨_, last, rfl⟩
  · rfl
  · cases h : endsIn ',' last <;> simp [h]

theorem commas_splitDeclarations (t : Text) : commas (splitDeclarations t) = 0 := by
  unfold commas
  rw [countP_eq_zero]
  intro d hd
  simp [endsIn_of_mem_dropLast (show ',' ≠ ';' by decide) hd]

theorem sum_commas_cuts (run : List Text) (tokens : List Token) :
    ((cuts run tokens).map commas).sum =
      commas run + commaPairs (run.getLast?.any (endsIn ',')) tokens := by
  have hrun : ∀ r : List Text, ((runOf r).map commas).sum = commas r := by
    intro r
    cases r <;> simp [runOf, commas]
  have hnil : commas [] = 0 := rfl
  induction tokens generalizing run with
  | nil => simp [cuts, hrun, commaPairs]
  | cons token _ ih =>
    rw [cuts, map_append, sum_append, ih]
    cases token with
    | declaration =>
      simp only [effect, commas_concat, commaPairs]
      simp
      omega
    | inlineRule =>
      simp [effect, hrun, commas_splitDeclarations, commaPairs, hnil]
    | blank | «open» | close => simp [effect, hrun, commaPairs, hnil]

/-! ### Heads of frames and rules -/

/-- The preludes of a kind satisfy `P`, and its selector alternatives satisfy `Q`. -/
def KindHolds (P Q : Text → Prop) : Frame.Kind → Prop
  | .selector texts => ∀ text ∈ texts, Q text
  | .atRule text => P text

/-- The conditions of a rule satisfy `P`, and its selector does so or joins texts with `Q`. -/
def RuleHolds (P Q : Text → Prop) (rule : Rule) : Prop :=
  (∀ text ∈ rule.conditions, P text) ∧
    (P rule.selector ∨
      ∃ texts, (∀ text ∈ texts, Q text) ∧ rule.selector = Text.joinWith [',', ' '] texts)

/-- All heads of a machine's frames and rules satisfy `P` or `Q`. -/
structure Grounded (P Q : Text → Prop) (m : Flattener) : Prop where
  frames : ∀ frame ∈ m.stack, KindHolds P Q frame.kind
  rules : ∀ rule ∈ m.rules, RuleHolds P Q rule

def HeadHolds (P Q : Text → Prop) (head : Text) : Prop :=
  (isAtRule head = true → P head) ∧
    (isAtRule head = false → ∀ parents : Option (List Text),
      (∀ texts, parents = some texts → ∀ text ∈ texts, Q text) →
        ∀ text ∈ joinSelector parents head, Q text)

section Grounded

variable {P Q : Text → Prop} {m : Flattener}

variable {stack : List Frame}

theorem conditions_hold (h : ∀ frame ∈ stack, KindHolds P Q frame.kind) :
    ∀ text ∈ Frame.conditions stack, P text := by
  intro text htext
  obtain ⟨frame, hframe, hprelude⟩ := mem_filterMap.mp (mem_reverse.mp htext)
  have hkind := h frame hframe
  unfold Frame.prelude? at hprelude
  split at hprelude
  · cases hprelude
  · rename_i prelude hat
    obtain rfl : prelude = text := by simpa using hprelude
    simpa [hat, KindHolds] using hkind

theorem parents_hold (h : ∀ frame ∈ stack, KindHolds P Q frame.kind) {texts}
    (hparents : stack.findSome? Frame.alternatives? = some texts) : ∀ text ∈ texts, Q text := by
  obtain ⟨frame, hframe, hsome⟩ := exists_of_findSome?_eq_some hparents
  have hkind := h frame hframe
  unfold Frame.alternatives? at hsome
  split at hsome
  · rename_i alternatives hsel
    obtain rfl : alternatives = texts := by simpa using hsome
    simpa [hsel, KindHolds] using hkind
  · cases hsome

theorem rule_holds {outer} {frame : Frame}
    (h : ∀ f ∈ frame :: outer, KindHolds P Q f.kind) : RuleHolds P Q (frame.rule outer) := by
  rw [rule_eq]
  cases hparents : (frame :: outer).findSome? Frame.alternatives? with
  | some texts => exact ⟨conditions_hold h, .inr ⟨texts, parents_hold h hparents, rfl⟩⟩
  | none =>
    refine ⟨conditions_hold fun f hf => h f (by simp [hf]), .inl ?_⟩
    have hkind := h frame (by simp)
    have hnone : frame.alternatives? = none :=
      findSome?_eq_none_iff.mp hparents frame (by simp)
    unfold Frame.alternatives? at hnone
    split at hnone
    · cases hnone
    · rename_i prelude hat
      simpa [Frame.head, hat, KindHolds] using hkind

theorem waiting_hold (h : ∀ frame ∈ stack, KindHolds P Q frame.kind) :
    ∀ rule ∈ waiting stack, RuleHolds P Q rule := by
  cases stack with
  | nil => simp [waiting]
  | cons frame outer =>
    intro rule hrule
    by_cases hsegment : frame.segment = []
    · simp [waiting, hsegment] at hrule
    · obtain rfl : rule = frame.rule outer := by simpa [waiting, hsegment] using hrule
      exact rule_holds h

theorem cleared_hold (h : ∀ frame ∈ stack, KindHolds P Q frame.kind) :
    ∀ frame ∈ cleared stack, KindHolds P Q frame.kind := by
  cases stack with
  | nil => simp [cleared]
  | cons => simpa [cleared] using h

theorem Grounded.rules_waiting (h : m.Grounded P Q) :
    ∀ rule ∈ m.rules ++ waiting m.stack, RuleHolds P Q rule := by
  intro rule hrule
  rcases mem_append.mp hrule with hrule | hrule
  · exact h.rules rule hrule
  · exact waiting_hold h.frames rule hrule

theorem frameKind_holds {head} (hhead : HeadHolds P Q head)
    (h : ∀ frame ∈ m.stack, KindHolds P Q frame.kind) : KindHolds P Q (m.frameKind head) := by
  unfold frameKind
  split
  · rename_i hat
    exact hhead.1 hat
  · rename_i hat
    exact hhead.2 (by simpa [isAtRule] using hat) m.parents fun texts htexts =>
      parents_hold h htexts

theorem Grounded.step {m' token} (h : m.Grounded P Q)
    (hrootless : m.Rootless) (hheads : ∀ head ∈ token.heads, HeadHolds P Q head)
    (hstep : m.step 0 token = (m', none)) : m'.Grounded P Q := by
  have hcleared := cleared_hold h.frames
  have hwaiting := h.rules_waiting
  have hkind : ∀ head, HeadHolds P Q head → KindHolds P Q (m.parted.frameKind head) := by
    intro head hhead
    refine frameKind_holds hhead ?_
    rw [hrootless.parted_eq]
    exact hcleared
  cases hrootless.advances hstep with
  | again => exact ⟨h.frames, h.rules⟩
  | blank => exact ⟨hcleared, hwaiting⟩
  | «open» head =>
    refine ⟨?_, hwaiting⟩
    simp only [mem_cons]
    rintro frame (rfl | hframe)
    · exact hkind head (hheads head (by simp [heads]))
    · exact hcleared frame hframe
  | close =>
    exact ⟨fun frame hframe => h.frames frame (mem_of_mem_tail hframe), hwaiting⟩
  | declaration _ hs =>
    have hframes := h.frames
    rw [hs] at hframes
    exact ⟨by simpa using hframes, h.rules⟩
  | inlineRule selector =>
    refine ⟨hcleared, fun rule hrule => ?_⟩
    rw [← append_assoc] at hrule
    rcases mem_append.mp hrule with hrule | hrule
    · exact hwaiting rule hrule
    · refine waiting_hold (fun frame hframe => ?_) rule hrule
      rcases mem_cons.mp hframe with rfl | hframe
      · exact hkind selector (hheads selector (by simp [heads]))
      · exact hcleared frame hframe

theorem finish_holds {tokens m'} (htakes : (Flattener.start none).takes tokens = some m')
    (hheads : ∀ token ∈ tokens, ∀ head ∈ token.heads, HeadHolds P Q head) :
    ∀ rule ∈ m'.finish, RuleHolds P Q rule := by
  have hstart : (Flattener.start none).Rootless ∧ (Flattener.start none).Grounded P Q :=
    ⟨Rootless.start, ⟨by simp [Flattener.start], by simp [Flattener.start]⟩⟩
  have hinvariant : m'.Rootless ∧ m'.Grounded P Q :=
    takes_invariant (P := fun m => m.Rootless ∧ m.Grounded P Q)
      (fun a b token htoken hab hstep =>
        ⟨(hab.1.step hstep).1, hab.2.step hab.1 (hheads token htoken) hstep⟩) hstart htakes
  rw [finish_eq hinvariant.1.tidy]
  exact hinvariant.2.rules_waiting

end Grounded

end Flattener

end Sveltify.Style
