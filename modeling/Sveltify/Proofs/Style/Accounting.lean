import Sveltify.Proofs.Style.Flattener
import Sveltify.Proofs.Style.Token

/-! The declarations of a flattening machine under any sequence of calls, failed ones included. What
the machine would finish with declares the texts that it has accepted, each once and in order. -/

namespace Sveltify.Style

open List Flattener

namespace Flattener

/-- A call to a machine: one of its operations, or one token of a line. -/
inductive Call where
  | openRule (head : Text)
  | closeRule (line : Nat)
  | declare (text : Text) (line : Nat)
  | blankLine
  | step (line : Nat) (token : Token)
deriving DecidableEq, Repr

def Call.texts : Call → List Text
  | .declare text _ => [Text.trim text]
  | .step _ token => token.texts
  | .openRule _ | .closeRule _ | .blankLine => []

def call (m : Flattener) : Call → Flattener × Option Error
  | .openRule head => (m.openRule head, none)
  | .closeRule line => m.closeRule line
  | .declare text line => m.declare text line
  | .blankLine => (m.blankLine, none)
  | .step line token => m.step line token

def calls (m : Flattener) : List Call → Flattener
  | [] => m
  | c :: rest => (m.call c).1.calls rest

def accepted (m : Flattener) : List Call → List Text
  | [] => []
  | c :: rest => (if (m.call c).2.isNone then c.texts else []) ++ (m.call c).1.accepted rest

/-- A tidy machine with no empty rule. -/
structure Sound (m : Flattener) : Prop where
  tidy : m.Tidy
  declares : ∀ rule ∈ m.rules, rule.declarations ≠ []

/-- A sound machine that finishes as another one does. -/
structure Keeps (m m' : Flattener) : Prop where
  sound : m'.Sound
  finish : m'.finish = m.finish

/-- The outcome of a call: once accepted it adds `texts`, and once rejected it changes nothing that
the machine finishes with. -/
structure Accounts (m : Flattener) (texts : List Text) (outcome : Flattener × Option Error) :
    Prop where
  sound : outcome.1.Sound
  accepted : outcome.2 = none → outcome.1.finish.flatMap Rule.declarations =
    m.finish.flatMap Rule.declarations ++ texts
  rejected : outcome.2 ≠ none → outcome.1.finish = m.finish

theorem Sound.start (root : Option Text) : (start root).Sound :=
  ⟨by simp [Tidy, Flattener.start], by simp [Flattener.start]⟩

variable {m m' : Flattener}

theorem Sound.finish_declares (h : m.Sound) {rule} (hrule : rule ∈ m.finish) :
    rule.declarations ≠ [] := by
  rw [finish_eq h.tidy, mem_append] at hrule
  rcases hrule with hrule | hrule
  · exact h.declares rule hrule
  · exact declarations_ne_of_mem_waiting hrule

theorem Sound.declares_waiting (h : m.Sound) :
    ∀ rule ∈ m.rules ++ waiting m.stack, rule.declarations ≠ [] := by
  rw [← finish_eq h.tidy]
  exact fun rule hrule => h.finish_declares hrule

/-! ### Operations that declare nothing -/

theorem Keeps.refl (h : m.Sound) : Keeps m m :=
  ⟨h, rfl⟩

theorem Keeps.trans {m''} (h : Keeps m m') (h' : Keeps m' m'') : Keeps m m'' :=
  ⟨h'.sound, h'.finish.trans h.finish⟩

section

variable (h : m.Sound)

include h

/-- A machine whose waiting declarations became a rule, with no others waiting. -/
theorem Keeps.of_settled (hrules : m'.rules = m.rules ++ waiting m.stack)
    (hstack : ∀ frame ∈ m'.stack, frame.segment = []) : Keeps m m' := by
  have htidy : m'.Tidy := fun frame hframe => hstack frame (mem_of_mem_tail hframe)
  refine ⟨⟨htidy, ?_⟩, ?_⟩
  · rw [hrules]
    exact h.declares_waiting
  · rw [finish_eq htidy, finish_eq h.tidy, hrules, waiting_of_empty hstack, append_nil]

theorem Keeps.flush : Keeps m m.flush := by
  rw [flush_eq]
  exact .of_settled h rfl fun _ hframe => segment_of_mem_cleared h.tidy hframe

theorem Keeps.pop : Keeps m m.pop := by
  rw [pop_eq]
  exact .of_settled h rfl h.tidy

theorem Keeps.closeImplicit : Keeps m m.closeImplicit := by
  unfold Flattener.closeImplicit
  split
  · exact .pop h
  · exact .refl h

theorem Keeps.parted : Keeps m m.parted := by
  have hclosed : Keeps m m.closeImplicit := .closeImplicit h
  exact hclosed.trans (.flush hclosed.sound)

theorem Sound.parted_empty : ∀ frame ∈ m.parted.stack, frame.segment = [] := by
  have hclosed : Keeps m m.closeImplicit := .closeImplicit h
  rw [parted, flush_eq]
  exact fun frame hframe => segment_of_mem_cleared hclosed.sound.tidy hframe

theorem Keeps.openRule (head : Text) : Keeps m (m.openRule head) := by
  have hparted : Keeps m m.parted := .parted h
  rw [openRule_eq]
  refine hparted.trans (.of_settled hparted.sound ?_ ?_)
  · simp [waiting_of_empty h.parted_empty]
  · simpa using h.parted_empty

theorem Keeps.blankLine : Keeps m m.blankLine := by
  unfold Flattener.blankLine
  split
  · exact .refl h
  · split
    · exact .pop h
    · exact .flush h

theorem Keeps.closeRule (line : Nat) : Keeps m (m.closeRule line).1 := by
  have hclosed : Keeps m m.closeImplicit := .closeImplicit h
  unfold Flattener.closeRule
  dsimp only
  split
  · exact hclosed
  · exact hclosed.trans (.pop hclosed.sound)

end

/-! ### Declarations -/

theorem Accounts.of_keeps (h : Keeps m m') (error : Option Error) : Accounts m [] (m', error) :=
  ⟨h.sound, fun _ => by simp [h.finish], fun _ => h.finish⟩

/-- A frame with new declarations on top of frames that hold none. -/
theorem Accounts.of_segment (h : m.Sound) {frame outer texts}
    (hsegment : frame.segment = segment m.stack ++ texts) (houter : ∀ f ∈ outer, f.segment = []) :
    Accounts m texts ({ m with stack := frame :: outer }, none) := by
  have htidy : Tidy { m with stack := frame :: outer } := houter
  refine ⟨⟨htidy, h.declares⟩, fun _ => ?_, fun hne => absurd rfl hne⟩
  rw [finish_eq htidy, finish_eq h.tidy]
  simp only [flatMap_append, flatMap_waiting, append_assoc]
  rw [segment, hsegment]

theorem Accounts.declare (h : m.Sound) (text : Text) (line : Nat) :
    Accounts m [Text.trim text] (m.declare text line) := by
  cases hs : m.stack with
  | cons =>
    rw [declare_of_open hs]
    refine .of_segment h (by simp [hs, segment]) fun f hf => h.tidy f ?_
    simpa [hs] using hf
  | nil =>
    cases hroot : m.root with
    | none =>
      rw [declare_of_no_root hs hroot]
      exact ⟨h, by simp, fun _ => rfl⟩
    | some =>
      rw [declare_of_root hs hroot]
      exact .of_segment h (by simp [hs, segment]) (by simp)

theorem Accounts.inlineRule (h : m.Sound) (selector body : Text) (line : Nat) :
    Accounts m (splitDeclarations body) (m.inlineRule selector body line) := by
  have hparted : Keeps m m.parted := .parted h
  have hnone : waiting m.parted.stack = [] := waiting_of_empty h.parted_empty
  rw [inlineRule_eq]
  have htidy : ∀ rules : List Rule, Tidy { m.parted with rules } := fun _ => hparted.sound.tidy
  refine ⟨⟨htidy _, ?_⟩, fun _ => ?_, fun hne => absurd rfl hne⟩
  · intro rule hrule
    rcases mem_append.mp hrule with hrule | hrule
    · exact hparted.sound.declares rule hrule
    · exact declarations_ne_of_mem_waiting hrule
  · rw [finish_eq (htidy _), ← hparted.finish, finish_eq hparted.sound.tidy]
    simp only [hnone, append_nil, flatMap_append, flatMap_waiting]
    rfl

theorem Accounts.after {texts outcome}
    (h : Accounts m texts outcome) (blank : Bool) : Accounts m texts (after blank outcome) := by
  obtain ⟨_, error⟩ := outcome
  cases error with
  | none => exact ⟨⟨h.sound.tidy, h.sound.declares⟩, h.accepted, h.rejected⟩
  | some => exact h

theorem Accounts.step (h : m.Sound) (line : Nat) (token : Token) :
    Accounts m token.texts (m.step line token) := by
  cases token with
  | blank => exact (Accounts.of_keeps (.blankLine h) none).after true
  | «open» head => exact (Accounts.of_keeps (.openRule h head) none).after false
  | close => exact (Accounts.of_keeps (.closeRule h line) _).after false
  | declaration text => exact (Accounts.declare h text line).after false
  | inlineRule selector body => exact (Accounts.inlineRule h selector body line).after false

theorem Accounts.call (h : m.Sound) (c : Call) : Accounts m c.texts (m.call c) := by
  cases c with
  | openRule head => exact .of_keeps (.openRule h head) none
  | closeRule line => exact .of_keeps (.closeRule h line) _
  | declare text line => exact .declare h text line
  | blankLine => exact .of_keeps (.blankLine h) none
  | step line token => exact .step h line token

theorem Sound.calls (h : m.Sound) (cs : List Call) : (m.calls cs).Sound := by
  induction cs generalizing m with
  | nil => exact h
  | cons c _ ih => exact ih (Accounts.call h c).sound

theorem flatMap_finish_calls (h : m.Sound) (cs : List Call) :
    (m.calls cs).finish.flatMap Rule.declarations =
      m.finish.flatMap Rule.declarations ++ m.accepted cs := by
  induction cs generalizing m with
  | nil => simp [calls, accepted]
  | cons c _ ih =>
    have hcall : Accounts m c.texts (m.call c) := .call h c
    rw [calls, ih hcall.sound, accepted, ← append_assoc]
    congr 1
    cases herror : (m.call c).2 with
    | none => simpa using hcall.accepted herror
    | some => simp [hcall.rejected (by simp [herror])]

/-- After any calls to a fresh machine, the rules that it would finish with declare what it
accepted, in order and once each, and none of them is empty; and a call that fails then changes none
of them. -/
theorem finish_declares_accepted (root : Option Text) (cs : List Call) :
    ((start root).calls cs).finish.flatMap Rule.declarations = (start root).accepted cs ∧
      (∀ rule ∈ ((start root).calls cs).finish, rule.declarations ≠ []) ∧
      ∀ c, (((start root).calls cs).call c).2 ≠ none →
        (((start root).calls cs).call c).1.finish = ((start root).calls cs).finish := by
  have hsound : ((start root).calls cs).Sound := (Sound.start root).calls cs
  refine ⟨?_, fun rule => hsound.finish_declares, fun c => (Accounts.call hsound c).rejected⟩
  rw [flatMap_finish_calls (.start root)]
  rfl

/-- A closing brace with only an implicit rule open fails after it has closed that rule. -/
theorem finish_declares_accepted_implicit :
    ((start (some ['r'])).calls [.declare [' ', 'x'] 1]).finish.flatMap Rule.declarations =
        [['x']] ∧
      (((start (some ['r'])).calls [.declare [' ', 'x'] 1]).call (.closeRule 2)).2 ≠ none ∧
      (((start (some ['r'])).calls [.declare [' ', 'x'] 1]).call (.closeRule 2)).1.finish =
        ((start (some ['r'])).calls [.declare [' ', 'x'] 1]).finish := by
  obtain ⟨haccepted, -, hfailed⟩ := finish_declares_accepted (some ['r']) [.declare [' ', 'x'] 1]
  have herror : (((start (some ['r'])).calls [.declare [' ', 'x'] 1]).call (.closeRule 2)).2 ≠
      none := by decide
  exact ⟨haccepted.trans (by decide), herror, hfailed (.closeRule 2) herror⟩

end Flattener

end Sveltify.Style
