import Sveltify.Proofs.Style.Scanner
import Sveltify.Style.Flattener

/-! The operations of the flattening machine, each as one equation. A machine is tidy when only its
innermost frame holds declarations; a tidy machine finishes with the rules that it has and, after
them, the rule of those declarations. -/

namespace Sveltify.Style

open Text (trim)

@[simp] theorem Frame.rule_declarations (frame : Frame) (outer : List Frame) :
    (frame.rule outer).declarations = frame.segment := by
  unfold Frame.rule
  split <;> rfl

theorem Frame.rule_isEmpty (frame : Frame) (outer : List Frame) :
    (frame.rule outer).isEmpty = frame.segment.isEmpty := by
  simp [Rule.isEmpty]

namespace Flattener

def segment : List Frame → List Text
  | [] => []
  | frame :: _ => frame.segment

/-- The rule of the declarations that wait in the innermost frame, if there are any. -/
def waiting : List Frame → List Rule
  | [] => []
  | frame :: outer => if frame.segment.isEmpty then [] else [frame.rule outer]

/-- The stack after the declarations of its innermost frame have become a rule. -/
def cleared : List Frame → List Frame
  | [] => []
  | frame :: outer => { frame with segment := [] } :: outer

def Tidy (m : Flattener) : Prop :=
  ∀ frame ∈ m.stack.tail, frame.segment = []

@[simp] theorem tail_cleared (stack : List Frame) : (cleared stack).tail = stack.tail := by
  cases stack <;> rfl

variable {m : Flattener} {stack : List Frame} {frame : Frame}

theorem waiting_eq_nil (h : segment stack = []) : waiting stack = [] := by
  cases stack with
  | nil => rfl
  | cons frame =>
    have hseg : frame.segment = [] := h
    simp [waiting, hseg]

theorem waiting_of_empty (h : ∀ frame ∈ stack, frame.segment = []) : waiting stack = [] := by
  cases stack with
  | nil => rfl
  | cons frame => exact waiting_eq_nil (h frame (by simp))

theorem segment_of_mem_cleared (h : m.Tidy) (hframe : frame ∈ cleared m.stack) :
    frame.segment = [] := by
  unfold Tidy at h
  cases hs : m.stack with
  | nil => simp [hs, cleared] at hframe
  | cons =>
    rw [hs] at h hframe
    rcases List.mem_cons.mp hframe with rfl | hframe
    · rfl
    · exact h frame hframe

@[simp] theorem flatMap_waiting (stack : List Frame) :
    (waiting stack).flatMap Rule.declarations = segment stack := by
  cases stack with
  | nil => rfl
  | cons frame =>
    by_cases h : frame.segment = []
    · simp [waiting, segment, h]
    · simp [waiting, segment, h]

theorem declarations_ne_of_mem_waiting {rule} (h : rule ∈ waiting stack) :
    rule.declarations ≠ [] := by
  cases stack with
  | nil => simp [waiting] at h
  | cons frame outer =>
    by_cases hseg : frame.segment = []
    · simp [waiting, hseg] at h
    · obtain rfl : rule = frame.rule outer := by simpa [waiting, hseg] using h
      simpa using hseg

theorem ite_rule_isEmpty (rules : List Rule) (frame : Frame) (outer : List Frame) :
    (if (frame.rule outer).isEmpty then rules else rules ++ [frame.rule outer]) =
      rules ++ waiting (frame :: outer) := by
  rw [Frame.rule_isEmpty, waiting]
  split <;> simp

theorem flush_eq (m : Flattener) :
    m.flush = { m with stack := cleared m.stack, rules := m.rules ++ waiting m.stack } := by
  unfold flush
  cases hs : m.stack with
  | nil =>
    obtain ⟨_, _, _, _⟩ := m
    simp_all [cleared, waiting]
  | cons => simp [ite_rule_isEmpty, cleared]

theorem pop_eq (m : Flattener) :
    m.pop = { m with stack := m.stack.tail, rules := m.rules ++ waiting m.stack } := by
  simp [pop, flush_eq]

theorem finishStack_of_empty (rules : List Rule) (h : ∀ frame ∈ stack, frame.segment = []) :
    finishStack rules stack = rules := by
  induction stack with
  | nil => rfl
  | cons frame outer ih =>
    have hframe : frame.segment = [] := h frame (by simp)
    simp only [finishStack, ite_rule_isEmpty, waiting_eq_nil (show segment (frame :: outer) = []
      from hframe), List.append_nil]
    exact ih fun f hf => h f (by simp [hf])

theorem finish_eq (h : m.Tidy) : m.finish = m.rules ++ waiting m.stack := by
  unfold Tidy at h
  unfold finish
  cases hs : m.stack with
  | nil => simp [finishStack, waiting]
  | cons =>
    rw [hs] at h
    simp only [finishStack, ite_rule_isEmpty]
    exact finishStack_of_empty _ h

theorem declare_of_open {outer} (h : m.stack = frame :: outer) (text : Text) (line : Nat) :
    m.declare text line =
      ({ m with stack := { frame with segment := frame.segment ++ [trim text] } :: outer },
        none) := by
  unfold declare
  rw [h]
  rfl

theorem declare_of_root {root} (hstack : m.stack = []) (hroot : m.root = some root)
    (text : Text) (line : Nat) :
    m.declare text line =
      ({ m with stack := [{ kind := .selector [root], segment := [trim text],
                            implicit := true }] }, none) := by
  unfold declare
  rw [hstack, hroot]

theorem declare_of_no_root (hstack : m.stack = []) (hroot : m.root = none) (text : Text)
    (line : Nat) : m.declare text line = (m, some (.strayDeclaration line)) := by
  unfold declare
  rw [hstack, hroot]

theorem declareAll_of_open {outer} (h : m.stack = frame :: outer) (line : Nat) (texts : List Text) :
    m.declareAll line texts =
      ({ m with stack := { frame with segment := frame.segment ++ texts.map trim } :: outer },
        none) := by
  induction texts generalizing m frame with
  | nil =>
    obtain ⟨stack, _, _, _⟩ := m
    obtain rfl : stack = frame :: outer := h
    simp [declareAll]
  | cons d _ ih =>
    rw [declareAll, declare_of_open h]
    simp only
    rw [ih rfl]
    simp [List.append_assoc]

/-- What is left of a machine when a rule opens in it, before the rule's own frame. -/
def parted (m : Flattener) : Flattener :=
  m.closeImplicit.flush

theorem openRule_eq (m : Flattener) (head : Text) :
    m.openRule head =
      { m.parted with stack := { kind := m.parted.frameKind head } :: m.parted.stack } :=
  rfl

/-- A rule on one line leaves the machine that its opening found, with one rule more if it declares
anything. -/
theorem inlineRule_eq (m : Flattener) (selector body : Text) (line : Nat) :
    m.inlineRule selector body line =
      ({ m.parted with
          rules := m.parted.rules ++
            waiting ({ kind := m.parted.frameKind selector, segment := splitDeclarations body } ::
              m.parted.stack) }, none) := by
  have hstack : (m.openRule selector).stack =
      { kind := m.parted.frameKind selector } :: m.parted.stack := rfl
  unfold inlineRule
  rw [declareAll_of_open hstack, map_trim_splitDeclarations]
  simp [openRule_eq, closeRule, closeImplicit, topImplicit, pop_eq]

end Flattener

end Sveltify.Style
