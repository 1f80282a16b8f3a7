import Sveltify.Proofs.Style.Shortcut

/-! How deep braces nest along tokens and lines. A machine with a root selector takes every sequence
of tokens that closes no more rules than it opens, and where a sequence has closed all of its own,
what follows it is read as if it stood alone. -/

variable (rules : List Rule) (m : Flattener) (depth : Nat) (tokens : List Token)

namespace Sveltify.Style

open List Text Token Flattener

namespace Token

/-- The number of open rules after tokens, where `depth` are open before them; nothing if a closing
brace finds none open. -/
def depthAfter (depth : Nat) : List Token → Option Nat
  | [] => some depth
  | .open _ :: rest => depthAfter (depth + 1) rest
  | .close :: rest => if depth = 0 then none else depthAfter (depth - 1) rest
  | .blank :: rest | .declaration _ :: rest | .inlineRule .. :: rest => depthAfter depth rest

/-- The brace that a token stands for: `true` for one that opens a rule. -/
def brace? : Token → Option Bool
  | .open _ => some true
  | .close => some false
  | .blank | .declaration _ | .inlineRule .. => none

def heldAfter (pending : List Text) : List Text → List Text
  | [] => pending
  | raw :: rest =>
    if continues (trim raw) then heldAfter (pending ++ [trim raw]) rest
    else heldAfter [] rest

def braceDepth (lines : List Text) : Option Nat :=
  depthAfter 0 ((wholeLines [] lines).flatMap splitLine)

/-! ### Depth of tokens -/

theorem depthAfter_append (a b : List Token) :
    depthAfter depth (a ++ b) = (depthAfter depth a).bind fun e => depthAfter e b := by
  induction a generalizing depth with
  | nil => rfl
  | cons token a ih =>
    cases token with
    | «open» => exact ih (depth + 1)
    | close =>
      simp only [cons_append, depthAfter]
      split
      · rfl
      · exact ih (depth - 1)
    | blank | declaration | inlineRule => exact ih depth

theorem depthAfter_declarations (t : Text) (rest : List Token) :
    depthAfter depth (declarations t ++ rest) = depthAfter depth rest := by
  unfold declarations
  induction splitDeclarations t with
  | nil => rfl
  | cons _ _ ih => exact ih

theorem depthAfter_expand : depthAfter depth (tokens.flatMap expand) = depthAfter depth tokens := by
  induction tokens generalizing depth with
  | nil => rfl
  | cons token _ ih =>
    rw [flatMap_cons]
    cases token with
    | «open» => exact ih (depth + 1)
    | close =>
      simp [expand, depthAfter, ih]
    | blank | declaration => exact ih depth
    | inlineRule =>
      simp only [expand, cons_append, append_assoc, depthAfter, depthAfter_declarations]
      exact ih depth

theorem depthAfter_eq_some {depth e tokens} (h : depthAfter depth tokens = some e) :
    e + (tokens.filterMap brace?).count false = depth + (tokens.filterMap brace?).count true := by
  induction tokens generalizing depth with
  | nil =>
    obtain rfl : depth = e := by simpa [depthAfter] using h
    rfl
  | cons token _ ih =>
    cases token with
    | «open» =>
      have hrest : e + _ = depth + 1 + _ := ih h
      simp only [filterMap_cons, brace?, count_cons_self]
      rw [count_cons_of_ne (by decide)]
      omega
    | close =>
      simp only [depthAfter] at h
      split at h
      · cases h
      · have hrest : e + _ = depth - 1 + _ := ih h
        simp only [filterMap_cons, brace?, count_cons_self]
        rw [count_cons_of_ne (by decide)]
        omega
    | blank | declaration | inlineRule => exact ih h

/-! ### Depth of lines -/

theorem wholeLines_append (pending a b : List Text) :
    wholeLines pending (a ++ b) = wholeLines pending a ++ wholeLines (heldAfter pending a) b := by
  induction a generalizing pending with
  | nil => rfl
  | cons raw a ih =>
    simp only [cons_append, wholeLines, heldAfter]
    by_cases hcontinues : continues (trim raw)
    · rw [if_pos hcontinues, if_pos hcontinues, if_pos hcontinues, ih]
    · rw [if_neg hcontinues, ih]
      split <;> rfl

theorem depthAfter_reads (pending lines : List Text) :
    depthAfter depth (reads pending lines) =
      depthAfter depth ((wholeLines pending lines).flatMap ofLine) := by
  induction lines generalizing depth pending with
  | nil =>
    simp only [reads]
    split <;> rfl
  | cons raw rest ih =>
    have hline : ∀ line : Text, depthAfter depth (ofLine line ++ reads [] rest) =
        depthAfter depth ((line :: wholeLines [] rest).flatMap ofLine) := by
      intro _
      rw [flatMap_cons, depthAfter_append, depthAfter_append]
      simp [ih]
    simp only [reads, wholeLines]
    by_cases hcontinues : continues (trim raw)
    · rw [if_pos hcontinues, if_pos hcontinues, ih]
    · rw [if_neg hcontinues, if_neg hcontinues]
      by_cases hpending : pending.isEmpty
      · rw [if_pos hpending, if_pos (by simp [hpending])]
        exact hline _
      · rw [if_neg hpending, Bool.or_assoc]
        by_cases hends : ((trim raw).isEmpty || (trim raw).head? == some '\x7d')
        · rw [if_pos hends, if_pos (by simp [hends])]
          exact hline _
        · rw [if_neg hends, if_neg (by simp_all)]
          exact hline _

/-- Where every line stands alone, the tokens nest as the braces at top level do. -/
theorem braceDepth_eq {lines} (hfeed : ∀ line ∈ lines, '\n' ∉ line)
    (h : ∀ line ∈ wholeLines [] lines, standsAlone line) :
    braceDepth lines = depthAfter 0 (reads [] lines) := by
  have hread : ∀ line ∈ wholeLines [] lines, splitLine line = (ofLine line).flatMap expand := by
    intro line hline
    obtain ⟨htrim, -, -⟩ := wholeLines_spec (by simp) hfeed hline
    exact splitLine_eq_expand (by rw [htrim]; exact h line hline)
  rw [braceDepth, depthAfter_reads, flatMap_def, map_congr_left hread, ← flatMap_def,
    ← flatMap_assoc, depthAfter_expand]

end Token

namespace Flattener

open Token

/-! ### The machine over balanced tokens -/

theorem takes_append (a b : List Token) :
    m.takes (a ++ b) = (m.takes a).bind fun m' => m'.takes b := by
  induction a generalizing m with
  | nil => rfl
  | cons token a ih =>
    rw [cons_append, takes, takes]
    cases m.step 0 token with
    | mk next error =>
      cases error with
      | none => exact ih next
      | some => rfl

/-- A machine with a root selector takes tokens that close no more rules than are open inside
`outer`, and stays inside it. -/
theorem At.takes_depth {root inner outer run m}
    (h : At (some root) (inner ++ outer) run m) {tokens e}
    (hdepth : depthAfter inner.length tokens = some e) :
    ∃ m' inner' run', m.takes tokens = some m' ∧ At (some root) (inner' ++ outer) run' m' ∧
      inner'.length = e := by
  induction tokens generalizing m inner run with
  | nil =>
    obtain rfl : inner.length = e := by simpa [depthAfter] using hdepth
    exact ⟨m, inner, run, rfl, h, rfl⟩
  | cons token tokens ih =>
    cases token with
    | «open» head =>
      obtain ⟨next, htakes, hnext, -⟩ := (h.moves_open head).takes tokens
      rw [htakes]
      have hinner : depthAfter (head :: inner).length tokens = some e := by
        simpa [depthAfter] using hdepth
      exact ih hnext hinner
    | close =>
      cases inner with
      | nil => simp [depthAfter] at hdepth
      | cons head =>
        obtain ⟨next, htakes, hnext, -⟩ := At.moves_close h |>.takes tokens
        rw [htakes]
        exact ih hnext (by simpa [depthAfter] using hdepth)
    | blank =>
      obtain ⟨next, htakes, hnext, -⟩ := h.moves_blank.takes tokens
      rw [htakes]
      exact ih hnext hdepth
    | declaration text =>
      obtain ⟨next, htakes, hnext, -⟩ := (h.moves_declaration text (by simp)).takes tokens
      rw [htakes]
      exact ih hnext hdepth
    | inlineRule head text =>
      obtain ⟨_, htakes, hnext, -⟩ := (h.moves_inlineRule head text).takes tokens
      rw [htakes]
      exact ih hnext hdepth

/-! ### Rules before others -/

def behind (rules : List Rule) (m : Flattener) : Flattener :=
  { m with rules := rules ++ m.rules }

theorem flush_behind : (m.behind rules).flush = m.flush.behind rules := by
  simp [flush_eq, behind]

theorem pop_behind : (m.behind rules).pop = m.pop.behind rules := by
  simp [pop_eq, behind]

theorem closeImplicit_behind : (m.behind rules).closeImplicit = m.closeImplicit.behind rules := by
  unfold closeImplicit
  rw [pop_behind]
  exact (apply_ite (behind rules) _ _ _).symm

theorem parted_behind : (m.behind rules).parted = m.parted.behind rules := by
  rw [parted, closeImplicit_behind, flush_behind]
  rfl

theorem step_behind (line : Nat) (token : Token) :
    (m.behind rules).step line token =
      ((m.step line token).1.behind rules, (m.step line token).2) := by
  cases token with
  | blank =>
    have hblank : (m.behind rules).blankLine = m.blankLine.behind rules := by
      unfold blankLine
      rw [pop_behind, flush_behind]
      simp only [apply_ite (behind rules)]
      rfl
    rw [step, hblank]
    rfl
  | «open» head =>
    rw [step, openRule_eq, parted_behind]
    rfl
  | close =>
    have hempty : (m.closeImplicit.behind rules).stack = m.closeImplicit.stack := rfl
    simp only [step, closeRule, closeImplicit_behind, pop_behind, hempty]
    split <;> rfl
  | declaration =>
    have hstack : (m.behind rules).stack = m.stack := rfl
    have hroot : (m.behind rules).root = m.root := rfl
    simp only [step]
    cases hs : m.stack with
    | cons =>
      rw [declare_of_open (hstack.trans hs), declare_of_open hs]
      rfl
    | nil =>
      cases hr : m.root with
      | none =>
        rw [declare_of_no_root (hstack.trans hs) (hroot.trans hr), declare_of_no_root hs hr]
        rfl
      | some =>
        rw [declare_of_root (hstack.trans hs) (hroot.trans hr), declare_of_root hs hr]
        rfl
  | inlineRule =>
    simp only [step, inlineRule_eq, parted_behind, after]
    simp [behind, frameKind, parents]

theorem takes_behind : (m.behind rules).takes tokens = (m.takes tokens).map (behind rules) := by
  induction tokens generalizing m with
  | nil => rfl
  | cons token _ ih =>
    rw [takes, takes, step_behind]
    cases m.step 0 token with
    | mk next error =>
      cases error with
      | none => exact ih next
      | some => rfl

theorem finish_behind : (m.behind rules).finish = rules ++ m.finish := by
  have hstack : ∀ (own : List Rule) (stack : List Frame),
      finishStack (rules ++ own) stack = rules ++ finishStack own stack := by
    intro own stack
    induction stack generalizing own with
    | nil => rfl
    | cons _ _ ih =>
      simp only [finishStack, ite_rule_isEmpty]
      rw [append_assoc, ih]
  exact hstack m.rules m.stack

/-! ### Blank lines at the end -/

theorem finish_blankLine : m.blankLine.finish = m.finish := by
  have hfinish : ∀ {frame : Frame} {outer : List Frame}, m.stack = frame :: outer →
      m.finish = finishStack (m.rules ++ waiting m.stack) outer := by
    intro frame outer hstack
    simp [finish, hstack, finishStack, ite_rule_isEmpty]
  unfold blankLine
  split
  · rfl
  · cases hstack : m.stack with
    | nil => simp [topImplicit, hstack, flush_eq, finish, cleared, waiting]
    | cons frame outer =>
      rw [hfinish hstack]
      split
      · simp [pop_eq, finish, hstack]
      · have hempty : waiting ({ frame with segment := [] } :: outer) = [] := by simp [waiting]
        simp only [flush_eq, finish, hstack, cleared, finishStack, ite_rule_isEmpty, hempty,
          append_nil]

theorem map_finish_takes_blank :
    (m.takes (tokens ++ [.blank])).map finish = (m.takes tokens).map finish := by
  rw [takes_append]
  cases m.takes tokens with
  | none => rfl
  | some m' =>
    have hstep : m'.step 0 .blank = ({ m'.blankLine with previousBlank := true }, none) := rfl
    simp only [Option.bind_some, takes, hstep, Option.map_some, Option.some.injEq]
    exact finish_blankLine m'

theorem map_finish_takes_blanks {blanks} (hblanks : ∀ line ∈ blanks, trim line = [])
    (lines : List Text) :
    (m.takes (reads [] (lines ++ blanks))).map finish = (m.takes (reads [] lines)).map finish := by
  induction blanks generalizing lines with
  | nil => simp
  | cons blank _ ih =>
    have hrest := ih (fun line hline => hblanks line (by simp [hline])) (lines ++ [blank])
    rw [append_cons, hrest, reads_append_blank (hblanks blank (by simp))]
    exact map_finish_takes_blank m _

end Flattener

/-! ### Texts of lines -/

theorem toOption_flattenRules (s : Text) (root : Option Text) :
    (flattenRules s root).toOption =
      ((start root).takes (reads [] (lines s))).map finish := by
  rw [← map_snd_ofLines [] 1, ← tokenize, ← toOption_run, flattenRules]
  cases (start root).run (tokenize s) <;> rfl

theorem map_trim_lines_unlines_concat {parts} (h : ∀ part ∈ parts, '\n' ∉ part) :
    (lines (unlines (parts ++ [[]]))).map trim = parts.map trim := by
  have hpieces : pieces (unlines (parts ++ [[]])) = parts ++ [[]] := by
    refine splitOn_joinWith (by simp) fun part hpart => ?_
    rcases mem_append.mp hpart with hpart | hpart
    · exact h part hpart
    · obtain rfl : part = [] := by simpa using hpart
      simp
  simp [lines, hpieces, trim_dropReturn]

theorem toOption_flattenRules_unlines {lines} (h : ∀ line ∈ lines, '\n' ∉ line)
    (root : Option Text) :
    (flattenRules (unlines lines) root).toOption =
      ((start root).takes (reads [] lines)).map finish := by
  rw [toOption_flattenRules, ← reads_map_trim]
  by_cases hlast : lines.getLast? = some []
  · obtain ⟨init, rfl⟩ := getLast?_eq_some_iff.mp hlast
    rw [map_trim_lines_unlines_concat fun part hpart => h part (by simp [hpart]),
      reads_map_trim]
    have hblank : ∀ line ∈ ([[]] : List Text), trim line = [] := by simp
    exact (map_finish_takes_blanks _ hblank init).symm
  · rw [map_trim_lines_unlines h hlast, reads_map_trim]

end Sveltify.Style
