import Sveltify.Proofs.Style.Depth

/-! Where style text is refused. What is at fault in a list may depend on the items before it, and
a run over the list fails with the first fault. For the flattening machine that is the first closing
brace where no rule is open, or the first declaration there if no root selector takes it. -/

namespace Sveltify

/-! ### First faults -/

section

variable {α ε : Type} {fault? : List α → α → Option ε} {a : α} {l : List α} {e : ε}

/-- `e` is the fault of an item, given those before it, and none of these has a fault. -/
def FirstFault (fault? : List α → α → Option ε) (l : List α) (e : ε) : Prop :=
  ∃ before a after, l = before ++ a :: after ∧ fault? before a = some e ∧
    ∀ x y z, before = x ++ y :: z → fault? x y = none

theorem not_firstFault_nil : ¬FirstFault fault? [] e := by
  rintro ⟨_, a, _, h, -⟩
  simp at h

theorem firstFault_cons_of_some {e'} (h : fault? [] a = some e') :
    FirstFault fault? (a :: l) e ↔ e' = e := by
  constructor
  · rintro ⟨before, b, _, hl, hb, hnone⟩
    cases before with
    | nil =>
      obtain ⟨rfl, -⟩ := List.cons.inj hl
      exact Option.some.inj (h.symm.trans hb)
    | cons c before =>
      obtain ⟨rfl, -⟩ := List.cons.inj hl
      simp [hnone [] a before rfl] at h
  · rintro rfl
    exact ⟨[], a, l, rfl, h, by simp⟩

theorem firstFault_cons_of_none (h : fault? [] a = none) :
    FirstFault fault? (a :: l) e ↔ FirstFault (fun before => fault? (a :: before)) l e := by
  constructor
  · rintro ⟨before, b, after, hl, hb, hnone⟩
    cases before with
    | nil =>
      obtain ⟨rfl, -⟩ := List.cons.inj hl
      simp [h] at hb
    | cons c before =>
      obtain ⟨rfl, rfl⟩ := List.cons.inj hl
      exact ⟨before, b, after, rfl, hb, fun x y z hx => hnone (a :: x) y z (by rw [hx]; rfl)⟩
  · rintro ⟨before, b, after, rfl, hb, hnone⟩
    refine ⟨a :: before, b, after, rfl, hb, fun x y z hx => ?_⟩
    cases x with
    | nil =>
      obtain ⟨rfl, -⟩ := List.cons.inj hx
      exact h
    | cons c x =>
      obtain ⟨rfl, rfl⟩ := List.cons.inj hx
      exact hnone x y z rfl

theorem exists_firstFault_iff : (∃ e, FirstFault fault? l e) ↔
    ∃ before a after, l = before ++ a :: after ∧ (fault? before a).isSome := by
  constructor
  · rintro ⟨e, before, a, after, hl, ha, -⟩
    exact ⟨before, a, after, hl, by simp [ha]⟩
  · rintro ⟨before, a, _, rfl, ha⟩
    induction before generalizing fault? with
    | nil =>
      obtain ⟨e, he⟩ := Option.isSome_iff_exists.1 ha
      exact ⟨e, (firstFault_cons_of_some he).2 rfl⟩
    | cons b _ ih =>
      cases hb : fault? [] b with
      | some e => exact ⟨e, (firstFault_cons_of_some hb).2 rfl⟩
      | none => exact (ih ha).imp fun e he => (firstFault_cons_of_none hb).2 he

end

namespace Style

/-! ### Tokens at fault -/

namespace Token

/-- The number of rules that tokens open, less the number that they close. -/
def depthOf (tokens : List (Nat × Token)) : Int :=
  let braces := tokens.filterMap (·.2.brace?)
  braces.count true - braces.count false

/-- The error of a token with others before it: with no rule open none can be closed, and a
declaration needs the root selector. -/
def offence? (root : Option Text) (before : List (Nat × Token)) : Nat × Token → Option Error
  | (line, .close) => if depthOf before = 0 then some (.unbalancedBraces line) else none
  | (line, .declaration _) =>
    if depthOf before = 0 ∧ root = none then some (.strayDeclaration line) else none
  | (_, .blank) | (_, .open _) | (_, .inlineRule ..) => none

theorem depthOf_concat (before : List (Nat × Token)) (line : Nat) (token : Token) :
    depthOf (before ++ [(line, token)]) =
      depthOf before + (token.brace?.elim 0 fun opens => if opens then 1 else -1) := by
  cases token <;> simp [depthOf, brace?] <;> omega

end Token

namespace Flattener

open Token

/-- A machine after tokens with no fault among them: the rules that these leave open are open, and
no declaration waits outside of them unless a root selector takes it. -/
def Follows (root : Option Text) (before : List (Nat × Token)) (m : Flattener) : Prop :=
  ∃ path run, At root path run m ∧ depthOf before = path.length ∧ (root = none → path = [] → run = [])

variable {root : Option Text} {before : List (Nat × Token)} {m : Flattener}

theorem Follows.start (root : Option Text) : Follows root [] (start root) :=
  ⟨[], [], .start root, rfl, fun _ _ => rfl⟩

theorem Moves.follows {token path run rules} (h : Moves m token root path run rules) (line : Nat)
    (hdepth : depthOf (before ++ [(line, token)]) = path.length)
    (hrun : root = none → path = [] → run = []) :
    ∃ m', m.step line token = (m', none) ∧ Follows root (before ++ [(line, token)]) m' := by
  obtain ⟨m', hstep, hat, -⟩ := h line
  exact ⟨m', hstep, path, run, hat, hdepth, hrun⟩

/-- Outside of all rules an implicit frame may be open, which is no rule to close. -/
theorem At.step_close {run} (h : At root [] run m) (line : Nat) :
    (m.step line .close).2 = some (.unbalancedBraces line) := by
  have hstack : m.closeImplicit.stack = [] := by
    rw [closeImplicit, topImplicit, pop_eq, h.stack_eq]
    cases run with
    | nil => simp [place, h.stack_eq]
    | cons => simp [place]
  rw [step, closeRule, hstack]
  rfl

/-- A machine refuses a token that is at fault, and follows any other. -/
theorem Follows.step (h : Follows root before m) (line : Nat) (token : Token) :
    (∃ e, offence? root before (line, token) = some e ∧ (m.step line token).2 = some e) ∨
      (offence? root before (line, token) = none ∧
        ∃ m', m.step line token = (m', none) ∧ Follows root (before ++ [(line, token)]) m') := by
  obtain ⟨path, _, hat, hdepth, hrun⟩ := h
  have hconcat := depthOf_concat before line token
  cases token with
  | blank => exact .inr ⟨rfl, hat.moves_blank.follows line (by simpa [brace?, hdepth] using hconcat)
      fun _ _ => rfl⟩
  | «open» head => exact .inr ⟨rfl, (hat.moves_open head).follows line
      (by simpa [brace?, hdepth] using hconcat) fun _ _ => rfl⟩
  | inlineRule head text => exact .inr ⟨rfl, (hat.moves_inlineRule head text).follows line
      (by simpa [brace?, hdepth] using hconcat) fun _ _ => rfl⟩
  | close =>
    cases path with
    | nil => exact .inl ⟨_, if_pos hdepth, hat.step_close line⟩
    | cons _ path =>
      have hopen : depthOf before ≠ 0 := by simp only [hdepth, List.length_cons]; omega
      refine .inr ⟨if_neg hopen, hat.moves_close.follows line ?_ fun _ _ => rfl⟩
      simpa [brace?, hdepth] using hconcat
  | declaration text =>
    by_cases hstray : depthOf before = 0 ∧ root = none
    · obtain rfl : path = [] := List.length_eq_zero_iff.1 (by omega)
      obtain rfl := hrun hstray.2 rfl
      refine .inl ⟨_, if_pos hstray, ?_⟩
      rw [Flattener.step, declare_of_no_root hat.stack_eq (hat.root_eq.trans hstray.2)]
      rfl
    · have hpath : root = none → path ≠ [] := by
        rintro hroot rfl
        exact hstray ⟨hdepth, hroot⟩
      exact .inr ⟨if_neg hstray, (hat.moves_declaration text hpath).follows line
        (by simpa [brace?, hdepth] using hconcat) fun hroot hnil => absurd hnil (hpath hroot)⟩

theorem Follows.run_eq_error_iff (h : Follows root before m) (tokens : List (Nat × Token))
    (e : Error) :
    m.run tokens = .error e ↔ FirstFault (fun b => offence? root (before ++ b)) tokens e := by
  induction tokens generalizing before m with
  | nil => simp [run, not_firstFault_nil]
  | cons token _ ih =>
    obtain ⟨line, token⟩ := token
    rcases h.step line token with ⟨e', hfault, hstep⟩ | ⟨hfault, _, hstep, hm'⟩
    · rw [firstFault_cons_of_some (by simpa using hfault), run]
      generalize m.step line token = outcome at hstep ⊢
      obtain ⟨_, error⟩ := outcome
      obtain rfl : error = some e' := hstep
      simp
    · rw [firstFault_cons_of_none (by simpa using hfault), run_cons_of_step hstep, ih hm']
      simp

end Flattener

/-- Flattening fails with the error of the first token that is at fault, and only if there is
one. -/
theorem flattenRules_fails_at_first_offence (s : Text) (root : Option Text) :
    (∀ e, flattenRules s root = .error e ↔
      FirstFault (Token.offence? root) (Token.tokenize s) e) ∧
    ((∃ e, flattenRules s root = .error e) ↔ ∃ before token after,
      Token.tokenize s = before ++ token :: after ∧ (Token.offence? root before token).isSome) := by
  have hfirst : ∀ e, flattenRules s root = .error e ↔
      FirstFault (Token.offence? root) (Token.tokenize s) e := by
    intro e
    have hrun := (Flattener.Follows.start root).run_eq_error_iff (Token.tokenize s) e
    rw [flattenRules]
    cases h : (Flattener.start root).run (Token.tokenize s) <;> simpa [h, Except.map] using hrun
  refine ⟨hfirst, ?_⟩
  simp only [hfirst]
  exact exists_firstFault_iff

end Style

end Sveltify
