import Sveltify.Proofs.Style.Opening
import Sveltify.Proofs.Style.Runs

/-! Rules on one line. A line of the form `selector { body }` is one token; taken apart at its
braces it would give the tokens of which that rule is made, as long as its two braces stand at top
level and no other one does. -/

namespace Sveltify.Style

open List Text Scanner Token Flattener

namespace Token

def splitLine (line : Text) : List Token :=
  if (trim line).isEmpty then [.blank] else ofText (trim line)

/-- The tokens of the lines from number `n` on, after lines held back, where `read` gives the tokens
of a line. -/
def ofLinesBy (read : Text → List Token) (pending : List Text) (n : Nat) :
    List Text → List (Nat × Token)
  | [] => if pending.isEmpty then [] else [(n - 1, held pending)]
  | raw :: rest =>
    let line := trim raw
    if continues line then ofLinesBy read (pending ++ [line]) (n + 1) rest
    else if pending.isEmpty then numbered n (read line) ++ ofLinesBy read [] (n + 1) rest
    else if line.isEmpty || line.head? == some '\x7d' then
      (n, held pending) :: numbered n (read line) ++ ofLinesBy read [] (n + 1) rest
    else
      numbered n (read (joinWith [' '] pending ++ ' ' :: line)) ++
        ofLinesBy read [] (n + 1) rest

/-- The lines that are read as one, after lines held back: each joined with the lines before it that
go on in it. -/
def wholeLines (pending : List Text) : List Text → List Text
  | [] => []
  | raw :: rest =>
    let line := trim raw
    if continues line then wholeLines (pending ++ [line]) rest
    else if pending.isEmpty || line.isEmpty || line.head? == some '\x7d' then
      line :: wholeLines [] rest
    else (joinWith [' '] pending ++ ' ' :: line) :: wholeLines [] rest

def expand : Token → List Token
  | .inlineRule selector body => .open selector :: declarations body ++ [.close]
  | token => [token]

/-- A line that is no rule on one line, or one whose two braces are the only ones at top level. -/
def standsAlone (line : Text) : Bool :=
  match splitAtChar '\x7b' line with
  | none => true
  | some (head, tail) =>
    (inlineRule? line).isNone || (hides isBrace {} head && (Scanner.run {} head).atTop &&
      (Scanner.run {} tail.dropLast).atTop)

/-! ### Reading line by line -/

theorem ofLinesBy_congr {f g pending lines}
    (h : ∀ line ∈ wholeLines pending lines, f line = g line) (n : Nat) :
    ofLinesBy f pending n lines = ofLinesBy g pending n lines := by
  induction lines generalizing pending n with
  | nil => rfl
  | cons raw _ ih =>
    simp only [wholeLines] at h
    simp only [ofLinesBy]
    by_cases hcontinues : continues (trim raw)
    · rw [if_pos hcontinues] at h
      rw [if_pos hcontinues, if_pos hcontinues, ih h]
    · rw [if_neg hcontinues] at h
      rw [if_neg hcontinues, if_neg hcontinues]
      by_cases hpending : pending.isEmpty
      · simp only [hpending, Bool.true_or, if_true, forall_mem_cons] at h
        rw [if_pos hpending, if_pos hpending, h.1, ih h.2]
      · rw [if_neg hpending, if_neg hpending]
        by_cases hends : ((trim raw).isEmpty || (trim raw).head? == some '\x7d')
        · rw [if_pos (by rw [Bool.or_assoc, hends, Bool.or_true]), forall_mem_cons] at h
          rw [if_pos hends, if_pos hends, h.1, ih h.2]
        · rw [if_neg (by simp_all), forall_mem_cons] at h
          rw [if_neg hends, if_neg hends, h.1, ih h.2]

/-! ### A line that stands alone -/

theorem splitAtChar_append {c a} (b : Text) (h : c ∉ a) :
    splitAtChar c (a ++ c :: b) = some (a, b) := by
  induction a with
  | nil => simp [splitAtChar]
  | cons d a ih =>
    obtain ⟨hd, ha⟩ : c ≠ d ∧ c ∉ a := by simpa using h
    simp [splitAtChar, Ne.symm hd, ih ha]

theorem hides_blanks (s : Scanner) {t} (ht : ∀ c ∈ t, isBlank c) : s.hides (· == ';') t := by
  apply hides_of_forall
  intro c hc
  rw [beq_eq_false_iff_ne]
  rintro rfl
  exact absurd (ht ';' hc) (by decide)

theorem splitDeclarations_append_blanks (t : Text) {after}
    (hafter : ∀ c ∈ after, isBlank c) : splitDeclarations (t ++ after) = splitDeclarations t := by
  induction t using declarations_induction with
  | hides t ht =>
    have hboth : hides (· == ';') {} (t ++ after) := by
      rw [hides_append, ht, hides_blanks _ hafter]
      rfl
    rw [splitDeclarations_of_hides hboth, splitDeclarations_of_hides ht,
      trim_append_blanks t hafter]
  | cut a b ha hrun ih =>
    rw [append_assoc, cons_append, splitDeclarations_cut _ ha hrun,
      splitDeclarations_cut b ha hrun, ih]

theorem splitDeclarations_blanks_append {before} (t : Text) (hbefore : ∀ c ∈ before, isBlank c) :
    splitDeclarations (before ++ t) = splitDeclarations t := by
  have hrunBefore : Scanner.run {} before = {} := regular_start.run_blanks hbefore
  rcases hides_or_cut (· == ';') {} t with h | ⟨a, c, b, rfl, hc, ha, hrun⟩
  · have hboth : hides (· == ';') {} (before ++ t) := by
      rw [hides_append, hides_blanks _ hbefore, hrunBefore, h]
      rfl
    rw [splitDeclarations_of_hides hboth, splitDeclarations_of_hides h,
      trim_blanks_append t hbefore]
  · obtain rfl : c = ';' := by simpa using hc
    have hboth : hides (· == ';') {} (before ++ a) := by
      rw [hides_append, hides_blanks _ hbefore, hrunBefore, ha]
      rfl
    have hrunBoth : Scanner.run {} (before ++ a) = {} := by
      rw [run_append, hrunBefore, hrun]
    rw [← append_assoc, splitDeclarations_cut b hboth hrunBoth,
      splitDeclarations_cut b ha hrun, append_assoc, trim_blanks_append _ hbefore]

theorem declarations_trim (t : Text) : declarations (trim t) = declarations t := by
  obtain ⟨before, after, ht, hbefore, hafter⟩ := exists_trim t
  have hsplit : splitDeclarations t = splitDeclarations (trim t) := by
    calc splitDeclarations t
        = splitDeclarations (before ++ trim t ++ after) := by rw [← ht]
      _ = splitDeclarations (before ++ trim t) := splitDeclarations_append_blanks _ hafter
      _ = splitDeclarations (trim t) := splitDeclarations_blanks_append _ hbefore
  rw [declarations, declarations, hsplit]

/-- The parts of a rule on one line. -/
structure Inline (line head body : Text) (token : Token) : Prop where
  line_eq : line = head ++ '\x7b' :: (body ++ ['\x7d'])
  head_open : '\x7b' ∉ head
  body_open : '\x7b' ∉ body
  body_close : '\x7d' ∉ body
  head_ne : trim head ≠ []
  token_eq : token = .inlineRule (trim head) (trim body)

theorem exists_inline {line token} (h : inlineRule? line = some token) :
    ∃ head body, Inline line head body token := by
  obtain ⟨head, body, hline, h₁, h₂, h₃, h₄, h₅⟩ := inlineRule_eq_some h
  exact ⟨head, body, by simpa using hline, h₁, h₂, h₃, h₄, h₅⟩

namespace Inline

variable {line head body : Text} {token : Token}

theorem standsAlone_iff (h : Inline line head body token) (hline : inlineRule? line = some token) :
    standsAlone line = true ↔ hides isBrace {} head ∧ Scanner.run {} head = {} ∧
      Scanner.run {} body = {} := by
  have hsplit : splitAtChar '\x7b' line = some (head, body ++ ['\x7d']) := by
    rw [h.line_eq]
    exact splitAtChar_append _ h.head_open
  simp [standsAlone, hsplit, hline, atTop_iff, and_assoc]

theorem hides_body (h : Inline line head body token) (s : Scanner) : s.hides isBrace body := by
  apply hides_of_forall
  intro c hc
  simp only [isBrace, Bool.or_eq_false_iff, beq_eq_false_iff_ne]
  exact ⟨fun he => h.body_open (he ▸ hc), fun he => h.body_close (he ▸ hc)⟩

/-- A rule on one line that stands alone falls apart at its braces into what it is made of. -/
theorem ofText_eq (h : Inline line head body token) (hhides : hides isBrace {} head)
    (hrun : Scanner.run {} head = {}) (hbody : Scanner.run {} body = {}) :
    ofText line = token.expand := by
  rw [h.line_eq, ofText_open _ hhides hrun, ofText_close [] (h.hides_body {}) hbody, ofText_nil,
    h.token_eq, expand, declarations_trim, cons_append]

end Inline

theorem flatMap_expand_ofText (t : Text) : (ofText t).flatMap expand = ofText t := by
  have hone : ∀ token ∈ ofText t, token.expand = [token] := by
    intro _ htoken
    rcases mem_ofText_cases htoken with ⟨_, rfl⟩ | ⟨_, rfl⟩ | rfl <;> rfl
  rw [flatMap_def, map_congr_left hone, ← flatMap_def, flatMap_singleton']

theorem splitLine_eq_expand {line} (h : standsAlone (trim line)) :
    splitLine line = (ofLine line).flatMap expand := by
  unfold splitLine ofLine
  by_cases hblank : (trim line).isEmpty
  · simp [hblank, expand]
  · cases hinline : inlineRule? (trim line) with
    | none =>
      have hsame := flatMap_expand_ofText (trim line)
      unfold ofText at hsame ⊢
      simp [hblank, hinline, hsame]
    | some =>
      obtain ⟨_, _, hparts⟩ := exists_inline hinline
      obtain ⟨hhides, hrun, hbody⟩ := (hparts.standsAlone_iff hinline).mp h
      simpa [hblank, hinline] using hparts.ofText_eq hhides hrun hbody

end Token

/-! ### The machine -/

namespace Flattener

theorem run_declarations {frame outer} {m : Flattener}
    (hstack : m.stack = frame :: outer) (hblank : m.previousBlank = false) (line : Nat)
    (texts : List Text) (rest : List (Nat × Token)) :
    m.run (numbered line (texts.map .declaration) ++ rest) =
      ({ m with stack :=
          { frame with segment := frame.segment ++ texts.map trim } :: outer } : Flattener).run
        rest := by
  induction texts generalizing m frame with
  | nil =>
    obtain ⟨stack, _, _, _⟩ := m
    obtain rfl : stack = frame :: outer := hstack
    simp [numbered]
  | cons text _ ih =>
    have hstep : m.step line (.declaration text) =
        ({ m with stack := { frame with segment := frame.segment ++ [trim text] } :: outer },
          none) := by
      simp only [step, declare_of_open hstack, after]
      rw [← hblank]
    rw [map_cons, numbered, map_cons, cons_append, run_cons_of_step hstep]
    refine (ih (m := { m with stack := _ }) rfl hblank).trans ?_
    simp [append_assoc]

theorem run_expand (m : Flattener) (line : Nat) (token : Token) (rest : List (Nat × Token)) :
    m.run (numbered line token.expand ++ rest) = m.run ((line, token) :: rest) := by
  cases token with
  | blank | «open» | close | declaration => rfl
  | inlineRule selector body =>
    have hopened : ({ m.openRule selector with previousBlank := false } : Flattener).stack =
        { kind := m.parted.frameKind selector } :: m.parted.stack := rfl
    have hopen : m.step line (.open selector) =
        ({ m.openRule selector with previousBlank := false }, none) := rfl
    have htokens : numbered line (expand (.inlineRule selector body)) ++ rest =
        (line, .open selector) :: (numbered line ((splitDeclarations body).map .declaration) ++
          (line, .close) :: rest) := by
      simp [expand, numbered, declarations]
    rw [htokens, run_cons_of_step hopen, run_declarations hopened rfl, map_trim_splitDeclarations,
      run_cons_of_step (m := m) (by rw [step, inlineRule_eq]; rfl)]
    refine run_cons_of_step ?_ rest
    simp [step, closeRule, closeImplicit, topImplicit, pop_eq, after, openRule_eq]

theorem run_flatMap_expand (m : Flattener) (tokens : List (Nat × Token)) :
    m.run (tokens.flatMap fun (line, token) => numbered line token.expand) = m.run tokens := by
  induction tokens generalizing m with
  | nil => rfl
  | cons token _ ih =>
    obtain ⟨line, token⟩ := token
    rw [flatMap_cons, run_expand, run, run]
    cases m.step line token with
    | mk next error =>
      cases error with
      | none => exact ih next
      | some => rfl

end Flattener

/-- The flat rules of a text every line of which is taken apart at its braces. -/
def flattenSplit (s : Text) (root : Option Text) : Except Error (List Rule) :=
  ((start root).run (ofLinesBy splitLine [] 1 (lines s))).map
    finish

/-! ### Texts of whole lines -/

namespace Token

theorem ofLinesBy_expand (pending : List Text) (n : Nat) (lines : List Text) :
    ofLinesBy (fun line => (ofLine line).flatMap expand) pending n lines =
      (ofLines pending n lines).flatMap fun (line, token) => numbered line token.expand := by
  have hnumbered : ∀ (n : Nat) (tokens : List Token),
      (numbered n tokens).flatMap (fun (line, token) => numbered line token.expand) =
        numbered n (tokens.flatMap expand) := by
    simp [numbered, flatMap_map, map_flatMap]
  have hheld : ∀ (n : Nat) (pending : List Text),
      numbered n (expand (held pending)) = [(n, held pending)] := fun _ _ => rfl
  induction lines generalizing pending n with
  | nil =>
    simp only [ofLinesBy, ofLines]
    split
    · rfl
    · simp [hheld]
  | cons _ _ ih =>
    simp only [ofLinesBy, ofLines, ih]
    split
    · rfl
    · split
      · rw [flatMap_append, hnumbered]
      · split
        · rw [flatMap_append, flatMap_cons, hnumbered]
          rfl
        · rw [flatMap_append, hnumbered]

theorem wholeLines_spec {pending lines}
    (hpending : ∀ line ∈ pending, Waits line ∧ '\n' ∉ line) (hlines : ∀ line ∈ lines, '\n' ∉ line)
    {line} (hline : line ∈ wholeLines pending lines) :
    trim line = line ∧ '\n' ∉ line ∧ continues line = false := by
  induction lines generalizing pending with
  | nil => simp [wholeLines] at hline
  | cons raw rest ih =>
    have hraw : '\n' ∉ trim raw := fun hc => hlines raw (by simp) (mem_of_mem_trim hc)
    have hrest : ∀ line ∈ rest, '\n' ∉ line := fun line hline => hlines line (by simp [hline])
    simp only [wholeLines] at hline
    split at hline
    · rename_i hcontinues
      refine ih (fun l hl => ?_) hrest hline
      rcases mem_append.mp hl with hl | hl
      · exact hpending l hl
      · obtain rfl : l = trim raw := by simpa using hl
        exact ⟨⟨trim_trim raw, hcontinues⟩, hraw⟩
    · rename_i hcontinues
      split at hline
      · rcases mem_cons.mp hline with rfl | hline
        · exact ⟨trim_trim raw, hraw, by simpa using hcontinues⟩
        · exact ih (by simp) hrest hline
      · rename_i hjoins
        rcases mem_cons.mp hline with rfl | hline
        · simp only [Bool.or_eq_true, List.isEmpty_iff, not_or] at hjoins
          obtain ⟨⟨hne, hraw_ne⟩, -⟩ := hjoins
          have hwaits := waits_joinWith hne fun l hl => (hpending l hl).1
          have hjoined_ne : joinWith [' '] pending ≠ [] := by
            intro hnil
            have hlast := ((continues_iff _).mp hwaits.2).1
            simp [hnil] at hlast
          refine ⟨?_, ?_, ?_⟩
          · simpa using trim_between [' '] hwaits.1 (trim_trim raw) hjoined_ne hraw_ne
          · simp only [mem_append, mem_cons, not_or]
            refine ⟨fun hc => ?_, by decide, hraw⟩
            rcases mem_joinWith hc with hc | ⟨l, hl, hc⟩
            · exact absurd hc (by decide)
            · exact (hpending l hl).2 hc
          · rw [Bool.eq_false_iff]
            intro hboth
            obtain ⟨hlast, hopen, hclose⟩ := (continues_iff _).mp hboth
            rw [append_cons, getLast?_append_of_ne_nil _ hraw_ne] at hlast
            refine hcontinues ((continues_iff _).mpr
              ⟨hlast, fun hc => hopen ?_, fun hc => hclose ?_⟩)
            · simp [hc]
            · simp [hc]
        · exact ih (by simp) hrest hline

end Token

theorem lines_singleton {line} (hne : line ≠ []) (hline : '\n' ∉ line) : lines line = [line] := by
  have hpieces : pieces line = [line] := splitOn_of_not_mem hline
  cases line with
  | nil => exact absurd rfl hne
  | cons => simp [lines, hpieces]

theorem flattenRules_of_standsAlone {s} (h : ∀ line ∈ wholeLines [] (lines s), standsAlone line)
    (root : Option Text) : flattenRules s root = flattenSplit s root := by
  have hread : ∀ line ∈ wholeLines [] (lines s),
      (ofLine line).flatMap expand = splitLine line := by
    intro line hline
    obtain ⟨htrim, -, -⟩ :=
      wholeLines_spec (by simp) (fun _ => not_mem_of_mem_lines) hline
    refine (splitLine_eq_expand ?_).symm
    rw [htrim]
    exact h line hline
  rw [flattenRules, flattenSplit, tokenize, ← run_flatMap_expand,
    ← ofLinesBy_expand, ofLinesBy_congr hread]

/-! ### A line that does not stand alone -/

namespace Flattener

/-- Without a root selector nothing can come before the first rule opens. -/
theorem exists_error_of_start {tokens} (h : ∃ text rest, tokens = declarations text ++ rest ∧
      (rest.head? = some .close ∨ splitDeclarations text ≠ [])) (n : Nat) :
    ∃ e, (start none).run (numbered n tokens) = .error e := by
  obtain ⟨text, _, rfl, hrest⟩ := h
  cases hsplit : splitDeclarations text with
  | nil =>
    rcases hrest with hrest | hne
    · obtain ⟨others, rfl⟩ := head?_eq_some_iff.mp hrest
      exact ⟨.unbalancedBraces n, by simp [declarations, hsplit]; rfl⟩
    · exact absurd hsplit hne
  | cons =>
    exact ⟨.strayDeclaration n, by simp [declarations, hsplit]; rfl⟩

theorem finish_open_declarations (head t : Text) (n : Nat) :
    ((start none).run (numbered n (.open head :: declarations t))).map finish =
      .ok (waiting [{ kind := (start none).frameKind head, segment := splitDeclarations t }]) := by
  have hopen : (start none).step n (.open head) =
      ({ start none with stack := [{ kind := (start none).frameKind head }] }, none) := rfl
  have hrun := run_declarations
    (m := { start none with stack := [{ kind := (start none).frameKind head }] }) rfl rfl n
    (splitDeclarations t) []
  rw [append_nil, map_trim_splitDeclarations] at hrun
  rw [numbered, map_cons, run_cons_of_step hopen, ← numbered, declarations,
    hrun]
  simp only [run, Except.map]
  rw [finish_eq (by simp [Tidy])]
  rfl

end Flattener

theorem sum_close_splitDeclarations (t : Text) :
    ((splitDeclarations t).map (List.countP (· == '\x7d'))).sum = t.countP (· == '\x7d') := by
  have hblank : ∀ c, isBlank c → (c == '\x7d') = false := by
    intro c hc
    rw [beq_eq_false_iff_ne]
    rintro rfl
    exact absurd hc (by decide)
  have hsolid := congrArg (List.countP (· == '\x7d')) (solid_declarations t)
  rw [countP_solid hblank (by decide), countP_solid hblank (by decide)] at hsolid
  simpa [declarations, flatMap_map, written] using hsolid

namespace Token.Inline

variable {line head body : Text} {token : Token}

section

variable (h : Inline line head body token)

include h

theorem ne_nil : line ≠ [] := by
  simp [h.line_eq]

theorem continues_eq : continues line = false := by
  have hconcat : line = (head ++ '\x7b' :: body) ++ ['\x7d'] := by simp [h.line_eq]
  exact continues_of_last (by rw [hconcat, getLast?_concat]; decide)

theorem ofLine_eq (hline : inlineRule? line = some token)
    (htrim : trim line = line) : ofLine line = [token] := by
  have hne : line.isEmpty = false := by simp [h.line_eq]
  simp [ofLine, htrim, hline, hne]

theorem flattenRules_eq (hline : inlineRule? line = some token)
    (htrim : trim line = line) (hfeed : '\n' ∉ line) :
    flattenRules line none = .ok (waiting
      [{ kind := (start none).frameKind (trim head),
         segment := splitDeclarations (trim body) }]) := by
  have htokens : tokenize line = [(1, token)] := by
    rw [tokenize, lines_singleton h.ne_nil hfeed, ofLines_cons (by rw [htrim, h.continues_eq]),
      h.ofLine_eq hline htrim]
    rfl
  rw [flattenRules, htokens, h.token_eq, Flattener.run,
    show (start none).step 1 (.inlineRule (trim head) (trim body)) = _ by
      rw [step, inlineRule_eq]]
  rfl

theorem eq_of_cut {a b}
    (hcut : line = a ++ '\x7b' :: b) : a = head ∧ b = body ++ ['\x7d'] := by
  have hone : line.count '\x7b' = 1 := by
    simp [h.line_eq, count_eq_zero.mpr h.head_open, count_eq_zero.mpr h.body_open]
  have ha : '\x7b' ∉ a := by
    intro hmem
    have hpos := count_pos_iff.mpr hmem
    rw [hcut, count_append, count_cons_self] at hone
    omega
  have hsplit := splitAtChar_append b ha
  rw [← hcut, h.line_eq, splitAtChar_append _ h.head_open] at hsplit
  simpa [eq_comm] using hsplit

theorem flattenSplit_eq (htrim : trim line = line)
    (hfeed : '\n' ∉ line) :
    flattenSplit line none =
      ((start none).run (numbered 1 (ofText line))).map finish := by
  have hempty : line.isEmpty = false := by simp [h.line_eq]
  simp [flattenSplit, lines_singleton h.ne_nil hfeed, ofLinesBy, htrim, h.continues_eq, splitLine,
    hempty]

/-- A rule on one line that does not stand alone makes a difference already as a text of its own:
taken apart, it fails, or it declares its closing brace. -/
theorem flattenSplit_ne (hline : inlineRule? line = some token)
    (htrim : trim line = line) (hfeed : '\n' ∉ line) (halone : standsAlone line = false) :
    flattenRules line none ≠ flattenSplit line none := by
  rw [h.flattenRules_eq hline htrim hfeed, h.flattenSplit_eq htrim hfeed]
  have hfails : (∃ e, (start none).run (numbered 1 (ofText line)) = .error e) →
      ∀ rules, Except.ok rules ≠
        ((start none).run (numbered 1 (ofText line))).map finish := by
    rintro ⟨e, he⟩ _
    simp [he, Except.map]
  rcases hides_or_cut isBrace {} line with hhides | ⟨a, c, b, hcut, hc, ha, hrun⟩
  · refine hfails (exists_error_of_start ⟨line, [], by simp [ofText_of_hides hhides],
      .inr fun hnil => ?_⟩ 1) _
    have hbraces := sum_close_splitDeclarations line
    rw [hnil, h.line_eq] at hbraces
    simp at hbraces
  · rcases (by simpa [isBrace] using hc : c = '\x7b' ∨ c = '\x7d') with rfl | rfl
    · obtain ⟨rfl, rfl⟩ := h.eq_of_cut hcut
      have hbody : (Scanner.run {} body).atTop = false := by
        rw [Bool.eq_false_iff]
        intro htop
        rw [(h.standsAlone_iff hline).mpr ⟨ha, hrun, (atTop_iff _).mp htop⟩] at halone
        cases halone
      have hhides : hides isBrace {} (body ++ ['\x7d']) := by
        simp [h.hides_body, hides, hbody]
      rw [hcut, ofText_open _ ha hrun, ofText_of_hides hhides, finish_open_declarations]
      intro heq
      have hsame := congrArg (List.flatMap Rule.declarations) (Except.ok.inj heq)
      rw [flatMap_waiting, flatMap_waiting] at hsame
      simp only [Flattener.segment] at hsame
      have hbraces := sum_close_splitDeclarations (body ++ ['\x7d'])
      rw [← hsame, sum_close_splitDeclarations] at hbraces
      have hnone : (trim body).countP (· == '\x7d') = 0 := by
        rw [countP_eq_zero]
        intro d hd he
        obtain rfl : d = '\x7d' := by simpa using he
        exact h.body_close (mem_of_mem_trim hd)
      simp [hnone] at hbraces
    · refine hfails (exists_error_of_start ⟨a, .close :: ofText b, ?_, .inl rfl⟩ 1) _
      rw [hcut, ofText_close b ha hrun]

end

end Token.Inline

/-- A text whose lines all stand alone gives the same rules, or the same error, when every line is
taken apart at its braces. And a line that does not stand alone is by itself a text on which the two
readings differ. -/
theorem flattenRules_eq_flattenSplit (s : Text) (root : Option Text) :
    ((∀ line ∈ Token.wholeLines [] (Text.lines s), Token.standsAlone line = true) →
      flattenRules s root = flattenSplit s root) ∧
    ∀ line ∈ Token.wholeLines [] (Text.lines s),
      (flattenRules line none = flattenSplit line none ↔ Token.standsAlone line = true) := by
  refine ⟨fun h => flattenRules_of_standsAlone h root, fun line hline => ?_⟩
  obtain ⟨htrim, hfeed, hcontinues⟩ :=
    Token.wholeLines_spec (by simp) (fun _ => Text.not_mem_of_mem_lines) hline
  constructor
  · intro heq
    by_contra halone
    rw [Bool.not_eq_true] at halone
    cases hinline : Token.inlineRule? line with
    | none =>
      unfold Token.standsAlone at halone
      split at halone
      · cases halone
      · simp [hinline] at halone
    | some =>
      obtain ⟨_, _, hparts⟩ := Token.exists_inline hinline
      exact hparts.flattenSplit_ne hinline htrim hfeed halone heq
  · intro halone
    by_cases hne : line = []
    · subst hne
      rfl
    · refine flattenRules_of_standsAlone (fun l hl => ?_) none
      obtain rfl : l = line := by
        simpa [lines_singleton hne hfeed, Token.wholeLines, htrim, hcontinues] using hl
      exact halone

/-- A rule on one line inside another rule, with a semicolon in a quoted value. -/
theorem flattenRules_eq_flattenSplit_nested :
    let s : Text := ['a', '\x7b', '\n', 'b', ' ', '\x7b', 'c', ':', '"', ';', '"', ';', 'd',
      '\x7d', '\n', '\x7d']
    (∀ line ∈ Token.wholeLines [] (Text.lines s), Token.standsAlone line = true) ∧
      flattenRules s none = flattenSplit s none := by
  intro s
  have halone : ∀ line ∈ Token.wholeLines [] (Text.lines s), Token.standsAlone line = true := by
    decide
  exact ⟨halone, (flattenRules_eq_flattenSplit s none).1 halone⟩

/-- A line that closes a rule and holds the next one is read as one rule whose selector has the
closing brace. -/
theorem flattenRules_ne_flattenSplit :
    let s : Text := ".a \x7b\n  color: red;\n\x7d .b \x7b margin: 0; \x7d".toList
    flattenRules s none ≠ flattenSplit s none ∧
      flattenRules s none = .ok [⟨".a".toList, ["color: red;".toList], []⟩,
        ⟨".a \x7d .b".toList, ["margin: 0;".toList], []⟩] ∧
      flattenSplit s none = .ok [⟨".a".toList, ["color: red;".toList], []⟩,
        ⟨".b".toList, ["margin: 0;".toList], []⟩] := by
  decide +kernel

end Sveltify.Style
