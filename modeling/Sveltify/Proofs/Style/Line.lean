import Sveltify.Proofs.Style.Splitting
import Sveltify.Proofs.Style.Token

/-! What one line can give. A text falls apart at its braces and then at its semicolons, so every
fact about the tokens of a line follows from the first place where it is cut. -/

namespace Sveltify.Style

open List
open Text (isBlank joinWith mem_of_mem_trim trim trim_trim)
open Scanner

theorem braces_induction {motive : Text → Prop} (hides : ∀ t, Scanner.hides isBrace {} t → motive t)
    (opens : ∀ a b, Scanner.hides isBrace {} a → Scanner.run {} a = {} → motive b →
      motive (a ++ '\x7b' :: b))
    (closes : ∀ a b, Scanner.hides isBrace {} a → Scanner.run {} a = {} → motive b →
      motive (a ++ '\x7d' :: b)) (t : Text) : motive t := by
  refine cuts_induction hides (fun a c b hc => ?_) t
  rcases (by simpa [isBrace] using hc : c = '\x7b' ∨ c = '\x7d') with rfl | rfl
  · exact opens a b
  · exact closes a b

namespace Token

def ofText (t : Text) : List Token :=
  ofBraces (splitBraces {} t).1 (splitBraces {} t).2

theorem ofText_of_hides {t} (h : Scanner.hides isBrace {} t) :
    ofText t = declarations t := by
  rw [ofText, splitBraces_of_hides h]
  rfl

theorem ofText_open {a} (b : Text) (h : Scanner.hides isBrace {} a)
    (hrun : Scanner.run {} a = {}) : ofText (a ++ '\x7b' :: b) = .open (trim a) :: ofText b := by
  rw [ofText, splitBraces_open b h hrun]
  rfl

theorem ofText_close {a} (b : Text) (h : Scanner.hides isBrace {} a)
    (hrun : Scanner.run {} a = {}) :
    ofText (a ++ '\x7d' :: b) = declarations a ++ .close :: ofText b := by
  rw [ofText, splitBraces_close b h hrun]
  rfl

theorem ofText_nil : ofText [] = [] := rfl

theorem ofLine_cases (line : Text) :
    ofLine line = [.blank] ∨
      (∃ token, inlineRule? (trim line) = some token ∧ ofLine line = [token]) ∨
      (inlineRule? (trim line) = none ∧ ofLine line = ofText (trim line)) := by
  unfold ofLine
  cases hline : (trim line).isEmpty with
  | true => simp [hline]
  | false =>
    cases hinline : inlineRule? (trim line) with
    | some => simp [hline, hinline]
    | none => simp [hline, hinline, ofText]

@[simp] theorem flatMap_texts_declarations (s : Text) :
    (declarations s).flatMap texts = splitDeclarations s := by
  rw [declarations, flatMap_map]
  exact map_eq_flatMap.symm.trans (map_trim_splitDeclarations s)

end Token

/-! ### The texts of a line -/

/-- A text that flattening can have read as a declaration. -/
structure IsDeclared (text : Text) : Prop where
  ne_nil : text ≠ []
  trimmed : trim text = text
  hidden : Scanner.hides isBrace {} text = true
  uncut_or_continues : (Scanner.hides (· == ';') {} text.dropLast = true ∧ text ≠ [';']) ∨
    Token.continues text = true

theorem hides_dropLast {p t} {s : Scanner} (h : s.hides p t) :
    s.hides p t.dropLast := by
  rcases eq_nil_or_concat t with rfl | ⟨_, c, rfl⟩
  · rfl
  · rw [concat_eq_append, hides_append, Bool.and_eq_true] at h
    simpa using h.1

theorem isDeclared_of_mem_splitDeclarations {s d : Text} (hs : Scanner.hides isBrace {} s)
    (h : d ∈ splitDeclarations s) : IsDeclared d := by
  obtain ⟨_, a, _, hbefore, ha, ⟨rfl, rfl, hne⟩ | ⟨rfl, hrun, rfl, hlone⟩⟩ :=
    exists_of_mem_splitDeclarations h
  · rw [hides_append, Bool.and_eq_true, hbefore] at hs
    have hhides := hides_trim ha
    refine ⟨hne, trim_trim a, hides_trim hs.2,
      .inl ⟨hides_dropLast hhides, fun hlone => ?_⟩⟩
    rw [hlone] at hhides
    exact absurd hhides (by decide)
  · rw [hides_append, hides_append, Bool.and_eq_true, Bool.and_eq_true,
      hbefore] at hs
    have hconcat := Text.trim_concat a (show isBlank ';' = false by decide)
    refine ⟨by simp [hconcat], trim_trim _, hides_trim ?_, .inl ⟨?_, hlone⟩⟩
    · rw [hides_append, hs.2.1, hrun]
      decide
    · rw [hconcat, dropLast_concat]
      exact hides_trimStart ha

namespace Token

/-- What a line can give: declarations that flattening can have read, and balanced heads. -/
def Sane : Token → Prop
  | .open head => trim head = head ∧ Scanner.hides isBrace {} head = true ∧
      Scanner.run {} head = {}
  | token => ∀ text ∈ token.texts, IsDeclared text

variable {token : Token} {pending : List Text} {text t : Text} {c : Char}

theorem sane_of_mem_declarations (ht : Scanner.hides isBrace {} t)
    (h : token ∈ declarations t) : token.Sane := by
  obtain ⟨d, hd, rfl⟩ := mem_map.mp h
  have hdeclared := isDeclared_of_mem_splitDeclarations ht hd
  intro text htext
  obtain rfl : text = d := by simpa [texts, hdeclared.trimmed] using htext
  exact hdeclared

theorem exists_of_mem_ofText (h : token ∈ ofText t) : token = .close ∨
    ∃ before a after, t = before ++ a ++ after ∧ Scanner.hides isBrace {} a ∧
      (token ∈ declarations a ∨ (Scanner.run {} a = {} ∧ token = .open (trim a))) := by
  induction t using braces_induction with
  | hides t ht =>
    rw [ofText_of_hides ht] at h
    exact .inr ⟨[], t, [], by simp, ht, .inl h⟩
  | opens a b ha hrun ih =>
    rw [ofText_open b ha hrun] at h
    rcases mem_cons.mp h with rfl | h
    · exact .inr ⟨[], a, '\x7b' :: b, rfl, ha, .inr ⟨hrun, rfl⟩⟩
    · refine (ih h).imp_right ?_
      rintro ⟨before, c, after, rfl, hc⟩
      exact ⟨a ++ '\x7b' :: before, c, after, by simp, hc⟩
  | closes a b ha hrun ih =>
    rw [ofText_close b ha hrun, mem_append, mem_cons] at h
    rcases h with h | h | h
    · exact .inr ⟨[], a, '\x7d' :: b, rfl, ha, .inl h⟩
    · exact .inl h
    · refine (ih h).imp_right ?_
      rintro ⟨before, c, after, rfl, hc⟩
      exact ⟨a ++ '\x7d' :: before, c, after, by simp, hc⟩

theorem sane_of_mem_ofText (h : token ∈ ofText t) : token.Sane := by
  rcases exists_of_mem_ofText h with rfl | ⟨_, a, _, -, ha, hd | ⟨hrun, rfl⟩⟩
  · simp [Sane, texts]
  · exact sane_of_mem_declarations ha hd
  · exact ⟨trim_trim a, hides_trim ha, by rw [run_trim, hrun]⟩

theorem mem_ofText_cases (h : token ∈ ofText t) :
    (∃ text, token = .declaration text) ∨ (∃ head, token = .open head) ∨ token = .close := by
  rcases exists_of_mem_ofText h with rfl | ⟨_, a, _, -, -, hd | ⟨-, rfl⟩⟩
  · exact .inr (.inr rfl)
  · obtain ⟨text, -, rfl⟩ := mem_map.mp hd
    exact .inl ⟨text, rfl⟩
  · exact .inr (.inl ⟨_, rfl⟩)

variable {lines : List Text} {line raw : Text}

theorem sane_of_mem_ofLine (h : token ∈ ofLine line) : token.Sane := by
  rcases ofLine_cases line with hline | ⟨inline, hinline, hline⟩ | ⟨-, hline⟩
  · obtain rfl : token = .blank := by simpa [hline] using h
    simp [Sane, texts]
  · obtain rfl : token = inline := by simpa [hline] using h
    obtain ⟨_, body, -, -, hopen, hclose, -, rfl⟩ := inlineRule_eq_some hinline
    intro _ htext
    refine isDeclared_of_mem_splitDeclarations (hides_of_forall {} fun c hc => ?_) htext
    have hmem : c ∈ body := mem_of_mem_trim hc
    simp only [isBrace, Bool.or_eq_false_iff, beq_eq_false_iff_ne]
    exact ⟨fun he => hopen (he ▸ hmem), fun he => hclose (he ▸ hmem)⟩
  · rw [hline] at h
    exact sane_of_mem_ofText h

/-! ### Characters -/

def heads : Token → List Text
  | .open head => [head]
  | .inlineRule selector _ => [selector]
  | .blank | .close | .declaration _ => []

theorem mem_of_mem_declarations (htoken : token ∈ declarations t)
    (htext : text ∈ token.heads ++ token.texts) (hc : c ∈ text) : c ∈ t := by
  obtain ⟨d, hd, rfl⟩ := mem_map.mp htoken
  obtain rfl : text = trim d := by simpa [heads, texts] using htext
  exact splitsAt_splitDeclarations.subset_of_mem hd (mem_of_mem_trim hc)

theorem mem_of_mem_ofText (htoken : token ∈ ofText t) (htext : text ∈ token.heads ++ token.texts)
    (hc : c ∈ text) : c ∈ t := by
  rcases exists_of_mem_ofText htoken with rfl | ⟨_, a, _, rfl, -, hd | ⟨-, rfl⟩⟩
  · simp [heads, texts] at htext
  · simp [mem_of_mem_declarations hd htext hc]
  · obtain rfl : text = trim a := by simpa [heads, texts] using htext
    simp [mem_of_mem_trim hc]

theorem mem_of_mem_ofLine (htoken : token ∈ ofLine line)
    (htext : text ∈ token.heads ++ token.texts) (hc : c ∈ text) : c ∈ line := by
  refine mem_of_mem_trim ?_
  rcases ofLine_cases line with hline | ⟨inline, hinline, hline⟩ | ⟨-, hline⟩
  · obtain rfl : token = .blank := by simpa [hline] using htoken
    simp [heads, texts] at htext
  · obtain rfl : token = inline := by simpa [hline] using htoken
    obtain ⟨_, _, hsplit, -, -, -, -, rfl⟩ := inlineRule_eq_some hinline
    rw [hsplit]
    simp only [heads, singleton_append, mem_cons] at htext
    rcases htext with rfl | htext
    · simp [mem_of_mem_trim hc]
    · simp [mem_of_mem_trim (splitsAt_splitDeclarations.subset_of_mem htext hc)]
  · rw [hline] at htoken
    exact mem_of_mem_ofText htoken htext hc

/-! ### Lines held back -/

def Waits (line : Text) : Prop :=
  trim line = line ∧ continues line = true

theorem continues_iff (line : Text) :
    continues line = true ↔ line.getLast? = some ',' ∧ '\x7b' ∉ line ∧ '\x7d' ∉ line := by
  simp [continues, and_assoc]

theorem Waits.append {a b} (ha : Waits a) (hb : Waits b) : Waits (a ++ ' ' :: b) := by
  obtain ⟨hatrim, hacont⟩ := ha
  obtain ⟨hbtrim, hbcont⟩ := hb
  obtain ⟨halast, haopen, haclose⟩ := (continues_iff a).mp hacont
  obtain ⟨hblast, hbopen, hbclose⟩ := (continues_iff b).mp hbcont
  have hane : a ≠ [] := by rintro rfl; simp at halast
  have hbne : b ≠ [] := by rintro rfl; simp at hblast
  have hlast : (a ++ ' ' :: b).getLast? = some ',' := by
    rw [append_cons, getLast?_append_of_ne_nil _ hbne, hblast]
  constructor
  · simpa using Text.trim_between [' '] hatrim hbtrim hane hbne
  · rw [continues_iff]
    exact ⟨hlast, by simp [haopen, hbopen], by simp [haclose, hbclose]⟩

theorem waits_joinWith (hne : pending ≠ []) (h : ∀ line ∈ pending, Waits line) :
    Waits (joinWith [' '] pending) := by
  induction pending with
  | nil => exact absurd rfl hne
  | cons line rest ih =>
    cases rest with
    | nil => exact h line (by simp)
    | cons =>
      have hrest := ih (by simp) fun l hl => h l (mem_cons_of_mem _ hl)
      simpa [joinWith] using (h line (by simp)).append hrest

theorem Waits.isDeclared (h : Waits line) : IsDeclared line := by
  obtain ⟨hlast, hopen, hclose⟩ := (continues_iff line).mp h.2
  refine ⟨by rintro rfl; simp at hlast, h.1, hides_of_forall {} fun c hc => ?_, .inr h.2⟩
  simp only [isBrace, Bool.or_eq_false_iff, beq_eq_false_iff_ne]
  exact ⟨fun he => hopen (he ▸ hc), fun he => hclose (he ▸ hc)⟩

/-! ### Lines without their numbers -/

def reads (pending : List Text) : List Text → List Token
  | [] => if pending.isEmpty then [] else [held pending]
  | raw :: rest =>
    let line := trim raw
    if continues line then reads (pending ++ [line]) rest
    else if pending.isEmpty then ofLine line ++ reads [] rest
    else if line.isEmpty || line.head? == some '\x7d' then
      held pending :: ofLine line ++ reads [] rest
    else ofLine (joinWith [' '] pending ++ ' ' :: line) ++ reads [] rest

theorem map_snd_numbered (n : Nat) (tokens : List Token) :
    (numbered n tokens).map Prod.snd = tokens := by
  simp [numbered, Function.comp_def]

theorem map_snd_ofLines (pending : List Text) (n : Nat) (lines : List Text) :
    (ofLines pending n lines).map Prod.snd = reads pending lines := by
  induction lines generalizing pending n with
  | nil =>
    unfold ofLines reads
    split <;> rfl
  | cons _ _ ih =>
    simp only [ofLines, reads]
    split
    · exact ih _ _
    · split
      · rw [map_append, map_snd_numbered, ih]
      · split
        · rw [map_append, map_cons, map_snd_numbered, ih]
        · rw [map_append, map_snd_numbered, ih]

theorem sane_held (hne : pending ≠ []) (h : ∀ line ∈ pending, Waits line) :
    (held pending).Sane := by
  have hwaits := waits_joinWith hne h
  intro text htext
  obtain rfl : text = joinWith [' '] pending := by
    simpa [held, texts, hwaits.1] using htext
  exact hwaits.isDeclared

theorem mem_reads_cons {rest} (h : token ∈ reads pending (raw :: rest)) :
    (∃ later, (∀ line ∈ later, line ∈ pending ∨ line = trim raw ∧ continues line) ∧
      token ∈ reads later rest) ∨ (pending ≠ [] ∧ token = held pending) ∨
    token ∈ ofLine (trim raw) ∨
    token ∈ ofLine (joinWith [' '] pending ++ ' ' :: trim raw) := by
  simp only [reads] at h
  split at h
  · next hcontinues => exact .inl ⟨_, by simp +contextual [or_imp, hcontinues], h⟩
  split at h
  · rcases mem_append.mp h with h | h
    · exact .inr (.inr (.inl h))
    · exact .inl ⟨[], by simp, h⟩
  next hne =>
  split at h
  · rw [cons_append, mem_cons, mem_append] at h
    rcases h with h | h | h
    · exact .inr (.inl ⟨by simpa using hne, h⟩)
    · exact .inr (.inr (.inl h))
    · exact .inl ⟨[], by simp, h⟩
  · rcases mem_append.mp h with h | h
    · exact .inr (.inr (.inr h))
    · exact .inl ⟨[], by simp, h⟩

/-- A token of lines is from some that were held back, from one of them, or from both. -/
theorem exists_of_mem_reads (h : token ∈ reads pending lines) :
    ∃ waiting, (∀ line ∈ waiting, line ∈ pending ∨
        ∃ raw ∈ lines, line = trim raw ∧ continues line) ∧
      ((waiting ≠ [] ∧ token = held waiting) ∨ ∃ raw ∈ lines, token ∈ ofLine (trim raw) ∨
        token ∈ ofLine (joinWith [' '] waiting ++ ' ' :: trim raw)) := by
  induction lines generalizing pending with
  | nil =>
    unfold reads at h
    split at h
    · simp at h
    · next hne => exact ⟨pending, fun _ => .inl, .inl ⟨by simpa using hne, by simpa using h⟩⟩
  | cons raw _ ih =>
    rcases mem_reads_cons h with ⟨_, hlater, h⟩ | hheld | hline
    · obtain ⟨waiting, hwaiting, hfrom⟩ := ih h
      refine ⟨waiting, fun line hline => ?_, hfrom.imp_right fun ⟨r, hr, h⟩ => ⟨r, .tail _ hr, h⟩⟩
      rcases hwaiting line hline with hline | ⟨r, hr, h⟩
      · exact (hlater line hline).imp_right fun h => ⟨raw, .head _, h⟩
      · exact .inr ⟨r, .tail _ hr, h⟩
    · exact ⟨pending, fun _ => .inl, .inl hheld⟩
    · exact ⟨pending, fun _ => .inl, .inr ⟨raw, .head _, hline⟩⟩

theorem sane_of_mem_reads (hpending : ∀ line ∈ pending, Waits line)
    (h : token ∈ reads pending lines) : token.Sane := by
  obtain ⟨_, hwaiting, ⟨hne, rfl⟩ | ⟨raw, -, h | h⟩⟩ := exists_of_mem_reads h
  · refine sane_held hne fun line hline => (hwaiting line hline).elim (hpending line) ?_
    rintro ⟨raw, -, rfl, hcontinues⟩
    exact ⟨trim_trim raw, hcontinues⟩
  all_goals exact sane_of_mem_ofLine h

/-- A character other than the space that no line has is in no text of their tokens. -/
theorem not_mem_of_mem_reads (hspace : c ≠ ' ') (hpending : ∀ line ∈ pending, c ∉ line)
    (hlines : ∀ line ∈ lines, c ∉ line) (htoken : token ∈ reads pending lines)
    (htext : text ∈ token.heads ++ token.texts) : c ∉ text := by
  have hraw : ∀ raw ∈ lines, c ∉ trim raw := fun raw hraw hc =>
    hlines raw hraw (mem_of_mem_trim hc)
  obtain ⟨waiting, hwaiting, hfrom⟩ := exists_of_mem_reads htoken
  have hjoin : c ∉ joinWith [' '] waiting := by
    intro hc
    rcases Text.mem_joinWith hc with hmem | ⟨line, hline, hmem⟩
    · exact hspace (by simpa using hmem)
    · rcases hwaiting line hline with hline | ⟨raw, hmemRaw, rfl, -⟩
      · exact hpending line hline hmem
      · exact hraw raw hmemRaw hmem
  intro hc
  rcases hfrom with ⟨-, rfl⟩ | ⟨raw, hmem, h | h⟩
  · obtain rfl : text = trim (joinWith [' '] waiting) := by
      simpa [held, heads, texts] using htext
    exact hjoin (mem_of_mem_trim hc)
  · exact hraw raw hmem (mem_of_mem_ofLine h htext hc)
  · have hline := mem_of_mem_ofLine h htext hc
    simp [hjoin, hspace, hraw raw hmem] at hline

/-! Printed lines are never held back, and a closing brace ends what is. -/

theorem reads_cons (h : continues (trim raw) = false) (rest : List Text) :
    reads [] (raw :: rest) = ofLine raw ++ reads [] rest := by
  simp [reads, h, ofLine_trim]

theorem reads_append_end (hcontinues : continues (trim raw) = false)
    (hends : (trim raw).isEmpty || (trim raw).head? == some '\x7d')
    (pending lines rest : List Text) : reads pending (lines ++ raw :: rest) =
      reads pending lines ++ (ofLine (trim raw) ++ reads [] rest) := by
  induction lines generalizing pending with
  | nil => by_cases hne : pending = [] <;> simp_all [reads]
  | cons _ _ ih =>
    simp only [cons_append, reads, ih]
    split
    · rfl
    · split
      · rw [append_assoc]
      · split <;> simp

theorem reads_append_closeLine (pending lines : List Text) (depth : Nat) (rest : List Text) :
    reads pending (lines ++ closeLine depth :: rest) =
      reads pending lines ++ .close :: reads [] rest := by
  have htrim := trim_closeLine depth
  rw [reads_append_end (by rw [htrim]; decide) (by rw [htrim]; decide), htrim]
  rfl

theorem reads_append_blank {blank} (hblank : trim blank = []) (pending lines rest : List Text) :
    reads pending (lines ++ blank :: rest) = reads pending lines ++ .blank :: reads [] rest := by
  rw [reads_append_end (by rw [hblank]; decide) (by rw [hblank]; decide), hblank]
  rfl

theorem reads_map_trim (pending lines : List Text) :
    reads pending (lines.map trim) = reads pending lines := by
  rw [← map_snd_ofLines pending 0, ofLines_map_trim, map_snd_ofLines]

end Token

end Sveltify.Style
