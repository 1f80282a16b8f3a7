import Sveltify.Proofs.Style.Line

/-! Nothing is lost when style text falls apart into tokens. A text is compared with its tokens by
its solid part, the characters that are neither blanks nor semicolons: each way in which the text is
cut keeps that part and its order. -/

namespace Sveltify.Style

open List hiding splitOn
open Text

/-- The characters of a text that are neither blanks nor semicolons. -/
def solid (t : Text) : Text :=
  t.filter fun c => !(isBlank c || c == ';')

@[simp] theorem solid_nil : solid [] = [] := rfl

@[simp] theorem solid_append (s t : Text) : solid (s ++ t) = solid s ++ solid t :=
  filter_append ..

theorem solid_cons (c : Char) (t : Text) :
    solid (c :: t) = (if isBlank c || c == ';' then [] else [c]) ++ solid t := by
  rw [solid, filter_cons]
  cases isBlank c || c == ';' <;> rfl

theorem solid_blanks {t} (h : ∀ c ∈ t, isBlank c) : solid t = [] := by
  simp only [solid, filter_eq_nil_iff]
  intro c hc
  simp [h c hc]

@[simp] theorem solid_trim (t : Text) : solid (trim t) = solid t := by
  obtain ⟨before, after, ht, hbefore, hafter⟩ := exists_trim t
  have hsolid : solid t = solid (before ++ trim t ++ after) := by rw [← ht]
  simp [hsolid, solid_blanks hbefore, solid_blanks hafter]

theorem countP_solid {p} (hblank : ∀ c, isBlank c → p c = false)
    (hsemicolon : p ';' = false) (t : Text) : (solid t).countP p = t.countP p := by
  rw [solid, countP_filter]
  refine countP_congr fun c _ => ?_
  cases hc : isBlank c with
  | true => simp [hblank c hc]
  | false =>
    by_cases h : c = ';'
    · simp [h, hsemicolon]
    · simp [h]

theorem solid_joinWith {sep} (hsep : isBlank sep) (parts : List Text) :
    solid (joinWith [sep] parts) = parts.flatMap solid := by
  induction parts with
  | nil => rfl
  | cons _ rest ih =>
    cases rest with
    | nil => simp [joinWith]
    | cons =>
      rw [joinWith, solid_append, ih]
      · simp [solid_cons, hsep]
      · simp

theorem flatMap_solid_splitOn {sep} (hsep : isBlank sep) (s : Text) :
    (splitOn sep s).flatMap solid = solid s := by
  induction s with
  | nil => rfl
  | cons c s ih =>
    rw [splitOn, solid_cons, ← ih]
    split
    · next hc =>
      obtain rfl : c = sep := by simpa using hc
      simp [hsep]
    · split
      · next hnil => exact absurd hnil (splitOn_ne_nil sep s)
      · next hcons => simp [hcons, solid_cons]

theorem flatMap_solid_lines (s : Text) : (lines s).flatMap solid = solid s := by
  have hreturn : ∀ line, solid (dropReturn line) = solid line := by
    intro _
    rw [← solid_trim, trim_dropReturn, solid_trim]
  have hpieces : (pieces s).flatMap solid = solid s := flatMap_solid_splitOn (by decide) s
  obtain ⟨init, last, hlast⟩ : ∃ init last, pieces s = init ++ [last] := by
    rcases eq_nil_or_concat (pieces s) with hnil | ⟨init, last, hconcat⟩
    · exact absurd hnil (splitOn_ne_nil _ s)
    · exact ⟨init, last, by rw [hconcat, concat_eq_append]⟩
  have hinit : (init.map dropReturn).flatMap solid = init.flatMap solid := by
    simp [flatMap_map, hreturn]
  rw [← hpieces, lines, hlast]
  cases last with
  | nil => simpa using hinit
  | cons => simpa using hinit

namespace Token

/-- A token as it stands in a text. -/
def written : Token → Text
  | .blank => []
  | .open head => head ++ ['\x7b']
  | .close => ['\x7d']
  | .declaration text => text
  | .inlineRule selector body => selector ++ '\x7b' :: body ++ ['\x7d']

/-! ### The text of tokens -/

theorem solid_declarations (t : Text) : solid ((declarations t).flatMap written) = solid t := by
  have hsemicolon : solid [';'] = [] := by decide
  rw [declarations, flatMap_map]
  induction t using declarations_induction with
  | hides t ht =>
    rw [splitDeclarations_of_hides ht]
    split
    · next hblank => simpa [hblank] using solid_trim t
    · simp [written]
  | cut a b ha hrun ih =>
    have htext : solid (a ++ ';' :: b) = solid (trim (a ++ [';'])) ++ solid b := by
      simp [solid_cons]
    rw [htext, splitDeclarations_cut b ha hrun, flatMap_append, solid_append, ih]
    split
    · next hlone => simp [hlone, hsemicolon]
    · simp [written]

theorem solid_ofText (t : Text) : solid ((ofText t).flatMap written) = solid t := by
  induction t using braces_induction with
  | hides t ht => rw [ofText_of_hides ht, solid_declarations]
  | opens a b ha hrun ih =>
    simp [ofText_open b ha hrun, written, ih, solid_cons]
  | closes a b ha hrun ih =>
    simp [ofText_close b ha hrun, solid_declarations, written, ih, solid_cons]

theorem solid_ofLine (line : Text) : solid ((ofLine line).flatMap written) = solid line := by
  rw [← solid_trim line]
  unfold ofLine
  dsimp only
  split
  · next hblank => simp [List.isEmpty_iff.1 hblank, written]
  split
  · next token hinline =>
    obtain ⟨_, _, htrim, -, -, -, -, rfl⟩ := inlineRule_eq_some hinline
    simp [htrim, written, solid_cons]
  · exact solid_ofText (trim line)

theorem solid_reads (pending lines : List Text) :
    solid ((reads pending lines).flatMap written) = (pending ++ lines).flatMap solid := by
  have hjoin : ∀ parts, solid (joinWith [' '] parts) = parts.flatMap solid :=
    solid_joinWith (by decide)
  have hspace : isBlank ' ' := by decide
  induction lines generalizing pending with
  | nil =>
    rw [reads]
    split
    · simp_all
    · simp [held, written, hjoin]
  | cons _ _ ih =>
    simp only [reads]
    split
    · simp [ih]
    split
    · simp_all [solid_ofLine]
    split
    · simp [held, written, hjoin, solid_ofLine, ih]
    · simp [solid_ofLine, hjoin, solid_cons, hspace, ih]

/-! ### The numbers of lines -/

/-- Numbers that do not fall, between two bounds. -/
def Climbs (low high : Nat) (ns : List Nat) : Prop :=
  ns.Pairwise (· ≤ ·) ∧ ∀ k ∈ ns, low ≤ k ∧ k ≤ high

theorem Climbs.numbered {n high ns} (h : Climbs n high ns) (hn : n ≤ high)
    {low} (hlow : low ≤ n) (tokens : List Token) :
    Climbs low high ((numbered n tokens).map Prod.fst ++ ns) := by
  have hfirst : ∀ k ∈ (Token.numbered n tokens).map Prod.fst, k = n := by
    simp [Token.numbered]
  refine ⟨pairwise_append.2 ⟨?_, h.1, fun a ha b hb => hfirst a ha ▸ (h.2 b hb).1⟩, ?_⟩
  · exact pairwise_of_forall_mem_list fun a ha b hb => by rw [hfirst a ha, hfirst b hb]
  · intro k hk
    rcases mem_append.1 hk with hk | hk
    · exact hfirst k hk ▸ ⟨hlow, hn⟩
    · exact ⟨hlow.trans (h.2 k hk).1, (h.2 k hk).2⟩

/-- The tokens after line `n` have the numbers of the lines that they are on, and those held back
may have that of the last line before. -/
theorem climbs_ofLines {low n pending} (hlow : low ≤ n + 1)
    (hpending : pending ≠ [] → low ≤ n) (lines : List Text) :
    Climbs low (n + lines.length) ((ofLines pending (n + 1) lines).map Prod.fst) := by
  induction lines generalizing low n pending with
  | nil =>
    rw [ofLines]
    split
    · simp [Climbs]
    · next hne => simpa [Climbs] using hpending (by simpa using hne)
  | cons raw rest ih =>
    have hlength : n + (raw :: rest).length = n + 1 + rest.length := by
      rw [length_cons]
      omega
    have hrest : Climbs (n + 1) (n + 1 + rest.length)
        ((ofLines [] (n + 1 + 1) rest).map Prod.fst) := ih (by omega) (by simp)
    have hstep := fun tokens => hrest.numbered (by omega) hlow tokens
    rw [hlength]
    simp only [ofLines]
    split
    · exact ih (by omega) fun _ => hlow
    split
    · simpa using hstep _
    split
    · simpa [Token.numbered] using hstep (held pending :: ofLine (trim raw))
    · simpa using hstep _

/-- The tokens of a text, written in order, are the text up to blanks and semicolons, and their line
numbers do not fall and are those of lines of the text. -/
theorem tokenize_lossless (s : Text) :
    solid ((tokenize s).flatMap (·.2.written)) = solid s ∧
    ((tokenize s).map Prod.fst).Pairwise (· ≤ ·) ∧
    ∀ token ∈ tokenize s, 1 ≤ token.1 ∧ token.1 ≤ (Text.lines s).length := by
  obtain ⟨hclimbs, hbounds⟩ : Climbs 1 (0 + (Text.lines s).length) ((tokenize s).map Prod.fst) :=
    climbs_ofLines (by simp) (by simp) (Text.lines s)
  refine ⟨?_, hclimbs, fun token htoken => ?_⟩
  · rw [← List.flatMap_map, tokenize, map_snd_ofLines, solid_reads]
    exact flatMap_solid_lines s
  · simpa using hbounds token.1 (List.mem_map_of_mem htoken)

end Token

end Sveltify.Style
