import Sveltify.Proofs.Style.Line

/-! Counting over the tokens of a line. Inside a line only a semicolon or a brace ends a
declaration, so of the declarations of a line only the last one can end with a comma or with a
closing brace, and then the line ends with it too. -/

variable (before : Bool) (t : Text)

namespace Sveltify.Style

open List
open Text (trim trim_trim)
open Scanner

def endsIn (c : Char) (t : Text) : Bool :=
  t.getLast? == some c

theorem endsIn_nil (c : Char) : endsIn c [] = false := rfl

theorem endsIn_concat (c d : Char) (t : Text) : endsIn c (t ++ [d]) = (d == c) := by
  simp [endsIn]

variable {c : Char}

/-- A text ends as a trailing part of it does that is not blank. -/
theorem endsIn_trim_append (s : Text) {t} (h : endsIn c (trim t)) :
    endsIn c (trim (s ++ t)) := by
  have hne : trim t ≠ [] := by
    intro hnil
    simp [hnil, endsIn_nil] at h
  unfold endsIn
  rw [Text.getLast?_trim_append s hne]
  exact h

theorem endsIn_trim_cons (a : Text) (d : Char) {t} (h : endsIn c (trim t)) :
    endsIn c (trim (a ++ d :: t)) := by
  rw [append_cons]
  exact endsIn_trim_append _ h

theorem toNat_endsIn_le (c : Char) (a : Text) (d : Char) (t : Text) :
    (endsIn c (trim t)).toNat ≤ (endsIn c (trim (a ++ d :: t))).toNat := by
  cases h : endsIn c (trim t) with
  | false => simp
  | true => simp [endsIn_trim_cons a d h]

theorem endsIn_trim_semicolon (hc : c ≠ ';') (a : Text) : endsIn c (trim (a ++ [';'])) = false := by
  rw [Text.trim_concat a (by decide), endsIn_concat]
  simpa using Ne.symm hc

namespace Token

/-! ### Commas -/

/-- The number of declarations that end with a comma and have another one right behind them;
`before` says that such a declaration stands in front of the tokens. -/
def commaPairs (before : Bool) : List Token → Nat
  | [] => 0
  | .declaration text :: rest => before.toNat + commaPairs (endsIn ',' (trim text)) rest
  | .blank :: rest | .open _ :: rest | .close :: rest | .inlineRule .. :: rest =>
    commaPairs false rest

theorem commaPairs_le (tokens : List Token) :
    commaPairs before tokens ≤ before.toNat + commaPairs false tokens := by
  cases tokens with
  | nil => simp [commaPairs]
  | cons token => cases token <;> simp [commaPairs]

theorem commaPairs_mono {a b : Bool} (h : a → b) (tokens : List Token) :
    commaPairs a tokens ≤ commaPairs b tokens := by
  cases tokens with
  | nil => simp [commaPairs]
  | cons token =>
    cases token with
    | declaration =>
      cases a with
      | false => simp [commaPairs]
      | true => simp [h rfl]
    | blank | «open» | close | inlineRule => simp [commaPairs]

theorem commaPairs_trim_cons (a : Text) (d : Char) (b : Text) (tokens : List Token) :
    commaPairs (endsIn ',' (trim b)) tokens ≤
      commaPairs (endsIn ',' (trim (a ++ d :: b))) tokens :=
  commaPairs_mono (endsIn_trim_cons a d) tokens

theorem commaPairs_declarations (rest : List Token) :
    commaPairs before (declarations t ++ rest) ≤
      before.toNat + commaPairs (endsIn ',' (trim t)) rest := by
  induction t using declarations_induction generalizing before with
  | hides t ht =>
    rw [declarations, splitDeclarations_of_hides ht]
    split
    · rename_i hblank
      simpa [hblank, endsIn_nil] using commaPairs_le before rest
    · simp [commaPairs]
  | cut a b ha hrun ih =>
    have htail := commaPairs_trim_cons a ';' b rest
    have hcut : declarations (a ++ ';' :: b) =
        (if trim (a ++ [';']) = [';'] then []
          else [.declaration (trim (a ++ [';']))]) ++ declarations b := by
      rw [declarations, splitDeclarations_cut b ha hrun]
      split <;> rfl
    rw [hcut]
    split
    · exact (ih before).trans (by omega)
    · have hfirst := ih false
      simp only [cons_append, nil_append, commaPairs, trim_trim,
        endsIn_trim_semicolon (show ',' ≠ ';' by decide) a, Bool.toNat_false] at hfirst ⊢
      omega

theorem commaPairs_ofText (rest : List Token) :
    commaPairs before (ofText t ++ rest) ≤
      before.toNat + commaPairs (endsIn ',' (trim t)) rest := by
  induction t using braces_induction generalizing before with
  | hides t ht =>
    rw [ofText_of_hides ht]
    exact commaPairs_declarations before t rest
  | opens a b ha hrun ih =>
    have htail := commaPairs_trim_cons a '\x7b' b rest
    have hb := ih false
    rw [ofText_open b ha hrun]
    simp only [cons_append, commaPairs, Bool.toNat_false] at hb ⊢
    omega
  | closes a b ha hrun ih =>
    have htail := commaPairs_trim_cons a '\x7d' b rest
    have ha' := commaPairs_declarations before a (.close :: (ofText b ++ rest))
    have hb := ih false
    rw [ofText_close b ha hrun, append_assoc, cons_append]
    simp only [commaPairs, Bool.toNat_false] at ha' hb ⊢
    omega

theorem commaPairs_ofLine (line : Text) (rest : List Token) :
    commaPairs before (ofLine line ++ rest) ≤
      before.toNat + commaPairs (endsIn ',' (trim line)) rest := by
  have hfalse : commaPairs false rest ≤ commaPairs (endsIn ',' (trim line)) rest :=
    commaPairs_mono (by simp) rest
  rcases ofLine_cases line with hline | ⟨_, hinline, hline⟩ | ⟨-, hline⟩
  · rw [hline]
    simp only [cons_append, nil_append, commaPairs]
    omega
  · obtain ⟨_, _, -, -, -, -, -, rfl⟩ := inlineRule_eq_some hinline
    rw [hline]
    simp only [cons_append, nil_append, commaPairs]
    omega
  · rw [hline]
    exact (commaPairs_ofText before (trim line) rest).trans (by rw [trim_trim])

/-- A line that ends with a comma and yet does not go on, for it has a brace. -/
def stopsAtComma (line : Text) : Bool :=
  endsIn ',' (trim line) && !continues (trim line)

theorem countP_dropLast_cons {α : Type} (p : α → Bool) (a : α) (rest : List α) :
    (a :: rest).dropLast.countP p = (p a && !rest.isEmpty).toNat + rest.dropLast.countP p := by
  cases rest with
  | nil => simp
  | cons =>
    rw [dropLast_cons_cons, countP_cons, Nat.add_comm]
    cases p a <;> simp

/-- The declarations of a rule, with its closing brace: only a line that stops at a comma can have
another declaration behind it. -/
theorem commaPairs_reads {lines}
    (hlines : ∀ line ∈ lines, trim line ≠ [] ∧ (trim line).head? ≠ some '\x7d')
    (pending : List Text) (before : Bool) (rest : List Token) :
    commaPairs before (reads pending lines ++ .close :: rest) ≤
      (before && !(pending.isEmpty && lines.isEmpty)).toNat +
        lines.dropLast.countP stopsAtComma + commaPairs false rest := by
  induction lines generalizing pending before with
  | nil =>
    cases pending with
    | nil => simp [reads, commaPairs]
    | cons line pending => simp [reads, commaPairs, held]
  | cons raw lines ih =>
    obtain ⟨hne, hbrace⟩ := hlines raw (by simp)
    have htail := ih fun line hline => hlines line (by simp [hline])
    have hbefore : (before && !(pending.isEmpty && (raw :: lines).isEmpty)).toNat =
        before.toNat := by simp
    rw [hbefore, countP_dropLast_cons]
    simp only [reads]
    cases hcontinues : continues (trim raw) with
    | true =>
      have hrest := htail (pending ++ [trim raw]) before
      have hpending : (pending ++ [trim raw]).isEmpty = false := by simp
      rw [hpending, Bool.false_and, Bool.not_false, Bool.and_true] at hrest
      simp only [if_true]
      omega
    | false =>
      -- a line that ends as this one does, alone or behind the lines held back
      have hstep : ∀ line : Text, endsIn ',' (trim line) = endsIn ',' (trim raw) →
          commaPairs before (ofLine line ++ (reads [] lines ++ .close :: rest)) ≤
            before.toNat + ((stopsAtComma raw && !lines.isEmpty).toNat +
              lines.dropLast.countP stopsAtComma) + commaPairs false rest := by
        intro line hline
        have hfirst := commaPairs_ofLine before line (reads [] lines ++ .close :: rest)
        have hrest := htail [] (endsIn ',' (trim raw))
        have hstops : stopsAtComma raw = endsIn ',' (trim raw) := by
          simp [stopsAtComma, hcontinues]
        rw [isEmpty_nil, Bool.true_and] at hrest
        rw [hline] at hfirst
        rw [hstops]
        omega
      simp only [Bool.false_eq_true, if_false]
      split
      · rw [append_assoc]
        exact hstep _ (by rw [trim_trim])
      · rw [if_neg (by simpa using ⟨hne, hbrace⟩), append_assoc]
        refine hstep _ ?_
        unfold endsIn
        rw [append_cons, Text.getLast?_trim_append _ (by simpa using hne), trim_trim]

/-- Of the declarations of a text only the last one can end without a semicolon. -/
theorem endsIn_of_mem_dropLast {c} (hc : c ≠ ';') {t d}
    (h : d ∈ (splitDeclarations t).dropLast) : endsIn c d = false := by
  induction t using declarations_induction with
  | hides t ht =>
    rw [splitDeclarations_of_hides ht] at h
    split at h <;> simp at h
  | cut a b ha hrun ih =>
    rw [splitDeclarations_cut b ha hrun] at h
    by_cases hb : splitDeclarations b = []
    · rw [hb] at h
      split at h <;> simp at h
    · rw [dropLast_append_of_ne_nil hb] at h
      rcases mem_append.mp h with h | h
      · split at h
        · simp at h
        · obtain rfl : d = trim (a ++ [';']) := by simpa using h
          exact endsIn_trim_semicolon hc a
      · exact ih h

/-! ### Closing braces -/

theorem countP_splitDeclarations {c} (hc : c ≠ ';') (t : Text) :
    (splitDeclarations t).countP (endsIn c) ≤ (endsIn c (trim t)).toNat := by
  induction t using declarations_induction with
  | hides t ht =>
    rw [splitDeclarations_of_hides ht]
    split
    · simp
    · cases h : endsIn c (trim t) <;> simp [h]
  | cut a b ha hrun =>
    have hfirst : (if trim (a ++ [';']) = [';'] then []
        else [trim (a ++ [';'])]).countP (endsIn c) = 0 := by
      split
      · rfl
      · simp [endsIn_trim_semicolon hc]
    have hmono := toNat_endsIn_le c a ';' b
    rw [splitDeclarations_cut b ha hrun, countP_append]
    omega

/-- Balanced text in front of a brace does not end with a closing brace. -/
theorem endsIn_of_balanced {a} (ha : hides isBrace {} a)
    (hrun : run {} a = {}) : endsIn '\x7d' (trim a) = false := by
  by_contra h
  have hlast : (trim a).getLast? = some '\x7d' := by simpa [endsIn] using h
  obtain ⟨_, hinit⟩ := getLast?_eq_some_iff.mp hlast
  have hhides := hides_trim ha
  have htop : run {} (trim a) = {} := by rw [run_trim, hrun]
  rw [hinit] at hhides htop
  exact absurd (hides_concat_of_top (by decide) hhides htop) (by decide)

theorem countP_texts_ofText :
    ((ofText t).flatMap texts).countP (endsIn '\x7d') ≤ (endsIn '\x7d' (trim t)).toNat := by
  induction t using braces_induction with
  | hides t ht =>
    rw [ofText_of_hides ht, flatMap_texts_declarations]
    exact countP_splitDeclarations (by decide) t
  | opens a b ha hrun ih =>
    rw [ofText_open b ha hrun]
    exact ih.trans (toNat_endsIn_le '\x7d' a '\x7b' b)
  | closes a b ha hrun =>
    have hfirst := countP_splitDeclarations (show '\x7d' ≠ ';' by decide) a
    rw [endsIn_of_balanced ha hrun] at hfirst
    have hmono := toNat_endsIn_le '\x7d' a '\x7d' b
    rw [ofText_close b ha hrun, flatMap_append, flatMap_texts_declarations,
      countP_append, flatMap_cons]
    simp only [texts, nil_append, Bool.toNat_false] at hfirst ⊢
    omega

/-- A line has a declaration that ends with a closing brace only if it ends with one itself and is
not a rule on one line. -/
theorem countP_texts_ofLine (line : Text) :
    ((ofLine line).flatMap texts).countP (endsIn '\x7d') ≤
      (endsIn '\x7d' (trim line) && (inlineRule? (trim line)).isNone).toNat := by
  rcases ofLine_cases line with hline | ⟨_, hinline, hline⟩ | ⟨hinline, hline⟩
  · simp [hline, texts]
  · obtain ⟨_, body, -, -, -, hclose, -, rfl⟩ := inlineRule_eq_some hinline
    have hbody : endsIn '\x7d' (trim (trim body)) = false := by
      by_contra h
      have hlast : (trim body).getLast? = some '\x7d' := by simpa [endsIn] using h
      exact hclose (Text.mem_of_mem_trim (mem_of_getLast? hlast))
    have hcount := countP_splitDeclarations (show '\x7d' ≠ ';' by decide) (trim body)
    rw [hbody] at hcount
    rw [hline, flatMap_cons, flatMap_nil, append_nil]
    exact hcount.trans (Nat.zero_le _)
  · rw [hline, hinline]
    simpa using countP_texts_ofText (trim line)

end Token

end Sveltify.Style
