import Sveltify.Proofs.Style.Scanner
import Sveltify.Proofs.Text.Lines
import Sveltify.Style.Rule
import Sveltify.Style.Token

/-! The tokens of a line on its own: which texts a line can hold as the head of a rule or as one
declaration, so that the line gives back that text and nothing else. -/

namespace Sveltify.Style

open List hiding dropPrefix? dropSuffix?
open Text Token
open Scanner (hides run)

namespace Token

def texts : Token → List Text
  | .declaration text => [trim text]
  | .inlineRule _ body => splitDeclarations body
  | .blank | .open _ | .close => []

/-! ### Rules on one line -/

theorem splitAtChar_eq_some {c s a b} (h : splitAtChar c s = some (a, b)) :
    s = a ++ c :: b ∧ c ∉ a := by
  induction s generalizing a with
  | nil => simp [splitAtChar] at h
  | cons d rest ih =>
    by_cases hd : d = c
    · obtain ⟨rfl, rfl⟩ : a = [] ∧ rest = b := by simpa [splitAtChar, hd] using h
      simp [hd]
    · obtain ⟨first, hfirst, rfl⟩ : ∃ first, splitAtChar c rest = some (first, b) ∧
          d :: first = a := by simpa [splitAtChar, hd] using h
      obtain ⟨hrest, hmem⟩ := ih hfirst
      simp [← hrest, hmem, Ne.symm hd]

theorem dropSuffix_eq_some {c s a} (h : dropSuffix? [c] s = some a) :
    s = a ++ [c] := by
  unfold dropSuffix? at h
  cases hrev : s.reverse with
  | nil => simp [hrev, dropPrefix?] at h
  | cons d rest =>
    obtain ⟨rfl, rfl⟩ : c = d ∧ rest.reverse = a := by
      simpa [hrev, dropPrefix?] using h
    rw [← reverse_reverse s, hrev, reverse_cons]

variable {line : Text}

/-- A rule on one line has its two braces, the closing one last, and no others behind the first. -/
theorem inlineRule_eq_some {token} (h : inlineRule? line = some token) :
    ∃ head body, line = head ++ '\x7b' :: body ++ ['\x7d'] ∧ '\x7b' ∉ head ∧ '\x7b' ∉ body ∧
      '\x7d' ∉ body ∧ trim head ≠ [] ∧
      token = .inlineRule (trim head) (trim body) := by
  obtain ⟨⟨head, _⟩, hsplit, htail⟩ := Option.bind_eq_some_iff.mp h
  obtain ⟨body, hbody, hcheck⟩ := Option.bind_eq_some_iff.mp htail
  obtain ⟨hline, hhead⟩ := splitAtChar_eq_some hsplit
  rw [dropSuffix_eq_some hbody] at hline
  split at hcheck
  · cases hcheck
  · rename_i hbraces
    split at hcheck
    · cases hcheck
    · rename_i htrim
      simp only [Bool.or_eq_true, contains_iff_mem, not_or] at hbraces
      refine ⟨head, body, by simp [hline], hhead, hbraces.1, hbraces.2, by simpa using htrim, ?_⟩
      simpa [eq_comm] using hcheck

theorem inlineRule_of_last (h : line.getLast? ≠ some '\x7d') : inlineRule? line = none := by
  cases hinline : inlineRule? line with
  | none => rfl
  | some =>
    obtain ⟨_, _, rfl, -⟩ := inlineRule_eq_some hinline
    exact absurd getLast?_concat h

/-! ### Lines up to blanks -/

theorem ofLine_trim (line : Text) : ofLine (trim line) = ofLine line := by
  simp [ofLine]

theorem ofLine_of_braces (hne : trim line ≠ []) (hinline : inlineRule? (trim line) = none) :
    ofLine line = ofBraces (Scanner.splitBraces {} (trim line)).1
      (Scanner.splitBraces {} (trim line)).2 := by
  simp [ofLine, hne, hinline]

theorem ofLines_map_trim (pending : List Text) (n : Nat) (lines : List Text) :
    ofLines pending n (lines.map trim) = ofLines pending n lines := by
  induction lines generalizing pending n with
  | nil => rfl
  | cons _ _ ih => simp [ofLines, ih]

end Token

/-! ### Heads -/

/-- A text that a line can hold in front of an opening brace: trimmed, with no line feed, balanced,
and with braces only inside quotes, parentheses or brackets. -/
structure IsHead (text : Text) : Prop where
  trimmed : trim text = text
  oneLine : '\n' ∉ text
  hidden : hides isBrace {} text = true
  top : run {} text = {}

instance (text : Text) : Decidable (IsHead text) :=
  decidable_of_iff (trim text = text ∧ '\n' ∉ text ∧
      hides isBrace {} text = true ∧ run {} text = {})
    ⟨fun ⟨h₁, h₂, h₃, h₄⟩ => ⟨h₁, h₂, h₃, h₄⟩, fun h => ⟨h.trimmed, h.oneLine, h.hidden, h.top⟩⟩

theorem blank_of_mem_pad {depth c} (h : c ∈ pad depth) : isBlank c := by
  obtain rfl : c = ' ' := eq_of_mem_replicate h
  decide

variable (depth : Nat)

theorem trim_pad_append (text : Text) : trim (pad depth ++ text) = trim text :=
  trim_blanks_append text fun _ => blank_of_mem_pad

theorem trim_openLine (head : Text) :
    trim (openLine depth head) = trim (head ++ [' ', '\x7b']) := by
  rw [openLine, append_assoc, trim_pad_append]

theorem trim_closeLine : trim (closeLine depth) = ['\x7d'] := by
  rw [closeLine, trim_pad_append]
  decide

namespace IsHead

theorem trim_append_brace {head} (h : IsHead head) (hne : head ≠ []) :
    trim (head ++ [' ', '\x7b']) = head ++ [' ', '\x7b'] := by
  have hhead := (trim_eq_self_iff head).mp h.trimmed
  refine trim_eq_self ?_ (by simp; decide)
  cases head with
  | nil => exact absurd rfl hne
  | cons => exact hhead.1

theorem ofLine_openLine {head} (h : IsHead head) (depth : Nat) :
    ofLine (openLine depth head) = [.open head] := by
  rw [← ofLine_trim, trim_openLine]
  by_cases hne : head = []
  · subst hne
    decide
  · rw [h.trim_append_brace hne]
    have hline : trim (head ++ [' ', '\x7b']) = (head ++ [' ']) ++ '\x7b' :: [] := by
      rw [h.trim_append_brace hne, append_assoc]
      rfl
    have hhidden : hides isBrace {} (head ++ [' ']) := by
      simp [h.hidden, h.top]
      decide
    have hrun : run {} (head ++ [' ']) = {} := by
      simp [h.top]
      decide
    have hblank : trim (head ++ [' ']) = head := by
      rw [trim_append_blank head (by decide), h.trimmed]
    rw [ofLine_of_braces (by simp [hline]) (inlineRule_of_last (by simp [hline])),
      hline, Scanner.splitBraces_open [] hhidden hrun]
    simp only [ofBraces, hblank]
    rfl

end IsHead

/-! ### Declarations -/

/-- A text that a line can hold as one declaration, whatever follows: trimmed, with no line feed,
not cut by a brace or a semicolon, and neither a rule on one line nor a line that goes on. -/
structure IsPlain (text : Text) : Prop where
  ne_nil : text ≠ []
  trimmed : trim text = text
  oneLine : '\n' ∉ text
  hidden : hides isBrace {} text = true
  uncut : hides (· == ';') {} text.dropLast = true
  ne_semicolon : text ≠ [';']
  notInline : inlineRule? text = none
  ends : continues text = false

instance (text : Text) : Decidable (IsPlain text) :=
  decidable_of_iff (text ≠ [] ∧ trim text = text ∧ '\n' ∉ text ∧
      hides isBrace {} text = true ∧ hides (· == ';') {} text.dropLast = true ∧
      text ≠ [';'] ∧ inlineRule? text = none ∧ continues text = false)
    ⟨fun ⟨h₁, h₂, h₃, h₄, h₅, h₆, h₇, h₈⟩ => ⟨h₁, h₂, h₃, h₄, h₅, h₆, h₇, h₈⟩,
      fun h => ⟨h.ne_nil, h.trimmed, h.oneLine, h.hidden, h.uncut, h.ne_semicolon, h.notInline,
        h.ends⟩⟩

theorem splitDeclarations_eq_singleton {text} (hne : text ≠ [])
    (htrim : trim text = text) (hsemicolon : text ≠ [';'])
    (huncut : hides (· == ';') {} text.dropLast) : splitDeclarations text = [text] := by
  rcases Scanner.hides_or_cut (· == ';') {} text with h | ⟨a, c, b, rfl, hc, ha, hrun⟩
  · rw [splitDeclarations_of_hides h, htrim, if_neg hne]
  · obtain rfl : c = ';' := by simpa using hc
    have hb : b = [] := by
      by_contra hb
      rw [dropLast_append_of_ne_nil (by simp), dropLast_cons_of_ne_nil hb] at huncut
      simp [hrun, hides] at huncut
    subst hb
    rw [splitDeclarations_cut [] ha hrun, htrim, if_neg hsemicolon]
    rfl

namespace IsPlain

theorem ofLine_pad {text} (h : IsPlain text) (depth : Nat) :
    ofLine (pad depth ++ text) = [.declaration text] := by
  rw [← ofLine_trim, trim_pad_append, h.trimmed,
    ofLine_of_braces (by simpa [h.trimmed] using h.ne_nil)
      (by rw [h.trimmed]; exact h.notInline),
    h.trimmed, Scanner.splitBraces_of_hides h.hidden]
  simp only [ofBraces, declarations]
  rw [splitDeclarations_eq_singleton h.ne_nil h.trimmed h.ne_semicolon h.uncut]
  rfl

end IsPlain

/-! ### Lines in a row -/

namespace Token

theorem ofLines_cons {raw} (h : continues (trim raw) = false) (n : Nat) (rest : List Text) :
    ofLines [] n (raw :: rest) = numbered n (ofLine raw) ++ ofLines [] (n + 1) rest := by
  simp [ofLines, h, ofLine_trim]

theorem continues_of_last {line} (h : line.getLast? ≠ some ',') :
    continues line = false := by
  simp [continues, h]

theorem continues_openLine (head : Text) : continues (trim (openLine depth head)) = false := by
  rw [openLine, append_cons, trim_concat _ (by decide)]
  exact continues_of_last (by simp)

end Token

end Sveltify.Style
