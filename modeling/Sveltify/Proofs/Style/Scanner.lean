import Sveltify.Proofs.Text.Trim
import Sveltify.Style.Scanner

/-! The scanner along a whole text. A text hides a kind of character when no such character stands
at its top level; splitting at top level takes a text apart at the characters that it does not
hide, first one first. -/

namespace Sveltify.Style

open List
open Text (isBlank trim)
open Scanner

def isBrace (c : Char) : Bool :=
  c == '\x7b' || c == '\x7d'

namespace Scanner

def run (s : Scanner) (t : Text) : Scanner :=
  t.foldl advance s

def hides (p : Char → Bool) (s : Scanner) : Text → Bool
  | [] => true
  | c :: rest => !(p c && s.atTop) && hides p (s.advance c) rest

@[simp] theorem run_nil (s : Scanner) : s.run [] = s := rfl

@[simp] theorem run_cons (s : Scanner) (c : Char) (t : Text) :
    s.run (c :: t) = (s.advance c).run t := rfl

@[simp] theorem run_append (s : Scanner) (a b : Text) : s.run (a ++ b) = (s.run a).run b :=
  foldl_append

theorem atTop_iff (s : Scanner) : s.atTop = true ↔ s = {} := by
  obtain ⟨_, _⟩ := s
  simp [atTop]

@[simp] theorem atTop_start : atTop {} = true := rfl

@[simp] theorem hides_append (p : Char → Bool) (s : Scanner) (a b : Text) :
    s.hides p (a ++ b) = (s.hides p a && (s.run a).hides p b) := by
  induction a generalizing s with
  | nil => simp [hides]
  | cons c a ih => simp [hides, ih, Bool.and_assoc]

variable {s : Scanner} {p : Char → Bool} {t a : Text} {c : Char}

theorem hides_of_forall (s : Scanner) (h : ∀ c ∈ t, p c = false) : s.hides p t := by
  induction t generalizing s with
  | nil => rfl
  | cons c t ih =>
    simp [hides, h c (by simp), ih (s.advance c) fun d hd => h d (by simp [hd])]

theorem hides_mono {q} (hpq : ∀ c, q c → p c) (h : s.hides p t) : s.hides q t := by
  induction t generalizing s with
  | nil => rfl
  | cons c t ih =>
    rw [hides, Bool.and_eq_true] at h ⊢
    refine ⟨?_, ih h.2⟩
    cases hq : q c with
    | false => simp
    | true => simpa [hpq c hq] using h.1

/-- Either a text hides `p`, or it has a first character of that kind at top level. -/
theorem hides_or_cut (p : Char → Bool) (s : Scanner) (t : Text) :
    s.hides p t ∨
      ∃ a c b, t = a ++ c :: b ∧ p c ∧ s.hides p a ∧ s.run a = {} := by
  induction t generalizing s with
  | nil => exact .inl rfl
  | cons c t ih =>
    by_cases hc : p c ∧ s.atTop
    · exact .inr ⟨[], c, t, rfl, hc.1, rfl, (atTop_iff s).mp hc.2⟩
    · have hpc : (!(p c && s.atTop)) := by
        cases hp : p c <;> cases hs : s.atTop <;> simp_all
      rcases ih (s.advance c) with h | ⟨a, d, b, rfl, hd, ha, hrun⟩
      · exact .inl (by simp [hides, hpc, h])
      · exact .inr ⟨c :: a, d, b, rfl, hd, by simp [hides, hpc, ha], hrun⟩

/-! ### Neutral characters -/

/-- A character that never changes the nesting: neither a quote nor a bracket of any kind. -/
def isNeutral (c : Char) : Bool :=
  !(['"', '\'', '(', ')', '[', ']'].contains c)

def Regular (s : Scanner) : Prop :=
  ∀ q, s.quote = some q → isNeutral q = false

theorem regular_start : Regular {} := by
  simp [Regular]

theorem Regular.advance (h : s.Regular) (c : Char) : (s.advance c).Regular := by
  unfold Scanner.advance
  split
  · split
    · simp [Regular]
    · exact h
  · split
    · rename_i hc
      rintro q hq
      obtain rfl : c = q := by simpa using hq
      rcases (by simpa using hc : c = '"' ∨ c = '\'') with rfl | rfl <;> decide
    · split
      · exact h
      · split <;> exact h

theorem Regular.run (h : s.Regular) (t : Text) : (s.run t).Regular := by
  induction t generalizing s with
  | nil => exact h
  | cons c t ih => exact ih (h.advance c)

theorem Regular.advance_neutral (h : s.Regular) (hc : isNeutral c) : s.advance c = s := by
  unfold Scanner.advance
  cases hq : s.quote with
  | none =>
    simp only [isNeutral, contains_cons, Bool.not_eq_true', Bool.or_eq_false_iff] at hc
    simp [hc]
  | some q =>
    have hne : c ≠ q := by
      rintro rfl
      simp [h c hq] at hc
    simp [hne]

/-- A balanced text does not end with a neutral character that it hides. -/
theorem hides_concat_of_top (hc : isNeutral c)
    (hhides : Scanner.hides p {} (a ++ [c])) (htop : Scanner.run {} (a ++ [c]) = {}) :
    p c = false := by
  have hrun : Scanner.run {} a = {} := by
    rw [run_append, run_cons, (regular_start.run a).advance_neutral hc] at htop
    exact htop
  rw [hides_append, Bool.and_eq_true, hrun] at hhides
  simpa [hides] using hhides.2

/-! ### Blanks at the ends -/

theorem isNeutral_of_blank {c} (h : isBlank c) : isNeutral c := by
  have hall : ['"', '\'', '(', ')', '[', ']'].all (!Text.isBlank ·) := by decide
  have hmem : c ∉ ['"', '\'', '(', ')', '[', ']'] := fun hmem => by
    simpa [h] using all_eq_true.mp hall c hmem
  simpa [isNeutral] using hmem

theorem Regular.run_blanks {s : Scanner} (h : s.Regular) (ht : ∀ c ∈ t, isBlank c) :
    s.run t = s := by
  induction t with
  | nil => rfl
  | cons c t ih =>
    rw [run_cons, h.advance_neutral (isNeutral_of_blank (ht c (by simp)))]
    exact ih fun d hd => ht d (by simp [hd])

theorem run_trim (t : Text) : run {} (trim t) = run {} t := by
  obtain ⟨before, after, ht, hbefore, hafter⟩ := Text.exists_trim t
  have hrun : run {} t = run {} (before ++ trim t ++ after) := by rw [← ht]
  rw [hrun, run_append, run_append, regular_start.run_blanks hbefore,
    (regular_start.run (trim t)).run_blanks hafter]

theorem hides_trim {p : Char → Bool} (h : hides p {} t) : hides p {} (trim t) := by
  obtain ⟨_, _, ht, hbefore, _⟩ := Text.exists_trim t
  rw [ht, hides_append, hides_append, Bool.and_eq_true, Bool.and_eq_true,
    regular_start.run_blanks hbefore] at h
  exact h.1.2

theorem hides_trimStart {p : Char → Bool} (h : hides p {} t) : hides p {} (Text.trimStart t) := by
  have hblank : ∀ c ∈ t.takeWhile isBlank, isBlank c := fun _ hc =>
    mem_takeWhile_imp hc
  rw [← takeWhile_append_dropWhile (p := isBlank) (l := t), hides_append,
    Bool.and_eq_true, regular_start.run_blanks hblank] at h
  exact h.2

/-! ### Openers -/

def isOpener (c : Char) : Bool :=
  ['"', '\'', '(', '['].contains c

theorem advance_of_not_opener (h : isOpener c = false) : advance {} c = {} := by
  have hmem : c ∉ ['"', '\'', '(', '['] := by simpa [isOpener] using h
  simp only [mem_cons, not_or] at hmem
  obtain ⟨hdouble, hsingle, hparen, hbracket⟩ := hmem
  unfold advance
  simp [hdouble, hsingle, hparen, hbracket]

theorem countP_of_hides (hopener : t.countP isOpener = 0) (h : hides p {} t) : t.countP p = 0 := by
  induction t with
  | nil => rfl
  | cons c t ih =>
    rw [countP_eq_zero] at hopener
    have hc : isOpener c = false := by simpa using hopener c (by simp)
    have hrest : t.countP isOpener = 0 :=
      countP_eq_zero.mpr fun d hd => hopener d (by simp [hd])
    rw [hides, advance_of_not_opener hc, Bool.and_eq_true] at h
    have hp : p c = false := by simpa [atTop] using h.1
    rw [countP_cons_of_neg (by simp [hp]), ih hrest h.2]

/-! ### Splitting at top level -/

theorem splitTop_ne_nil (sep : Char) (s : Scanner) (t : Text) : splitTop sep s t ≠ [] := by
  cases t with
  | nil => simp [splitTop]
  | cons =>
    unfold splitTop
    split
    · simp
    · split <;> simp

theorem splitTop_of_hides {sep} (h : s.hides (· == sep) t) : splitTop sep s t = [t] := by
  induction t generalizing s with
  | nil => rfl
  | cons c t ih =>
    simp only [hides, Bool.and_eq_true, Bool.not_eq_true'] at h
    simp [splitTop, h.1, ih h.2]

theorem splitTop_cut {sep} (b : Text) (h : s.hides (· == sep) a)
    (hrun : s.run a = {}) : splitTop sep s (a ++ sep :: b) = a :: splitTop sep {} b := by
  induction a generalizing s with
  | nil =>
    obtain rfl : s = {} := hrun
    simp [splitTop]
  | cons c a ih =>
    simp only [hides, Bool.and_eq_true, Bool.not_eq_true'] at h
    rw [cons_append, splitTop]
    simp only [h.1, Bool.false_eq_true, if_false]
    rw [ih h.2 hrun]

theorem splitBraces_of_hides (h : s.hides isBrace t) : splitBraces s t = (t, []) := by
  induction t generalizing s with
  | nil => rfl
  | cons c t ih =>
    simp only [hides, isBrace, Bool.and_eq_true, Bool.not_eq_true'] at h
    simp [splitBraces, h.1, ih h.2]

theorem splitBraces_cut (b : Text) (hc : isBrace c) (h : s.hides isBrace a) (hrun : s.run a = {}) :
    splitBraces s (a ++ c :: b) =
      (a, (c == '\x7b', (splitBraces {} b).1) :: (splitBraces {} b).2) := by
  induction a generalizing s with
  | nil =>
    obtain rfl : s = {} := hrun
    unfold isBrace at hc
    simp [splitBraces, hc]
  | cons d a ih =>
    simp only [hides, isBrace, Bool.and_eq_true, Bool.not_eq_true'] at h
    rw [cons_append, splitBraces]
    simp only [h.1, Bool.false_eq_true, if_false]
    rw [ih h.2 hrun]

theorem splitBraces_open (b : Text) (h : s.hides isBrace a) (hrun : s.run a = {}) :
    splitBraces s (a ++ '\x7b' :: b) =
      (a, (true, (splitBraces {} b).1) :: (splitBraces {} b).2) :=
  splitBraces_cut b (by decide) h hrun

theorem splitBraces_close (b : Text) (h : s.hides isBrace a) (hrun : s.run a = {}) :
    splitBraces s (a ++ '\x7d' :: b) =
      (a, (false, (splitBraces {} b).1) :: (splitBraces {} b).2) :=
  splitBraces_cut b (by decide) h hrun

end Scanner

/-! ### Declarations -/

theorem declarationsOf_cons {piece rest} (h : rest ≠ []) :
    declarationsOf (piece :: rest) =
      (if trim (piece ++ [';']) = [';'] then [] else [trim (piece ++ [';'])]) ++
        declarationsOf rest := by
  cases rest with
  | nil => exact absurd rfl h
  | cons =>
    simp only [declarationsOf, beq_iff_eq]
    split <;> simp

theorem splitDeclarations_of_hides {t} (h : Scanner.hides (· == ';') {} t) :
    splitDeclarations t = if trim t = [] then [] else [trim t] := by
  rw [splitDeclarations, splitTop_of_hides h]
  simp [declarationsOf]

/-- A declaration ends at the first semicolon at top level; a lone semicolon is none. -/
theorem splitDeclarations_cut {a} (b : Text) (h : Scanner.hides (· == ';') {} a)
    (hrun : Scanner.run {} a = {}) :
    splitDeclarations (a ++ ';' :: b) =
      (if trim (a ++ [';']) = [';'] then [] else [trim (a ++ [';'])]) ++
        splitDeclarations b := by
  rw [splitDeclarations, splitTop_cut b h hrun,
    declarationsOf_cons (splitTop_ne_nil _ _ _)]
  rfl

/-- What holds of a text with no character of `f` at top level, and of a text once it holds of what
follows its first one, holds of every text. -/
theorem cuts_induction {motive : Text → Prop} {f} (hides : ∀ t, Scanner.hides f {} t → motive t)
    (cut : ∀ a c b, f c → Scanner.hides f {} a → Scanner.run {} a = {} → motive b →
      motive (a ++ c :: b)) (t : Text) : motive t := by
  induction hn : t.length using Nat.strong_induction_on generalizing t with
  | _ n ih =>
    rcases hides_or_cut f {} t with h | ⟨a, c, b, rfl, hc, ha, hrun⟩
    · exact hides t h
    · refine cut a c b hc ha hrun (ih b.length ?_ b rfl)
      simp only [length_append, length_cons] at hn
      omega

theorem declarations_induction {motive : Text → Prop}
    (hides : ∀ t, Scanner.hides (· == ';') {} t → motive t)
    (cut : ∀ a b, Scanner.hides (· == ';') {} a → Scanner.run {} a = {} → motive b →
      motive (a ++ ';' :: b)) (t : Text) : motive t := by
  refine cuts_induction hides (fun a c b hc => ?_) t
  obtain rfl : c = ';' := by simpa using hc
  exact cut a b

/-- Each declaration is what lies between two semicolons at top level, with the later one. -/
theorem exists_of_mem_splitDeclarations {s d} (h : d ∈ splitDeclarations s) :
    ∃ before a after, Scanner.run {} before = {} ∧ Scanner.hides (· == ';') {} a ∧
      ((s = before ++ a ∧ d = trim a ∧ d ≠ []) ∨
        (s = before ++ (a ++ ';' :: after) ∧ Scanner.run {} a = {} ∧
          d = trim (a ++ [';']) ∧ d ≠ [';'])) := by
  induction s using declarations_induction with
  | hides t ht =>
    rw [splitDeclarations_of_hides ht] at h
    split at h
    · simp at h
    · next hne =>
      obtain rfl : d = trim t := by simpa using h
      exact ⟨[], t, [], rfl, ht, .inl ⟨rfl, rfl, hne⟩⟩
  | cut a b ha hrun ih =>
    rw [splitDeclarations_cut b ha hrun] at h
    rcases mem_append.mp h with h | h
    · split at h
      · simp at h
      · next hlone =>
        obtain rfl : d = trim (a ++ [';']) := by simpa using h
        exact ⟨[], a, b, rfl, ha, .inr ⟨rfl, hrun, rfl, hlone⟩⟩
    · obtain ⟨before, c, after, hbefore, hc, hcases⟩ := ih h
      have hadvance : Scanner.advance {} ';' = {} := by decide
      refine ⟨a ++ ';' :: before, c, after, ?_, hc, ?_⟩
      · rw [run_append, hrun, run_cons, hadvance, hbefore]
      · exact hcases.imp (.imp_left (by simp [·])) (.imp_left (by simp [·]))

theorem trim_of_mem_splitDeclarations {s d} (h : d ∈ splitDeclarations s) : trim d = d := by
  obtain ⟨_, _, _, -, -, ⟨-, rfl, -⟩ | ⟨-, -, rfl, -⟩⟩ := exists_of_mem_splitDeclarations h <;>
    exact Text.trim_trim _

theorem map_trim_splitDeclarations (s : Text) :
    (splitDeclarations s).map trim = splitDeclarations s := by
  have h : ∀ d ∈ splitDeclarations s, trim d = id d := fun d hd =>
    trim_of_mem_splitDeclarations hd
  rw [map_congr_left h, map_id]

end Sveltify.Style
