import Sveltify.Proofs.Script.Shape

/-! String literals. A text between single quotes is read as a literal that stands for the text
exactly if no character of it ends the literal or starts an escape: an escape takes more characters
than it stands for. -/

namespace Sveltify.Script

open List Cursor

/-- The text that a string literal stands for, if the text is one as a whole. -/
def stringValue? (text : Text) : Option Text :=
  match Token.readLexeme (.ofText text) with
  | (.string value, false, stop) => if stop.rest.isEmpty then some value.toList else none
  | _ => none

def isVerbatim (c : Char) : Bool :=
  c != '\'' && c != '\\' && c != '\n' && c != '\r'

namespace Literal

theorem joinSurrogates_map_toNat (s : Text) : joinSurrogates (s.map Char.toNat) = s := by
  have hchar (c : Char) : c.toNat < 0xD800 ∨ 0xDFFF < c.toNat :=
    c.valid.imp_right And.left
  induction s with
  | nil => rfl
  | cons c s ih =>
    have hsurrogate : (0xD800 ≤ c.toNat && c.toNat ≤ 0xDFFF) = false := by
      have := hchar c
      simp
      omega
    cases s with
    | nil => simp [joinSurrogates, hsurrogate]
    | cons next =>
      have hhigh : (0xD800 ≤ c.toNat && c.toNat ≤ 0xDBFF && 0xDC00 ≤ next.toNat &&
          next.toNat ≤ 0xDFFF) = false := by
        have := hchar c
        simp
        omega
      rw [map_cons, map_cons] at *
      rw [joinSurrogates, hhigh, hsurrogate, ih]
      simp

theorem length_joinSurrogates_le (points : List Nat) :
    (joinSurrogates points).length ≤ points.length := by
  fun_induction joinSurrogates points <;> grind

namespace StringScan

/-- The number of code points that were read, and of what was read in one character besides. -/
def weight (r : StringScan) : Nat :=
  match r.part with
  | .octal _ _ | .closed => r.points.length + 1
  | _ => r.points.length

theorem weight_stepPlain {quote c r r'} (h : stepPlain quote r c = some r') :
    r'.weight ≤ r.points.length + 1 := by
  unfold stepPlain at h
  repeat' split at h
  all_goals simp only [Option.some.injEq, reduceCtorEq] at h
  all_goals subst h
  all_goals simp [weight, push]

theorem weight_stepEscape (r : StringScan) (c : Char) :
    (stepEscape r c).weight ≤ r.points.length + 1 := by
  unfold stepEscape
  repeat' split
  all_goals simp [weight, push]

theorem weight_step {quote c r r'} (h : step quote r c = some r') :
    r'.weight ≤ r.weight + 1 := by
  unfold step at h
  split at h
  · simp at h
  · next hpart => simpa [weight, hpart] using weight_stepPlain h
  · next hpart =>
    obtain rfl := Option.some.inj h
    simpa [weight, hpart] using weight_stepEscape r c
  · next hpart =>
    split at h
    · obtain rfl := Option.some.inj h
      simp [weight, hpart]
    · simpa [weight, hpart] using weight_stepPlain h
  · next hpart =>
    obtain ⟨digit, -, rfl⟩ := Option.map_eq_some_iff.1 h
    split <;> simp [weight, hpart, push]
  · next hpart =>
    split at h
    · obtain rfl := Option.some.inj h
      simp [weight, hpart]
    · obtain ⟨digit, -, rfl⟩ := Option.map_eq_some_iff.1 h
      simp [weight, hpart]
  · next hpart =>
    split at h
    · obtain ⟨_, -, rfl⟩ := Option.map_eq_some_iff.1 h
      simp [weight, hpart, push]
    · obtain ⟨_, -, rfl⟩ := Option.map_eq_some_iff.1 h
      simp [weight, hpart]
  · next hpart =>
    split at h
    · obtain rfl := Option.some.inj h
      simp [weight, hpart]
    · simpa [weight, hpart, push] using weight_stepPlain h

theorem weight_scanFrom (quote : Char) (r : StringScan) (offset : Nat) (text : Text) :
    (scanFrom (step quote) r offset text).1.weight +
      (scanFrom (step quote) r offset text).2.rest.length ≤ r.weight + text.length := by
  fun_induction scanFrom (step quote) r offset text with
  | case1 | case3 => exact Nat.le_refl _
  | case2 r _ c _ _ hnext =>
    have hstep := weight_step hnext
    rw [length_cons]
    omega

end StringScan

open StringScan

theorem scanFrom_verbatim {s} (h : s.all isVerbatim) (points : List Nat) (offset : Nat) :
    scanFrom (step '\'') { points := points } offset (s ++ ['\'']) =
      ({ part := .closed, points := (s.map Char.toNat).reverse ++ points },
        ⟨[], offset + Text.byteSize (s ++ ['\''])⟩) := by
  induction s generalizing points offset with
  | nil => rfl
  | cons c s ih =>
    obtain ⟨hc, hs⟩ := Bool.and_eq_true_iff.1 h
    have hstep : step '\'' { points := points } c = some { points := c.toNat :: points } := by
      simp only [isVerbatim, Bool.and_eq_true, bne_iff_ne] at hc
      simp [step, stepPlain, push, hc]
    rw [cons_append, scanFrom, hstep]
    dsimp only
    rw [ih hs]
    simp [Nat.add_assoc]

/-- A literal is read as fewer code points than it has characters, unless all are verbatim. -/
theorem verbatim_or_shorter {s points offset r stop} (h : scanFrom (step '\'') { points := points } offset (s ++ ['\'']) = (r, stop))
    (hclosed : r.part = .closed) (hstop : stop.rest = []) :
    s.all isVerbatim ∨ r.points.length < points.length + s.length := by
  induction s generalizing points offset with
  | nil => exact .inl rfl
  | cons c s ih =>
    rw [cons_append, scanFrom] at h
    cases hnext : step '\'' { points := points } c with
    | none =>
      rw [hnext] at h
      obtain ⟨-, rfl⟩ := Prod.mk.inj h
      simp at hstop
    | some next =>
      rw [hnext] at h
      change stepPlain '\'' { points := points } c = some next at hnext
      unfold stepPlain at hnext
      split at hnext
      -- After a closing quote nothing is read, but the last quote is left.
      · obtain rfl := Option.some.inj hnext
        obtain ⟨first, rest, hrest⟩ : ∃ first rest, s ++ ['\''] = first :: rest :=
          exists_cons_of_ne_nil (by simp)
        rw [hrest] at h
        obtain ⟨-, rfl⟩ := Prod.mk.inj h
        simp at hstop
      split at hnext
      -- A backslash is no code point yet, and what follows gives one each at most.
      · obtain rfl := Option.some.inj hnext
        have hweight := weight_scanFrom '\'' { part := .escape, points := points }
          (offset + c.utf8Size) (s ++ ['\''])
        dsimp only at h
        rw [h] at hweight
        simp only [weight, hclosed, hstop, length_append, length_cons] at hweight
        exact .inr (by rw [length_cons]; omega)
      split at hnext
      · simp at hnext
      · next hquote hescape hline =>
        obtain rfl := Option.some.inj hnext
        rcases ih h with _ | hshort
        · exact .inl (by simp_all [isVerbatim])
        · have hlength : r.points.length < points.length + 1 + s.length := hshort
          exact .inr (by rw [length_cons]; omega)

end Literal

open Literal Literal.StringScan

/-- A literal is read to its closing quote, which ends the text, and without a fault. -/
theorem stringValue?_quoted {s value} : stringValue? ('\'' :: s ++ ['\'']) = some value ↔
    let (r, stop) := scanFrom (step '\'') {} 1 (s ++ ['\''])
    r.part = .closed ∧ r.faulty = false ∧ stop.rest = [] ∧ r.value = value := by
  have hread : Token.readLexeme (.ofText ('\'' :: s ++ ['\''])) =
      Token.readString '\'' ⟨s ++ ['\''], 1⟩ := rfl
  unfold stringValue?
  rw [hread, Token.readString, scan]
  obtain ⟨r, _⟩ := scanFrom (step '\'') {} 1 (s ++ ['\''])
  cases hpart : r.part <;> cases hfaulty : r.faulty <;> simp [isComplete, hpart, hfaulty]

/-- The literal that a text between single quotes is stands for the text exactly if all characters of
the text are verbatim. -/
theorem stringValue?_eq_some_iff {s} :
    stringValue? ('\'' :: s ++ ['\'']) = some s ↔ s.all isVerbatim := by
  rw [stringValue?_quoted]
  constructor
  · rintro ⟨hclosed, -, hstop, hvalue⟩
    refine (verbatim_or_shorter rfl hclosed hstop).resolve_right fun hshort => ?_
    generalize (scanFrom (step '\'') {} 1 (s ++ ['\''])).1 = r at hclosed hvalue hshort
    have hlength := length_joinSurrogates_le r.points.reverse
    have hjoined : joinSurrogates r.points.reverse = s := by simpa [value, hclosed] using hvalue
    rw [hjoined, length_reverse] at hlength
    rw [length_nil] at hshort
    omega
  · intro h
    rw [scanFrom_verbatim h]
    exact ⟨rfl, rfl, rfl, by simp [value, joinSurrogates_map_toNat]⟩

end Sveltify.Script
