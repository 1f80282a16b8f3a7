import Sveltify.Script.Token

/-! Places of the script that is read, and its tokens. A place is a cursor that stands in the script,
so that a character starts at its offset or the script ends there; a token stands between two places,
and a token that is a word has a name. -/

namespace Sveltify.Script

@[nospecialize] class Subject where
  text : Text

variable [Subject]

/-- What is left to read at the cursor follows as many bytes of the script as its offset says. -/
def Cursor.InScript (cursor : Cursor) : Prop :=
  ∃ read, Subject.text = read ++ cursor.rest ∧ Text.byteSize read = cursor.offset

namespace Cursor.InScript

variable {cursor : Cursor} {offset : Nat}

variable {rest : Text}

theorem tail {c : Char} (h : (⟨c :: rest, offset⟩ : Cursor).InScript) :
    (⟨rest, offset + c.utf8Size⟩ : Cursor).InScript := by
  obtain ⟨read, htext, hsize⟩ := h
  exact ⟨read ++ [c], by simpa using htext, by simpa [Text.byteSize] using hsize⟩

theorem advance (h : cursor.InScript) (n : Nat) : (cursor.advance n).InScript := by
  obtain ⟨read, htext, hsize⟩ := h
  exact ⟨read ++ cursor.rest.take n, by simpa [Cursor.advance] using htext,
    by simp [Cursor.advance, hsize]⟩

theorem scanFrom {σ : Type} (step : σ → Char → Option σ) (s : σ)
    (h : (⟨rest, offset⟩ : Cursor).InScript) : (scanFrom step s offset rest).2.InScript := by
  fun_induction Cursor.scanFrom step s offset rest with
  | case1 | case3 => exact h
  | case2 _ _ _ _ _ _ ih => exact ih h.tail

theorem scan {σ : Type} (h : cursor.InScript) (step : σ → Char → Option σ) (s : σ) :
    (cursor.scan step s).2.InScript :=
  h.scanFrom step s

theorem skipFrom {place : Trivia.Place} {newline faulty : Bool}
    (h : (⟨rest, offset⟩ : Cursor).InScript) :
    (Trivia.skipFrom place newline faulty offset rest).stop.InScript := by
  fun_induction Trivia.skipFrom place newline faulty offset rest with
  | case1 | case9 => exact h
  | case2 _ _ _ _ ih | case3 _ _ _ _ ih | case6 _ _ _ _ ih => exact ih h.tail.tail
  | case4 _ _ _ _ ih => exact ih h.tail.tail.tail.tail
  | case5 _ _ _ ih => exact ih h.tail.tail.tail
  | _ => grind [tail]

theorem readLexeme (h : cursor.InScript) : (Token.readLexeme cursor).2.2.InScript := by
  have hword {cursor : Cursor} {result : WordScan × Cursor} (h : cursor.InScript)
      (hread : Token.readWord cursor = some result) : result.2.InScript := by
    unfold Token.readWord at hread
    grind [h.scan WordScan.step {}]
  have hstring (quote : Char) : (Token.readString quote (cursor.advance 1)).2.2.InScript := by
    unfold Token.readString
    grind [(h.advance 1).scan (Literal.StringScan.step quote) {}]
  have hnumber : (Token.readNumber cursor).2.2.InScript := by
    unfold Token.readNumber
    grind [h.scan Literal.NumberScan.step {}]
  unfold Token.readLexeme
  split
  · exact h
  · split
    · exact hstring _
    split
    · exact hnumber
    split
    · split
      · next hread => exact hword (h.advance 1) hread
      · exact h.advance 1
    · split
      · next hread => exact hword h hread
      · split <;> exact h.advance _

end Cursor.InScript

/-! Names. -/

def Lexeme.isNamed : Lexeme → Bool
  | .word name _ => Text.isName name.toList
  | _ => true

omit [Subject] in
theorem Cursor.scan_keeps {σ : Type} {P : σ → Prop} {step : σ → Char → Option σ}
    (hstep : ∀ s c s', P s → step s c = some s' → P s') {s : σ} (hs : P s) (cursor : Cursor) :
    P (cursor.scan step s).1 := by
  unfold scan
  fun_induction scanFrom step s cursor.offset cursor.rest with
  | case1 | case3 => exact hs
  | case2 _ _ _ _ _ hnext ih => exact ih (hstep _ _ _ hs hnext)

def WordScan.Named (r : WordScan) : Prop :=
  r.name = [] ∨ Text.isName r.name.reverse

omit [Subject] in
theorem WordScan.Named.push {r r' : WordScan} {c : Char} (h : r.Named) (hpush : r.push c = some r') :
    r'.Named := by
  refine .inr ?_
  cases hname : r.name with
  | nil =>
    obtain ⟨hc, ⟨⟩⟩ := Option.ite_none_right_eq_some.1 hpush
    simpa [hname, Text.isName] using hc
  | cons first rest =>
    obtain ⟨hc, ⟨⟩⟩ := Option.ite_none_right_eq_some.1 hpush
    have hnamed : Text.isName r.name.reverse := h.resolve_left (by simp [hname])
    have hcontinue : Text.isIdContinue c := by simpa [hname] using hc
    simpa using Text.isName_append hnamed hcontinue

omit [Subject] in
theorem WordScan.Named.step {r r' : WordScan} {c : Char} (h : r.Named) (hstep : r.step c = some r') :
    r'.Named := by
  have hpush {c : Char} : r.push c = some r' → r'.Named := h.push
  have hsame (hname : r'.name = r.name) : r'.Named := by simpa [WordScan.Named, hname] using h
  unfold WordScan.step at hstep
  cases hdigit : Text.hexDigit? c <;> grind

omit [Subject] in
theorem Token.isNamed_readLexeme (cursor : Cursor) : (readLexeme cursor).1.isNamed := by
  have hword {cursor : Cursor} {r : WordScan} {stop : Cursor}
      (hread : readWord cursor = some (r, stop)) : (ofWord r).isNamed := by
    have hnamed : (cursor.scan WordScan.step {}).1.Named :=
      cursor.scan_keeps (fun _ _ _ h => h.step) (.inl rfl)
    unfold readWord at hread
    unfold ofWord
    dsimp only
    split
    · rfl
    · simp only [Lexeme.isNamed, String.toList_ofList]
      grind [WordScan.Named]
  unfold readLexeme
  split
  · rfl
  · split
    · unfold readString
      grind [Lexeme.isNamed]
    split
    · unfold readNumber
      grind [Lexeme.isNamed]
    split
    · grind [Lexeme.isNamed]
    · split
      · next hread => exact hword hread
      · grind [Lexeme.isNamed]

/-! Places. -/

structure Place extends Cursor where
  inScript : toCursor.InScript

namespace Place

def first : Place :=
  ⟨.ofText Subject.text, [], rfl, rfl⟩

def advance (n : Nat) (place : Place) : Place :=
  ⟨place.toCursor.advance n, place.inScript.advance n⟩

def scan {σ : Type} (step : σ → Char → Option σ) (s : σ) (place : Place) : σ × Place :=
  ((place.toCursor.scan step s).1, ⟨(place.toCursor.scan step s).2, place.inScript.scan step s⟩)

end Place

end Sveltify.Script
