import Sveltify.Proofs.Component.Spelling

/-! No character of a source is cut. The nodes of a module stand between characters of what is read
of the source, which is all of it but a byte order mark at its start. Where there is no mark, a
conversion cuts the source between characters only; where there is one, all offsets are too small by
its three bytes, and a conversion may break off. -/

namespace Sveltify

open Script (Node)
open Script.Tree

theorem processImports_ne_insideCharacter (s : ImportSetting) (items : List Node) (offset : Nat) :
    processImports s items ≠ .error (.insideCharacter offset) := by
  have hstyle (declaration : ImportDeclaration) :
      s.loadStyle declaration ≠ .error (.insideCharacter offset) := by
    unfold ImportSetting.loadStyle
    dsimp only
    repeat' split
    all_goals simp [throw, throwThe, MonadExceptOf.throw, pure, Except.pure]
  have hadd (outcome : ImportOutcome) (declaration : ImportDeclaration) :
      outcome.add s declaration ≠ .error (.insideCharacter offset) := by
    unfold ImportOutcome.add
    dsimp only
    repeat' split
    all_goals try simp [throw, throwThe, MonadExceptOf.throw, pure, Except.pure]
    cases h : s.loadStyle declaration with
    | error e => simpa [bind, Except.bind, h] using hstyle declaration
    | ok => simp [bind, Except.bind]
  unfold processImports
  generalize ({} : ImportOutcome) = outcome
  induction items.filterMap ImportDeclaration.ofNode? generalizing outcome with
  | nil => simp [pure, Except.pure]
  | cons declaration _ ih =>
    rw [List.foldlM_cons]
    cases h : outcome.add s declaration with
    | error => simpa [bind, Except.bind, h] using hadd outcome declaration
    | ok next => exact ih next

namespace Transformation

variable {files : FileSystem} {text : String} {options : Options}

theorem body_eq_of_head? (h : text.toList.head? ≠ some '\ufeff') :
    Script.body text.toList = text.toList := by
  unfold Script.body
  cases htext : text.toList with
  | nil => rfl
  | cons c =>
    have hc : '\ufeff' ≠ c := by simpa [htext, eq_comm] using h
    simp [Text.dropPrefix?, hc]

theorem isBoundary_of_mem_cuts (t : Transformation files text options)
    (h : text.toList.head? ≠ some '\ufeff') {offset} (hoffset : offset ∈ t.draft.cuts) :
    t.source.isBoundary offset := by
  rw [t.finishes.cuts] at hoffset
  obtain ⟨start, ⟨n, hn, hend⟩, hcut⟩ := t.named.cuts offset hoffset
  have hstart : t.source.isBoundary start := by
    have hplaced := t.placed_of_within hn
    rw [body_eq_of_head? h] at hplaced
    rcases hend with rfl | rfl
    · exact hplaced.start
    · exact hplaced.stop
  rcases hcut with rfl | rfl
  · exact hstart
  · exact Source.isBoundary_blanksAfter hstart

/-- The nodes of a module start and stop between characters of what is read of the source. Without a
byte order mark that is the source, all offsets at which it is cut lie between its characters, and no
conversion breaks off inside a character. -/
theorem no_character_cut (files : FileSystem) (text : String) (options : Options) :
    (∀ t : Transformation files text options, ∀ n : Node, n.Within t.module →
      (Source.mk (Script.body text.toList)).isBoundary n.span.start ∧
        (Source.mk (Script.body text.toList)).isBoundary n.span.stop) ∧
      (text.toList.head? ≠ some '\ufeff' →
        (∀ t : Transformation files text options,
          (∀ offset ∈ t.draft.cuts, t.source.isBoundary offset) ∧
            (∀ n : Node, n.Within t.module →
              t.source.isBoundary (t.source.statementRange n.span).start ∧
                t.source.isBoundary (t.source.statementRange n.span).stop) ∧
            convert files text options = .ok t.converted) ∧
          ∀ offset, convert files text options ≠ .error (.insideCharacter offset)) := by
  have hplaced (t : Transformation files text options) {n : Node} (hn : n.Within t.module) :=
    t.placed_of_within hn
  refine ⟨fun t n hn => ⟨(hplaced t hn).start, (hplaced t hn).stop⟩, fun hmark => ?_⟩
  have hconvert (t : Transformation files text options) :
      convert files text options = .ok t.converted := by
    have hcuts : t.draft.cuts.find? (!t.source.isBoundary ·) = none := by
      simpa using fun offset => t.isBoundary_of_mem_cuts hmark
    rw [t.convert_eq, hcuts]
  rw [body_eq_of_head? hmark] at hplaced
  refine ⟨fun t => ⟨fun offset => t.isBoundary_of_mem_cuts hmark, fun n hn => ?_, hconvert t⟩,
    fun offset herror => ?_⟩
  · exact Source.isBoundary_statementRange (hplaced t hn).start (hplaced t hn).stop
  · obtain ⟨⟨t⟩⟩ | ⟨e, he, hcause⟩ := convert_cases files text options
    · simp [hconvert t] at herror
    obtain rfl : e = .insideCharacter offset := Except.error.inj (he.symm.trans herror)
    rcases hcause with hread | ⟨_, himports⟩ | hnone
    · unfold readComponent at hread
      repeat' split at hread
      all_goals simp at hread
    · exact processImports_ne_insideCharacter _ _ _ himports
    · simp at hnone

/-- A module in which characters of several bytes stand before what is cut. -/
def wide : String :=
  "const é = \x7b '日本': '😀' \x7d;\n" ++
    "export default () => <ul>\x7bé.map(i => <li>ä \x7bi\x7d</li>)\x7d</ul>;\n"

theorem no_character_cut_wide : ∃ t : Transformation {} wide {}, t.draft.cuts ≠ [] ∧
    (∀ offset ∈ t.draft.cuts, t.source.isBoundary offset) ∧
    convert {} wide {} = .ok t.converted := by
  have hcheck : (of? {} wide {}).any (fun t => !t.draft.cuts.isEmpty) := by decide +kernel
  obtain ⟨t, -, hcuts⟩ := (Option.any_eq_true _ _).1 hcheck
  obtain ⟨hbetween, -, hconvert⟩ := ((no_character_cut {} wide {}).2 (by decide +kernel)).1 t
  exact ⟨t, by simpa using hcuts, hbetween, hconvert⟩

def marked : String :=
  "\ufeff\nconst x = 1;\nexport default () => <p />;\n"

theorem character_cut_after_mark : convert {} marked {} = .error (.insideCharacter 1) := by
  have hcheck : (of? {} marked {}).any
      (fun t => t.draft.cuts.find? (!t.source.isBoundary ·) == some 1) := by decide +kernel
  obtain ⟨t, -, hcut⟩ := (Option.any_eq_true _ _).1 hcheck
  rw [t.convert_eq, beq_iff_eq.1 hcut]

end Transformation

end Sveltify
