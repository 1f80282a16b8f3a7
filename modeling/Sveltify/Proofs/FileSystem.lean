import Mathlib.Data.List.Infix
import Sveltify.FileSystem
import Sveltify.Proofs.Path

/-! Writing files. In a sound tree nothing stands below a file; writing keeps a tree sound, puts the
text at its place, where it can be read, and leaves all other files as they were. -/

theorem Sveltify.exists_of_bind_eq_ok {ε α β : Type} {x b} {f : α → Except ε β}
    (h : x >>= f = .ok b) : ∃ a, x = .ok a ∧ f a = .ok b := by
  cases x with
  | error => cases h
  | ok a => exact ⟨a, rfl, h⟩

namespace Sveltify.FileSystem

open List

variable {fs after : FileSystem} {names place : List Text} {content : Content}

/-! ### What stands at a place -/

theorem entryAt_eq_file_iff :
    fs.entryAt names = some (.file content) ↔ fs.entries.lookup names = some (.file content) := by
  unfold entryAt
  cases fs.entries.lookup names with
  | some => rfl
  | none =>
    simp only
    split <;> simp

theorem entryAt_of_lookup_eq_none (h : fs.entries.lookup names = none) :
    fs.entryAt names = some .directory ↔
      names <+: fs.workingDirectory ∨ ∃ e ∈ fs.entries, names <+: e.1 := by
  have htest : (names.isPrefixOf fs.workingDirectory ||
      fs.entries.any fun e => names.isPrefixOf e.1) = true ↔
      names <+: fs.workingDirectory ∨ ∃ e ∈ fs.entries, names <+: e.1 := by
    simp
  rw [← htest]
  simp only [entryAt, h]
  constructor
  · intro hsome
    by_contra hfree
    rw [if_neg hfree] at hsome
    cases hsome
  · exact fun hbelow => if_pos hbelow

theorem mem_of_lookup {entry} {entries : List (List Text × Entry)}
    (h : entries.lookup names = some entry) : (names, entry) ∈ entries := by
  obtain ⟨_, _, rfl, -⟩ := lookup_eq_some_iff.1 h
  exact mem_append_right _ mem_cons_self

theorem lookup_filter_ne (entries : List (List Text × Entry)) (h : place ≠ names) :
    (entries.filter fun e => e.1 != names).lookup place = entries.lookup place := by
  induction entries with
  | nil => rfl
  | cons e _ ih =>
    obtain ⟨at', _⟩ := e
    by_cases hat : at' = names
    · have hne : (place == at') = false := by
        rw [hat]
        exact beq_false_of_ne h
      rw [filter_cons_of_neg (by simp [hat]), ih, lookup_cons, hne]
    · rw [filter_cons_of_pos (by simpa using hat), lookup_cons, lookup_cons, ih]

theorem lookup_filter_self (entries : List (List Text × Entry)) (names : List Text) :
    (entries.filter fun e => e.1 != names).lookup names = none := by
  rw [lookup_eq_none_iff]
  intro e he
  have hne : e.1 ≠ names := by simpa using (mem_filter.1 he).2
  exact bne_iff_ne.2 hne.symm

theorem lookup_put (fs : FileSystem) (names place : List Text) (content : Content) :
    (fs.put names content).entries.lookup place =
      if place = names then some (.file content) else fs.entries.lookup place := by
  unfold put
  rw [lookup_append]
  by_cases h : place = names
  · rw [h, lookup_filter_self]
    simp
  · rw [if_neg h, lookup_filter_ne _ h]
    simp [lookup_cons, beq_false_of_ne h]

/-! ### Sound trees -/

def Sound (fs : FileSystem) : Prop :=
  ∀ names content, fs.entryAt names = some (.file content) →
    ¬ names <+: fs.workingDirectory ∧ ∀ e ∈ fs.entries, names <+: e.1 → e.1 = names

theorem mem_entries_of_file (h : fs.entryAt names = some (.file content)) :
    (names, .file content) ∈ fs.entries :=
  mem_of_lookup (entryAt_eq_file_iff.1 h)

namespace Sound

theorem entryAt_of_prefix (h : fs.Sound)
    (hbelow : names <+: fs.workingDirectory ∨ ∃ e ∈ fs.entries, names <+: e.1 ∧ e.1 ≠ names) :
    fs.entryAt names = some .directory := by
  cases hlookup : fs.entries.lookup names with
  | none =>
    rw [entryAt_of_lookup_eq_none hlookup]
    rcases hbelow with hwork | ⟨e, he, hbelow, -⟩
    · exact .inl hwork
    · exact .inr ⟨e, he, hbelow⟩
  | some entry =>
    cases entry with
    | directory => simp [entryAt, hlookup]
    | file content =>
      obtain ⟨hwork, halone⟩ := h names content (entryAt_eq_file_iff.2 hlookup)
      rcases hbelow with hw | ⟨e, he, hbelow, hne⟩
      · exact absurd hw hwork
      · exact absurd (halone e he hbelow) hne

theorem entryAt_workingDirectory (h : fs.Sound) :
    fs.entryAt fs.workingDirectory = some .directory :=
  h.entryAt_of_prefix (.inl prefix_rfl)

theorem entryAt_root (h : fs.Sound) : fs.entryAt [] = some .directory :=
  h.entryAt_of_prefix (.inl nil_prefix)

theorem not_prefix_of_checkDirectory (h : fs.Sound) (hcheck : fs.checkDirectory names = .ok ())
    (hfile : fs.entryAt place = some (.file content)) : ¬ place <+: names := by
  intro hbefore
  obtain ⟨hwork, halone⟩ := h place content hfile
  unfold checkDirectory at hcheck
  split at hcheck
  · rename_i hdirectory
    have hne : place ≠ names := by
      rintro rfl
      rw [hfile] at hdirectory
      cases hdirectory
    cases hlookup : fs.entries.lookup names with
    | some =>
      have hmem := mem_of_lookup hlookup
      exact hne (halone _ hmem hbefore).symm
    | none =>
      rcases (entryAt_of_lookup_eq_none hlookup).1 hdirectory with hw | ⟨e, he, hbelow⟩
      · exact hwork (hbefore.trans hw)
      · have heq := halone e he (hbefore.trans hbelow)
        rw [heq] at hbelow
        exact hne (hbefore.eq_of_length_le hbelow.length_le)
  · cases hcheck
  · rename_i hnone
    split at hcheck
    · cases hcheck
    · rename_i hclear
      refine hclear (any_eq_true.2 ⟨place.length, ?_, ?_⟩)
      · have hne : place ≠ names := by
          rintro rfl
          rw [hfile] at hnone
          cases hnone
        have hle := hbefore.length_le
        have hlt : place.length ≠ names.length := fun heq => hne (hbefore.eq_of_length heq)
        exact mem_range.2 (by omega)
      · rw [← prefix_iff_eq_take.1 hbefore, hfile]

end Sound

/-! ### Writing -/

variable {path : Path} {text : String}

theorem of_write_eq_ok (h : fs.write path text = .ok after) :
    fs.checkDirectory path.names.dropLast = .ok () ∧
      fs.entryAt path.names ≠ some .directory ∧ after = fs.put path.names (.text text) := by
  obtain ⟨_, hcheck, h⟩ := exists_of_bind_eq_ok h
  split at h
  · cases h
  · rename_i hfree
    exact ⟨hcheck, hfree, (Except.ok.inj h).symm⟩

theorem entryAt_put_self (fs : FileSystem) (names : List Text) (content : Content) :
    (fs.put names content).entryAt names = some (.file content) := by
  rw [entryAt_eq_file_iff, lookup_put, if_pos rfl]

theorem entryAt_put_of_ne (h : place ≠ names) (other : Content) :
    (fs.put names content).entryAt place = some (.file other) ↔
      fs.entryAt place = some (.file other) := by
  rw [entryAt_eq_file_iff, entryAt_eq_file_iff, lookup_put, if_neg h]

theorem Sound.write (h : fs.Sound) (hwrite : fs.write path text = .ok after) : after.Sound := by
  obtain ⟨hcheck, hfree, rfl⟩ := of_write_eq_ok hwrite
  intro place content hfile
  by_cases hplace : place = path.names
  · -- Nothing lay below the new file: it would have been a directory.
    subst hplace
    have hbelow : ¬ path.names <+: fs.workingDirectory ∧
        ∀ e ∈ fs.entries, path.names <+: e.1 → e.1 = path.names := by
      constructor
      · intro hwork
        exact hfree (h.entryAt_of_prefix (.inl hwork))
      · intro e he hbefore
        by_contra hne
        exact hfree (h.entryAt_of_prefix (.inr ⟨e, he, hbefore, hne⟩))
    refine ⟨hbelow.1, fun e he hbefore => ?_⟩
    rcases mem_append.1 he with he | he
    · exact hbelow.2 e (mem_filter.1 he).1 hbefore
    · rw [mem_singleton.1 he]
  · -- An older file does not stand above the new one.
    rw [entryAt_put_of_ne hplace] at hfile
    obtain ⟨hwork, halone⟩ := h place content hfile
    refine ⟨hwork, fun e he hbefore => ?_⟩
    rcases mem_append.1 he with he | he
    · exact halone e (mem_filter.1 he).1 hbefore
    · rw [mem_singleton.1 he] at hbefore ⊢
      refine absurd ?_ (h.not_prefix_of_checkDirectory hcheck hfile)
      rcases eq_nil_or_concat path.names with hnil | ⟨_, _, hlast⟩
      · rw [hnil] at hbefore ⊢
        exact hbefore
      · rw [hlast] at hbefore hplace ⊢
        rw [concat_eq_append, dropLast_concat]
        rw [concat_eq_append] at hbefore hplace
        exact (prefix_concat_iff.1 hbefore).resolve_left hplace

/-! ### Reading -/

theorem follow_normal {start}
    (h : ∀ k < names.length, fs.entryAt (start ++ names.take k) = some .directory) :
    fs.follow start (names.map .normal) = .ok (start ++ names) := by
  induction names generalizing start with
  | nil => simp [follow]
  | cons _ _ ih =>
    have hstart : fs.entryAt start = some .directory := by
      simpa using h 0 (by simp)
    rw [map_cons, follow, hstart]
    refine (ih fun k hk => ?_).trans (by simp)
    simpa using h (k + 1) (by simpa using hk)

theorem Sound.readText (h : fs.Sound) (hpath : path.Rooted) (hasks : asksDirectory path = false)
    (hfile : fs.entryAt path.names = some (.file (.text text))) : fs.readText path = .ok text := by
  have habove : ∀ k < path.names.length, fs.entryAt ([] ++ path.names.take k) = some .directory := by
    intro k hk
    refine h.entryAt_of_prefix (.inr ⟨_, mem_entries_of_file hfile, take_prefix _ _, ?_⟩)
    intro heq
    have hlength := congrArg List.length heq
    rw [nil_append, length_take_of_le hk.le] at hlength
    exact hk.ne hlength.symm
  have hfollow : fs.follow fs.workingDirectory path.components = .ok path.names := by
    rw [hpath.components_eq, follow, h.entryAt_workingDirectory]
    exact follow_normal habove
  have hempty : path.text.isEmpty = false := by
    simpa using Path.text_ne_nil_of_isAbsolute hpath.absolute
  have hlocate : fs.locate path = .ok (path.names, .file (.text text)) := by
    simp only [locate, hempty, hfollow, bind, Except.bind, hfile,
      hasks]
    rfl
  rw [FileSystem.readText, hlocate]
  rfl

theorem Sound.isFile_root (h : fs.Sound) (hpath : path.isAbsolute)
    (hinner : path.inner = []) : fs.isFile path = false := by
  have hempty : path.text.isEmpty = false := by
    simpa using Path.text_ne_nil_of_isAbsolute hpath
  have hfollow : fs.follow fs.workingDirectory path.components = .ok [] := by
    rw [Path.components_of_isAbsolute hpath, hinner, follow, h.entryAt_workingDirectory]
    rfl
  have hlocate : fs.locate path = .ok ([], .directory) := by
    simp only [locate, hempty, hfollow, bind, Except.bind,
      h.entryAt_root]
    rfl
  rw [isFile, hlocate]

end Sveltify.FileSystem
