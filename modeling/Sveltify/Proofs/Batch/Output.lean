import Sveltify.Batch.Run
import Sveltify.Proofs.FileSystem
import Sveltify.Proofs.Provenance

/-! Where a run writes. The directory for the output starts at the root and never turns back, and a
component is written into it under a name of its own, so that the place of an output is known by the
names in its path. -/

namespace Sveltify

open List Path

/-! ### The name of an output -/

theorem Path.mem_of_mem_splitExtension {name c} (h : c ∈ (splitExtension name).1) :
    c ∈ name := by
  simp only [splitExtension] at h
  split at h
  · exact h
  · exact mem_of_mem_take (mem_of_mem_dropLast h)

theorem Path.slash_not_mem_fileStem? {stem} {p : Path} (h : p.fileStem? = some stem) :
    '/' ∉ stem := by
  obtain ⟨_, hname, rfl⟩ := Option.map_eq_some_iff.1 h
  exact fun hmem => (isName_of_fileName? hname).slash (mem_of_mem_splitExtension hmem)

theorem slash_not_mem_componentName (path : Path) : '/' ∉ (componentName path).toList := by
  have hstem : '/' ∉ path.fileStem?.getD [] := by
    cases h : path.fileStem? with
    | none => simp
    | some stem => exact slash_not_mem_fileStem? h
  have hname : ∀ stem, '/' ∉ stem → '/' ∉ (path.parent?.bind fileName?).getD stem := by
    intro _ hstem
    cases h : path.parent?.bind fileName? with
    | none => exact hstem
    | some name =>
      obtain ⟨_, -, hparent⟩ := Option.bind_eq_some_iff.1 h
      exact (isName_of_fileName? hparent).slash
  have hwritten : ∀ name : Text, '/' ∉ name →
      '/' ∉ (if name.isEmpty then "Component" else String.ofList name).toList := by
    intro _ h
    split
    · decide
    · rwa [String.toList_ofList]
  simp only [componentName]
  split
  · exact hwritten _ (hname _ hstem)
  · exact hwritten _ hstem

theorem isName_append_svelte {name} (h : '/' ∉ name) :
    IsName (name ++ ".svelte".toList) := by
  refine ⟨?_, ?_⟩
  · rw [mem_append, not_or]
    exact ⟨h, by decide⟩
  · have hlong : 7 ≤ (name ++ ".svelte".toList).length := by
      rw [length_append, show ".svelte".toList.length = 7 from rfl]
      omega
    unfold Component.ofPiece?
    rw [if_neg, if_neg]
    · intro hdots
      rw [beq_iff_eq.1 hdots] at hlong
      simp at hlong
    · intro hdot
      rcases Bool.or_eq_true_iff.1 hdot with hnil | hdot
      · rw [List.isEmpty_iff.1 hnil] at hlong
        simp at hlong
      · rw [beq_iff_eq.1 hdot] at hlong
        simp at hlong

def outputIn (directory source : Path) : Path :=
  directory.join ⟨(componentName source).toList ++ ".svelte".toList⟩

theorem rooted_outputIn {directory} (h : directory.Rooted) (source : Path) :
    (outputIn directory source).Rooted :=
  h.join (isName_append_svelte (slash_not_mem_componentName source))

theorem asksDirectory_outputIn (directory source : Path) :
    FileSystem.asksDirectory (outputIn directory source) = false := by
  obtain ⟨front, hfront⟩ : ∃ front, (outputIn directory source).text = front ++ ['t', 'e'] := by
    unfold outputIn join
    split
    · exact ⟨(componentName source).toList ++ ".svel".toList, by simp⟩
    · split
      · exact ⟨directory.text ++ (componentName source).toList ++ ".svel".toList, by simp⟩
      · exact ⟨directory.text ++ '/' :: (componentName source).toList ++ ".svel".toList, by simp⟩
  have hlast : ∀ c post, c ≠ 'e' → ¬ (post ++ [c] : Text) <:+ front ++ ['t', 'e'] := by
    rintro c _ hc ⟨_, heq⟩
    have hend := congrArg List.getLast? heq
    rw [← append_assoc, getLast?_concat, show front ++ ['t', 'e'] = (front ++ ['t']) ++ ['e']
      by simp, getLast?_concat] at hend
    exact hc (Option.some.inj hend)
  rw [FileSystem.asksDirectory, hfront, Text.endsWith, Text.endsWith, Bool.or_eq_false_iff,
    Bool.eq_false_iff, Bool.eq_false_iff, ne_eq, ne_eq, isSuffixOf_iff_suffix,
    isSuffixOf_iff_suffix]
  exact ⟨hlast '/' [] (by decide), hlast '.' ['/'] (by decide)⟩

theorem convert_outputPath {files text options converted} (h : convert files text options = .ok converted) :
    converted.outputPath = outputIn options.outputDir options.filename := by
  obtain ⟨t, rfl⟩ := Transformation.exists_of_convert h
  have hname : ofString s!"{componentName options.filename}.svelte"
      = ⟨(componentName options.filename).toList ++ ".svelte".toList⟩ :=
    congrArg mk String.toList_append
  exact congrArg options.outputDir.join hname

namespace Batch

variable {files : FileSystem} {directory : Path}

theorem convertFile_output {plan file report} (h : convertFile plan files file = .ok report) :
    (report.output = none ∧ report.code = none) ∨
    (report.output = some (outputIn plan.outputDir file.path) ∧ report.code.isSome) := by
  unfold convertFile at h
  split at h
  · rw [← Except.ok.inj h]
    exact .inl ⟨rfl, rfl⟩
  · split at h
    · rename_i converted hconvert
      have houtput := convert_outputPath hconvert
      rw [← Except.ok.inj h]
      refine .inr ⟨?_, rfl⟩
      rw [houtput]
      rfl
    · cases h
    · rw [← Except.ok.inj h]
      split <;> exact .inl ⟨rfl, rfl⟩
    · rw [← Except.ok.inj h]
      exact .inl ⟨rfl, rfl⟩

/-! ### The directory for the output -/

theorem rooted_absoluteIn (h : directory.isAbsolute) (path : String) :
    (absoluteIn directory path).Rooted :=
  rooted_normalize (isAbsolute_join_left h _)

theorem rooted_of_load {path output config} (hfiles : files.Sound)
    (hpath : path.isAbsolute) (h : Config.load files path = .ok config)
    (houtput : config.outputDir = some output) : output.Rooted := by
  unfold Config.load at h
  split at h
  · rename_i hfile
    have hdirectory : (Config.directoryOf path).isAbsolute := by
      unfold Config.directoryOf
      cases hparent : path.parent? with
      | some => exact isAbsolute_parent? hpath hparent
      | none =>
        have hroot := hfiles.isFile_root hpath (inner_of_parent?_eq_none hpath hparent)
        rw [hroot] at hfile
        cases hfile
    split at h
    · cases h
    · obtain ⟨_, -, h⟩ := exists_of_bind_eq_ok h
      unfold Config.ofData at h
      split at h
      · cases h
      · obtain ⟨_, hbase, h⟩ := exists_of_bind_eq_ok h
        obtain ⟨_, -, hbase⟩ := exists_of_bind_eq_ok hbase
        rw [← Except.ok.inj h, ← Except.ok.inj hbase] at houtput
        obtain ⟨_, -, rfl⟩ := Option.map_eq_some_iff.1 houtput
        exact rooted_normalize (isAbsolute_join_left hdirectory _)
  · cases h

theorem rooted_of_loadConfig {arguments output config}
    (hfiles : files.Sound) (hdirectory : directory.isAbsolute)
    (h : loadConfig files arguments directory = .ok config)
    (houtput : config.outputDir = some output) : output.Rooted := by
  unfold loadConfig at h
  split at h
  · exact rooted_of_load hfiles (rooted_absoluteIn hdirectory _).absolute h houtput
  · split at h
    · rename_i path hfind
      obtain ⟨_, -, rfl⟩ := mem_map.1 (mem_of_find?_eq_some hfind)
      exact rooted_of_load hfiles (isAbsolute_join_left hdirectory _) h houtput
    · rw [← Except.ok.inj h] at houtput
      cases houtput

theorem Plan.rooted_outputDir {arguments plan} (hfiles : files.Sound)
    (hdirectory : directory.isAbsolute)
    (h : Plan.make files arguments directory = .ok plan) : plan.outputDir.Rooted := by
  obtain ⟨_, hconfig, h⟩ := exists_of_bind_eq_ok h
  obtain ⟨output, houtput, h⟩ := exists_of_bind_eq_ok h
  have hrooted : output.Rooted := by
    cases hload : loadConfig files arguments directory with
    | error => rw [hload] at hconfig; cases hconfig
    | ok =>
      rw [hload] at hconfig
      obtain rfl := Except.ok.inj hconfig
      unfold chooseOutput at houtput
      split at houtput
      · rw [← Except.ok.inj houtput]
        exact rooted_absoluteIn hdirectory _
      · split at houtput
        · rename_i chosen hchosen
          rw [← Except.ok.inj houtput]
          exact rooted_of_loadConfig hfiles hdirectory hload hchosen
        · cases houtput
  split at h
  · cases h
  · rw [← Except.ok.inj h]
    exact hrooted

end Batch

end Sveltify
