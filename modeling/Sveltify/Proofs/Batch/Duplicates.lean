import Mathlib.Data.List.Basic
import Sveltify.Proofs.Batch.Output

/-! Outputs with several sources. The reports of a run are flagged where an earlier one has the same
output, and written in order, so that the last source of an output is the one that stays. -/

namespace Sveltify.Batch

open List FileSystem

def Report.writesTo (report : Report) (path : Path) : Bool :=
  report.output.any (·.same path)

/-! ### Flagging -/

/-- The last of the earlier reports that has an output, if one of them has it. -/
inductive Nearest (output : Path) : List Report → Option Report → Prop
  | none {earlier : List Report} (h : ∀ r ∈ earlier, r.writesTo output = false) :
      Nearest output earlier none
  | some {front back : List Report} {report : Report} (h : report.writesTo output = true)
      (hback : ∀ r ∈ back, r.writesTo output = false) :
      Nearest output (front ++ report :: back) (some report)

variable {report : Report} {files : FileSystem} {reports : List Report} {output : Path}

theorem Nearest.concat (h : report.writesTo output) (earlier : List Report) :
    Nearest output (earlier ++ [report]) (.some report) :=
  .some h (by simp)

theorem Nearest.pass {earlier nearest}
    (hnearest : Nearest output earlier nearest) (h : report.writesTo output = false) :
    Nearest output (earlier ++ [report]) nearest := by
  have hall : ∀ reports : List Report, (∀ r ∈ reports, r.writesTo output = false) →
      ∀ r ∈ reports ++ [report], r.writesTo output = false := by
    intro reports hreports r hr
    rcases mem_append.1 hr with hr | hr
    · exact hreports r hr
    · rw [mem_singleton.1 hr, h]
  cases hnearest with
  | none hearlier => exact .none (hall _ hearlier)
  | some hown hback =>
    rw [append_assoc, cons_append]
    exact .some hown (hall _ hback)

/-- What flagging adds to a report that comes after others: nothing if it has no output, or if it is
the first to have it, and else one finding that names the source of the nearest that has it. -/
inductive Flags (earlier : List Report) (report : Report) : List Diagnostic → Prop
  | noOutput (h : report.output = none) : Flags earlier report []
  | first {output : Path} (h : report.output = some output)
      (hnearest : Nearest output earlier none) : Flags earlier report []
  | again {output : Path} {nearest : Report} (h : report.output = some output)
      (hnearest : Nearest output earlier (some nearest)) :
      Flags earlier report [duplicateFinding output nearest.source]

def seenIn (reports : List Report) : List (Path × Path) :=
  (reports.filterMap fun report => report.output.map (·, report.source)).reverse

theorem seenIn_concat_of_none (h : report.output = none) :
    seenIn (reports ++ [report]) = seenIn reports := by
  simp [seenIn, h]

theorem seenIn_concat_of_some (h : report.output = some output) :
    seenIn (reports ++ [report]) = (output, report.source) :: seenIn reports := by
  simp [seenIn, h]

theorem exists_nearest (earlier : List Report) (output : Path) :
    ∃ nearest, Nearest output earlier nearest ∧
      ((seenIn earlier).find? (·.1.same output)).map Prod.snd = nearest.map Report.source := by
  induction earlier using List.reverseRecOn with
  | nil => exact ⟨none, .none (by simp), rfl⟩
  | append_singleton earlier last ih =>
    obtain ⟨nearest, hnearest, hfind⟩ := ih
    cases hout : last.output with
    | none =>
      have hlast : last.writesTo output = false := by simp [Report.writesTo, hout]
      exact ⟨nearest, hnearest.pass hlast, by rw [seenIn_concat_of_none hout, hfind]⟩
    | some own =>
      have hlast : last.writesTo output = own.same output := by simp [Report.writesTo, hout]
      rw [seenIn_concat_of_some hout]
      cases hsame : own.same output with
      | true =>
        refine ⟨some last, .concat (hlast.trans hsame) earlier, ?_⟩
        rw [find?_cons_of_pos (by simpa using hsame)]
        rfl
      | false =>
        refine ⟨nearest, hnearest.pass (hlast.trans hsame), ?_⟩
        rw [find?_cons_of_neg (by simpa using hsame), hfind]

theorem flagDuplicates_cons_of_none (h : report.output = none) (seen : List (Path × Path))
    (rest : List Report) :
    flagDuplicates seen (report :: rest) = report :: flagDuplicates seen rest := by
  simp only [flagDuplicates, h]

theorem flagDuplicates_cons_of_some (h : report.output = some output) (seen : List (Path × Path))
    (rest : List Report) :
    flagDuplicates seen (report :: rest) =
      { report with diagnostics := report.diagnostics ++
          (((seen.find? (·.1.same output)).map Prod.snd).map (duplicateFinding output)).toList }
        :: flagDuplicates ((output, report.source) :: seen) rest := by
  simp only [flagDuplicates, h]
  cases seen.find? (·.1.same output) with
  | none => simp [← h]
  | some entry => simp [← h]

theorem flagDuplicates_seenIn (earlier : List Report) (report : Report) (rest : List Report) :
    ∃ added, Flags earlier report added ∧
      flagDuplicates (seenIn earlier) (report :: rest)
        = { report with diagnostics := report.diagnostics ++ added }
          :: flagDuplicates (seenIn (earlier ++ [report])) rest := by
  cases hout : report.output with
  | none =>
    refine ⟨[], .noOutput hout, ?_⟩
    rw [flagDuplicates_cons_of_none hout, seenIn_concat_of_none hout, append_nil, ← hout]
  | some output =>
    obtain ⟨nearest, hnearest, hfind⟩ := exists_nearest earlier output
    rw [flagDuplicates_cons_of_some hout, seenIn_concat_of_some hout, hfind, ← hout]
    cases nearest with
    | none => exact ⟨_, .first hout hnearest, rfl⟩
    | some nearest => exact ⟨_, .again hout hnearest, rfl⟩

theorem flagDuplicates_append (earlier before : List Report) (report : Report)
    (after : List Report) :
    ∃ added, Flags (earlier ++ before) report added ∧
      (flagDuplicates (seenIn earlier) (before ++ report :: after))[before.length]?
        = some { report with diagnostics := report.diagnostics ++ added } := by
  induction before generalizing earlier with
  | nil =>
    obtain ⟨added, hflags, heq⟩ := flagDuplicates_seenIn earlier report after
    refine ⟨added, by rwa [append_nil], ?_⟩
    rw [nil_append, heq]
    rfl
  | cons first before ih =>
    obtain ⟨_, _, heq⟩ := flagDuplicates_seenIn earlier first (before ++ report :: after)
    obtain ⟨added, hflags, hget⟩ := ih (earlier ++ [first])
    refine ⟨added, by simpa using hflags, ?_⟩
    rw [cons_append, heq, length_cons, getElem?_cons_succ]
    exact hget

theorem length_flagDuplicates (seen : List (Path × Path)) (reports : List Report) :
    (flagDuplicates seen reports).length = reports.length := by
  induction reports generalizing seen with
  | nil => rfl
  | cons report rest ih =>
    cases hout : report.output with
    | none => rw [flagDuplicates_cons_of_none hout, length_cons, length_cons, ih]
    | some output => rw [flagDuplicates_cons_of_some hout, length_cons, length_cons, ih]

theorem exists_of_mem_flagDuplicates {seen flagged} (h : flagged ∈ flagDuplicates seen reports) :
    ∃ report ∈ reports, flagged.output = report.output ∧ flagged.code = report.code := by
  induction reports generalizing seen with
  | nil => cases h
  | cons report rest ih =>
    have hrest : ∀ seen', flagged ∈ flagDuplicates seen' rest →
        ∃ r ∈ report :: rest, flagged.output = r.output ∧ flagged.code = r.code := by
      intro seen' hmem
      obtain ⟨r, hr, hsame⟩ := ih hmem
      exact ⟨r, mem_cons_of_mem _ hr, hsame⟩
    cases hout : report.output with
    | none =>
      rw [flagDuplicates_cons_of_none hout] at h
      rcases mem_cons.1 h with rfl | h
      · exact ⟨flagged, mem_cons_self, rfl, rfl⟩
      · exact hrest _ h
    | some output =>
      rw [flagDuplicates_cons_of_some hout] at h
      rcases mem_cons.1 h with rfl | h
      · exact ⟨report, mem_cons_self, rfl, rfl⟩
      · exact hrest _ h

/-! ### Writing -/

def writesSucceed : FileSystem → List Report → Bool
  | _, [] => true
  | files, report :: rest =>
    match report.output, report.code with
    | some path, some code =>
      match files.write path code with
      | .ok files => writesSucceed files rest
      | .error _ => false
    | _, _ => writesSucceed files rest

def Report.stored (report : Report) : Report :=
  if report.output.isSome && report.code.isSome then
    { report with status := .written, code := none }
  else report

theorem writeAll_cons_files (files : FileSystem) (report : Report) (rest : List Report) :
    (writeAll files (report :: rest)).1 = (writeAll (writeReport files report).1 rest).1 :=
  rfl

theorem writeAll_cons_reports (files : FileSystem) (report : Report) (rest : List Report) :
    (writeAll files (report :: rest)).2 =
      (writeReport files report).2 :: (writeAll (writeReport files report).1 rest).2 :=
  rfl

theorem length_writeAll (files : FileSystem) (reports : List Report) :
    (writeAll files reports).2.length = reports.length := by
  induction reports generalizing files with
  | nil => rfl
  | cons report rest ih => rw [writeAll_cons_reports, length_cons, length_cons, ih]

theorem writesSucceed_cons {rest} (h : writesSucceed files (report :: rest)) :
    (writeReport files report).2 = report.stored ∧
      writesSucceed (writeReport files report).1 rest ∧
      ∀ path code, report.output = some path → report.code = some code →
        files.write path code = .ok (writeReport files report).1 := by
  unfold writesSucceed at h
  unfold writeReport Report.stored
  split at h
  · rename_i path code hpath hcode
    split at h
    · rename_i next hwrite
      simp only [hpath, hcode, hwrite, Option.isSome_some, Bool.and_self, if_true]
      refine ⟨trivial, h, ?_⟩
      rintro _ _ ⟨⟩ ⟨⟩
      exact hwrite
    · cases h
  · rename_i hneither
    cases hpath : report.output with
    | none => exact ⟨rfl, h, fun _ _ h => by cases h⟩
    | some path =>
      cases hcode : report.code with
      | none => exact ⟨rfl, h, fun _ _ _ h => by cases h⟩
      | some code => exact absurd hcode (hneither path code hpath)

theorem writeAll_reports (h : writesSucceed files reports) :
    (writeAll files reports).2 = reports.map Report.stored := by
  induction reports generalizing files with
  | nil => rfl
  | cons report rest ih =>
    obtain ⟨hstored, hrest, -⟩ := writesSucceed_cons h
    rw [writeAll_cons_reports, map_cons, hstored, ih hrest]

theorem writeReport_cases (files : FileSystem) (report : Report) :
    (writeReport files report).1 = files ∨
    ∃ path code, report.output = some path ∧ report.code = some code ∧
      files.write path code = .ok (writeReport files report).1 := by
  unfold writeReport
  split
  · rename_i path code hpath hcode
    split
    · rename_i next hwrite
      exact .inr ⟨path, code, hpath, hcode, hwrite⟩
    · exact .inl rfl
  · exact .inl rfl

theorem sound_writeAll (h : files.Sound) (reports : List Report) :
    (writeAll files reports).1.Sound := by
  induction reports generalizing files with
  | nil => exact h
  | cons report rest ih =>
    rw [writeAll_cons_files]
    refine ih ?_
    rcases writeReport_cases files report with heq | ⟨path, code, -, -, hwrite⟩
    · rwa [heq]
    · exact h.write hwrite

theorem entryAt_writeAll {names content} (hfile : files.entryAt names = some (.file content))
    (hother : ∀ r ∈ reports, ∀ path, r.output = some path → path.names ≠ names) :
    (writeAll files reports).1.entryAt names = some (.file content) := by
  induction reports generalizing files with
  | nil => exact hfile
  | cons report rest ih =>
    rw [writeAll_cons_files]
    refine ih ?_ fun r hr => hother r (mem_cons_of_mem _ hr)
    rcases writeReport_cases files report with heq | ⟨path, code, hpath, -, hwrite⟩
    · rwa [heq]
    · have hne := hother report mem_cons_self path hpath
      rw [(of_write_eq_ok hwrite).2.2, entryAt_put_of_ne hne.symm]
      exact hfile

theorem entryAt_writeAll_last {before after path code}
    (h : writesSucceed files (before ++ report :: after))
    (hpath : report.output = some path) (hcode : report.code = some code)
    (hlast : ∀ r ∈ after, ∀ other, r.output = some other → other.names ≠ path.names) :
    (writeAll files (before ++ report :: after)).1.entryAt path.names
      = some (.file (.text code)) := by
  induction before generalizing files with
  | nil =>
    obtain ⟨-, -, hwrite⟩ := writesSucceed_cons h
    rw [nil_append, writeAll_cons_files]
    refine entryAt_writeAll ?_ hlast
    rw [(of_write_eq_ok (hwrite path code hpath hcode)).2.2]
    exact entryAt_put_self _ _ _
  | cons first before ih =>
    rw [cons_append, writeAll_cons_files]
    exact ih (writesSucceed_cons h).2.1

/-! ### Counting -/

def Summary.total (s : Summary) : Nat :=
  s.converted + s.skipped + s.failed

theorem Summary.total_foldl_addDiagnostic (s : Summary) (diagnostics : List Diagnostic) :
    (diagnostics.foldl addDiagnostic s).total = s.total := by
  induction diagnostics generalizing s with
  | nil => rfl
  | cons d diagnostics ih =>
    rw [foldl_cons, ih]
    unfold addDiagnostic
    split <;> rfl

theorem Summary.total_addReport (s : Summary) (report : Report) :
    (s.addReport report).total = s.total + 1 := by
  unfold addReport
  rw [total_foldl_addDiagnostic]
  unfold total
  cases report.status <;> (simp only; omega)

theorem Summary.total_ofReports (reports : List Report) :
    (Summary.ofReports reports).total = reports.length := by
  have hfold : ∀ s : Summary, (reports.foldl addReport s).total = s.total + reports.length := by
    induction reports with
    | nil => exact fun s => rfl
    | cons report rest ih =>
      intro s
      rw [foldl_cons, ih, total_addReport, length_cons]
      omega
  rw [ofReports, hfold]
  exact Nat.zero_add _

/-! ### Whole runs -/

variable {plan : Plan}

theorem exists_of_mem_mapM {converted} {found : List SourceFile}
    (h : found.mapM (convertFile plan files) = .ok converted) (hmem : report ∈ converted) :
    ∃ file, convertFile plan files file = .ok report := by
  induction found generalizing converted with
  | nil =>
    rw [mapM_nil] at h
    rw [← Except.ok.inj h] at hmem
    cases hmem
  | cons file found ih =>
    rw [mapM_cons] at h
    obtain ⟨first, hfirst, h⟩ := exists_of_bind_eq_ok h
    obtain ⟨rest, hrest, h⟩ := exists_of_bind_eq_ok h
    rw [← Except.ok.inj h] at hmem
    rcases mem_cons.1 hmem with rfl | hmem
    · exact ⟨file, hfirst⟩
    · exact ih hrest hmem

theorem Plan.exists_of_run {result} (h : plan.run files = .ok result) :
    ∃ converted, (plan.discovery.discover files plan.paths).mapM (convertFile plan files)
        = .ok converted ∧
      (result.files, result.reports) = (if plan.dryRun then (files, flagDuplicates [] converted)
        else writeAll files (flagDuplicates [] converted)) ∧
      result.summary = Summary.ofReports result.reports := by
  obtain ⟨converted, hconverted, h⟩ := exists_of_bind_eq_ok h
  refine ⟨converted, hconverted, ?_⟩
  rw [← Except.ok.inj h]
  exact ⟨rfl, rfl⟩

/-- Every flagged report of a run has neither an output nor a component, or it has a component and
its output lies in the directory for the output. -/
theorem output_of_mem_flagged {converted} {found : List SourceFile}
    (h : found.mapM (convertFile plan files) = .ok converted)
    (hmem : report ∈ flagDuplicates [] converted) {path}
    (hpath : report.output = some path) :
    (∃ source, path = outputIn plan.outputDir source) ∧ ∃ code, report.code = some code := by
  obtain ⟨own, hown, houtput, hcode⟩ := exists_of_mem_flagDuplicates hmem
  obtain ⟨file, hfile⟩ := exists_of_mem_mapM h hown
  rw [houtput] at hpath
  rw [hcode]
  rcases convertFile_output hfile with ⟨hnone, -⟩ | ⟨hsome, hcode⟩
  · rw [hnone] at hpath
    cases hpath
  · rw [hsome] at hpath
    exact ⟨⟨file.path, (Option.some.inj hpath).symm⟩, Option.isSome_iff_exists.1 hcode⟩

def twoCards : FileSystem :=
  .ofEntries ["app".toList]
    [(Path.ofString "a/Card.jsx", .file (.text "export default () => <p>1</p>;\n")),
      (Path.ofString "b/Card.jsx", .file (.text "export default () => <p>2</p>;\n"))]

def cardSources : List SourceFile :=
  [⟨Path.ofString "/app/a/Card.jsx", false⟩, ⟨Path.ofString "/app/b/Card.jsx", false⟩]

def cardOutput : Path :=
  Path.ofString "/app/out/Card.svelte"

def findsCards (plan : Plan) : Bool :=
  !plan.dryRun && plan.paths.flatMap (plan.discovery.expand twoCards) == cardSources &&
    (cardSources.mapM (convertFile plan twoCards)).toOption.any fun converted =>
      writesSucceed twoCards (flagDuplicates [] converted) &&
        (flagDuplicates [] converted).map (fun r => (r.output, r.code)) ==
          [(some cardOutput, some "<p>1</p>\n"), (some cardOutput, some "<p>2</p>\n")]

theorem sound_twoCards : twoCards.Sound := by
  intro names content h
  have hall : ∀ e ∈ twoCards.entries, ¬ e.1 <+: twoCards.workingDirectory ∧
      ∀ other ∈ twoCards.entries, e.1 <+: other.1 → other.1 = e.1 := by decide +kernel
  exact hall _ (mem_entries_of_file h)

theorem discover_cardSources {paths} {d : Discovery}
    (h : paths.flatMap (d.expand twoCards) = cardSources) :
    d.discover twoCards paths = cardSources := by
  unfold Discovery.discover
  rw [h, mergeSort_of_pairwise (by decide +kernel)]
  decide +kernel

end Sveltify.Batch
