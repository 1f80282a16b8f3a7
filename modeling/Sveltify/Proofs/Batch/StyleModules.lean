import Mathlib.Data.List.Basic
import Sveltify.Batch.Discovery
import Sveltify.Convert
import Sveltify.Proofs.FileSystem

/-! Two places decide what a style module is: an import is one of a style module when its path ends
with the suffix, and a file is passed over when its stem does. For paths in the directory of the
component the two agree, as long as the suffix is not empty: an empty one is the end of every import
path and of no stem. -/

namespace Sveltify

open List
open Batch (Discovery componentExtensions isStyleStem)
open Text (endsWith)
open ImportOutcome

theorem Text.endsWith_cons_of_not_mem {c post} (h : c ∉ post) (s : Text) :
    endsWith (c :: s) post = endsWith s post := by
  rw [Bool.eq_iff_iff, endsWith, endsWith, isSuffixOf_iff_suffix,
    isSuffixOf_iff_suffix, suffix_cons_iff]
  constructor
  · rintro (rfl | hs)
    · exact absurd mem_cons_self h
    · exact hs
  · exact Or.inr

theorem Text.endsWith_dotted {post} (h : '/' ∉ post) (s : Text) :
    endsWith ("./".toList ++ s) post = endsWith s post := by
  rw [show "./".toList ++ s = '.' :: '/' :: s from rfl, Bool.eq_iff_iff, endsWith,
    isSuffixOf_iff_suffix, suffix_cons_iff, ← Text.endsWith_cons_of_not_mem h s,
    endsWith, isSuffixOf_iff_suffix]
  constructor
  · rintro (rfl | hs)
    · exact absurd (by simp) h
    · exact hs
  · exact Or.inr

/-! ### The parts of a file name -/

namespace Path

theorem splitExtension_append {stem ext} (hstem : stem ≠ []) (hext : '.' ∉ ext) :
    splitExtension (stem ++ '.' :: ext) = (stem, some ext) := by
  have hpass : ∀ c ∈ ext.reverse, (c != '.') := by
    intro c hc
    rw [bne_iff_ne]
    rintro rfl
    exact hext (mem_reverse.1 hc)
  have hafter : ((stem ++ '.' :: ext).reverse.takeWhile (· != '.')).reverse = ext := by
    rw [reverse_append, reverse_cons, append_assoc,
      takeWhile_append_of_pos hpass]
    simp
  have hbefore : ((stem ++ '.' :: ext).take ((stem ++ '.' :: ext).length - ext.length)).dropLast
      = stem := by
    have hlength : (stem ++ '.' :: ext).length - ext.length = (stem ++ ['.']).length := by
      simp only [length_append, length_cons, length_nil]
      omega
    rw [hlength, show stem ++ '.' :: ext = (stem ++ ['.']) ++ ext by simp, take_left,
      dropLast_concat]
  simp only [splitExtension, hafter, hbefore]
  have hlonger : (ext.length == (stem ++ '.' :: ext).length) = false := by
    rw [beq_eq_false_iff_ne, length_append, length_cons]
    omega
  rw [hlonger, isEmpty_eq_false_iff.2 hstem]
  rfl

variable {file : Path} {stem ext : Text}

theorem fileStem?_of_fileName? (h : file.fileName? = some (stem ++ '.' :: ext)) (hstem : stem ≠ [])
    (hext : '.' ∉ ext) : file.fileStem? = some stem := by
  rw [fileStem?, h, Option.map_some, splitExtension_append hstem hext]

theorem extension?_of_fileName? (h : file.fileName? = some (stem ++ '.' :: ext)) (hstem : stem ≠ [])
    (hext : '.' ∉ ext) : file.extension? = some ext := by
  rw [extension?, h, Option.bind_some, splitExtension_append hstem hext]

end Path

/-! ### Files -/

namespace Batch.Discovery

def ignores (d : Discovery) (file : Path) : Bool :=
  d.ignore.any fun pattern => Pattern.Glob.matches? pattern file.text

def isStyleModule (d : Discovery) (file : Path) : Bool :=
  file.fileStem?.any (isStyleStem d.styleSuffix)

theorem not_mem_of_componentExtension {ext} (h : String.ofList ext ∈ componentExtensions) :
    '.' ∉ ext := by
  have hall : ∀ e ∈ componentExtensions, '.' ∉ e.toList := by decide
  have hext := hall _ h
  rwa [String.toList_ofList] at hext

variable {d : Discovery} {file : Path} {stem ext : Text}

theorem isStyleModule_eq (h : file.fileName? = some (stem ++ '.' :: ext)) (hstem : stem ≠ [])
    (hext : String.ofList ext ∈ componentExtensions) :
    d.isStyleModule file = isStyleStem d.styleSuffix stem := by
  rw [isStyleModule, Path.fileStem?_of_fileName? h hstem (not_mem_of_componentExtension hext),
    Option.any_some]

theorem isCandidate_eq (h : file.fileName? = some (stem ++ '.' :: ext)) (hstem : stem ≠ [])
    (hext : String.ofList ext ∈ componentExtensions) :
    d.isCandidate file = (!d.ignores file && !d.isStyleModule file) := by
  have hextended : (file.extension?.any fun e => componentExtensions.contains (String.ofList e))
      := by
    rw [Path.extension?_of_fileName? h hstem (not_mem_of_componentExtension hext), Option.any_some,
      contains_iff_mem]
    exact hext
  rw [isCandidate, hextended]
  rfl

end Batch.Discovery

/-! ### Imports -/

namespace ImportSetting

/-- Neither rules nor aliases change the paths of imports. -/
structure Plain (s : ImportSetting) : Prop where
  replacements : s.options.replacements = []
  aliases : s.options.aliases = []

/-- The import is taken for that of a style module, which is loaded, and of which there may be only
one. -/
def Consumes (s : ImportSetting) (declaration : ImportDeclaration) : Prop :=
  ∀ outcome : ImportOutcome, add s outcome declaration =
    match outcome.style with
    | some first => .error (.twoStyleModules (componentName s.options.filename) first.specifier
        (String.ofList declaration.specifier))
    | none => (s.loadStyle declaration).map fun style => { outcome with style := some style }

def Keeps (s : ImportSetting) (declaration : ImportDeclaration) : Prop :=
  ∀ outcome : ImportOutcome, add s outcome declaration =
    .ok { outcome with kept := outcome.kept ++ [s.source.slice declaration.span] }

variable {s : ImportSetting} {declaration : ImportDeclaration}

theorem Plain.redirect?_eq_none (h : s.Plain) (specifier : Text) :
    redirect? s.options.replacements s.options.aliases s.options.outputDir specifier = none := by
  rw [h.replacements, h.aliases]
  rfl

theorem Consumes.not_keeps (h : s.Consumes declaration) : ¬ s.Keeps declaration := by
  intro hkeeps
  have hsame := (h {}).symm.trans (hkeeps {})
  cases hload : s.loadStyle declaration with
  | error => simp [hload, Except.map] at hsame
  | ok => simp [hload, Except.map] at hsame

variable (h : s.Plain)
variable (hincluded : isExcluded s.options.excludedModules declaration.specifier = false)
include h hincluded

theorem Plain.consumes (hstyle : s.isStylePath declaration.specifier) : s.Consumes declaration := by
  intro outcome
  simp only [add, hincluded, h.redirect?_eq_none, hstyle]
  cases outcome.style with
  | some => rfl
  | none => cases s.loadStyle declaration <;> rfl

theorem Plain.keeps (hstyle : s.isStylePath declaration.specifier = false) :
    s.Keeps declaration := by
  intro _
  simp only [add, hincluded, h.redirect?_eq_none, hstyle]
  rfl

theorem Plain.consumes_iff : s.Consumes declaration ↔ s.isStylePath declaration.specifier := by
  constructor
  · intro hconsumes
    by_contra hstyle
    exact hconsumes.not_keeps (h.keeps hincluded (Bool.eq_false_iff.2 hstyle))
  · exact h.consumes hincluded

theorem Plain.keeps_iff :
    s.Keeps declaration ↔ s.isStylePath declaration.specifier = false := by
  constructor
  · intro hkeeps
    by_contra hstyle
    exact (h.consumes hincluded (by simpa using hstyle)).not_keeps hkeeps
  · exact h.keeps hincluded

end ImportSetting

/-! ### The imports of a module -/

namespace ImportOutcome

/-- Nothing that was kept or loaded is lost. -/
structure Grows (outcome later : ImportOutcome) : Prop where
  kept : ∀ line ∈ outcome.kept, line ∈ later.kept
  style : ∀ style, outcome.style = some style → later.style = some style

theorem Grows.refl (outcome : ImportOutcome) : outcome.Grows outcome :=
  ⟨fun _ h => h, fun _ h => h⟩

theorem Grows.trans {a b c : ImportOutcome} (hab : a.Grows b) (hbc : b.Grows c) : a.Grows c :=
  ⟨fun line h => hbc.kept line (hab.kept line h), fun style h => hbc.style style (hab.style style h)⟩

variable {outcome later : ImportOutcome} {s : ImportSetting}

theorem grows_add {declaration} (h : add s outcome declaration = .ok later) :
    outcome.Grows later := by
  simp only [add] at h
  split at h
  · cases h
    exact .refl _
  · split at h
    · split at h
      · cases h
      · rename_i hnone
        obtain ⟨_, -, h⟩ := exists_of_bind_eq_ok h
        cases h
        exact ⟨fun _ hline => hline, fun first hfirst => by rw [hnone] at hfirst; cases hfirst⟩
    · split at h <;> cases h <;>
        exact ⟨fun _ hline => mem_append_left _ hline, fun _ hstyle => hstyle⟩

theorem grows_foldlM {declarations : List ImportDeclaration}
    (h : declarations.foldlM (add s) outcome = .ok later) : outcome.Grows later := by
  induction declarations generalizing outcome with
  | nil =>
    cases h
    exact .refl _
  | cons _ _ ih =>
    obtain ⟨_, hadd, h⟩ := exists_of_bind_eq_ok h
    exact (grows_add hadd).trans (ih h)

theorem exists_add_of_mem {declarations : List ImportDeclaration}
    (h : declarations.foldlM (add s) outcome = .ok later) {declaration}
    (hmem : declaration ∈ declarations) :
    ∃ before after, add s before declaration = .ok after ∧ after.Grows later := by
  induction declarations generalizing outcome with
  | nil => cases hmem
  | cons _ _ ih =>
    obtain ⟨next, hadd, hrest⟩ := exists_of_bind_eq_ok h
    rcases mem_cons.1 hmem with rfl | hmem
    · exact ⟨outcome, next, hadd, grows_foldlM hrest⟩
    · exact ih hrest hmem

end ImportOutcome

section Run

variable {s : ImportSetting} {items : List Script.Node} {item : Script.Node}
  {declaration : ImportDeclaration} {outcome : ImportOutcome} (hitem : item ∈ items)
  (hnode : ImportDeclaration.ofNode? item = some declaration)
  (h : processImports s items = .ok outcome)

include hitem hnode h

theorem ImportSetting.Consumes.processImports (hconsumes : s.Consumes declaration) :
    ∃ style, s.loadStyle declaration = .ok style ∧ outcome.style = some style := by
  obtain ⟨before, _, hadd, hgrows⟩ :=
    exists_add_of_mem h (mem_filterMap.2 ⟨item, hitem, hnode⟩)
  rw [hconsumes before] at hadd
  cases hbefore : before.style with
  | some => simp [hbefore] at hadd
  | none =>
    cases hload : s.loadStyle declaration with
    | error => simp [hbefore, hload, Except.map] at hadd
    | ok style =>
      simp only [hbefore, hload, Except.map, Except.ok.injEq] at hadd
      exact ⟨style, rfl, hgrows.style style (by rw [← hadd])⟩

theorem ImportSetting.Keeps.processImports (hkeeps : s.Keeps declaration) :
    s.source.slice declaration.span ∈ outcome.kept := by
  obtain ⟨before, _, hadd, hgrows⟩ :=
    exists_add_of_mem h (mem_filterMap.2 ⟨item, hitem, hnode⟩)
  rw [hkeeps before] at hadd
  refine hgrows.kept _ ?_
  rw [← Except.ok.inj hadd]
  exact mem_append_right _ mem_cons_self

end Run

/-! ### The two tests -/

theorem isStylePath_eq_isStyleStem {stem} {s : ImportSetting}
    (hslash : '/' ∉ s.options.styleSuffix.toList) (hsuffix : s.options.styleSuffix ≠ "") :
    s.isStylePath ("./".toList ++ stem) = isStyleStem s.options.styleSuffix stem := by
  have hempty : s.options.styleSuffix.isEmpty = false := by
    rw [Bool.eq_false_iff]
    intro h
    exact hsuffix (String.isEmpty_iff.1 h)
  rw [ImportSetting.isStylePath, Text.endsWith_dotted hslash, isStyleStem, hempty, Bool.not_false,
    Bool.true_and]

/-- With a suffix that is not empty, an import of `./stem` is taken for one of a style module exactly
if the file `stem.ext` is passed over as a style module, and otherwise the import is kept and the file
is a component unless a pattern ignores it. With the empty suffix every import is taken for one of a
style module and no file is passed over as one. -/
theorem style_import_iff_style_file (s : ImportSetting) (d : Discovery) (file : Path)
    (stem ext : Text) (declaration : ImportDeclaration) (hplain : s.Plain)
    (hslash : '/' ∉ s.options.styleSuffix.toList) (hsame : d.styleSuffix = s.options.styleSuffix)
    (hspecifier : declaration.specifier = "./".toList ++ stem)
    (hincluded : isExcluded s.options.excludedModules declaration.specifier = false)
    (hstem : stem ≠ []) (hext : String.ofList ext ∈ componentExtensions)
    (hfile : file.fileName? = some (stem ++ '.' :: ext)) :
    (s.options.styleSuffix ≠ "" →
      (s.Consumes declaration ↔ d.isStyleModule file = true) ∧
      (s.Keeps declaration ↔ d.isStyleModule file = false) ∧
      (d.isCandidate file = true ↔ d.ignores file = false ∧ s.Keeps declaration)) ∧
    (s.options.styleSuffix = "" →
      s.Consumes declaration ∧ d.isStyleModule file = false ∧
      d.isCandidate file = !d.ignores file) ∧
    ∀ items item outcome, item ∈ items → ImportDeclaration.ofNode? item = some declaration →
      processImports s items = .ok outcome →
      (s.Consumes declaration ∧
        ∃ style, s.loadStyle declaration = .ok style ∧ outcome.style = some style) ∨
      (s.Keeps declaration ∧ s.source.slice declaration.span ∈ outcome.kept) := by
  have hmodule : d.isStyleModule file = isStyleStem s.options.styleSuffix stem := by
    rw [Discovery.isStyleModule_eq hfile hstem hext, hsame]
  have hcandidate := Discovery.isCandidate_eq (d := d) hfile hstem hext
  refine ⟨fun hsuffix => ?_, fun hsuffix => ?_, fun items item outcome hitem hnode h => ?_⟩
  · have htest : s.isStylePath declaration.specifier = d.isStyleModule file := by
      rw [hspecifier, hmodule, isStylePath_eq_isStyleStem hslash hsuffix]
    have hkeeps : s.Keeps declaration ↔ d.isStyleModule file = false := by
      rw [hplain.keeps_iff hincluded, htest]
    refine ⟨by rw [hplain.consumes_iff hincluded, htest], hkeeps, ?_⟩
    rw [hcandidate, hkeeps, Bool.and_eq_true, Bool.not_eq_true', Bool.not_eq_true']
  · have hfalse : d.isStyleModule file = false := by
      rw [hmodule, hsuffix]
      rfl
    refine ⟨hplain.consumes hincluded ?_, hfalse, ?_⟩
    · rw [ImportSetting.isStylePath, hsuffix, endsWith, List.isSuffixOf_iff_suffix]
      exact List.nil_suffix
    · rw [hcandidate, hfalse, Bool.not_false, Bool.and_true]
  · cases hstyle : s.isStylePath declaration.specifier with
    | true =>
      have hconsumes := hplain.consumes hincluded hstyle
      exact .inl ⟨hconsumes, hconsumes.processImports hitem hnode h⟩
    | false =>
      have hkeeps := hplain.keeps hincluded hstyle
      exact .inr ⟨hkeeps, hkeeps.processImports hitem hnode h⟩

def suffixSetting (suffix : String) : ImportSetting :=
  ⟨{}, Source.ofString "", { styleSuffix := suffix }⟩

def bareImport (specifier : String) : ImportDeclaration :=
  ⟨specifier.toList, ⟨0, 0⟩, [], ⟨0, 0⟩⟩

/-- The suffix may be the whole stem, and a stem that is shorter does not end with it. -/
theorem style_import_iff_style_file_styles :
    ((suffixSetting "styles").Consumes (bareImport "./styles") ∧
      Discovery.isCandidate ⟨[], "styles"⟩ (Path.ofString "src/styles.ts") = false) ∧
    ((suffixSetting "styles").Keeps (bareImport "./les") ∧
      Discovery.isCandidate ⟨[], "styles"⟩ (Path.ofString "src/les.jsx") = true) := by
  have hstyles := (style_import_iff_style_file (suffixSetting "styles") ⟨[], "styles"⟩
    (Path.ofString "src/styles.ts") "styles".toList "ts".toList (bareImport "./styles") ⟨rfl, rfl⟩
    (by decide) rfl rfl (by decide +kernel) (by decide) (by decide) (by decide +kernel)).1
    (by decide)
  have hles := (style_import_iff_style_file (suffixSetting "styles") ⟨[], "styles"⟩
    (Path.ofString "src/les.jsx") "les".toList "jsx".toList (bareImport "./les") ⟨rfl, rfl⟩
    (by decide) rfl rfl (by decide +kernel) (by decide) (by decide) (by decide +kernel)).1
    (by decide)
  exact ⟨⟨hstyles.1.2 (by decide +kernel), by decide +kernel⟩,
    ⟨hles.2.1.2 (by decide +kernel), hles.2.2.2 ⟨rfl, hles.2.1.2 (by decide +kernel)⟩⟩⟩

/-- With the empty suffix the file of a component is found, and the component that imports it fails
for want of a style module. -/
theorem empty_suffix_consumes_component :
    Discovery.isCandidate ⟨[], ""⟩ (Path.ofString "Button.jsx") = true ∧
    (convert {} "import Button from './Button';\nexport default () => <p />;\n"
      { styleSuffix := "" }).map (·.code)
      = .error (.unreadableStyle "./Button" "no such style module") := by
  decide +kernel

end Sveltify
