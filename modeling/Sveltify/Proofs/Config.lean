import Sveltify.Config.Basic
import Sveltify.Proofs.Script.Shape

/-! Two ways to write a configuration. Plain data without numbers can be spelled as a literal
expression, whose value is that data again whatever names are bound. A script that exports such a
literal therefore gives the configuration that a data file beside it gives, or fails as the file
does. -/

namespace Sveltify

open List
open Script (Node)
open Data

/-! ### Literals -/

namespace Data

mutual

/-- No number is in the data, and the keys of each record differ. -/
def plain : Data → Bool
  | .number _ => false
  | .list items => allPlain items
  | .record fields => fieldsPlain fields
  | _ => true

def allPlain : List Data → Bool
  | [] => true
  | item :: rest => item.plain && allPlain rest

def fieldsPlain : List (String × Data) → Bool
  | [] => true
  | (key, value) :: rest => key ∉ rest.map Prod.fst && value.plain && fieldsPlain rest

end

/-- The node is a key that stands for a text, written as a word or in quotes. -/
def isKey (text : String) : Node → Bool
  | .of (.word name) _ _ => name == text
  | .of (.string value) _ _ => value == text
  | _ => false

mutual

/-- The node is a literal that spells the data, with parentheses around any part of it. -/
def spells (value : Data) (n : Node) : Bool :=
  match value, n.unparen with
  | .null, .of .null _ _ => true
  | .bool b, .of (.bool b') _ _ => b' == b
  | .string text, .of (.string text') _ _ => text' == text
  | .list items, .of .array _ elements => allSpell items elements
  | .record fields, .of .object _ properties => fieldsSpell fields properties
  | _, _ => false

def allSpell : List Data → List Node → Bool
  | [], [] => true
  | item :: items, n :: rest => item.spells n && allSpell items rest
  | _, _ => false

def fieldsSpell : List (String × Data) → List Node → Bool
  | [], [] => true
  | (key, value) :: fields, .of .property _ [name, n] :: rest =>
    isKey key name && value.spells n && fieldsSpell fields rest
  | _, _ => false

end

mutual

theorem exists_spells : ∀ v : Data, v.plain → ∃ n, v.spells n
  | .null, _ => ⟨.of .null ⟨0, 0⟩ [], rfl⟩
  | .bool b, _ => ⟨.of (.bool b) ⟨0, 0⟩ [], by simp [spells, Script.Tree.unparen]⟩
  | .string text, _ => ⟨.of (.string text) ⟨0, 0⟩ [], by simp [spells, Script.Tree.unparen]⟩
  | .number _, h => by simp [plain] at h
  | .list items, h => by
    obtain ⟨elements, he⟩ := exists_allSpell items h
    exact ⟨.of .array ⟨0, 0⟩ elements, he⟩
  | .record fields, h => by
    obtain ⟨properties, hp⟩ := exists_fieldsSpell fields h
    exact ⟨.of .object ⟨0, 0⟩ properties, hp⟩

theorem exists_allSpell : ∀ items : List Data, allPlain items → ∃ elements, allSpell items elements
  | [], _ => ⟨[], rfl⟩
  | item :: items, h => by
    simp only [allPlain, Bool.and_eq_true] at h
    obtain ⟨n, hn⟩ := exists_spells item h.1
    obtain ⟨elements, he⟩ := exists_allSpell items h.2
    exact ⟨n :: elements, by simp [allSpell, hn, he]⟩

theorem exists_fieldsSpell : ∀ fields : List (String × Data), fieldsPlain fields →
    ∃ properties, fieldsSpell fields properties
  | [], _ => ⟨[], rfl⟩
  | (key, value) :: fields, h => by
    simp only [fieldsPlain, Bool.and_eq_true] at h
    obtain ⟨n, hn⟩ := exists_spells value h.1.2
    obtain ⟨properties, hp⟩ := exists_fieldsSpell fields h.2
    exact ⟨.of .property ⟨0, 0⟩ [.of (.word key) ⟨0, 0⟩ [], n] :: properties,
      by simp [fieldsSpell, isKey, hn, hp]⟩

end

end Data

/-! ### Their values -/

theorem Table.insert_of_not_mem {α : Type} {key} {table : Table α} (value : α)
    (h : key ∉ table.map Prod.fst) : table.insert key value = table ++ [(key, value)] := by
  induction table with
  | nil => rfl
  | cons _ _ ih =>
    simp only [map_cons, mem_cons, not_or] at h
    rw [insert, if_neg (by simpa using Ne.symm h.1), ih h.2, cons_append]

namespace Config

namespace Scope

variable {s : Scope} {n : Node}

theorem evaluate_unparen (s : Scope) (n : Node) : s.evaluate n.unparen = s.evaluate n := by
  fun_induction Script.Tree.unparen n with
  | case1 l _ _ ih => exact ih
  | case2 => rfl

theorem keyText?_of_isKey {key name} (h : isKey key name) :
    keyText? name = some key := by
  unfold isKey at h
  split at h <;> simp_all [keyText?]

theorem evaluateElements_of_spells {v : Data} (h : v.spells n) (rest : List Node) :
    s.evaluateElements (n :: rest) = (do
      let value ← s.evaluate n
      return value :: (← s.evaluateElements rest)) := by
  rw [evaluateElements]
  · rintro span _ rfl
    cases v <;> cases h
  · rintro _ _ rfl
    cases v <;> cases h

mutual

theorem evaluate_of_spells (s : Scope) (v : Data) (n : Node) (hv : v.plain) (h : v.spells n) :
    ∃ value, s.evaluate n = .ok value ∧ value.toData = v := by
  rw [← evaluate_unparen]
  unfold spells at h
  generalize n.unparen = m at h ⊢
  split at h
  next => exact ⟨.null, rfl, rfl⟩
  next b b' _ _ =>
    obtain rfl : b' = b := by simpa using h
    exact ⟨.bool b', rfl, rfl⟩
  next text text' _ _ =>
    obtain rfl : text' = text := by simpa using h
    exact ⟨.string text', rfl, rfl⟩
  next items _ elements =>
    obtain ⟨values, hvalues, hdata⟩ := evaluateElements_of_allSpell s items elements hv h
    exact ⟨.list values, by rw [evaluate, hvalues]; rfl, by rw [Value.toData, hdata]⟩
  next fields _ properties =>
    obtain ⟨values, hvalues, hdata⟩ :=
      evaluateProperties_of_fieldsSpell s [] fields properties hv h (by simp)
    exact ⟨.record values, by rw [evaluate, hvalues]; rfl, by rw [Value.toData, hdata]⟩
  next => cases h

theorem evaluateElements_of_allSpell (s : Scope) (items : List Data) (elements : List Node)
    (hv : allPlain items) (h : allSpell items elements) :
    ∃ values, s.evaluateElements elements = .ok values ∧ Value.allToData values = items := by
  unfold allSpell at h
  split at h
  next => exact ⟨[], rfl, rfl⟩
  next item items n rest =>
    simp only [allPlain, Bool.and_eq_true] at hv h
    obtain ⟨value, hvalue, rfl⟩ := evaluate_of_spells s item n hv.1 h.1
    obtain ⟨values, hvalues, rfl⟩ := evaluateElements_of_allSpell s items rest hv.2 h.2
    refine ⟨value :: values, ?_, rfl⟩
    rw [evaluateElements_of_spells h.1, hvalue, hvalues]
    rfl
  next => cases h

theorem evaluateProperties_of_fieldsSpell (s : Scope) (done : Table Value)
    (fields : List (String × Data)) (properties : List Node) (hv : fieldsPlain fields)
    (h : fieldsSpell fields properties)
    (hnew : ∀ key ∈ fields.map Prod.fst, key ∉ done.map Prod.fst) :
    ∃ values, s.evaluateProperties done properties = .ok (done ++ values) ∧
      Value.fieldsToData values = fields := by
  unfold fieldsSpell at h
  split at h
  next => exact ⟨[], by simp [evaluateProperties], rfl⟩
  next key v fields _ name n rest =>
    simp only [fieldsPlain, Bool.and_eq_true, decide_eq_true_eq] at hv h
    obtain ⟨value, hvalue, rfl⟩ := evaluate_of_spells s v n hv.1.2 h.1.2
    have hinsert := Table.insert_of_not_mem value (hnew key mem_cons_self)
    obtain ⟨values, hvalues, rfl⟩ := evaluateProperties_of_fieldsSpell s
      (done.insert key value) fields rest hv.2 h.2 fun key' hmem => by
        have hold := hnew key' (mem_cons_of_mem _ hmem)
        have hne : key' ≠ key := fun heq => hv.1.1 (heq ▸ hmem)
        simp_all
    refine ⟨(key, value) :: values, ?_, rfl⟩
    rw [evaluateProperties, keyText?_of_isKey h.1.1, hvalue]
    exact hvalues.trans (by simp [hinsert])
  next => cases h

end

/-! ### Exports -/

/-- The expression whose value an item exports. -/
def exportedNode? : Node → Option Node
  | .of .expression _ [.of (.assign "=") _
      [.of .member _ [.of (.ident "module") _ _, .of (.word "exports") _ _], n]] => some n
  | .of .exportDefaultExpr _ [n] => some n
  | _ => none

variable {item : Node}

theorem run_cons_of_export (h : exportedNode? item = some n) (found : Option Value)
    (rest : List Node) :
    s.run found (item :: rest) = s.evaluate n >>= fun value => s.run (some value) rest := by
  unfold exportedNode? at h
  split at h <;> cases h
  all_goals
    rw [run, exported?]
    · cases s.evaluate n <;> rfl
    · simp

theorem exported?_of_no_export (h : exportedNode? item = none) : s.exported? item = .ok none := by
  fun_cases exported? s item with
  | case1 _ _ _ _ _ _ _ _ _ _ _ hname =>
    simp only [Bool.and_eq_true, beq_iff_eq] at hname
    obtain ⟨⟨rfl, rfl⟩, rfl⟩ := hname
    cases h
  | case2 => rfl
  | case3 => cases h
  | case4 => rfl

/-- An item without an export may bind names but leaves the value that is found. -/
theorem exists_run_cons_of_no_export (h : exportedNode? item = none) (rest : List Node) :
    ∃ s' : Scope, ∀ found, s.run found (item :: rest) = s'.run found rest := by
  by_cases hdecl : ∃ word span declarators, item = .of (.variableDecl word) span declarators
  · obtain ⟨word, span, declarators, rfl⟩ := hdecl
    exact ⟨declarators.foldl declare s, fun _ => rfl⟩
  · refine ⟨s, fun found => ?_⟩
    rw [run, exported?_of_no_export h]
    · rfl
    · exact fun word span declarators heq => hdecl ⟨word, span, declarators, heq⟩

theorem run_of_no_export {items} (h : items.filterMap exportedNode? = [])
    (found : Option Value) : s.run found items = .ok found := by
  induction items generalizing s with
  | nil => rfl
  | cons _ rest ih =>
    rw [filterMap_eq_nil_iff, forall_mem_cons] at h
    obtain ⟨_, hs'⟩ := exists_run_cons_of_no_export (s := s) h.1 rest
    rw [hs', ih (filterMap_eq_nil_iff.2 h.2)]

theorem run_of_export {items n v} (h : items.filterMap exportedNode? = [n])
    (hn : ∀ s : Scope, ∃ value, s.evaluate n = .ok value ∧ value.toData = v) :
    ∃ value, s.run none items = .ok (some value) ∧ value.toData = v := by
  induction items generalizing s with
  | nil => cases h
  | cons item rest ih =>
    cases hitem : exportedNode? item with
    | none =>
      obtain ⟨_, hs'⟩ := exists_run_cons_of_no_export (s := s) hitem rest
      rw [hs']
      exact ih (by simpa [hitem] using h)
    | some =>
      simp only [filterMap_cons, hitem, List.cons.injEq] at h
      obtain ⟨rfl, hrest⟩ := h
      obtain ⟨value, hvalue, hdata⟩ := hn s
      refine ⟨value, ?_, hdata⟩
      rw [run_cons_of_export hitem, hvalue]
      exact run_of_no_export hrest _

end Scope

/-! ### Files -/

/-- The script's only export is of a literal that spells the data. -/
def exportsLiteral (v : Data) (text : String) : Bool :=
  match Script.parse dialect (dropMark text.toList) with
  | .error _ => false
  | .ok parsed =>
    match parsed.module.kids.filterMap Scope.exportedNode? with
    | [n] => v.spells n
    | _ => false

/-- The same configuration but for the file that it is from, or the same kind of error. -/
inductive Agree : Except Error Config → Except Error Config → Prop
  | configured (config : Config) (p q : Option Path) :
    Agree (.ok { config with source := p }) (.ok { config with source := q })
  | invalid (p q : Path) : Agree (.error (.invalid p)) (.error (.invalid q))
  | failed (e : Error) : Agree (.error e) (.error e)

variable {v : Data} {path : Path} {text : String} {files : FileSystem}

theorem scriptData_of_exportsLiteral (hv : v.plain) (h : exportsLiteral v text) (path : Path) :
    scriptData path text = .ok v := by
  unfold exportsLiteral at h
  cases hparsed : Script.parse dialect (dropMark text.toList) with
  | error => simp [hparsed] at h
  | ok =>
    simp only [hparsed] at h
    split at h
    next n hn =>
      obtain ⟨_, hrun, rfl⟩ := Scope.run_of_export
        (s := { source := ⟨dropMark text.toList⟩, directory := directoryOf path }) hn
        fun s => s.evaluate_of_spells v n hv h
      unfold scriptData evaluateItems
      dsimp only
      rw [hparsed]
      dsimp only
      rw [hrun]
      rfl
    next => cases h

theorem load_eq (h : files.readText path = .ok text) :
    load files path = fileData path text >>= ofData path := by
  have hfile : files.isFile path := by
    rw [FileSystem.isFile]
    rw [FileSystem.readText] at h
    generalize files.locate path = place at h ⊢
    rcases place with _ | ⟨_, _ | _⟩ <;> first | rfl | cases h
  rw [load, if_pos hfile, h]

theorem agree_ofData (v : Data) {p q} (h : directoryOf p = directoryOf q) :
    Agree (ofData p v) (ofData q v) := by
  rw [ofData, ofData, h]
  cases Settings.ofData? v with
  | none => exact .invalid p q
  | some settings =>
    simp only
    cases ofSettings settings (directoryOf q) with
    | error e => exact .failed e
    | ok config => exact .configured config (some p) (some q)

/-- Plain data is spelled by a literal, which evaluates to it in every scope, so a script that
exports the literal and a data file beside it give the same configuration or fail alike. -/
theorem script_agrees_with_data {v : Data} (hv : v.plain) :
    (∃ n, v.spells n) ∧
    (∀ n, v.spells n → ∀ s : Scope, ∃ value, s.evaluate n = .ok value ∧ value.toData = v) ∧
    ∀ (files : FileSystem) (dataPath scriptPath : Path) (dataText scriptText : String),
      dataPath.extension? = some "json".toList → scriptPath.extension? ≠ some "json".toList →
      directoryOf scriptPath = directoryOf dataPath →
      files.readText dataPath = .ok dataText → files.readText scriptPath = .ok scriptText →
      Data.ofJson? dataText = some v → exportsLiteral v scriptText →
      fileData dataPath dataText = .ok v ∧ fileData scriptPath scriptText = .ok v ∧
        Agree (load files scriptPath) (load files dataPath) := by
  refine ⟨v.exists_spells hv, fun n h s => s.evaluate_of_spells v n hv h, ?_⟩
  intro _ dataPath scriptPath dataText scriptText hdata hscript hdirectory hreadData hreadScript
    hjson hexports
  have hdataOf : fileData dataPath dataText = .ok v := by
    rw [fileData, if_pos (by simpa using hdata), hjson]
  have hscriptOf : fileData scriptPath scriptText = .ok v := by
    rw [fileData, if_neg (by simpa using hscript), scriptData_of_exportsLiteral hv hexports]
  refine ⟨hdataOf, hscriptOf, ?_⟩
  rw [load_eq hreadData, load_eq hreadScript, hdataOf, hscriptOf]
  exact agree_ofData v hdirectory

theorem script_agrees_with_data_nested :
    let dataText := "\x7b\"aliases\": \x7b\"@\": \"src\"\x7d,
      \"ignore\": [\"a\", \"b\"], \"outputPath\": null\x7d"
    let scriptText := "const aliases = unknown();
      module.exports = \x7baliases: \x7b'@': 'src'\x7d,
        ignore: ['a', 'b'], 'outputPath': (null)\x7d;"
    let dataPath := Path.ofString "c.json"
    let scriptPath := Path.ofString "c.js"
    let files : FileSystem := { entries := [(["c.json".toList], .file (.text dataText)),
      (["c.js".toList], .file (.text scriptText))] }
    ∃ v, Data.ofJson? dataText = some v ∧ v.plain ∧ fileData scriptPath scriptText = .ok v ∧
      (load files dataPath).isOk ∧ Agree (load files scriptPath) (load files dataPath) := by
  intro dataText scriptText dataPath scriptPath files
  let v := (Data.ofJson? dataText).getD .null
  have hsome : (Data.ofJson? dataText).isSome := by decide +kernel
  have hread : Data.ofJson? dataText = some v :=
    (Option.getD_of_ne_none (Option.isSome_iff_ne_none.1 hsome) _).symm
  have hv : v.plain := by decide +kernel
  have h := (script_agrees_with_data hv).2.2 files dataPath scriptPath dataText scriptText
    (by decide +kernel) (by decide +kernel) (by decide +kernel) rfl rfl hread (by decide +kernel)
  exact ⟨v, hread, hv, h.2.1, by decide +kernel, h.2.2⟩

end Config

end Sveltify
