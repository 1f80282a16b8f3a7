import Sveltify.Proofs.Style.Template
import Sveltify.Style.Module

/-! Names of style modules. The constants of a module and the names under which it exports them share
one table, which export lists update entry by entry. A constant keeps its own value as long as
nothing else is exported under its name, and its interpolations are replaced by the value if it is
exported under its own name. -/

namespace Sveltify

open List

theorem Table.get?_foldl_insert {α : Type} (entries : List (String × α)) (table : Table α)
    (key : String) :
    (entries.foldl (fun table entry => table.insert entry.1 entry.2) table).get? key =
      (entries.reverse.lookup key).or (table.get? key) := by
  induction entries generalizing table with
  | nil => rfl
  | cons entry _ ih =>
    obtain ⟨k, v⟩ := entry
    rw [foldl_cons, ih, get?_insert, reverse_cons, lookup_append]
    by_cases h : k = key
    · simp [h]
    · simp [h, lookup_cons, beq_false_of_ne (Ne.symm h)]

variable {v : Variable}

namespace Style

open Script (Node)

/-! What a module declares and exports. -/

def literal? (source : Source) (declarator : Node) : Option (String × Text) :=
  match declarator.kids with
  | [.of (.ident name) _ _, value] => (literalValue? source value).map (name, ·)
  | _ => none

/-- The constants with a literal value that an item declares, with whether it exports them. -/
def literals (source : Source) : Node → List (String × Variable)
  | .of (.variableDecl _) _ declarators =>
    (declarators.filterMap (literal? source)).map fun c => (c.1, ⟨c.2, false⟩)
  | .of .exportDecl _ [.of (.variableDecl _) _ declarators] =>
    (declarators.filterMap (literal? source)).map fun c => (c.1, ⟨c.2, true⟩)
  | _ => []

def listed? : Node → Option (String × String)
  | .of .exportSpecifier _ [name, exported] =>
    some (Outline.exportName name,
      (exported.present?.map Outline.exportName).getD (Outline.exportName name))
  | _ => none

def exportList : Node → List (String × String)
  | .of .exportNamed _ [specifiers, origin] =>
    if origin.isAbsent then specifiers.kids.filterMap listed? else []
  | _ => []

/-- What a style module declares and exports. -/
structure Surface where
  /-- The constants with a literal value, with whether their declarations export them. -/
  constants : List (String × Variable)
  /-- The names in export lists, each with the name under which it is exported. -/
  listed : List (String × String)
deriving DecidableEq

namespace Surface

def ofItems (source : Source) (items : List Node) : Surface :=
  ⟨items.flatMap (literals source), items.flatMap exportList⟩

def read? (text filename : String) : Option Surface :=
  let source := Source.ofString text
  (Script.parse (Script.Dialect.ofFilename filename false) source.text).toOption.map fun parsed =>
    ofItems source parsed.module.kids

variable (s : Surface)

def constant? (name : String) : Option Variable :=
  s.constants.reverse.lookup name

def value? (name : String) : Option Text :=
  (s.constant? name).map (·.value)

/-- The constant is exported under a name, by its declaration or by an export list. -/
def Exports (name exported : String) : Prop :=
  (name, exported) ∈ s.listed ∨ exported = name ∧ ∃ v, (name, v) ∈ s.constants ∧ v.exported

def IsExported (name : String) : Prop :=
  ∃ exported, s.Exports name exported

/-- Nothing else is exported under the name of the constant, and its declarations, if there are more
than one, agree on whether they export it. -/
structure Owns (name : String) : Prop where
  unshadowed : ∀ other, (other, name) ∈ s.listed → other = name
  steady : ∀ v w, (name, v) ∈ s.constants → (name, w) ∈ s.constants → v.exported = w.exported

/-- A constant that owns its name, and is exported under it if it is exported at all. -/
structure Clear (name : String) : Prop extends s.Owns name where
  own : s.IsExported name → s.Exports name name

end Surface

/-! Reading the items. -/

theorem literalValue?_absent (source : Source) {value} (h : value.isAbsent) :
    literalValue? source value = none := by
  obtain ⟨⟨⟩, kind, _, _⟩ := value
  cases kind <;> simp [Script.Tree.isAbsent] at h
  simp [literalValue?, Script.Tree.unparen]

theorem literalValue?_template (source : Source) {value}
    (h : value.unparen.kind = .taggedTemplate) : literalValue? source value = none := by
  unfold literalValue?
  generalize value.unparen = inner at h
  obtain ⟨⟨⟩, kind, _, _⟩ := inner
  obtain rfl : kind = .taggedTemplate := h
  rfl

namespace Outline

variable (source : Source) (exported : Bool) (o : Outline)

theorem constants_declare (declarator : Node) :
    (declare source exported o declarator).constants =
      ((literal? source declarator).map fun c => (c.1, Variable.mk c.2 exported)).toList.foldl
        (fun table c => table.insert c.1 c.2) o.constants := by
  unfold declare
  split
  · next name _ _ value hkids =>
    have hliteral : literal? source declarator = (literalValue? source value).map (name, ·) := by
      simp [literal?, hkids]
    rw [hliteral]
    split
    · next habsent => simp [literalValue?_absent source habsent]
    · split
      · next htemplate =>
        rw [literalValue?_template source htemplate]
        split <;> rfl
      · split
        · next htext => simp [htext]
        · next hnone => simp [hnone]
  · next hkids =>
    have hnone : literal? source declarator = none := by
      unfold literal?
      split
      · next heq => exact (hkids _ _ _ _ heq).elim
      · rfl
    rw [hnone]
    rfl

theorem exportedAs_declare (declarator : Node) :
    (declare source exported o declarator).exportedAs = o.exportedAs := by
  unfold declare
  split
  · split
    · rfl
    · split
      · split <;> rfl
      · split <;> rfl
  · rfl

theorem foldl_declare (declarators : List Node) :
    let declared := declarators.foldl (declare source exported) o
    declared.constants = ((declarators.filterMap (literal? source)).map
      fun c => (c.1, Variable.mk c.2 exported)).foldl (fun table c => table.insert c.1 c.2)
        o.constants ∧ declared.exportedAs = o.exportedAs := by
  induction declarators generalizing o with
  | nil => exact ⟨rfl, rfl⟩
  | cons declarator _ ih =>
    obtain ⟨hconstants, hexported⟩ := ih (declare source exported o declarator)
    refine ⟨?_, hexported.trans (exportedAs_declare source exported o declarator)⟩
    rw [foldl_cons, hconstants, constants_declare]
    cases h : literal? source declarator <;> simp [h]

theorem foldl_listExport (specifiers : List Node) :
    specifiers.foldl listExport o =
      { o with exportedAs := o.exportedAs ++ specifiers.filterMap listed? } := by
  induction specifiers generalizing o with
  | nil => simp
  | cons specifier _ ih =>
    rw [foldl_cons, ih]
    unfold listExport
    split
    · simp [listed?]
    · next hother =>
      have hnone : listed? specifier = none := by
        unfold listed?
        split
        · exact (hother _ _ _ rfl).elim
        · rfl
      simp [hnone]

theorem item_surface (n : Node) :
    (item source o n).constants =
        (literals source n).foldl (fun table c => table.insert c.1 c.2) o.constants ∧
      (item source o n).exportedAs = o.exportedAs ++ exportList n := by
  unfold item
  split
  · simpa [literals, exportList] using foldl_declare source false o _
  · simpa [literals, exportList] using foldl_declare source true o _
  · split <;> simp [literals, exportList]
  · rw [foldl_listExport]
    split <;> simp_all [literals, exportList]
  · next hvariables hexport hdefault hnamed =>
    have hliterals : literals source n = [] := by
      unfold literals
      split
      · exact (hvariables _ _ _ rfl).elim
      · exact (hexport _ _ _ _ rfl).elim
      · rfl
    have hlist : exportList n = [] := by
      unfold exportList
      split
      · exact (hnamed _ _ _ rfl).elim
      · rfl
    simp [hliterals, hlist]

theorem items_surface (items : List Node) :
    (items.foldl (item source) o).constants =
        (items.flatMap (literals source)).foldl (fun table c => table.insert c.1 c.2)
          o.constants ∧
      (items.foldl (item source) o).exportedAs = o.exportedAs ++ items.flatMap exportList := by
  induction items generalizing o with
  | nil => simp
  | cons n _ ih =>
    obtain ⟨hconstants, hexported⟩ := item_surface source o n
    obtain ⟨hrest, hlist⟩ := ih (item source o n)
    rw [foldl_cons, hrest, hlist, hconstants, hexported]
    simp [foldl_append]

/-! Export lists. -/

theorem get?_exportAs (constants : Table Variable) (entry : String × String) (name : String) :
    (exportAs constants entry).get? name =
      if entry.2 = name then
        ((constants.get? entry.1).map fun v => { v with exported := true }).or (constants.get? name)
      else constants.get? name := by
  unfold exportAs
  split
  · next h => simp [h]
  · next h => rw [Table.get?_insert, h]; rfl

variable {entries : List (String × String)} {name : String}

theorem get?_foldl_exportAs_of_forall (h : ∀ other, (other, name) ∉ entries)
    (constants : Table Variable) :
    (entries.foldl exportAs constants).get? name = constants.get? name := by
  induction entries generalizing constants with
  | nil => rfl
  | cons entry _ ih =>
    have hentry : entry.2 ≠ name := fun heq => h entry.1 (heq ▸ mem_cons_self)
    rw [foldl_cons, ih fun other hmem => h other (mem_cons_of_mem _ hmem), get?_exportAs,
      if_neg hentry]

/-- A name under which nothing else is exported keeps its value, and is exported if it was or if an
entry names it. -/
theorem get?_foldl_exportAs_self (h : ∀ other, (other, name) ∈ entries → other = name)
    (constants : Table Variable) :
    (entries.foldl exportAs constants).get? name = (constants.get? name).map fun v =>
      { v with exported := v.exported || entries.contains (name, name) } := by
  induction entries generalizing constants with
  | nil => simp
  | cons entry _ ih =>
    rw [foldl_cons, ih fun other hmem => h other (mem_cons_of_mem _ hmem), get?_exportAs]
    by_cases heq : entry.2 = name
    · have hself : entry = (name, name) :=
        Prod.ext (h entry.1 (heq ▸ mem_cons_self)) heq
      cases hget : constants.get? name <;> simp [hself, hget]
    · have hne : (name, name) ≠ entry := fun hself => heq (congrArg Prod.snd hself).symm
      simp [heq, hne]

/-- What an entry exports has the value of the constant that it names, if nothing else is exported
under either name. -/
theorem get?_foldl_exportAs_of_mem {exported}
    (hname : ∀ other, (other, name) ∈ entries → other = name)
    (hexported : ∀ other, (other, exported) ∈ entries → other = name)
    (hmem : (name, exported) ∈ entries) {constants}
    (hv : constants.get? name = some v) :
    (entries.foldl exportAs constants).get? exported = some ⟨v.value, true⟩ := by
  induction entries generalizing constants v with
  | nil => cases hmem
  | cons entry rest ih =>
    have hrest := fun other h => hexported other (mem_cons_of_mem entry h)
    rw [foldl_cons]
    by_cases hlater : (name, exported) ∈ rest
    · have hkept : (exportAs constants entry).get? name =
          some { v with exported := v.exported || [entry].contains (name, name) } := by
        have hsingle : ∀ other, (other, name) ∈ [entry] → other = name :=
          fun other h => hname other (mem_cons.2 (.inl (mem_singleton.1 h)))
        simpa [hv] using get?_foldl_exportAs_self hsingle constants
      have hlast := ih (fun other h => hname other (mem_cons_of_mem _ h)) hrest hlater hkept
      exact hlast
    · obtain rfl : (name, exported) = entry := by simpa [hlater] using hmem
      rw [get?_foldl_exportAs_of_forall fun other h => hlater (hrest other h ▸ h), get?_exportAs]
      simp [hv]

end Outline

/-! The names of a module. -/

namespace Surface

variable {s : Surface} {name : String}

theorem mem_of_constant? (h : s.constant? name = some v) : (name, v) ∈ s.constants := by
  obtain ⟨_, _, hsplit, -⟩ := lookup_eq_some_iff.1 h
  exact mem_reverse.1 (by simp [hsplit])

def table (s : Surface) : Table Variable :=
  s.constants.foldl (fun table c => table.insert c.1 c.2) []

theorem get?_table (s : Surface) (name : String) : s.table.get? name = s.constant? name := by
  rw [table, Table.get?_foldl_insert]
  exact Option.or_none

/-- The declaration that counts, marked as exported if the constant is exported under its own name. -/
theorem get?_foldl_exportAs (h : s.Owns name) (hv : s.constant? name = some v) :
    ∃ w, (s.listed.foldl Outline.exportAs s.table).get? name = some w ∧ w.value = v.value ∧
      (w.exported ↔ s.Exports name name) := by
  refine ⟨{ v with exported := v.exported || s.listed.contains (name, name) }, ?_, rfl, ?_⟩
  · rw [Outline.get?_foldl_exportAs_self h.unshadowed, get?_table, hv]
    rfl
  · have hdirect : (∃ w, (name, w) ∈ s.constants ∧ w.exported) ↔ v.exported := by
      constructor
      · rintro ⟨w, hw, hexported⟩
        exact (h.steady _ _ hw (mem_of_constant? hv)).symm.trans hexported
      · exact fun hexported => ⟨v, mem_of_constant? hv, hexported⟩
    simp [Exports, hdirect, or_comm]

end Surface

theorem parse_surface {text filename m}
    (h : Module.parse text filename = .ok m) : ∃ s, Surface.read? text filename = some s ∧
      m.constants = s.listed.foldl Outline.exportAs s.table := by
  unfold Module.parse at h
  dsimp only at h
  split at h
  · cases h
  next parsed hparsed =>
  split at h
  · cases h
  obtain rfl := Except.ok.inj h
  have hread : Surface.read? text filename =
      some (Surface.ofItems (Source.ofString text) parsed.module.kids) := by
    simp [Surface.read?, hparsed, Except.toOption]
  obtain ⟨hconstants, hexported⟩ :=
    Outline.items_surface (Source.ofString text) {} parsed.module.kids
  exact ⟨_, hread, by rw [hconstants, hexported]; rfl⟩

/-- The names of a style module. A constant that owns its name resolves to the value that it is
declared with: where the template refers to it stands the value itself if the constant is exported
under its own name, and else a custom property with the value. What is exported under a name that
is given to nothing else has the value of the constant that it names. -/
theorem exports_respect_scope {text filename : String} {m : Module}
    (h : Module.parse text filename = .ok m) : ∃ s, Surface.read? text filename = some s ∧
      (∀ name value, s.value? name = some value → s.Owns name →
        ∃ v, m.constant? name = some v ∧ v.value = value ∧ (v.exported ↔ s.Exports name name) ∧
          (s.Clear name → (v.exported ↔ s.IsExported name))) ∧
      (∀ strict flat, flattenTemplate m strict = .ok flat → ∃ pieces,
        flat.text = interleave m.template.segments pieces ∧
        ∀ i name value, i < m.template.segments.length →
          m.template.references[i]? = some (.named name) →
          s.value? name = some value → s.Owns name →
          (s.Exports name name → pieces[i]? = some value) ∧
          (¬ s.Exports name name → pieces[i]? = some (propertyCall name) ∧
            ⟨kebabCase name, value⟩ ∈ flat.customProperties)) ∧
      ∀ name exported value, s.value? name = some value → s.Owns name →
        s.Exports name exported → (∀ other, s.Exports other exported → other = name) →
        m.exportedValue? exported = some value := by
  obtain ⟨s, hread, hconstants⟩ := parse_surface h
  have hlookup : ∀ name value, s.value? name = some value → s.Owns name →
      ∃ v, m.constant? name = some v ∧ v.value = value ∧ (v.exported ↔ s.Exports name name) := by
    intro name value hvalue howns
    obtain ⟨v, hv, rfl⟩ := Option.map_eq_some_iff.1 hvalue
    rw [Module.constant?, hconstants]
    exact Surface.get?_foldl_exportAs howns hv
  refine ⟨s, hread, ?_, ?_, ?_⟩
  · intro name value hvalue howns
    obtain ⟨v, hv, heq, hexported⟩ := hlookup name value hvalue howns
    exact ⟨v, hv, heq, hexported,
      fun hclear => hexported.trans ⟨fun h => ⟨name, h⟩, hclear.own⟩⟩
  · intro strict flat hflat
    obtain rfl := (m.flattenTemplate_outcome strict).2 flat hflat
    refine ⟨m.template.references.map m.written, rfl, ?_⟩
    intro i name value hi hreference hvalue howns
    obtain ⟨v, hv, rfl, hexported⟩ := hlookup name value hvalue howns
    constructor
    · intro hpublic
      simp [hreference, Module.written, hv, hexported.2 hpublic]
    · intro hprivate
      have hfalse : v.exported = false :=
        Bool.eq_false_iff.2 fun htrue => hprivate (hexported.1 htrue)
      refine ⟨by simp [hreference, Module.written, hv, hfalse], ?_⟩
      have hmem := Module.mem_owned hi hreference (by rw [hv, ← hfalse])
      exact List.mem_map.2 ⟨_, hmem, rfl⟩
  · intro name _ value hvalue howns hexports hsole
    obtain hlisted | ⟨rfl, -⟩ := id hexports
    · obtain ⟨v, hv, rfl⟩ := Option.map_eq_some_iff.1 hvalue
      have hget := Outline.get?_foldl_exportAs_of_mem howns.unshadowed
        (fun other hother => hsole other (.inl hother)) hlisted ((s.get?_table name).trans hv)
      simp [Module.exportedValue?, Module.constant?, hconstants, hget]
    · obtain ⟨v, hv, rfl, hexported⟩ := hlookup _ value hvalue howns
      simp [Module.exportedValue?, hv, hexported.2 hexports]

deriving instance DecidableEq for Module

/-- A module that exports one constant under two names and keeps the other one private. -/
def twiceExported : String :=
  "const GAP = '4px', INK = '#222';\nexport \x7b GAP, GAP as SPACE \x7d;\n" ++
    "export default css`margin: $\x7bGAP\x7d; color: $\x7bINK\x7d;`"

theorem exports_respect_scope_twice :
    ∃ m flat, Module.parse twiceExported "styles.js" = .ok m ∧
      flattenTemplate m true = .ok flat ∧ m.exportedValue? "SPACE" = some "4px".toList ∧
      (∃ v, m.constant? "GAP" = some v ∧ v.value = "4px".toList ∧ v.exported) ∧
      ⟨"ink".toList, "#222".toList⟩ ∈ flat.customProperties := by
  let s : Surface := ⟨[("GAP", ⟨"4px".toList, false⟩), ("INK", ⟨"#222".toList, false⟩)],
    [("GAP", "GAP"), ("GAP", "SPACE")]⟩
  let m : Module := ⟨[("GAP", ⟨"4px".toList, true⟩), ("INK", ⟨"#222".toList, false⟩),
    ("SPACE", ⟨"4px".toList, true⟩)],
    ⟨["margin: ".toList, "; color: ".toList, [';']], [.named "GAP", .named "INK"]⟩⟩
  have hread : Surface.read? twiceExported "styles.js" = some s := by decide +kernel
  have hparse : Module.parse twiceExported "styles.js" = .ok m := by decide +kernel
  have hflat : flattenTemplate m true = .ok ⟨"margin: 4px; color: var(--ink);".toList,
      [⟨"ink".toList, "#222".toList⟩]⟩ := by decide +kernel
  have hgap : s.Clear "GAP" :=
    ⟨⟨by simp [s], by simp [s]⟩, fun _ => .inl (by simp [s])⟩
  have hink : s.Owns "INK" := ⟨by simp [s], by simp [s]⟩
  obtain ⟨_, hs, hconstant, hflatten, hvalue⟩ := exports_respect_scope hparse
  obtain rfl := Option.some.inj (hs.symm.trans hread)
  obtain ⟨v, hv, heq, -, hexported⟩ := hconstant "GAP" _ rfl hgap.toOwns
  obtain ⟨_, -, hpieces⟩ := hflatten true _ hflat
  refine ⟨m, _, hparse, hflat, ?_, ⟨v, hv, heq, (hexported hgap).2 ⟨"GAP", .inl (by simp [s])⟩⟩, ?_⟩
  · exact hvalue "GAP" "SPACE" _ rfl hgap.toOwns (.inl (by simp [s]))
      (by simp [s, Surface.Exports])
  · exact ((hpieces 1 "INK" _ (by decide) rfl rfl hink).2 (by simp [s, Surface.Exports])).2

def lentName : String :=
  "const A = '1';\nconst B = '2';\nexport \x7b A as B \x7d;\n" ++
    "export default css`.a \x7b x: $\x7bB\x7d; \x7d`;\n"

/-- The private constant `B` is replaced by the value of `A`. -/
theorem alias_shadows_constant :
    ∃ s m, Surface.read? lentName "styles.js" = some s ∧
      Module.parse lentName "styles.js" = .ok m ∧
      s.value? "B" = some ['2'] ∧ ¬ s.IsExported "B" ∧
      m.constant? "B" = some ⟨['1'], true⟩ ∧
      flattenTemplate m true = .ok ⟨".a \x7b x: 1; \x7d".toList, []⟩ := by
  refine ⟨⟨[("A", ⟨['1'], false⟩), ("B", ⟨['2'], false⟩)], [("A", "B")]⟩,
    ⟨[("A", ⟨['1'], false⟩), ("B", ⟨['1'], true⟩)],
      ⟨[".a \x7b x: ".toList, "; \x7d".toList], [.named "B"]⟩⟩, ?_⟩
  refine ⟨by decide +kernel, by decide +kernel, rfl, ?_, rfl, by decide +kernel⟩
  simp [Surface.IsExported, Surface.Exports]

end Style

end Sveltify
