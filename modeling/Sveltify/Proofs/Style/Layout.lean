import Sveltify.Proofs.Style.Line

/-! The lines of a sheet: at-rules that open and close, blank lines, and whole rules. They are laid
block in block and read as a flat list of items, which say what rule is expected where, whatever its
lines are then read as. -/

namespace Sveltify.Style

open List Token Rule

/-- All texts of the rule are free of line feeds. -/
structure Rule.OneLine (rule : Rule) : Prop where
  selector : '\n' ∉ rule.selector
  declarations : ∀ text ∈ rule.declarations, '\n' ∉ text
  conditions : ∀ text ∈ rule.conditions, '\n' ∉ text

/-! ### Runs of rules with the same conditions -/

namespace Rule

theorem flatten_runs (rules : List Rule) : (runs rules).flatten = rules := by
  induction rules with
  | nil => rfl
  | cons _ rest ih =>
    unfold runs
    cases hruns : runs rest with
    | nil => simpa [hruns] using ih
    | cons =>
      rw [hruns] at ih
      simp only
      split <;> simp [← ih]

theorem runs_spec {rules run} (h : run ∈ runs rules) :
    ∃ rule rest, run = rule :: rest ∧ ∀ r ∈ run, r.conditions = rule.conditions := by
  induction rules generalizing run with
  | nil => simp [runs] at h
  | cons rule rest ih =>
    unfold runs at h
    cases hruns : runs rest with
    | nil =>
      obtain rfl : run = [rule] := by simpa [hruns] using h
      exact ⟨rule, [], rfl, by simp⟩
    | cons =>
      rw [hruns] at h ih
      simp only at h
      obtain ⟨lead, _, rfl, hshared⟩ := ih mem_cons_self
      split at h
      · rename_i hsame
        have hlead : lead.conditions = rule.conditions := by simpa using hsame
        rcases mem_cons.mp h with rfl | h
        · refine ⟨rule, _, rfl, fun r hr => ?_⟩
          rcases mem_cons.mp hr with rfl | hr
          · rfl
          · rw [hshared r hr, hlead]
        · exact ih (mem_cons_of_mem _ h)
      · rcases mem_cons.mp h with rfl | h
        · exact ⟨rule, [], rfl, by simp⟩
        · exact ih h

end Rule

/-! ### The lines of rules -/

/-- Lines that print rules inside the at-rules of a path, innermost first, at any depths. -/
inductive Laid : List Text → List Text → List Rule → Prop
  | nil {path : List Text} : Laid path [] []
  | blank {path lines : List Text} {rules : List Rule} :
      Laid path lines rules → Laid path ([] :: lines) rules
  | rule {path lines : List Text} {r : Rule} {rules : List Rule} (depth : Nat) :
      r.conditions = path.reverse → Laid path lines rules →
        Laid path (r.bodyLines depth ++ lines) (r :: rules)
  | block {path inner lines : List Text} {text : Text} {first rules : List Rule} (depth : Nat) :
      Laid (text :: path) inner first → (∃ r ∈ first, text ∈ r.conditions) →
        Laid path lines rules →
        Laid path (openLine depth text :: inner ++ closeLine depth :: lines) (first ++ rules)

namespace Laid

variable {path lines : List Text} {rules : List Rule}

theorem append {next more} (h : Laid path lines rules)
    (hnext : Laid path next more) : Laid path (lines ++ next) (rules ++ more) := by
  induction h with
  | nil => exact hnext
  | blank _ ih => exact .blank (ih hnext)
  | rule depth hconditions _ ih =>
    rw [append_assoc]
    exact .rule depth hconditions (ih hnext)
  | block depth hinner hmem _ _ ih =>
    rw [append_assoc, append_assoc]
    exact .block depth hinner hmem (ih hnext)

theorem wrapLines {body texts} (hbody : ∀ depth, Laid (texts.reverse ++ path) (body depth) rules)
    (hmem : ∀ text ∈ texts, ∃ r ∈ rules, text ∈ r.conditions) (depth : Nat) :
    Laid path (wrapLines depth body texts) rules := by
  induction texts generalizing depth path with
  | nil => exact hbody depth
  | cons text _ ih =>
    have hrest := ih (by simpa using hbody) (fun t ht => hmem t (by simp [ht])) (depth + 1)
    simpa [Style.wrapLines] using hrest.block depth (hmem text (by simp)) .nil

theorem flatMap {α : Type} {f g} {items : List α}
    (h : ∀ i ∈ items, Laid path (f i) (g i)) : Laid path (items.flatMap f) (items.flatMap g) := by
  induction items with
  | nil => exact .nil
  | cons item _ ih => exact (h item (by simp)).append (ih fun i hi => h i (by simp [hi]))

theorem spaced {α : Type} {f : α → List Text} {g : α → List Rule} (item : α) (items : List α)
    (h : ∀ i ∈ item :: items, Laid path (f i) (g i)) :
    Laid path (f item ++ items.flatMap fun i => [] :: f i) ((item :: items).flatMap g) :=
  (h item (by simp)).append (flatMap fun i hi => .blank (h i (by simp [hi])))

theorem bodyLines {r} (path : List Text) (h : r.conditions = path.reverse) (depth : Nat) :
    Laid path (r.bodyLines depth) [r] := by
  simpa using Laid.rule depth h .nil

theorem runLines {r} {rest : List Rule} (hshared : ∀ s ∈ r :: rest, s.conditions = r.conditions) :
    Laid [] (runLines (r :: rest)) (r :: rest) := by
  refine wrapLines (fun depth => ?_) (fun text htext => ⟨r, by simp, htext⟩) 0
  have hbody := spaced (f := (·.bodyLines depth)) (g := ([·])) r rest fun s hs =>
    bodyLines (r.conditions.reverse ++ []) (by simp [hshared s hs]) depth
  rwa [flatMap_singleton'] at hbody

theorem sheet (sheet : Sheet) : Laid [] sheet.lines sheet.rules := by
  have hruns : ∀ run ∈ runs sheet.rules, Laid [] (Rule.runLines run) (id run) := by
    intro run hrun
    obtain ⟨r, rest, rfl, hshared⟩ := runs_spec hrun
    exact runLines hshared
  have hflatten := flatten_runs sheet.rules
  unfold Sheet.lines
  cases hs : runs sheet.rules with
  | nil =>
    rw [hs] at hflatten
    rw [← hflatten]
    exact .nil
  | cons run rest =>
    rw [hs] at hruns hflatten
    have hspaced := spaced run rest hruns
    rwa [flatMap_id, hflatten] at hspaced

theorem ruleLines (rules : List Rule) : Laid [] (rules.flatMap Rule.lines) rules := by
  have hrule : ∀ r ∈ rules, Laid [] r.lines [r] := fun r _ =>
    wrapLines (bodyLines _ (by simp)) (fun text htext => ⟨r, by simp, htext⟩) 0
  have hrules := flatMap hrule
  rwa [flatMap_singleton'] at hrules

theorem not_mem_pad (depth : Nat) : '\n' ∉ pad depth := fun h =>
  absurd (eq_of_mem_replicate h) (by decide)

theorem not_mem_openLine {head} (h : '\n' ∉ head) (depth : Nat) :
    '\n' ∉ openLine depth head := by
  simp only [openLine, mem_append, not_or]
  exact ⟨⟨not_mem_pad depth, h⟩, by decide⟩

theorem not_mem_closeLine (depth : Nat) : '\n' ∉ closeLine depth := by
  simp only [closeLine, mem_append, not_or]
  exact ⟨not_mem_pad depth, by decide⟩

theorem oneLine (h : Laid path lines rules) (hrules : ∀ r ∈ rules, r.OneLine) :
    ∀ line ∈ lines, '\n' ∉ line := by
  induction h with
  | nil => simp
  | blank _ ih => exact forall_mem_cons.2 ⟨not_mem_nil, ih hrules⟩
  | @rule _ lines r rules depth _ _ ih =>
    have hr := hrules r (by simp)
    have hrest := ih fun s hs => hrules s (by simp [hs])
    simp only [Rule.bodyLines, mem_append, mem_cons, not_mem_nil, or_false,
      mem_map]
    rintro line (((rfl | ⟨text, htext, rfl⟩) | rfl) | hline)
    · exact not_mem_openLine hr.selector depth
    · simp only [mem_append, not_or]
      exact ⟨not_mem_pad _, hr.declarations text htext⟩
    · exact not_mem_closeLine depth
    · exact hrest line hline
  | @block _ _ _ text _ _ depth _ hmem _ ihinner ih =>
    obtain ⟨r, hr, htext⟩ := hmem
    have hfirst := ihinner fun s hs => hrules s (by simp [hs])
    have hrest := ih fun s hs => hrules s (by simp [hs])
    have hhead := (hrules r (by simp [hr])).conditions text htext
    simp only [mem_append, mem_cons]
    rintro line ((rfl | hline) | rfl | hline)
    · exact not_mem_openLine hhead depth
    · exact hfirst line hline
    · exact not_mem_closeLine depth
    · exact hrest line hline

end Laid

/-! ### The items of rules -/

/-- A part of a printed sheet. -/
inductive Item where
  | condition (text : Text)
  | close
  | blank
  | rule (r : Rule)
deriving DecidableEq, Repr

namespace Item

def pathAfter (path : List Text) : List Item → List Text
  | [] => path
  | .condition text :: items => pathAfter (text :: path) items
  | .close :: items => pathAfter path.tail items
  | .blank :: items | .rule _ :: items => pathAfter path items

def expected (path : List Text) : List Item → List Rule
  | [] => []
  | .condition text :: items => expected (text :: path) items
  | .close :: items => expected path.tail items
  | .blank :: items => expected path items
  | .rule r :: items => ⟨r.selector, r.declarations, path.reverse⟩ :: expected path items

def rules (items : List Item) : List Rule :=
  items.filterMap fun
    | .rule r => some r
    | _ => none

def conditions (items : List Item) : List Text :=
  items.filterMap fun
    | .condition text => some text
    | _ => none

def tokens : Item → List Token
  | .condition text => ofLine (openLine 0 text)
  | .close => [.close]
  | .blank => [.blank]
  | .rule r =>
    ofLine (openLine 0 r.selector) ++ (reads [] r.declarations ++ [.close])

theorem pathAfter_append (path : List Text) (a b : List Item) :
    pathAfter path (a ++ b) = pathAfter (pathAfter path a) b := by
  induction a generalizing path with
  | nil => rfl
  | cons item a ih => cases item <;> exact ih _

theorem expected_append (path : List Text) (a b : List Item) :
    expected path (a ++ b) = expected path a ++ expected (pathAfter path a) b := by
  induction a generalizing path with
  | nil => rfl
  | cons item a ih =>
    cases item with
    | rule => simp [expected, pathAfter, ih]
    | condition | close | blank => exact ih _

/-- Items that stand for lines of a list of rules and leave the path as it is. -/
structure Lays (items : List Item) (lines : List Text) (rules : List Rule) (path : List Text) :
    Prop where
  reads_eq : reads [] lines = items.flatMap tokens
  path_eq : pathAfter path items = path
  expected_eq : expected path items = rules
  rules_eq : Item.rules items = rules
  conditions_mem : ∀ text ∈ conditions items, ∃ rule ∈ rules, text ∈ rule.conditions

theorem ofLine_openLine_zero (depth : Nat) (head : Text) :
    ofLine (openLine depth head) = ofLine (openLine 0 head) := by
  rw [← ofLine_trim, trim_openLine, ← trim_openLine 0, ofLine_trim]

theorem reads_pad (depth : Nat) (texts : List Text) :
    reads [] (texts.map (pad depth ++ ·)) = reads [] texts := by
  have htrim : (texts.map (pad depth ++ ·)).map Text.trim = texts.map Text.trim := by
    simp [trim_pad_append]
  rw [← reads_map_trim, htrim, reads_map_trim]

theorem reads_bodyLines (r : Rule) (depth : Nat) (lines : List Text) :
    reads [] (r.bodyLines depth ++ lines) = tokens (.rule r) ++ reads [] lines := by
  have hsplit : r.bodyLines depth ++ lines = openLine depth r.selector ::
      (r.declarations.map (pad (depth + 1) ++ ·) ++ closeLine depth :: lines) := by
    simp [bodyLines]
  rw [hsplit, reads_cons (continues_openLine depth _), reads_append_closeLine, reads_pad,
    ofLine_openLine_zero, tokens]
  simp

theorem reads_block (depth : Nat) (text : Text) (inner lines : List Text) :
    reads [] (openLine depth text :: inner ++ closeLine depth :: lines) =
      tokens (.condition text) ++ (reads [] inner ++ .close :: reads [] lines) := by
  rw [cons_append, reads_cons (continues_openLine depth _), reads_append_closeLine,
    ofLine_openLine_zero, tokens]

theorem reads_blank (lines : List Text) : reads [] ([] :: lines) = .blank :: reads [] lines := by
  rfl

theorem exists_lays {path lines rules} (h : Laid path lines rules) :
    ∃ items, Lays items lines rules path := by
  induction h with
  | nil => exact ⟨[], rfl, rfl, rfl, rfl, by simp [conditions]⟩
  | blank _ ih =>
    obtain ⟨items, hreads, hpath, hexpected, hrules, hconditions⟩ := ih
    refine ⟨.blank :: items, ?_, hpath, hexpected, hrules, hconditions⟩
    rw [reads_blank, hreads]
    rfl
  | rule depth hr _ ih =>
    obtain ⟨items, hreads, hpath, hexpected, hrules, hconditions⟩ := ih
    refine ⟨.rule _ :: items, ?_, hpath, ?_, congrArg _ hrules, fun text htext => ?_⟩
    · rw [reads_bodyLines, hreads]
      rfl
    · rw [expected, hexpected, ← hr]
    · obtain ⟨rule, hrule, hmem⟩ := hconditions text htext
      exact ⟨rule, by simp [hrule], hmem⟩
  | @block _ _ _ text _ _ _ _ hmem _ ihinner ih =>
    obtain ⟨inner, hinner, hpath₁, hexpected₁, hrules₁, hconditions₁⟩ := ihinner
    obtain ⟨items, hreads, hpath, hexpected, hrules, hconditions⟩ := ih
    refine ⟨.condition text :: inner ++ .close :: items, ?_, ?_, ?_, ?_, fun t ht => ?_⟩
    · rw [reads_block, hinner, hreads]
      simp [tokens]
    · rw [cons_append, pathAfter, pathAfter_append, hpath₁]
      exact hpath
    · rw [cons_append, expected, expected_append, hexpected₁, hpath₁]
      exact congrArg _ hexpected
    · rw [← hrules₁, ← hrules]
      simp [Item.rules]
    · have hsplit : conditions (.condition text :: inner ++ .close :: items) =
          text :: (conditions inner ++ conditions items) := by simp [conditions]
      rw [hsplit, mem_cons, mem_append] at ht
      rcases ht with rfl | ht | ht
      · obtain ⟨rule, hrule, hmem⟩ := hmem
        exact ⟨rule, by simp [hrule], hmem⟩
      · obtain ⟨rule, hrule, hmem⟩ := hconditions₁ t ht
        exact ⟨rule, by simp [hrule], hmem⟩
      · obtain ⟨rule, hrule, hmem⟩ := hconditions t ht
        exact ⟨rule, by simp [hrule], hmem⟩

end Item

end Sveltify.Style
