import Sveltify.Proofs.Style.Depth
import Sveltify.Proofs.Style.Layout

/-! Reading printed rules back. A legible rule is one that each of its lines gives back on its own;
a sheet of legible rules, printed with or without shared at-rule blocks, flattens to those rules. -/

namespace Sveltify.Style

open List
open Text (trim)
open Token Rule

/-- A declaration that only the end of its rule ends. -/
structure IsHanging (text : Text) : Prop where
  trimmed : trim text = text
  oneLine : '\n' ∉ text
  continues : continues text = true

instance (text : Text) : Decidable (IsHanging text) :=
  decidable_of_iff (trim text = text ∧ '\n' ∉ text ∧ continues text = true)
    ⟨fun ⟨h₁, h₂, h₃⟩ => ⟨h₁, h₂, h₃⟩, fun h => ⟨h.trimmed, h.oneLine, h.continues⟩⟩

/-- A rule whose lines can be read back: its at-rules and its selector are heads, the selector is
written as flattening writes it, and its declarations are plain, or hanging for the last one. -/
structure Rule.Legible (rule : Rule) : Prop where
  conditions : ∀ text ∈ rule.conditions, IsHead text ∧ isAtRule text = true
  selector : IsHead rule.selector
  normal : isAtRule rule.selector = true ∨
    Text.joinWith [',', ' '] (joinSelector none rule.selector) = rule.selector
  plain : ∀ text ∈ rule.declarations.dropLast, IsPlain text
  last : ∀ text, rule.declarations.getLast? = some text → IsPlain text ∨ IsHanging text

instance (rule : Rule) : Decidable rule.Legible :=
  decidable_of_iff
    ((∀ text ∈ rule.conditions, IsHead text ∧ isAtRule text = true) ∧ IsHead rule.selector ∧
      (isAtRule rule.selector = true ∨
        Text.joinWith [',', ' '] (joinSelector none rule.selector) = rule.selector) ∧
      (∀ text ∈ rule.declarations.dropLast, IsPlain text) ∧
      ∀ text ∈ rule.declarations.getLast?, IsPlain text ∨ IsHanging text)
    ⟨fun ⟨h₁, h₂, h₃, h₄, h₅⟩ => ⟨h₁, h₂, h₃, h₄, h₅⟩,
      fun h => ⟨h.conditions, h.selector, h.normal, h.plain, h.last⟩⟩

/-! ### The lines of one rule -/

theorem Token.reads_eq_flatMap {lines}
    (h : ∀ line ∈ lines.dropLast, continues (trim line) = false) :
    reads [] lines = lines.flatMap fun line => reads [] [line] := by
  induction lines with
  | nil => rfl
  | cons line rest ih =>
    cases rest with
    | nil => simp
    | cons =>
      have hline := h line (by simp)
      have hrest := ih fun l hl => h l (by simp [hl])
      have hone : reads [] [line] = ofLine line := by
        rw [reads_cons hline]
        simp [reads]
      rw [reads_cons hline, hrest, flatMap_cons (x := line), hone]

theorem Token.reads_one {text} (h : IsPlain text ∨ IsHanging text) :
    reads [] [text] = [.declaration text] := by
  rcases h with hplain | hhanging
  · have hends : continues (trim text) = false := by
      rw [hplain.trimmed]
      exact hplain.ends
    rw [reads_cons hends, ← ofLine_trim, ← trim_pad_append 0, ofLine_trim, hplain.ofLine_pad]
    rfl
  · simp [reads, hhanging.trimmed, hhanging.continues, held, Text.joinWith]

namespace Rule

variable {rule : Rule}

theorem Legible.plain_or_hanging (h : rule.Legible) {text}
    (htext : text ∈ rule.declarations) : IsPlain text ∨ IsHanging text := by
  by_cases hlast : (some text : Option Text) = rule.declarations.getLast?
  · exact h.last text hlast.symm
  · exact .inl (h.plain text (mem_dropLast_of_mem_of_ne_getLast? htext hlast))

theorem Legible.map_trim (h : rule.Legible) : rule.declarations.map trim = rule.declarations := by
  have htrim : ∀ text ∈ rule.declarations, trim text = id text := by
    intro _ htext
    rcases h.plain_or_hanging htext with hplain | hhanging
    · exact hplain.trimmed
    · exact hhanging.trimmed
  rw [map_congr_left htrim, map_id]

theorem Legible.oneLine (h : rule.Legible) : rule.OneLine := by
  refine ⟨h.selector.oneLine, fun text htext => ?_, fun text htext =>
    (h.conditions text htext).1.oneLine⟩
  rcases h.plain_or_hanging htext with hplain | hhanging
  · exact hplain.oneLine
  · exact hhanging.oneLine

theorem Legible.reads_declarations (h : rule.Legible) :
    reads [] rule.declarations = rule.declarations.map .declaration := by
  have hends : ∀ line ∈ rule.declarations.dropLast, continues (trim line) = false := by
    intro line hline
    rw [(h.plain line hline).trimmed]
    exact (h.plain line hline).ends
  rw [reads_eq_flatMap hends, map_eq_flatMap]
  exact flatMap_congr fun text htext => reads_one (h.plain_or_hanging htext)

end Rule

theorem Path.filter_isAtRule {path : List Text} (hpath : ∀ head ∈ path, isAtRule head) :
    path.filter isAtRule = path ∧ path.filter (!isAtRule ·) = [] :=
  ⟨filter_eq_self.mpr hpath, by simpa [filter_eq_nil_iff] using hpath⟩

/-- Inside at-rules alone, a selector that is written as flattening writes it stands for itself. -/
theorem Path.rule_of_normal {selector : Text} (hnormal : isAtRule selector ∨
      Text.joinWith [',', ' '] (joinSelector none selector) = selector)
    {path} (hpath : ∀ head ∈ path, isAtRule head) (root : Option Text)
    (run : List Text) : rule root (selector :: path) run = ⟨selector, run, path.reverse⟩ := by
  obtain ⟨hat, hnone⟩ := filter_isAtRule hpath
  unfold rule alternatives
  cases hs : isAtRule selector with
  | true => simp [hs, hat, hnone]
  | false =>
    have hjoin := hnormal.resolve_left (by simp [hs])
    simp [hs, hat, hnone, hjoin]

/-! ### The machine through printed rules -/

namespace Flattener

variable {root : Option Text} {path : List Text} {m : Flattener}

theorem At.takes_declarations {head run} (h : At root (head :: path) run m)
    (texts : List Text) (rest : List Token) :
    ∃ m', m.takes (texts.map .declaration ++ rest) = m'.takes rest ∧
      At root (head :: path) (run ++ texts.map trim) m' ∧ m'.rules = m.rules := by
  induction texts generalizing run m with
  | nil => exact ⟨m, rfl, by simpa using h, rfl⟩
  | cons text texts ih =>
    obtain ⟨_, htakes, hnext, hrules⟩ :=
      (h.moves_declaration text (by simp)).takes (texts.map .declaration ++ rest)
    obtain ⟨m', hrest, hat, hkept⟩ := ih hnext
    refine ⟨m', by rw [map_cons, cons_append, htakes, hrest], by simpa using hat, ?_⟩
    simpa [hkept] using hrules

theorem At.takes_body {head} (h : At root (head :: path) [] m) {texts}
    (hne : texts ≠ []) (htrim : texts.map trim = texts) (rest : List Token) :
    ∃ m', m.takes (texts.map .declaration ++ .close :: rest) = m'.takes rest ∧
      At root path [] m' ∧ m'.rules = m.rules ++ [Path.rule root (head :: path) texts] := by
  obtain ⟨_, htakes, hnext, hkept⟩ := h.takes_declarations texts (.close :: rest)
  obtain ⟨m', hclose, hat, hrules⟩ := hnext.moves_close.takes rest
  refine ⟨m', by rw [htakes, hclose], hat, ?_⟩
  simpa [htrim, hne, hkept, Path.rules] using hrules

end Flattener

/-- Inside at-rules the machine takes the lines of legible rules and adds these rules. -/
theorem Laid.takes {path lines rules} (h : Laid path lines rules)
    (hrules : ∀ r ∈ rules, r.Legible ∧ r.declarations ≠ []) (hpath : ∀ head ∈ path, isAtRule head)
    {root m} (hat : Flattener.At root path [] m) (rest : List Token) :
    ∃ m', m.takes (reads [] lines ++ rest) = m'.takes rest ∧ Flattener.At root path [] m' ∧
      m'.rules = m.rules ++ rules := by
  induction h generalizing m rest with
  | nil => exact ⟨m, rfl, hat, by simp⟩
  | @blank _ lines rules _ ih =>
    obtain ⟨_, hblank, hnext, hkept⟩ := hat.moves_blank.takes (reads [] lines ++ rest)
    obtain ⟨m', htakes, hat', hadded⟩ := ih hrules hpath hnext rest
    refine ⟨m', by rw [Item.reads_blank, cons_append, hblank, htakes], hat', ?_⟩
    rw [hadded, hkept]
    simp [Path.rules]
  | @rule path lines r rules depth hconditions _ ih =>
    obtain ⟨hr, hne⟩ := hrules r (by simp)
    obtain ⟨opened, hopen, hopened, hsame⟩ := (hat.moves_open r.selector).takes
      (r.declarations.map .declaration ++ .close :: (reads [] lines ++ rest))
    obtain ⟨closed, hclose, hclosed, hbody⟩ :=
      hopened.takes_body hne hr.map_trim (reads [] lines ++ rest)
    obtain ⟨m', htakes, hat', hadded⟩ :=
      ih (fun s hs => hrules s (by simp [hs])) hpath hclosed rest
    have hsplit : reads [] (r.bodyLines depth ++ lines) ++ rest = .open r.selector ::
        (r.declarations.map .declaration ++ .close :: (reads [] lines ++ rest)) := by
      simp [Item.reads_bodyLines, Item.tokens, hr.selector.ofLine_openLine, hr.reads_declarations]
    refine ⟨m', by rw [hsplit, hopen, hclose, htakes], hat', ?_⟩
    rw [hadded, hbody, hsame, Path.rule_of_normal hr.normal hpath, ← hconditions]
    simp [Path.rules]
  | @block _ inner lines text _ rules depth _ hmem _ ihinner ih =>
    obtain ⟨r, hr, htext⟩ := hmem
    obtain ⟨hhead, hatRule⟩ := (hrules r (by simp [hr])).1.conditions text htext
    obtain ⟨_, hopen, hopened, hsame⟩ := (hat.moves_open text).takes
      (reads [] inner ++ .close :: (reads [] lines ++ rest))
    obtain ⟨_, hinner, hlast, hfirst⟩ := ihinner (fun s hs => hrules s (by simp [hs]))
      (by simpa [hatRule] using hpath) hopened (.close :: (reads [] lines ++ rest))
    obtain ⟨_, hclose, hclosed, hkept⟩ := hlast.moves_close.takes (reads [] lines ++ rest)
    obtain ⟨m', htakes, hat', hadded⟩ :=
      ih (fun s hs => hrules s (by simp [hs])) hpath hclosed rest
    have hsplit : reads [] (openLine depth text :: inner ++ closeLine depth :: lines) ++ rest =
        .open text :: (reads [] inner ++ .close :: (reads [] lines ++ rest)) := by
      rw [Item.reads_block, Item.tokens, hhead.ofLine_openLine]
      simp
    refine ⟨m', by rw [hsplit, hopen, hinner, hclose, htakes], hat', ?_⟩
    rw [hadded, hkept, hfirst, hsame]
    simp [Path.rules]

theorem Laid.flatten {lines rules} (h : Laid [] lines rules)
    (hlegible : ∀ rule ∈ rules, rule.Legible) (hne : ∀ rule ∈ rules, rule.declarations ≠ [])
    (root : Option Text) : flattenRules (Text.unlines lines) root = .ok rules := by
  obtain ⟨m, htakes, hat, hrules⟩ := h.takes (fun r hr => ⟨hlegible r hr, hne r hr⟩) (by simp)
    (.start root) []
  have hread := toOption_flattenRules_unlines (h.oneLine fun r hr => (hlegible r hr).oneLine) root
  rw [append_nil] at htakes
  rw [htakes, Flattener.takes, Option.map_some, hat.finish, hrules] at hread
  cases hflatten : flattenRules (Text.unlines lines) root with
  | error => simp [hflatten, Except.toOption] at hread
  | ok => simpa [hflatten, Except.toOption, Path.rules, Flattener.start] using hread

theorem flattenRules_css {sheet : Sheet} (hlegible : ∀ rule ∈ sheet.rules, rule.Legible)
    (hne : ∀ rule ∈ sheet.rules, rule.declarations ≠ []) (root : Option Text) :
    flattenRules sheet.css root = .ok sheet.rules :=
  (Laid.sheet sheet).flatten hlegible hne root

theorem flattenRules_lines {rules} (hlegible : ∀ rule ∈ rules, rule.Legible)
    (hne : ∀ rule ∈ rules, rule.declarations ≠ []) (root : Option Text) :
    flattenRules (Text.unlines (rules.flatMap lines)) root = .ok rules :=
  (Laid.ruleLines rules).flatten hlegible hne root

end Sveltify.Style
