import Sveltify.Proofs.Style.ReadBack
import Sveltify.Proofs.Style.Selector

/-! Canonical rules, made of clean texts. A selector list of clean parts splits into those parts, so
canonical rules are legible and are read back from either way of printing them. -/

namespace Sveltify.Style

open List
open Text (joinWith)
open Scanner

/-- A text that is not empty, trimmed, on one line and balanced, its braces all below top level. -/
structure IsClean (text : Text) : Prop extends IsHead text where
  ne_nil : text ≠ []

/-- One alternative of a selector list: clean, not cut by a comma, and with no first character that
flattening would take for a parent or an at-rule. -/
structure IsPart (text : Text) : Prop extends IsClean text where
  uncut : hides (· == ',') {} text = true
  ne_ampersand : text.head? ≠ some '&'
  ne_at : text.head? ≠ some '@'

instance (text : Text) : Decidable (IsClean text) :=
  decidable_of_iff (IsHead text ∧ text ≠ []) ⟨fun ⟨h₁, h₂⟩ => ⟨h₁, h₂⟩, fun h => ⟨h.1, h.2⟩⟩

instance (text : Text) : Decidable (IsPart text) :=
  decidable_of_iff (IsClean text ∧ hides (· == ',') {} text = true ∧
      text.head? ≠ some '&' ∧ text.head? ≠ some '@')
    ⟨fun ⟨h₁, h₂, h₃, h₄⟩ => ⟨h₁, h₂, h₃, h₄⟩, fun h => ⟨h.1, h.2, h.3, h.4⟩⟩

/-- A rule of clean texts with at least one declaration. -/
structure Rule.Canonical (rule : Rule) : Prop where
  declares : rule.declarations ≠ []
  conditions : ∀ text ∈ rule.conditions, IsClean text ∧ text.head? = some '@'
  selector : (IsClean rule.selector ∧ rule.selector.head? = some '@') ∨
    ∃ parts, parts ≠ [] ∧ rule.selector = joinWith [',', ' '] parts ∧
      ∀ part ∈ parts, IsPart part
  declarations : ∀ text ∈ rule.declarations, IsClean text ∧ text.getLast? ≠ some ',' ∧
    text ≠ [';'] ∧ hides (· == ';') {} text.dropLast = true

/-! ### Selector lists -/

variable {parts : List Text}

theorem splitSelectors_joinWith (h : ∀ part ∈ parts, IsPart part) :
    splitSelectors (joinWith [',', ' '] parts) = parts := by
  have hcut : ∀ part ∈ parts, IsCutOff ',' [] part := fun part hpart =>
    have hp := h part hpart
    ⟨hp.trimmed, hp.ne_nil, part, (append_nil part).symm, hp.uncut, hp.top⟩
  induction parts with
  | nil => rfl
  | cons part rest ih =>
    cases rest with
    | nil => exact splitsAt_splitSelectors.cutOff (hcut part (by simp))
    | cons next rest =>
      rw [joinWith, splitsAt_splitSelectors.cutOff_append (hcut part (by simp)) rfl,
        ih (fun p hp => h p (by simp [hp])) fun p hp => hcut p (by simp [hp])]
      exact cons_ne_nil next rest

theorem joinSelector_joinWith (h : ∀ part ∈ parts, IsPart part) :
    joinSelector none (joinWith [',', ' '] parts) = parts := by
  have hstrip : ∀ part ∈ parts, stripAmpersand part = id part := fun part hpart =>
    stripAmpersand_of_head (h part hpart).ne_ampersand
  rw [joinSelector, splitSelectors_joinWith h, map_congr_left hstrip, map_id]

theorem IsClean.append {a b} (ha : IsClean a) (hb : IsClean b) :
    IsClean (a ++ [',', ' '] ++ b) := by
  have hcomma : run {} [',', ' '] = {} := by decide
  refine ⟨⟨?_, ?_, ?_, ?_⟩, by simp⟩
  · exact Text.trim_between [',', ' '] ha.trimmed hb.trimmed ha.ne_nil hb.ne_nil
  · simp [ha.oneLine, hb.oneLine]
  · rw [hides_append, hides_append, run_append, ha.hidden, ha.top, hcomma, hb.hidden]
    rfl
  · rw [run_append, run_append, ha.top, hcomma, hb.top]

theorem isClean_joinWith (hne : parts ≠ []) (h : ∀ part ∈ parts, IsPart part) :
    IsClean (joinWith [',', ' '] parts) := by
  induction parts with
  | nil => exact absurd rfl hne
  | cons part rest ih =>
    cases rest with
    | nil => exact (h part (by simp)).toIsClean
    | cons =>
      exact (h part (by simp)).toIsClean.append
        (ih (by simp) fun p hp => h p (mem_cons_of_mem _ hp))

/-! ### Declarations -/

/-- A clean text is no rule on one line: the brace at its end would stand at top level. -/
theorem IsClean.notInline {text} (h : IsClean text) : Token.inlineRule? text = none := by
  refine Token.inlineRule_of_last fun hlast => ?_
  obtain ⟨_, rfl⟩ := getLast?_eq_some_iff.mp hlast
  exact absurd (hides_concat_of_top (by decide) h.hidden h.top) (by decide)

namespace Rule

theorem Canonical.legible {rule : Rule} (h : rule.Canonical) : rule.Legible := by
  have hplain : ∀ text ∈ rule.declarations, IsPlain text := by
    intro text htext
    obtain ⟨hclean, hcomma, hsemicolon, huncut⟩ := h.declarations text htext
    exact ⟨hclean.ne_nil, hclean.trimmed, hclean.oneLine, hclean.hidden, huncut, hsemicolon,
      hclean.notInline, Token.continues_of_last hcomma⟩
  have hselector : IsHead rule.selector ∧ (isAtRule rule.selector ∨
      joinWith [',', ' '] (joinSelector none rule.selector) = rule.selector) := by
    rcases h.selector with ⟨hclean, hat⟩ | ⟨_, hne, hjoin, hparts⟩
    · exact ⟨hclean.toIsHead, .inl (by simp [isAtRule, hat])⟩
    · rw [hjoin, joinSelector_joinWith hparts]
      exact ⟨(isClean_joinWith hne hparts).toIsHead, .inr rfl⟩
  refine ⟨fun text htext => ?_, hselector.1, hselector.2,
    fun text htext => hplain text (dropLast_subset _ htext),
    fun text htext => .inl (hplain text (mem_of_getLast? htext))⟩
  obtain ⟨hclean, hat⟩ := h.conditions text htext
  exact ⟨hclean.toIsHead, by simp [isAtRule, hat]⟩

end Rule

/-- Canonical rules are read back with any root selector, whether printed as a sheet or each with
its own at-rules. -/
theorem flattenRules_canonical (sheet : Sheet) (h : ∀ rule ∈ sheet.rules, rule.Canonical)
    (root : Option Text) :
    flattenRules sheet.css root = .ok sheet.rules ∧
      flattenRules (Text.unlines (sheet.rules.flatMap Rule.lines)) root = .ok sheet.rules := by
  have hlegible : ∀ rule ∈ sheet.rules, rule.Legible := fun rule hrule => (h rule hrule).legible
  have hne : ∀ rule ∈ sheet.rules, rule.declarations ≠ [] := fun rule hrule =>
    (h rule hrule).declares
  exact ⟨flattenRules_css hlegible hne root, flattenRules_lines hlegible hne root⟩

/-- Two rules in one at-rule block, a selector list among them, and an at-rule with declarations of
its own. -/
theorem flattenRules_canonical_grouped :
    let rules : List Rule :=
      [⟨['a', '[', '\x7b', ']', ',', ' ', 'b'], [['x', ':', '1', ';'], ['y']], [['@', 'm']]⟩,
        ⟨['c'], [['"', ';', '"', ';']], [['@', 'm']]⟩, ⟨['@', 'f'], [['z']], []⟩]
    flattenRules (Sheet.css { rules }) none = .ok rules ∧
      flattenRules (Text.unlines (rules.flatMap Rule.lines)) none = .ok rules := by
  refine flattenRules_canonical { rules := _ } ?_ none
  simp only [List.mem_cons, List.not_mem_nil, or_false]
  rintro _ (rfl | rfl | rfl)
  · exact ⟨by decide, by decide, .inr ⟨[['a', '[', '\x7b', ']'], ['b']], by decide, by decide,
      by decide⟩, by decide⟩
  · exact ⟨by decide, by decide, .inr ⟨[['c']], by decide, by decide, by decide⟩, by decide⟩
  · exact ⟨by decide, by decide, .inl (by decide), by decide⟩

end Sveltify.Style
