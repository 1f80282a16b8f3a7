import Sveltify.Proofs.Style.Accounting
import Sveltify.Proofs.Style.ReadBack

/-! What a sheet that flattens to its own rules says about their texts. Each text stands on one
line, and each declaration is read from its own line alone: a declaration that went on in the next
line, or one read as a rule, would be missed among the runs of declarations that the lines give. -/

namespace Sveltify.Style

open List
open Text (trim)
open Token Item Flattener

namespace Flattener

theorem exists_token_of_mem_finish {tokens m}
    (htakes : (start none).takes tokens = some m) {rule} (hrule : rule ∈ m.finish)
    {text} (htext : text ∈ rule.declarations) : ∃ token ∈ tokens, text ∈ token.texts := by
  have hcuts : m.finish.map Rule.declarations = cuts [] tokens := Rootless.start.map_finish htakes
  have hmem : text ∈ (cuts [] tokens).flatten := by
    rw [← hcuts]
    exact mem_flatten.mpr ⟨_, mem_map_of_mem hrule, htext⟩
  rw [flatten_cuts] at hmem
  exact mem_flatMap.mp hmem

theorem declarations_ne_of_takes {root tokens m}
    (htakes : (start root).takes tokens = some m) : ∀ rule ∈ m.finish, rule.declarations ≠ [] := by
  have hsound : m.Sound := takes_invariant (P := Sound)
    (fun a b token _ ha hstep => by
      have haccounts := Accounts.step ha 0 token
      rw [hstep] at haccounts
      exact haccounts.sound) (.start root) htakes
  exact fun rule hrule => hsound.finish_declares hrule

end Flattener

theorem declarations_ne_of_flattenRules {s root rules}
    (h : flattenRules s root = .ok rules) : ∀ rule ∈ rules, rule.declarations ≠ [] := by
  obtain ⟨m, htakes, rfl⟩ := flattenRules_eq_ok h
  exact declarations_ne_of_takes htakes

theorem oneLine_of_flattenRules {s rules}
    (h : flattenRules s none = .ok rules) : ∀ rule ∈ rules, rule.OneLine := by
  obtain ⟨m, htakes, rfl⟩ := flattenRules_eq_ok h
  have htokens : ∀ token ∈ reads [] (Text.lines s),
      ∀ text ∈ token.heads ++ token.texts, '\n' ∉ text := fun token htoken text htext =>
    not_mem_of_mem_reads (by decide) (by simp) (fun _ => Text.not_mem_of_mem_lines) htoken
      htext
  have hheads := finish_holds (P := ('\n' ∉ ·)) (Q := ('\n' ∉ ·)) htakes
    fun token htoken head hhead => by
      have hfree := htokens token htoken head (mem_append_left _ hhead)
      exact ⟨fun _ => hfree, fun _ parents hparents text htext =>
        not_mem_joinSelector (by decide) hfree hparents htext⟩
  intro rule hrule
  obtain ⟨hconditions, hselector⟩ := hheads rule hrule
  refine ⟨?_, fun text htext => ?_, hconditions⟩
  · rcases hselector with hselector | ⟨_, htexts, hjoin⟩
    · exact hselector
    · intro hmem
      rw [hjoin] at hmem
      rcases Text.mem_joinWith hmem with hmem | ⟨text, htext, hmem⟩
      · exact absurd hmem (by decide)
      · exact htexts text htext hmem
  · obtain ⟨token, htoken, hmem⟩ := exists_token_of_mem_finish htakes hrule htext
    exact htokens token htoken text (mem_append_right _ hmem)

/-- The machine that reads a sheet back, from the items of the sheet to its own rules. -/
structure Rereads (sheet : Sheet) (items : List Item) (m : Flattener) : Prop where
  lays : Lays items sheet.lines sheet.rules []
  takes : (start none).takes (items.flatMap tokens) = some m
  finish_eq : m.finish = sheet.rules
  sane : ∀ token ∈ items.flatMap tokens, token.Sane
  heads : ∀ token ∈ items.flatMap tokens, ∀ head ∈ token.heads, '\n' ∉ head
  oneLine : ∀ rule ∈ sheet.rules, rule.OneLine

theorem exists_rereads {sheet} (h : flattenRules sheet.css none = .ok sheet.rules) :
    ∃ items m, Rereads sheet items m := by
  have honeLine := oneLine_of_flattenRules h
  obtain ⟨items, hlays⟩ := exists_lays (Laid.sheet sheet)
  have hlines := (Laid.sheet sheet).oneLine honeLine
  have hread := toOption_flattenRules_unlines hlines none
  rw [← Sheet.css, h, hlays.reads_eq] at hread
  obtain ⟨m, htakes, hfinish⟩ := Option.map_eq_some_iff.mp hread.symm
  refine ⟨items, m, hlays, htakes, hfinish, fun token htoken => ?_,
    fun token htoken head hhead => ?_, honeLine⟩
  · rw [← hlays.reads_eq] at htoken
    exact sane_of_mem_reads (by simp) htoken
  · rw [← hlays.reads_eq] at htoken
    exact not_mem_of_mem_reads (by decide) (by simp) hlines htoken
      (mem_append_left _ hhead)

/-! ### The lines of declarations -/

theorem Token.countP_texts_reads_one (line : Text) :
    ((reads [] [line]).flatMap texts).countP (endsIn '\x7d') ≤
      (endsIn '\x7d' (trim line) && (inlineRule? (trim line)).isNone).toNat := by
  cases hcontinues : continues (trim line) with
  | false =>
    rw [reads_cons hcontinues]
    simpa [reads] using countP_texts_ofLine line
  | true =>
    obtain ⟨hlast, -⟩ := (continues_iff _).mp hcontinues
    have hother : endsIn '\x7d' (trim line) = false := by simp [endsIn, hlast]
    simp [reads, hcontinues, held, texts, Text.joinWith, hother]

theorem Token.countP_texts_reads {lines}
    (h : ∀ line ∈ lines.dropLast, continues (trim line) = false) :
    ((reads [] lines).flatMap texts).countP (endsIn '\x7d') ≤
      lines.countP fun line =>
        endsIn '\x7d' (trim line) && (inlineRule? (trim line)).isNone := by
  rw [reads_eq_flatMap h]
  clear h
  induction lines with
  | nil => simp
  | cons line =>
    have hone := countP_texts_reads_one line
    rw [flatMap_cons, flatMap_append, countP_append, countP_cons]
    cases hp : endsIn '\x7d' (trim line) && (inlineRule? (trim line)).isNone with
    | false =>
      rw [hp, Bool.toNat_false] at hone
      omega
    | true =>
      rw [hp, Bool.toNat_true] at hone
      simp only [if_true]
      omega

theorem endsIn_openLine (c : Char) (depth : Nat) (head : Text) :
    endsIn c (trim (openLine depth head)) = ('\x7b' == c) := by
  rw [trim_openLine_eq, endsIn_concat]

namespace Item

def declared : Item → List Text
  | .rule r => r.declarations
  | .condition _ | .close | .blank => []

def opening : Item → List Token
  | .condition text => ofLine (openLine 0 text)
  | .rule r => ofLine (openLine 0 r.selector)
  | .close | .blank => []

theorem flatMap_declared {f : List Text → List Text} (hf : f [] = []) (items : List Item) :
    (items.flatMap fun item => f item.declared) =
      (rules items).flatMap fun r => f r.declarations := by
  induction items with
  | nil => rfl
  | cons item => cases item <;> simp_all [rules, declared]

/-- Inside a sheet only a line that stops at a comma can have another declaration behind it. -/
theorem commaPairs_tokens {items : List Item}
    (h : ∀ text ∈ items.flatMap declared, IsDeclared text) :
    commaPairs false (items.flatMap tokens) ≤
      (items.flatMap fun item => item.declared.dropLast).countP stopsAtComma := by
  have hopen : ∀ (head : Text) (rest : List Token),
      commaPairs false (ofLine (openLine 0 head) ++ rest) ≤
        commaPairs false rest := by
    intro head rest
    have hline := commaPairs_ofLine false (openLine 0 head) rest
    rw [endsIn_openLine] at hline
    simpa using hline
  induction items with
  | nil => simp [commaPairs]
  | cons item items ih =>
    have hrest := ih fun text htext => h text (by simp [htext])
    rw [flatMap_cons, flatMap_cons, countP_append]
    cases item with
    | condition text => exact (hopen text _).trans (by simpa [declared] using hrest)
    | close | blank => simpa [tokens, declared, commaPairs] using hrest
    | rule r =>
      have hlines : ∀ line ∈ r.declarations,
          trim line ≠ [] ∧ (trim line).head? ≠ some '\x7d' := by
        intro line hline
        have hdeclared := h line (by simp [declared, hline])
        rw [hdeclared.trimmed]
        refine ⟨hdeclared.ne_nil, fun hhead => ?_⟩
        obtain ⟨_, rfl⟩ := head?_eq_some_iff.mp hhead
        exact absurd hdeclared.hidden (by simp [Scanner.hides, isBrace])
      have hreads := commaPairs_reads hlines [] false (items.flatMap tokens)
      have hline := hopen r.selector
        (reads [] r.declarations ++ .close :: items.flatMap tokens)
      have htokens : tokens (.rule r) ++ items.flatMap tokens =
          ofLine (openLine 0 r.selector) ++
            (reads [] r.declarations ++ .close :: items.flatMap tokens) := by simp [tokens]
      have hdeclared : (declared (.rule r)).dropLast = r.declarations.dropLast := rfl
      rw [Bool.false_and, Bool.toNat_false] at hreads
      rw [htokens, hdeclared]
      omega

/-- Of the lines of an item only a declaration that is no rule on one line can give a declaration
that ends with a closing brace. -/
theorem countP_texts_tokens {item : Item}
    (h : ∀ text ∈ item.declared.dropLast, continues (trim text) = false) :
    (item.tokens.flatMap texts).countP (endsIn '\x7d') ≤
      item.declared.countP fun line =>
        endsIn '\x7d' (trim line) && (inlineRule? (trim line)).isNone := by
  have hopen : ∀ head : Text,
      ((ofLine (openLine 0 head)).flatMap texts).countP (endsIn '\x7d') = 0 := by
    intro head
    have hline := countP_texts_ofLine (openLine 0 head)
    rw [endsIn_openLine] at hline
    simpa using hline
  cases item with
  | condition => simp [tokens, hopen]
  | close | blank => simp [tokens, texts]
  | rule =>
    have hreads := countP_texts_reads h
    simp only [tokens, flatMap_append, countP_append, hopen]
    simpa [declared, texts] using hreads

end Item

/-! ### Declarations alone on their lines -/

theorem forall_of_countP_le {α : Type} {p q} {items : List α}
    (himp : ∀ a ∈ items, p a → q a) (hle : items.countP q ≤ items.countP p) :
    ∀ a ∈ items, q a → p a := by
  induction items with
  | nil => simp
  | cons item items ih =>
    have htail : ∀ a ∈ items, p a → q a := fun a ha => himp a (by simp [ha])
    have hmono : items.countP p ≤ items.countP q := countP_mono_left htail
    have hitem := himp item (by simp)
    rw [countP_cons, countP_cons] at hle
    intro a ha hq
    rcases mem_cons.mp ha with rfl | ha
    · by_contra hp
      rw [if_pos hq, if_neg hp] at hle
      omega
    · refine ih htail ?_ a ha hq
      by_cases hp : p item
      · rw [if_pos hp, if_pos (hitem hp)] at hle
        omega
      · rw [if_neg hp] at hle
        omega

namespace Rereads

variable {sheet : Sheet} {items : List Item} {m : Flattener} (h : Rereads sheet items m)
include h

theorem map_declarations : sheet.rules.map Rule.declarations = cuts [] (items.flatMap tokens) := by
  rw [← h.finish_eq]
  exact Rootless.start.map_finish h.takes

theorem flatMap_texts : (items.flatMap tokens).flatMap texts = items.flatMap declared := by
  have hflatten := flatten_cuts [] (items.flatMap tokens)
  have hdeclared := flatMap_declared (f := id) rfl items
  rw [← h.map_declarations] at hflatten
  rw [h.lays.rules_eq] at hdeclared
  exact hflatten.symm.trans hdeclared.symm

variable {text : Text} {rule : Rule} {item : Item}

theorem isDeclared (hitem : item ∈ items) (htext : text ∈ item.declared) : IsDeclared text := by
  have hmem : text ∈ items.flatMap declared := mem_flatMap.mpr ⟨item, hitem, htext⟩
  rw [← h.flatMap_texts] at hmem
  obtain ⟨token, htoken, hmem⟩ := mem_flatMap.mp hmem
  have hsane := h.sane token htoken
  cases token with
  | «open» head => simp [texts] at hmem
  | blank | close | declaration | inlineRule => exact hsane text hmem

theorem continues_eq (hitem : item ∈ items) (htext : text ∈ item.declared.dropLast) :
    continues (trim text) = false := by
  have hdropLast : ∀ t ∈ items.flatMap fun item => item.declared.dropLast, IsDeclared t := by
    intro t ht
    obtain ⟨i, hi, ht⟩ := mem_flatMap.mp ht
    exact h.isDeclared hi (dropLast_subset _ ht)
  have hpairs := @commaPairs_tokens items fun t ht => by
    obtain ⟨i, hi, ht⟩ := mem_flatMap.mp ht
    exact h.isDeclared hi ht
  have hcommas : (items.flatMap fun item => item.declared.dropLast).countP (endsIn ',') =
      commaPairs false (items.flatMap tokens) := by
    have hsum := sum_commas_cuts [] (items.flatMap tokens)
    rw [← h.map_declarations] at hsum
    rw [flatMap_declared (f := List.dropLast) rfl, h.lays.rules_eq, countP_flatMap]
    simpa [commas, Function.comp_def] using hsum
  -- the lines have no more neighbours behind a comma than lines that stop at one, so all of the
  -- declarations that end with a comma are such lines
  by_contra hcontinues
  have hmem : text ∈ items.flatMap fun item => item.declared.dropLast :=
    mem_flatMap.mpr ⟨item, hitem, htext⟩
  have htrim := (hdropLast text hmem).trimmed
  have hends : endsIn ',' text := by
    obtain ⟨hlast, -⟩ := (continues_iff _).mp (by simpa using hcontinues)
    rw [htrim] at hlast
    simp [endsIn, hlast]
  have hstops := forall_of_countP_le (p := stopsAtComma) (q := endsIn ',')
    (fun t ht hstop => by
      rw [stopsAtComma, (hdropLast t ht).trimmed, Bool.and_eq_true] at hstop
      exact hstop.1)
    (hcommas.le.trans hpairs) text hmem hends
  simp [stopsAtComma, hcontinues] at hstops

theorem inlineRule_eq_none (hitem : item ∈ items) (htext : text ∈ item.declared) :
    inlineRule? text = none := by
  have hmem : text ∈ items.flatMap declared := mem_flatMap.mpr ⟨item, hitem, htext⟩
  have hle : (items.flatMap declared).countP (endsIn '\x7d') ≤
      (items.flatMap declared).countP fun line =>
        endsIn '\x7d' (trim line) && (inlineRule? (trim line)).isNone := by
    calc (items.flatMap declared).countP (endsIn '\x7d')
      _ = (items.map fun i => (i.tokens.flatMap texts).countP (endsIn '\x7d')).sum := by
        rw [← h.flatMap_texts, flatMap_assoc, countP_flatMap]
        rfl
      _ ≤ (items.map fun i => i.declared.countP fun line =>
            endsIn '\x7d' (trim line) &&
              (inlineRule? (trim line)).isNone).sum :=
        sum_le_sum fun i hi => countP_texts_tokens fun t ht => h.continues_eq hi ht
      _ = _ := by
        rw [countP_flatMap]
        rfl
  -- a rule on one line ends with a brace, and is one of those that the lines do not give back
  by_contra hinline
  obtain ⟨_, htoken⟩ := Option.ne_none_iff_exists'.mp hinline
  obtain ⟨_, _, hsplit, -⟩ := inlineRule_eq_some htoken
  have hends : endsIn '\x7d' text := by
    rw [hsplit, endsIn_concat]
    rfl
  have hnone := forall_of_countP_le (fun t ht hp => by
    obtain ⟨i, hi, ht⟩ := mem_flatMap.mp ht
    rw [(h.isDeclared hi ht).trimmed, Bool.and_eq_true] at hp
    exact hp.1) hle text hmem hends
  rw [(h.isDeclared hitem htext).trimmed, htoken] at hnone
  simp at hnone

theorem mem_items (hrule : rule ∈ sheet.rules) : .rule rule ∈ items := by
  rw [← h.lays.rules_eq] at hrule
  obtain ⟨item, hitem, hsome⟩ := mem_filterMap.mp hrule
  cases item with
  | rule r =>
    obtain rfl : r = rule := by simpa using hsome
    exact hitem
  | condition | close | blank => simp at hsome

theorem mem_rules {r} (hr : .rule r ∈ items) : r ∈ sheet.rules := by
  rw [← h.lays.rules_eq]
  exact mem_filterMap.mpr ⟨_, hr, rfl⟩

section

variable (hrule : rule ∈ sheet.rules)

include hrule

theorem isPlain (htext : text ∈ rule.declarations)
    (hends : continues text = false) : IsPlain text := by
  have hdeclared := h.isDeclared (h.mem_items hrule) htext
  obtain ⟨huncut, hne⟩ := hdeclared.uncut_or_continues.resolve_right (by simp [hends])
  exact ⟨hdeclared.ne_nil, hdeclared.trimmed, (h.oneLine rule hrule).declarations text htext,
    hdeclared.hidden, huncut, hne, h.inlineRule_eq_none (h.mem_items hrule) htext, hends⟩

theorem isPlain_of_mem_dropLast
    (htext : text ∈ rule.declarations.dropLast) : IsPlain text := by
  have hmem : text ∈ rule.declarations := dropLast_subset _ htext
  have hends := h.continues_eq (h.mem_items hrule) htext
  rw [(h.isDeclared (h.mem_items hrule) hmem).trimmed] at hends
  exact h.isPlain hrule hmem hends

theorem isPlain_or_isHanging (htext : text ∈ rule.declarations) :
    IsPlain text ∨ IsHanging text := by
  cases hends : continues text with
  | false => exact .inl (h.isPlain hrule htext hends)
  | true =>
    exact .inr ⟨(h.isDeclared (h.mem_items hrule) htext).trimmed,
      (h.oneLine rule hrule).declarations text htext, hends⟩

theorem reads_declarations : reads [] rule.declarations = rule.declarations.map .declaration := by
  have hends : ∀ line ∈ rule.declarations.dropLast, continues (trim line) = false :=
    fun line hline => h.continues_eq (h.mem_items hrule) hline
  rw [reads_eq_flatMap hends, map_eq_flatMap]
  refine flatMap_congr fun text htext => ?_
  exact reads_one (h.isPlain_or_isHanging hrule htext)

end

theorem texts_opening (hitem : item ∈ items) : item.opening.flatMap texts = [] := by
  have htexts : ∀ i ∈ items,
      i.tokens.flatMap texts = i.opening.flatMap texts ++ i.declared := by
    intro i hi
    cases i with
    | condition text => simp [tokens, opening, declared]
    | close | blank => simp [tokens, opening, declared, texts]
    | rule r =>
      have htrim : r.declarations.flatMap (fun text => [trim text]) = r.declarations := by
        have htrimmed : ∀ text ∈ r.declarations, trim text = id text :=
          fun text htext => (h.isDeclared hi htext).trimmed
        rw [← map_eq_flatMap, map_congr_left htrimmed, map_id]
      simp [tokens, opening, declared, h.reads_declarations (h.mem_rules hi),
        texts,
        flatMap_map, htrim]
  have hsum : (items.map fun i => (i.tokens.flatMap texts).length).sum ≤
      (items.map fun i => i.declared.length).sum := by
    have hlength := congrArg List.length h.flatMap_texts
    rw [flatMap_assoc, length_flatMap, length_flatMap] at hlength
    exact hlength.le
  have heq := eq_of_sum_map_le (fun i hi => by
    rw [htexts i hi, length_append]
    omega) hsum item hitem
  rw [htexts item hitem, length_append] at heq
  exact length_eq_zero_iff.mp (by omega)

/-! ### Heads -/

theorem isHead {token} (htoken : token ∈ items.flatMap tokens) {head}
    (hhead : head ∈ token.heads) : IsHead head := by
  have hopen : ∀ text, token ∈ ofLine (openLine 0 text) → token = .open head := by
    intro text hmem
    rw [ofLine_openLine_eq] at hmem
    rcases mem_ofText_cases hmem with ⟨d, rfl⟩ | ⟨other, rfl⟩ | rfl
    · simp [Token.heads] at hhead
    · obtain rfl : head = other := by simpa [Token.heads] using hhead
      rfl
    · simp [Token.heads] at hhead
  obtain ⟨item, hitem, hmem⟩ := mem_flatMap.mp htoken
  obtain rfl : token = .open head := by
    cases item with
    | condition text => exact hopen text hmem
    | close | blank =>
      obtain rfl := mem_singleton.mp hmem
      simp [Token.heads] at hhead
    | rule r =>
      rw [tokens, h.reads_declarations (h.mem_rules hitem)] at hmem
      rcases mem_append.mp hmem with hmem | hmem
      · exact hopen r.selector hmem
      · rcases mem_append.mp hmem with hmem | hmem
        · obtain ⟨_, -, rfl⟩ := mem_map.mp hmem
          simp [Token.heads] at hhead
        · obtain rfl := mem_singleton.mp hmem
          simp [Token.heads] at hhead
  obtain ⟨htrim, hhidden, htop⟩ := h.sane _ htoken
  exact ⟨htrim, h.heads _ htoken head hhead, hhidden, htop⟩

theorem isHead_condition (hrule : rule ∈ sheet.rules) (htext : text ∈ rule.conditions) :
    IsHead text ∧ isAtRule text := by
  have hholds := finish_holds (P := fun t => IsHead t ∧ isAtRule t)
    (Q := fun _ => True) h.takes fun token htoken head hhead =>
      ⟨fun hat => ⟨h.isHead htoken hhead, hat⟩, fun _ _ _ _ _ => trivial⟩
  rw [← h.finish_eq] at hrule
  exact (hholds rule hrule).1 text htext

end Rereads

end Sveltify.Style
