import Sveltify.Proofs.Style.Reread
import Sveltify.Style.Compile

/-! Which compiled sheets are fixed points of flattening: the sheets of legible rules. That legible
rules suffice is the reading back of printed rules; that they are needed follows the machine through
the items of a sheet, where each selector line has to open the one rule that is expected there. -/

namespace Sveltify.Style

open List
open Text (joinWith trim)
open Token (ofLine)

namespace Flattener

/-! ### The machine through the lines of a rule -/

theorem implicit_of_mem_frames {path frame} (h : frame ∈ frames path) :
    frame.implicit = false := by
  induction path with
  | nil => simp [frames] at h
  | cons _ _ ih =>
    rcases mem_cons.mp h with rfl | h
    · rfl
    · exact ih h

section Lines

variable {path : List Text} {m : Flattener}

theorem At.rootless (h : At none path [] m) : m.Rootless := by
  have hstack : m.stack = frames path := by rw [h.stack_eq, place_nil]
  refine ⟨h.root_eq, ?_, h.tidy, fun _ => ?_⟩
  · rw [hstack]
    exact fun _ => implicit_of_mem_frames
  · rw [hstack]
    exact segment_of_empty fun _ => segment_of_mem_frames

theorem At.takes_opens (h : At none path [] m) (heads : List Text) (rest : List Token) :
    ∃ m', m.takes (heads.map .open ++ rest) = m'.takes rest ∧
      At none (heads.reverse ++ path) [] m' ∧ m'.rules = m.rules := by
  induction heads generalizing path m with
  | nil => exact ⟨m, rfl, h, rfl⟩
  | cons head heads ih =>
    obtain ⟨_, htakes, hnext, hrules⟩ := (h.moves_open head).takes (heads.map .open ++ rest)
    obtain ⟨m', hrest, hat, hkept⟩ := ih hnext
    refine ⟨m', by rw [map_cons, cons_append, htakes, hrest], by simpa using hat, ?_⟩
    simpa [hkept, Path.rules] using hrules

theorem At.takes_close_nil (h : At none [] [] m) (rest : List Token) :
    m.takes (.close :: rest) = none := by
  have hstack : m.stack = [] := h.stack_eq
  have hstep : m.step 0 .close = (m, some (.unbalancedBraces 0)) := by
    simp [Flattener.step, closeRule, closeImplicit, topImplicit, hstack, after]
  rw [takes, hstep]

theorem At.takes_closes (h : At none path [] m) {n rest m'}
    (htakes : m.takes (List.replicate n .close ++ rest) = some m') :
    n ≤ path.length ∧ ∃ next, next.takes rest = some m' ∧ At none (path.drop n) [] next ∧
      next.rules = m.rules := by
  induction n generalizing path m with
  | zero => exact ⟨Nat.zero_le _, m, htakes, h, rfl⟩
  | succ n ih =>
    rw [replicate_succ, cons_append] at htakes
    cases path with
    | nil => simp [h.takes_close_nil] at htakes
    | cons =>
      obtain ⟨_, hclose, hclosed, hrules⟩ :=
        h.moves_close.takes (List.replicate n .close ++ rest)
      rw [hclose] at htakes
      obtain ⟨hle, next, hnext, hat, hkept⟩ := ih hclosed htakes
      refine ⟨by simpa using hle, next, hnext, by simpa using hat, ?_⟩
      simpa [hkept, Path.rules] using hrules

end Lines

end Flattener

/-! ### The rule of a path -/

/-- Inside at-rules alone, these are the conditions of every rule. -/
theorem Path.conditions_rule_cons {outer}
    (houter : ∀ head ∈ outer, isAtRule head) (head : Text) (run : List Text) :
    (rule none (head :: outer) run).conditions = outer.reverse := by
  obtain ⟨hat, hnone⟩ := filter_isAtRule houter
  unfold rule alternatives
  cases hs : isAtRule head <;> simp [hs, hat, hnone]

/-! ### Selector lines -/

/-- A selector line whose heads join to the selector has that selector as its one head. -/
theorem heads_eq_of_join {selector heads alternatives}
    (h : ofLine (openLine 0 selector) = heads.map .open)
    (hhead : ∀ head ∈ heads, IsHead head) (hjoin : joinHeads heads.reverse = some alternatives)
    (hselector : joinWith [',', ' '] alternatives = selector) :
    heads = [selector] ∧ joinWith [',', ' '] (joinSelector none selector) = selector := by
  have hlength : heads.length = 1 := by
    by_cases hne : alternatives = []
    · subst hne hselector
      have hone : ofLine (openLine 0 (joinWith [',', ' '] [])) = [.open []] := by decide
      rw [hone] at h
      simpa using (congrArg List.length h).symm
    · exact Token.length_heads h hhead hjoin hne hselector
  obtain ⟨_, rfl⟩ := length_eq_one_iff.mp hlength
  obtain rfl := Token.head_of_openLine h
  obtain rfl : joinSelector none (trim selector) = alternatives := by
    simpa [joinHeads] using hjoin
  have htrim := trim_of_joinSelector_none hselector
  rw [htrim] at hselector ⊢
  exact ⟨rfl, hselector⟩

variable {path : List Text}

/-- Heads that open a rule with the selector and the conditions expected there are the one head
that the selector is. -/
theorem heads_eq {selector heads run}
    (h : ofLine (openLine 0 selector) = heads.map .open) (hne : heads ≠ [])
    (hhead : ∀ head ∈ heads, IsHead head) (hpath : ∀ head ∈ path, isAtRule head)
    (hrule : Path.rule none (heads.reverse ++ path) run = ⟨selector, run, path.reverse⟩) :
    heads = [selector] ∧ (isAtRule selector ∨
      joinWith [',', ' '] (joinSelector none selector) = selector) := by
  obtain ⟨hat, hnone⟩ := Path.filter_isAtRule hpath
  have hjoin : Path.alternatives (heads.reverse ++ path) =
      joinHeads (heads.reverse.filter (!isAtRule ·)) := by
    rw [Path.alternatives, filter_append, hnone, append_nil]
    rfl
  unfold Path.rule at hrule
  rw [filter_append, hat] at hrule
  cases hs : Path.alternatives (heads.reverse ++ path) with
  | none =>
    -- no selector among the heads: the innermost at-rule is the selector, the others are conditions
    have hall : heads.reverse.filter (!isAtRule ·) = [] := by
      cases hf : heads.reverse.filter (!isAtRule ·) with
      | nil => rfl
      | cons _ rest => simp [hjoin, hf, joinHeads] at hs
    have hheads : heads.reverse.filter isAtRule = heads.reverse :=
      filter_eq_self.mpr (by simpa [filter_eq_nil_iff] using hall)
    rw [hs, hheads] at hrule
    obtain ⟨innermost, rest, hcons⟩ := exists_cons_of_ne_nil (by simpa using hne :
      heads.reverse ≠ [])
    rw [hcons] at hrule hheads
    simp only [cons_append, Rule.mk.injEq] at hrule
    obtain ⟨rfl, hrest⟩ := hrule
    obtain rfl : rest = [] := by simpa using hrest
    have hone : heads = [innermost] := by simpa using congrArg List.reverse hcons
    refine ⟨hone, .inl ?_⟩
    simpa using hheads
  | some =>
    rw [hs] at hrule
    simp only [Rule.mk.injEq] at hrule
    obtain ⟨hselector, hconditions⟩ := hrule
    have hnoat : heads.reverse.filter isAtRule = [] := by simpa using hconditions
    have hheads : heads.reverse.filter (!isAtRule ·) = heads.reverse :=
      filter_eq_self.mpr (by simpa [filter_eq_nil_iff] using hnoat)
    rw [hjoin, hheads] at hs
    obtain ⟨hone, hnormal⟩ := heads_eq_of_join h hhead hs hselector
    exact ⟨hone, .inr hnormal⟩

/-! ### The machine through a sheet -/

/-- A rule whose lines are read as its declarations, but for what its selector line opens. -/
structure Rule.Displays (rule : Rule) : Prop where
  ne_nil : rule.declarations ≠ []
  trimmed : rule.declarations.map trim = rule.declarations
  reads : Token.reads [] rule.declarations = rule.declarations.map .declaration
  opening : (ofLine (openLine 0 rule.selector)).flatMap Token.texts = []
  heads : ∀ head, .open head ∈ ofLine (openLine 0 rule.selector) → IsHead head
  untangled : ¬rule.Tangled

/-- A rule whose selector line opens the rule of that selector. -/
structure Rule.Opens (rule : Rule) : Prop where
  selector : IsHead rule.selector
  normal : isAtRule rule.selector = true ∨
    joinWith [',', ' '] (joinSelector none rule.selector) = rule.selector

/-- If the rule of a selector is expected inside at-rules and the machine ends with the rules that
are expected, then the selector line opens that rule. -/
theorem Rule.Displays.opens {rule} (h : rule.Displays) {m m' rest rules} (hat : Flattener.At none path [] m)
    (hpath : ∀ head ∈ path, isAtRule head)
    (htakes : m.takes (Item.tokens (.rule rule) ++ rest) = some m')
    (hfinish : m'.finish = m.rules ++ ⟨rule.selector, rule.declarations, path.reverse⟩ :: rules) :
    rule.Opens := by
  have hbody : ∀ {head : Text} {outer : List Text} {next : Flattener},
      Flattener.At none (head :: outer) [] next → next.rules = m.rules →
      next.takes (rule.declarations.map .declaration ++ .close :: rest) = some m' →
      Path.rule none (head :: outer) rule.declarations =
        ⟨rule.selector, rule.declarations, path.reverse⟩ := by
    intro head outer _ hnext hkept hrun
    obtain ⟨closed, hclose, hclosed, hrules⟩ := hnext.takes_body h.ne_nil h.trimmed rest
    rw [hclose] at hrun
    obtain ⟨_, hadded⟩ := hclosed.rootless.keeps_rules hrun
    rw [hfinish, hrules, hkept, append_assoc, append_cancel_left_eq] at hadded
    exact (List.cons.inj hadded).1
  have hsplit : Item.tokens (.rule rule) ++ rest = ofLine (openLine 0 rule.selector) ++
      (rule.declarations.map .declaration ++ .close :: rest) := by
    simp [Item.tokens, h.reads]
  rw [hsplit] at htakes
  rcases Token.ofLine_openLine_cases h.untangled 0 h.opening with
    ⟨heads, hne, hline⟩ | ⟨n, head, hn, hline⟩
  · have hhead : ∀ head ∈ heads, IsHead head := fun head hmem =>
      h.heads head (by simpa [hline] using hmem)
    rw [hline] at htakes
    obtain ⟨opened, hopen, hopened, hkept⟩ :=
      hat.takes_opens heads (rule.declarations.map .declaration ++ .close :: rest)
    rw [hopen] at htakes
    obtain ⟨_, _, hcons⟩ := exists_cons_of_ne_nil
      (by simpa using hne : heads.reverse ≠ [])
    have hrule := hbody (by simpa [hcons] using hopened) hkept htakes
    rw [← cons_append, ← hcons] at hrule
    obtain ⟨rfl, hnormal⟩ := heads_eq hline hne hhead hpath hrule
    exact ⟨hhead rule.selector (by simp), hnormal⟩
  · -- a closed at-rule would be missing from the conditions
    rw [hline, append_assoc] at htakes
    obtain ⟨_, _, hrun, hclosed, hkept⟩ := hat.takes_closes htakes
    obtain ⟨_, hopen, hopened, hrules⟩ :=
      hclosed.takes_opens [head] (rule.declarations.map .declaration ++ .close :: rest)
    have houter : ∀ t ∈ path.drop n, isAtRule t := fun t ht =>
      hpath t (mem_of_mem_drop ht)
    have hrule : Path.rule none (head :: path.drop n) rule.declarations = _ :=
      hbody hopened (hrules.trans hkept) (hopen.symm.trans hrun)
    have hconditions := Path.conditions_rule_cons houter head rule.declarations
    rw [hrule] at hconditions
    have hlength := congrArg List.length hconditions
    simp only [length_reverse, length_drop] at hlength
    omega

/-- An item whose lines are read as what they are, but for the selector line of a rule. -/
def Item.Displays : Item → Prop
  | .condition text => IsHead text ∧ isAtRule text = true
  | .rule r => r.Displays
  | .close | .blank => True

/-- Along items that are read back as expected, every selector line opens its rule. -/
theorem Item.opens_of_takes {items m m'}
    (hitems : ∀ item ∈ items, item.Displays) (hat : Flattener.At none path [] m)
    (hpath : ∀ head ∈ path, isAtRule head) (htakes : m.takes (items.flatMap tokens) = some m')
    (hfinish : m'.finish = m.rules ++ expected path items) : ∀ r ∈ rules items, r.Opens := by
  -- the machine stands at the at-rules around the items that are left, and nothing waits in it
  induction items generalizing path m with
  | nil => simp [rules]
  | cons item items ih =>
    have hrest : ∀ i ∈ items, i.Displays := fun i hi => hitems i (by simp [hi])
    have hitem := hitems item (by simp)
    rw [flatMap_cons] at htakes
    cases item with
    | condition text =>
      obtain ⟨hhead, hatRule⟩ : IsHead text ∧ isAtRule text := hitem
      obtain ⟨next, hopen, hnext, hkept⟩ := (hat.moves_open text).takes (items.flatMap tokens)
      rw [tokens, hhead.ofLine_openLine, singleton_append, hopen] at htakes
      refine ih hrest hnext (by simpa [hatRule] using hpath) htakes ?_
      rw [hfinish, hkept]
      simp [expected, Path.rules]
    | close =>
      rw [tokens, singleton_append] at htakes
      cases path with
      | nil => simp [hat.takes_close_nil] at htakes
      | cons =>
        obtain ⟨next, hclose, hnext, hkept⟩ := hat.moves_close.takes (items.flatMap tokens)
        rw [hclose] at htakes
        refine ih hrest hnext (fun t ht => hpath t (by simp [ht])) htakes ?_
        rw [hfinish, hkept]
        simp [expected, Path.rules]
    | blank =>
      obtain ⟨next, hblank, hnext, hkept⟩ := hat.moves_blank.takes (items.flatMap tokens)
      rw [tokens, singleton_append, hblank] at htakes
      refine ih hrest hnext hpath htakes ?_
      rw [hfinish, hkept]
      simp [expected, Path.rules]
    | rule r =>
      have hr : r.Displays := hitem
      have hopens : r.Opens := hr.opens hat hpath htakes hfinish
      obtain ⟨_, hopen, hopened, hsame⟩ := (hat.moves_open r.selector).takes
        (r.declarations.map .declaration ++ .close :: items.flatMap tokens)
      obtain ⟨_, hbody, hnext, hadded⟩ :=
        hopened.takes_body hr.ne_nil hr.trimmed (items.flatMap tokens)
      have hsplit : tokens (.rule r) ++ items.flatMap tokens = .open r.selector ::
          (r.declarations.map .declaration ++ .close :: items.flatMap tokens) := by
        simp [tokens, hr.reads, hopens.selector.ofLine_openLine]
      rw [hsplit, hopen, hbody] at htakes
      rw [Path.rule_of_normal hopens.normal hpath] at hadded
      have htail := ih hrest hnext hpath htakes (by
        rw [hfinish, hadded, hsame]
        simp [expected, Path.rules])
      have hrules : rules (.rule r :: items) = r :: rules items := by simp [rules]
      rw [hrules]
      simpa [hopens] using htail

/-! ### Sheets that are read back -/

theorem legible_of_flattenRules {sheet : Sheet} (h : flattenRules sheet.css none = .ok sheet.rules)
    (huntangled : ∀ rule ∈ sheet.rules, ¬rule.Tangled) : ∀ rule ∈ sheet.rules, rule.Legible := by
  obtain ⟨items, m, hrereads⟩ := exists_rereads h
  have hitems : ∀ item ∈ items, item.Displays := by
    intro item hitem
    cases item with
    | close | blank => trivial
    | condition text =>
      obtain ⟨rule, hrule, hmem⟩ :=
        hrereads.lays.conditions_mem text (mem_filterMap.mpr ⟨_, hitem, rfl⟩)
      exact hrereads.isHead_condition hrule hmem
    | rule r =>
      have hr := hrereads.mem_rules hitem
      have htrim : ∀ text ∈ r.declarations, trim text = id text := fun text htext =>
        (hrereads.isDeclared hitem htext).trimmed
      refine ⟨declarations_ne_of_flattenRules h r hr, ?_, hrereads.reads_declarations hr,
        hrereads.texts_opening hitem, fun head hhead => ?_, huntangled r hr⟩
      · rw [map_congr_left htrim, map_id]
      · exact hrereads.isHead (mem_flatMap.mpr ⟨_, hitem, mem_append_left _ hhead⟩)
          (by simp [Token.heads])
  have hopens := Item.opens_of_takes hitems (.start none) (by simp) hrereads.takes (by
    rw [hrereads.finish_eq, hrereads.lays.expected_eq]
    rfl)
  rw [hrereads.lays.rules_eq] at hopens
  intro rule hrule
  obtain ⟨hselector, hnormal⟩ := hopens rule hrule
  exact ⟨fun text htext => hrereads.isHead_condition hrule htext, hselector, hnormal,
    fun text htext => hrereads.isPlain_of_mem_dropLast hrule htext,
    fun text htext => hrereads.isPlain_or_isHanging hrule (mem_of_getLast? htext)⟩

theorem Rule.Legible.not_tangled {rule : Rule} (h : rule.Legible) : ¬rule.Tangled := by
  intro htangled
  have hhidden : Scanner.hides (· == '\x7b') {} rule.selector :=
    Scanner.hides_mono (by simp [isBrace]) h.selector.hidden
  simp [Rule.Tangled, hhidden] at htangled

theorem declarations_ne_of_compileModule {module options sheet}
    (h : compileModule module options = .ok sheet) :
    ∀ rule ∈ sheet.rules, rule.declarations ≠ [] := by
  simp only [compileModule, bind, Except.bind] at h
  split at h
  · cases h
  split at h
  · cases h
  split at h
  · cases h
  · next rules hrules =>
    obtain rfl := Except.ok.inj h
    have hdeclares := declarations_ne_of_flattenRules hrules
    intro rule hrule
    simp only [hoist] at hrule
    split at hrule
    · exact hdeclares rule hrule
    · next hproperties =>
      rcases mem_cons.1 hrule with rfl | hrule
      · simpa using hproperties
      · exact hdeclares rule hrule

/-- A compiled sheet flattens to its own rules, with no tangled selector among them, exactly if all
its rules are legible. -/
theorem compileModule_fixed_point_iff (module : Module) (options : Options) {sheet : Sheet}
    (h : compileModule module options = .ok sheet) :
    (flattenRules sheet.css none = .ok sheet.rules ∧ ∀ rule ∈ sheet.rules, ¬rule.Tangled) ↔
      ∀ rule ∈ sheet.rules, rule.Legible := by
  constructor
  · rintro ⟨hread, huntangled⟩
    exact legible_of_flattenRules hread huntangled
  · intro hlegible
    exact ⟨flattenRules_css hlegible (declarations_ne_of_compileModule h) none,
      fun rule hrule => (hlegible rule hrule).not_tangled⟩

/-- A hoisted property, and in an at-rule a last declaration that ends with a comma: legible. -/
theorem compileModule_fixed_point_hanging :
    ∃ sheet, compileModule
        { constants := [("w", ⟨['1'], false⟩)]
          template :=
            { segments := ["@m\x7ba\x7bx:".toList, ";\ny,\n\x7d\x7d".toList]
              references := [.named "w"] } } {} = .ok sheet ∧
      sheet.rules = [⟨":root".toList, ["--w: 1;".toList], []⟩,
        ⟨['a'], ["x:var(--w);".toList, "y,".toList], ["@m".toList]⟩] ∧
      flattenRules sheet.css none = .ok sheet.rules := by
  let sheet : Sheet := ⟨[⟨":root".toList, ["--w: 1;".toList], []⟩,
    ⟨['a'], ["x:var(--w);".toList, "y,".toList], ["@m".toList]⟩], [⟨['w'], ['1']⟩]⟩
  have hcompile : compileModule
      { constants := [("w", ⟨['1'], false⟩)]
        template :=
          { segments := ["@m\x7ba\x7bx:".toList, ";\ny,\n\x7d\x7d".toList]
            references := [.named "w"] } } {} = .ok sheet := by decide +kernel
  have hlegible : ∀ rule ∈ sheet.rules, rule.Legible := by decide
  exact ⟨sheet, hcompile, rfl, ((compileModule_fixed_point_iff _ _ hcompile).mpr hlegible).1⟩

/-- A declaration that ends with a comma right behind the opening brace is not held back, but its
printed line is: the next declaration joins it when the sheet is read again. -/
theorem compileModule_not_fixed_point :
    ∃ sheet, compileModule
        { template := { segments :=
            [".a \x7b transition: color 1s,\n  width 2s;\n\x7d".toList] } } {} = .ok sheet ∧
      sheet.rules =
        [⟨".a".toList, ["transition: color 1s,".toList, "width 2s;".toList], []⟩] ∧
      flattenRules sheet.css none =
        .ok [⟨".a".toList, ["transition: color 1s, width 2s;".toList], []⟩] ∧
      flattenRules sheet.css none ≠ .ok sheet.rules := by
  let sheet : Sheet :=
    ⟨[⟨".a".toList, ["transition: color 1s,".toList, "width 2s;".toList], []⟩], []⟩
  have hread : flattenRules sheet.css none =
      .ok [⟨".a".toList, ["transition: color 1s, width 2s;".toList], []⟩] := by decide +kernel
  refine ⟨sheet, by decide +kernel, rfl, hread, ?_⟩
  decide

end Sveltify.Style
