import Sveltify.Path
import Sveltify.Proofs.Text.Lines

/-! What paths mean. Joining a path appends components, a list of components is read back from the
path that it spells, and normalizing takes back a name for each parent: what is left are names over
parents, or over the root. -/

namespace Sveltify

open List hiding splitOn

theorem Text.splitOn_append_cons (sep : Char) (s rest : Text) :
    splitOn sep (s ++ sep :: rest) = splitOn sep s ++ splitOn sep rest := by
  induction s with
  | nil => simp [splitOn]
  | cons c s ih =>
    rw [cons_append, splitOn, splitOn, ih]
    by_cases hc : c == sep
    · simp [hc]
    · cases hs : splitOn sep s with
      | nil => exact absurd hs (splitOn_ne_nil sep s)
      | cons => simp [hc]

namespace Path

open Text (splitOn)

/-! ### Names -/

/-- A text that a path can have for a name. -/
structure IsName (name : Text) : Prop where
  slash : '/' ∉ name
  piece : Component.ofPiece? name = some (.normal name)

theorem Component.eq_of_ofPiece? {piece c} (h : ofPiece? piece = some c) :
    c = .parent ∨ c = .normal piece := by
  unfold ofPiece? at h
  split at h
  · cases h
  · split at h
    · exact .inl (Option.some.inj h).symm
    · exact .inr (Option.some.inj h).symm

variable {p q : Path} {name : Text}

/-- The part of the components that is read off the pieces between slashes. -/
def inner (p : Path) : List Component :=
  (splitOn '/' p.text).filterMap Component.ofPiece?

theorem components_eq (p : Path) : p.components =
    if p.isAbsolute then .root :: p.inner
    else if (splitOn '/' p.text).head? == some ['.'] then .current :: p.inner else p.inner :=
  rfl

theorem components_of_isAbsolute (h : p.isAbsolute) : p.components = .root :: p.inner := by
  rw [components_eq, if_pos h]

theorem mem_inner {c} (h : c ∈ p.inner) :
    c = .parent ∨ ∃ name, c = .normal name ∧ IsName name := by
  obtain ⟨piece, hpiece, hc⟩ := mem_filterMap.1 h
  rcases Component.eq_of_ofPiece? hc with rfl | rfl
  · exact .inl rfl
  · exact .inr ⟨piece, rfl, Text.not_mem_of_mem_splitOn hpiece, hc⟩

theorem isName_of_mem_components (h : .normal name ∈ p.components) : IsName name := by
  have hinner : .normal name ∈ p.inner := by
    rw [components_eq] at h
    split at h
    · exact (mem_cons.1 h).resolve_left (by simp)
    · split at h
      · exact (mem_cons.1 h).resolve_left (by simp)
      · exact h
  obtain hc | ⟨_, hc, _⟩ := mem_inner hinner
  · cases hc
  · rwa [Component.normal.inj hc]

theorem isName_of_fileName? (h : p.fileName? = some name) : IsName name := by
  unfold fileName? at h
  split at h
  · rename_i last hlast
    rw [← Option.some.inj h]
    exact isName_of_mem_components (mem_of_getLast? hlast)
  · cases h

theorem isAbsolute_of_not_mem {text} (h : '/' ∉ text) : isAbsolute ⟨text⟩ = false := by
  rw [Bool.eq_false_iff, isAbsolute, Ne, beq_iff_eq]
  exact fun hhead => h (mem_of_head? hhead)

/-! ### Joining -/

theorem text_ne_nil_of_isAbsolute (h : p.isAbsolute) : p.text ≠ [] := by
  intro htext
  simp [isAbsolute, htext] at h

theorem isAbsolute_join (p q : Path) : (p.join q).isAbsolute = (p.isAbsolute || q.isAbsolute) := by
  unfold join
  by_cases hq : q.isAbsolute
  · simp [hq]
  · cases hp : p.text with
    | nil => simp [isAbsolute, hp]
    | cons =>
      simp only [hq, isEmpty_cons, Bool.false_eq_true, if_false, Bool.or_false]
      split <;> simp [isAbsolute, hp]

theorem isAbsolute_join_left (h : p.isAbsolute) (q : Path) : (p.join q).isAbsolute := by
  rw [isAbsolute_join, h, Bool.true_or]

/-- A slash at the end of a path opens an empty piece, which means nothing. -/
theorem exists_splitOn_join (hq : q.isAbsolute = false) (hp : p.text ≠ []) :
    ∃ pieces, pieces ≠ [] ∧ splitOn '/' (p.join q).text = pieces ++ splitOn '/' q.text ∧
      (splitOn '/' p.text = pieces ∨ splitOn '/' p.text = pieces ++ [[]]) := by
  have hempty : p.text.isEmpty = false := by simpa using hp
  by_cases hlast : p.text.getLast? = some '/'
  · obtain ⟨front, hfront⟩ := getLast?_eq_some_iff.1 hlast
    refine ⟨splitOn '/' front, Text.splitOn_ne_nil _ _, ?_, .inr ?_⟩
    · simp [join, hq, hfront, ← Text.splitOn_append_cons]
    · rw [hfront, Text.splitOn_append_cons]
      rfl
  · refine ⟨splitOn '/' p.text, Text.splitOn_ne_nil _ _, ?_, .inl rfl⟩
    simp [join, hq, hempty, hlast, Text.splitOn_append_cons]

theorem inner_join (p : Path) (hq : q.isAbsolute = false) :
    (p.join q).inner = p.inner ++ q.inner := by
  by_cases hp : p.text = []
  · simp [join, inner, hp, splitOn, Component.ofPiece?]
  · obtain ⟨_, -, hjoin, hpieces⟩ := exists_splitOn_join hq hp
    unfold inner
    rw [hjoin, filterMap_append]
    rcases hpieces with hpieces | hpieces
    · rw [hpieces]
    · rw [hpieces]
      simp [Component.ofPiece?]

theorem components_join (hq : q.isAbsolute = false) (hp : p.text ≠ []) :
    (p.join q).components = p.components ++ q.inner := by
  obtain ⟨_, hne, hjoin, hpieces⟩ := exists_splitOn_join hq hp
  have hhead : (splitOn '/' (p.join q).text).head? = (splitOn '/' p.text).head? := by
    rcases hpieces with hpieces | hpieces <;>
      rw [hjoin, hpieces, head?_append_of_ne_nil _ hne]
    rw [head?_append_of_ne_nil _ hne]
  rw [components_eq, components_eq, inner_join p hq, hhead, isAbsolute_join, hq, Bool.or_false]
  split
  · rfl
  · split <;> rfl

/-! ### Spelling components -/

/-- A component that a path can have behind its first one. -/
def Component.Follows (c : Component) : Prop :=
  c = .parent ∨ ∃ name, c = .normal name ∧ IsName name

theorem Component.Follows.spec {c} (h : c.Follows) :
    isAbsolute ⟨c.text⟩ = false ∧ inner ⟨c.text⟩ = [c] ∧ components ⟨c.text⟩ = [c] := by
  rcases h with rfl | ⟨name, rfl, hname⟩
  · decide
  · have hsplit : splitOn '/' name = [name] := Text.splitOn_of_not_mem hname.slash
    have hinner : inner ⟨name⟩ = [.normal name] := by
      rw [inner, hsplit, filterMap_cons_some hname.piece]
      rfl
    have hdot : name ≠ ['.'] := by
      rintro rfl
      exact absurd hname.piece (by decide)
    rw [components_eq]
    simp [text, isAbsolute_of_not_mem hname.slash, hsplit, hdot, hinner]

theorem ofComponents_concat (components : List Component) (c : Component) :
    ofComponents (components ++ [c]) = (ofComponents components).join ⟨c.text⟩ := by
  simp [ofComponents]

theorem components_ofComponents_append {cs l}
    (h : (ofComponents l).components = l) (hcs : ∀ c ∈ cs, c.Follows) :
    (ofComponents (l ++ cs)).components = l ++ cs := by
  induction cs generalizing l with
  | nil => simpa using h
  | cons c _ ih =>
    rw [append_cons]
    refine ih ?_ fun d hd => hcs d (by simp [hd])
    obtain ⟨habsolute, hinner, hcomponents⟩ := (hcs c (by simp)).spec
    rw [ofComponents_concat]
    by_cases hl : (ofComponents l).text = []
    · obtain rfl : l = [] := by
        rw [← h, components_eq]
        simp [isAbsolute, inner, hl, splitOn, Component.ofPiece?]
      rw [join, if_pos (by simp [hl]), hcomponents]
      rfl
    · rw [components_join habsolute hl, h, hinner]

/-! ### Resolving dots -/

/-- Components with the dots resolved, the last one first: names over parents, and below them the
root of an absolute path. -/
def stacked (absolute : Bool) (ups : Nat) (names : List Text) : List Component :=
  names.map .normal ++ (List.replicate ups .parent ++ if absolute then [.root] else [])

theorem reverse_stacked (absolute : Bool) (ups : Nat) (names : List Text) :
    (stacked absolute ups names).reverse = (if absolute then [.root] else []) ++
      (List.replicate ups .parent ++ names.reverse.map .normal) := by
  cases absolute <;> simp [stacked]

theorem follows_of_mem (ups : Nat) {names : List Text} (h : ∀ n ∈ names, IsName n) {c : Component}
    (hc : c ∈ List.replicate ups .parent ++ names.reverse.map .normal) : c.Follows := by
  simp only [mem_append, mem_map, mem_reverse, mem_replicate] at hc
  rcases hc with ⟨-, rfl⟩ | ⟨name, hname, rfl⟩
  · exact .inl rfl
  · exact .inr ⟨name, rfl, h name hname⟩

theorem components_stacked (absolute : Bool) (ups : Nat) {names : List Text}
    (h : ∀ n ∈ names, IsName n) :
    (ofComponents (stacked absolute ups names).reverse).components =
      (stacked absolute ups names).reverse := by
  rw [reverse_stacked]
  exact components_ofComponents_append (by cases absolute <;> decide) fun c => follows_of_mem ups h

theorem exists_foldl_resolveStep {components : List Component}
    (h : ∀ c ∈ components, c.Follows) (absolute : Bool) (ups : Nat) (names : List Text)
    (hnames : ∀ n ∈ names, IsName n) :
    ∃ ups' names', (∀ n ∈ names', IsName n) ∧
      components.foldl resolveStep (stacked absolute ups names) = stacked absolute ups' names' := by
  induction components generalizing ups names with
  | nil => exact ⟨ups, names, hnames, rfl⟩
  | cons c components ih =>
    have hrest : ∀ d ∈ components, d.Follows := fun d hd => h d (by simp [hd])
    rw [foldl_cons]
    rcases h c (by simp) with rfl | ⟨name, rfl, hname⟩
    · cases names with
      | cons name names => exact ih hrest ups names fun n hn => hnames n (by simp [hn])
      | nil =>
        have hstep : resolveStep (stacked absolute ups []) .parent =
            stacked absolute (ups + 1) [] := by
          cases ups <;> cases absolute <;> rfl
        rw [hstep]
        exact ih hrest (ups + 1) [] hnames
    · exact ih hrest ups (name :: names) (forall_mem_cons.2 ⟨hname, hnames⟩)

/-- What is left of a list of components when their dots are resolved below the root too. -/
theorem foldl_normalizeStep_resolved (components done : List Component) :
    (components.foldl resolveStep done).reverse.foldl normalizeStep [] =
      components.foldl normalizeStep (done.reverse.foldl normalizeStep []) := by
  induction components generalizing done with
  | nil => rfl
  | cons c _ ih =>
    rw [foldl_cons, ih]
    cases c with
    | root | current | normal => simp [resolveStep, normalizeStep]
    | parent =>
      rcases done with _ | ⟨_ | _ | _ | _, _⟩ <;> simp [resolveStep, normalizeStep]

theorem foldl_names (names : List Text) (done : List Component) :
    (names.map Component.normal).foldl normalizeStep done = names.reverse.map .normal ++ done := by
  induction names generalizing done with
  | nil => rfl
  | cons _ _ ih => simp [ih, normalizeStep]

theorem foldl_parents (absolute : Bool) (ups : Nat) :
    (List.replicate ups Component.parent).foldl normalizeStep (if absolute then [.root] else []) =
      stacked absolute (if absolute then 0 else ups) [] := by
  induction ups with
  | zero => cases absolute <;> rfl
  | succ ups ih =>
    rw [replicate_succ', foldl_append, ih]
    cases absolute <;> cases ups <;> rfl

theorem foldl_stacked (absolute : Bool) (ups : Nat) (names : List Text) :
    (stacked absolute ups names).reverse.foldl normalizeStep [] =
      stacked absolute (if absolute then 0 else ups) names := by
  have hbase : (if absolute then [.root] else []).foldl normalizeStep [] =
      if absolute then [.root] else [] := by cases absolute <;> rfl
  rw [reverse_stacked, foldl_append, foldl_append, hbase, foldl_parents, foldl_names,
    reverse_reverse]
  rfl

/-- The components of a path with its dots resolved, the last one first. -/
def stack (p : Path) : List Component :=
  p.components.foldl normalizeStep []

theorem exists_stack (p : Path) : ∃ ups names, (∀ n ∈ names, IsName n) ∧
    p.resolved = (stacked p.isAbsolute ups names).reverse ∧
    p.stack = stacked p.isAbsolute (if p.isAbsolute then 0 else ups) names := by
  have hcomponents : p.components.foldl resolveStep [] =
      p.inner.foldl resolveStep (stacked p.isAbsolute 0 []) := by
    rw [components_eq]
    split
    · simp [*, stacked, resolveStep]
    · split <;> simp [*, stacked, resolveStep]
  obtain ⟨ups, names, hnames, hfold⟩ :=
    exists_foldl_resolveStep (fun c hc => mem_inner hc) p.isAbsolute 0 [] (by simp)
  refine ⟨ups, names, hnames, by rw [resolved, hcomponents, hfold], ?_⟩
  have hstack := foldl_normalizeStep_resolved p.components []
  rw [hcomponents, hfold, foldl_stacked] at hstack
  exact hstack.symm

theorem stack_join (p : Path) (hq : q.isAbsolute = false) :
    (p.join q).stack = q.inner.foldl normalizeStep p.stack := by
  by_cases hp : p.text = []
  · have hjoin : p.join q = q := by simp [join, hp]
    have hempty : p.stack = [] := by
      simp [stack, components_eq, isAbsolute, inner, hp, splitOn, Component.ofPiece?]
    rw [hjoin, hempty, stack, components_eq, hq]
    simp only [Bool.false_eq_true, if_false]
    split <;> rfl
  · rw [stack, components_join hq hp, foldl_append, stack]

/-! ### Normalizing -/

theorem normalize_congr (h : p.stack = q.stack) : p.normalize = q.normalize := by
  unfold normalize
  rw [← stack, ← stack, h]

theorem normalize_cases (p : Path) : (p.stack = [] ∧ p.normalize = ⟨['.']⟩) ∨
    (p.stack ≠ [] ∧ p.normalize = ofComponents p.stack.reverse ∧
      p.normalize.components = p.stack.reverse) := by
  obtain ⟨ups, _, hnames, -, hstack⟩ := exists_stack p
  have hread := components_stacked p.isAbsolute (if p.isAbsolute then 0 else ups) hnames
  rw [← hstack] at hread
  by_cases hempty : p.stack = []
  · refine .inl ⟨hempty, ?_⟩
    rw [normalize, ← stack, hempty]
    rfl
  · have hnormalize : p.normalize = ofComponents p.stack.reverse := by
      rw [normalize, ← stack, if_neg]
      intro htext
      rw [components_eq, inner, isAbsolute, List.isEmpty_iff.1 htext] at hread
      exact hempty (by simpa [splitOn, Component.ofPiece?] using hread.symm)
    exact .inr ⟨hempty, hnormalize, by rw [hnormalize, hread]⟩

theorem stack_normalize (p : Path) : p.normalize.stack = p.stack := by
  obtain ⟨hempty, hnormalize⟩ | ⟨-, -, hcomponents⟩ := normalize_cases p
  · rw [hnormalize, hempty]
    decide
  · obtain ⟨_, _, -, -, hstack⟩ := exists_stack p
    rw [stack, hcomponents, hstack, foldl_stacked]
    cases p.isAbsolute <;> rfl

theorem isAbsolute_iff_root_mem (p : Path) : p.isAbsolute = true ↔ .root ∈ p.components := by
  have hinner : .root ∉ p.inner := fun h => by simpa using mem_inner h
  rw [components_eq]
  split
  · simp [*]
  · split <;> simp [*]

theorem isAbsolute_normalize (p : Path) : p.normalize.isAbsolute = p.isAbsolute := by
  obtain ⟨_, _, -, -, hstack⟩ := exists_stack p
  obtain ⟨hempty, hnormalize⟩ | ⟨-, -, hcomponents⟩ := normalize_cases p
  · rw [hnormalize]
    cases hp : p.isAbsolute with
    | false => rfl
    | true => simp [hstack, stacked, hp] at hempty
  · rw [Bool.eq_iff_iff, isAbsolute_iff_root_mem, hcomponents, hstack]
    cases p.isAbsolute <;> simp [stacked]

theorem normalize_join (p q : Path) : (p.join q).normalize = (p.normalize.join q).normalize := by
  cases hq : q.isAbsolute with
  | true => simp [join, hq]
  | false =>
    refine normalize_congr ?_
    rw [stack_join p hq, stack_join p.normalize hq, stack_normalize]

theorem parents_lead {before after} (h : p.normalize.components = before ++ .parent :: after) :
    p.isAbsolute = false ∧ ∀ c ∈ before, c = .parent := by
  obtain ⟨-, hnormalize⟩ | ⟨-, -, hcomponents⟩ := normalize_cases p
  · rw [hnormalize] at h
    have hmem : .parent ∈ components ⟨['.']⟩ := by simp [h]
    exact absurd hmem (by decide)
  · obtain ⟨ups, names, -, -, hstack⟩ := exists_stack p
    rw [hcomponents, hstack, reverse_stacked] at h
    cases hp : p.isAbsolute with
    | true =>
      have hmem : .parent ∈ before ++ .parent :: after := by simp
      simp [← h, hp] at hmem
    | false =>
      simp only [hp, Bool.false_eq_true, if_false, nil_append] at h
      obtain ⟨tail, -, hnames⟩ | ⟨tail, hups, -⟩ := append_eq_append_iff.1 h
      · have hmem : Component.parent ∈ names.reverse.map Component.normal := by simp [hnames]
        simp at hmem
      · refine ⟨rfl, fun c hc => eq_of_mem_replicate (n := ups) ?_⟩
        rw [hups]
        exact mem_append_left tail hc

/-- Normalizing gives the one form of a path that is spelled from its components, with a dot only
alone and parents only in front of a relative path, and it may be done before or after joining. -/
theorem normalize_canonical (p : Path) :
    p.normalize.normalize = p.normalize ∧
      p.normalize.isAbsolute = p.isAbsolute ∧
      ofComponents p.normalize.components = p.normalize ∧
      (.current ∈ p.normalize.components → p.normalize = ⟨['.']⟩) ∧
      (∀ before after, p.normalize.components = before ++ .parent :: after →
        p.isAbsolute = false ∧ ∀ c ∈ before, c = .parent) ∧
      ∀ q : Path, (p.join q).normalize = (p.normalize.join q).normalize := by
  refine ⟨normalize_congr (stack_normalize p), isAbsolute_normalize p, ?_, fun hmem => ?_,
    fun _ _ => parents_lead, normalize_join p⟩
  · obtain ⟨-, hnormalize⟩ | ⟨-, hnormalize, hcomponents⟩ := normalize_cases p
    · rw [hnormalize]
      rfl
    · rw [hcomponents, hnormalize]
  · obtain ⟨-, hnormalize⟩ | ⟨-, -, hcomponents⟩ := normalize_cases p
    · exact hnormalize
    · obtain ⟨_, _, -, -, hstack⟩ := exists_stack p
      rw [hcomponents, hstack, reverse_stacked] at hmem
      cases p.isAbsolute <;> simp at hmem

/-! ### Rooted paths -/

/-- The path starts at the root and only goes down. -/
structure Rooted (p : Path) : Prop where
  absolute : p.isAbsolute = true
  down : .parent ∉ p.components

theorem Rooted.components_eq (h : p.Rooted) : p.components = .root :: p.names.map .normal := by
  have hdown : ∀ c ∈ p.inner, ∃ name, c = .normal name := by
    intro c hc
    rcases mem_inner hc with rfl | ⟨name, rfl, -⟩
    · exact absurd (by simp [components_of_isAbsolute h.absolute, hc]) h.down
    · exact ⟨name, rfl⟩
  have hnames : ∀ {l : List Component}, (∀ c ∈ l, ∃ name, c = .normal name) →
      ∃ names : List Text, l = names.map .normal := by
    intro l hl
    induction l with
    | nil => exact ⟨[], rfl⟩
    | cons c l ih =>
      obtain ⟨name, rfl⟩ := hl c (by simp)
      obtain ⟨names, rfl⟩ := ih fun d hd => hl d (by simp [hd])
      exact ⟨name :: names, rfl⟩
  obtain ⟨names, hinner⟩ := hnames hdown
  rw [Path.names, components_of_isAbsolute h.absolute, hinner]
  simp [filterMap_map]

theorem Rooted.same_iff (hp : p.Rooted) (hq : q.Rooted) : p.same q = true ↔ p.names = q.names := by
  rw [same, beq_iff_eq, hp.components_eq, hq.components_eq, List.cons.injEq]
  constructor
  · rintro ⟨-, h⟩
    exact map_injective_iff.2 (fun _ _ heq => Component.normal.inj heq) h
  · intro h
    exact ⟨rfl, by rw [h]⟩

theorem Rooted.join (h : p.Rooted) (hname : IsName name) : (p.join ⟨name⟩).Rooted := by
  obtain ⟨habsolute, hinner, -⟩ : isAbsolute ⟨name⟩ = false ∧ inner ⟨name⟩ = _ ∧ _ :=
    Component.Follows.spec (.inr ⟨name, rfl, hname⟩)
  refine ⟨isAbsolute_join_left h.absolute _, ?_⟩
  rw [components_join habsolute (text_ne_nil_of_isAbsolute h.absolute), hinner]
  simp [h.down]

theorem rooted_normalize (h : p.isAbsolute) : p.normalize.Rooted := by
  refine ⟨by rw [isAbsolute_normalize, h], fun hmem => ?_⟩
  obtain ⟨_, _, hsplit⟩ := append_of_mem hmem
  exact absurd (parents_lead hsplit).1 (by simp [h])

theorem isAbsolute_parent? (h : p.isAbsolute) (hq : p.parent? = some q) : q.isAbsolute := by
  simp only [parent?, h, Bool.true_or, if_true] at hq
  split at hq
  · cases hq
  · rw [← Option.some.inj hq]
    rfl

theorem inner_of_parent?_eq_none (h : p.isAbsolute) (hnone : p.parent? = none) : p.inner = [] := by
  simp only [parent?, h, Bool.true_or, if_true] at hnone
  split at hnone
  · rename_i htrim
    rw [trimPieces, Text.dropEndWhile_eq_rdropWhile, rdropWhile_eq_nil_iff] at htrim
    have hhead : ∃ rest, splitOn '/' p.text = [] :: rest := by
      obtain ⟨rest, hrest⟩ := head?_eq_some_iff.1 (beq_iff_eq.1 h)
      rw [hrest]
      exact ⟨splitOn '/' rest, by simp [splitOn]⟩
    obtain ⟨_, hrest⟩ := hhead
    rw [hrest] at htrim
    rw [inner, hrest, filterMap_eq_nil_iff]
    intro piece hpiece
    rcases mem_cons.1 hpiece with rfl | hpiece
    · rfl
    · simpa using htrim piece hpiece
  · cases hnone

end Path

end Sveltify
