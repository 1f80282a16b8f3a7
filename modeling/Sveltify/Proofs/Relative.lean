import Sveltify.Import.Resolve
import Sveltify.Proofs.Path

/-! Relative paths lead to their targets. The path from one directory to another climbs from the
first to what both have in common and then goes down to the second. An import of an alias is such a
path, written with a dot in front. -/

namespace Sveltify

open List

namespace Path

variable {source target : Path}

theorem take_commonLength (a b : List Component) :
    a.take (commonLength a b) = b.take (commonLength a b) := by
  fun_induction commonLength a b with
  | case1 a _ b _ heq ih => simp [ih, beq_iff_eq.1 heq]
  | case2 => rfl
  | case3 => rfl

/-- Parents take back names, and above the root nothing. -/
theorem foldl_replicate_parent (names : List Text) {n done}
    (h : n ≤ names.length ∨ done = [.root]) :
    (List.replicate n Component.parent).foldl normalizeStep (names.map .normal ++ done) =
      (names.drop n).map .normal ++ done := by
  induction n generalizing names with
  | zero => rfl
  | succ n ih =>
    cases names with
    | cons _ names => exact ih names (h.imp_left Nat.le_of_succ_le_succ)
    | nil =>
      obtain rfl := h.resolve_left (by simp)
      exact (ih [] (.inr rfl)).trans (by simp)

/-- Climbing from the end of resolved components leads to where any first part of them leads. -/
theorem foldl_climb {absolute ups k} (names : List Text)
    (hroot : absolute = true → 1 ≤ k) (hups : absolute = false → ups = 0) :
    (List.replicate ((stacked absolute ups names).length - k) Component.parent).foldl
        normalizeStep ((stacked absolute ups names).reverse.foldl normalizeStep []) =
      ((stacked absolute ups names).reverse.take k).foldl normalizeStep [] := by
  have htake : ∀ i, (names.reverse.take i).reverse = names.drop (names.length - i) := by
    simp [reverse_take]
  rw [foldl_stacked, reverse_stacked]
  cases absolute with
  | false =>
    obtain rfl := hups rfl
    have hfirst : ((names.reverse.map Component.normal).take k).foldl normalizeStep [] =
        (names.drop (names.length - k)).map .normal ++ [] := by
      rw [← map_take, foldl_names, htake]
    have hlength : (stacked false 0 names).length = names.length := by simp [stacked]
    rw [hlength]
    exact (foldl_replicate_parent names (.inl (Nat.sub_le _ _))).trans hfirst.symm
  | true =>
    obtain ⟨k, rfl⟩ := Nat.exists_eq_add_of_le' (hroot rfl)
    have hfirst : ((List.replicate ups Component.parent ++
        names.reverse.map Component.normal).take k).foldl normalizeStep
          (if true then [.root] else []) =
        (names.drop (names.length - (k - ups))).map .normal ++ [.root] := by
      rw [take_append, take_replicate, foldl_append, foldl_parents, ← map_take,
        foldl_names, htake, length_replicate]
      rfl
    have hlength : (stacked true ups names).length - (k + 1) = ups + names.length - k := by
      simp [stacked]
      omega
    have hdrop : names.drop (ups + names.length - k) = names.drop (names.length - (k - ups)) := by
      by_cases hk : ups ≤ k
      · congr 1
        omega
      · rw [drop_of_length_le (by omega), drop_of_length_le (by omega)]
    rw [← hdrop] at hfirst
    rw [hlength]
    exact (foldl_replicate_parent names (.inr rfl)).trans hfirst.symm

theorem foldl_resolved (p : Path) : p.resolved.foldl normalizeStep [] = p.stack :=
  foldl_normalizeStep_resolved p.components []

theorem inner_eq_components {p : Path} (h : ∀ c ∈ p.components, c.Follows) :
    p.isAbsolute = false ∧ p.inner = p.components := by
  have hroot : .root ∉ p.components := fun hmem => by simpa [Component.Follows] using h _ hmem
  have hcurrent : .current ∉ p.components := fun hmem => by
    simpa [Component.Follows] using h _ hmem
  rw [← isAbsolute_iff_root_mem] at hroot
  by_cases hdot : (Text.splitOn '/' p.text).head? == some ['.']
  · simp [components_eq, hroot, hdot] at hcurrent
  · simp [components_eq, hroot, hdot]

/-- The directory can be left towards any target: it is absolute, or does not lie above the
directory that it is given in. -/
def Anchored (p : Path) : Prop :=
  p.isAbsolute = true ∨ .parent ∉ p.normalize.components

theorem relative_spec (h : source.isAbsolute = target.isAbsolute) (hsource : source.Anchored) :
    (source.relative target).isAbsolute = false ∧
      (source.join (source.relative target)).stack = target.stack := by
  obtain ⟨ups, names, _, hresolved, hstack⟩ := exists_stack source
  obtain ⟨ups', _, hnames', hresolved', -⟩ := exists_stack target
  have hzero : source.isAbsolute = false → ups = 0 := by
    intro hrelative
    have hdown := hsource.resolve_left (by simp [hrelative])
    by_contra hups
    have hmem : .parent ∈ source.stack := by simp [hstack, stacked, hrelative, hups]
    obtain ⟨hempty, -⟩ | ⟨-, -, hcomponents⟩ := normalize_cases source
    · simp [hempty] at hmem
    · simp [hcomponents, hmem] at hdown
  obtain ⟨k, hrelative, htake, hcommon⟩ : ∃ k, source.relative target = ofComponents
      (List.replicate (source.resolved.length - k) .parent ++ target.resolved.drop k) ∧
        source.resolved.take k = target.resolved.take k ∧ (source.isAbsolute = true → 1 ≤ k) := by
    refine ⟨_, rfl, take_commonLength _ _, fun habsolute => ?_⟩
    rw [hresolved, hresolved', reverse_stacked, reverse_stacked, ← h, habsolute]
    simp [commonLength]
  have hdown : ∀ c ∈ target.resolved.drop k, c.Follows := by
    intro c hc
    refine follows_of_mem ups' hnames' ?_
    rw [hresolved', reverse_stacked, ← h] at hc
    cases habsolute : source.isAbsolute with
    | false =>
      rw [habsolute] at hc
      exact mem_of_mem_drop hc
    | true =>
      obtain ⟨k, rfl⟩ := Nat.exists_eq_add_of_le' (hcommon habsolute)
      rw [habsolute] at hc
      exact mem_of_mem_drop (i := k) hc
  have hlist : ∀ c ∈ List.replicate (source.resolved.length - k) .parent ++
      target.resolved.drop k, c.Follows := by
    intro c hc
    rcases mem_append.1 hc with hc | hc
    · exact .inl (eq_of_mem_replicate hc)
    · exact hdown c hc
  have hspelled := components_ofComponents_append (l := []) rfl hlist
  rw [nil_append, ← hrelative] at hspelled
  obtain ⟨habsolute, hinner⟩ := inner_eq_components (by rwa [hspelled])
  refine ⟨habsolute, ?_⟩
  have hclimb := foldl_climb names hcommon hzero
  rw [← length_reverse, ← hresolved] at hclimb
  rw [stack_join source habsolute, hinner, hspelled, foldl_append, ← foldl_resolved source,
    hclimb, htake, ← foldl_append, take_append_drop, foldl_resolved]

/-- The relative path between absolute paths leads from the one to the other. -/
theorem relative_leads_to_target (hsource : source.isAbsolute) (htarget : target.isAbsolute) :
    (source.join (source.relative target)).normalize = target.normalize :=
  normalize_congr (relative_spec (hsource.trans htarget.symm) (.inl hsource)).2

/-- The common part ends between the parents that stand below the root. -/
theorem relative_leads_to_target_above_root :
    let source := ofString "/..//a/../b/./c"
    let target := ofString "/../../d/"
    (source.relative target).toString = "../../../d" ∧
      (source.join (source.relative target)).normalize = target.normalize :=
  ⟨by decide, relative_leads_to_target (by decide) (by decide)⟩

end Path

/-! ### Aliases -/

/-- A specifier that is taken from the directory of the importing file. -/
def IsDotted (specifier : Text) : Prop :=
  specifier = ['.'] ∨ specifier = ['.', '.'] ∨ ['.', '/'] <+: specifier ∨
    ['.', '.', '/'] <+: specifier

theorem isDotted_dotted (relative : Text) : IsDotted (dotted relative) := by
  unfold dotted
  split
  · exact .inl rfl
  · split
    · rename_i h
      simp only [Bool.or_eq_true, beq_iff_eq, Text.startsWith, isPrefixOf_iff_prefix] at h
      rcases h with (h | h) | h
      · exact .inr (.inl h)
      · exact .inr (.inr (.inr h))
      · exact .inr (.inr (.inl h))
    · exact .inr (.inr (.inl ⟨relative, rfl⟩))

theorem IsDotted.isAbsolute {specifier} (h : IsDotted specifier) :
    Path.isAbsolute ⟨specifier⟩ = false := by
  rcases h with rfl | rfl | ⟨rest, rfl⟩ | ⟨_, rfl⟩ <;> rfl

theorem inner_dotted (relative : Text) : Path.inner ⟨dotted relative⟩ = Path.inner ⟨relative⟩ := by
  unfold dotted
  split
  · rename_i h
    rw [List.isEmpty_iff.1 h]
    decide
  · split
    · rfl
    · rfl

namespace Aliases

variable {aliases : Aliases} {path rest : Text} {target : Path}

/-- An import that an alias matches leads from the output directory to the target of the alias, if
both lie at the root or neither does and the directory is not above the one it is given in. From a
relative directory no absolute target is reached. -/
theorem resolve?_leads_to_target (h : aliases.match? path = some (target, rest))
    (outputDir : Path) :
    ∃ specifier, aliases.resolve? path outputDir = some specifier ∧ IsDotted specifier ∧
      (outputDir.isAbsolute = (target.join ⟨rest⟩).isAbsolute → outputDir.Anchored →
        (outputDir.join ⟨specifier⟩).normalize = (target.join ⟨rest⟩).normalize) ∧
      (outputDir.isAbsolute = false → (target.join ⟨rest⟩).isAbsolute = true →
        (outputDir.join ⟨specifier⟩).normalize ≠ (target.join ⟨rest⟩).normalize) := by
  obtain ⟨goal, hgoal, habsolute, hstack⟩ : ∃ goal, aliases.target? path = some goal ∧
      goal.isAbsolute = (target.join ⟨rest⟩).isAbsolute ∧
      goal.stack = (target.join ⟨rest⟩).stack := by
    rw [target?, h]
    cases rest with
    | nil =>
      have hempty : Path.isAbsolute ⟨[]⟩ = false := rfl
      refine ⟨target, rfl, by rw [Path.isAbsolute_join, hempty, Bool.or_false], ?_⟩
      rw [Path.stack_join target hempty]
      rfl
    | cons => exact ⟨_, rfl, rfl, rfl⟩
  have hdotted := isDotted_dotted (outputDir.relative goal).text
  refine ⟨_, by rw [resolve?, hgoal]; rfl, hdotted, fun hsame hanchored => ?_,
    fun hdir htarget hleads => ?_⟩
  · obtain ⟨hrelative, hleads⟩ := Path.relative_spec (hsame.trans habsolute.symm) hanchored
    refine Path.normalize_congr ?_
    rw [Path.stack_join outputDir hdotted.isAbsolute, inner_dotted, ← hstack, ← hleads,
      Path.stack_join outputDir hrelative]
  · have hroot := congrArg Path.isAbsolute hleads
    rw [Path.isAbsolute_normalize, Path.isAbsolute_normalize, Path.isAbsolute_join, hdir,
      hdotted.isAbsolute, htarget] at hroot
    cases hroot

/-- An alias below the directory of the sources, seen from an output directory beside it. -/
theorem resolve?_leads_to_target_beside :
    let aliases : Aliases := [("@", .ofString "src"), ("@ui", .ofString "src/../lib/ui")]
    ∃ specifier, aliases.resolve? "@ui/icons/X".toList (.ofString "./build/out") = some specifier ∧
      ((Path.ofString "./build/out").join ⟨specifier⟩).normalize =
        ((Path.ofString "src/../lib/ui").join (.ofString "icons/X")).normalize := by
  have hmatch : Aliases.match? [("@", .ofString "src"), ("@ui", .ofString "src/../lib/ui")]
      "@ui/icons/X".toList = some (.ofString "src/../lib/ui", "icons/X".toList) := by decide
  obtain ⟨specifier, hresolve, -, hleads, -⟩ :=
    resolve?_leads_to_target hmatch (.ofString "./build/out")
  exact ⟨specifier, hresolve, hleads (by decide) (.inr (by decide))⟩

/-- The specifier of an absolute target leads into a relative output directory. -/
theorem resolve?_misses_absolute_target :
    let aliases : Aliases := [("UTILS", .ofString "/app/utils")]
    aliases.match? "UTILS/fetch".toList = some (.ofString "/app/utils", "fetch".toList) ∧
      aliases.resolve? "UTILS/fetch".toList (.ofString "out") = some ".//app/utils/fetch".toList ∧
      ((Path.ofString "out").join (.ofString ".//app/utils/fetch")).normalize =
        .ofString "out/app/utils/fetch" ∧
      ((Path.ofString "/app/utils").join (.ofString "fetch")).normalize =
        .ofString "/app/utils/fetch" := by
  decide

end Aliases

end Sveltify
