import Sveltify.Proofs.Source.Splice

/-! Rendering applies exactly the outermost replacements. Of those in the rendered range, one counts
if no larger one lies around it and none of its own range was recorded before it; the text between
the ones that count is copied. So only the order of replacements of one range matters. -/

namespace Sveltify.EditSet

open List

variable {source : Source} {es seen : List Edit} {span : Span} {e : Edit}

/-! The first replacement of every range. -/

def firsts (seen : List Edit) : List Edit → List Edit
  | [] => []
  | e :: rest =>
    if seen.any (·.span == e.span) then firsts seen rest else e :: firsts (seen ++ [e]) rest

theorem mem_firsts : e ∈ firsts seen es ↔
    seen.any (·.span == e.span) = false ∧ es.find? (·.span == e.span) = some e := by
  induction es generalizing seen with
  | nil => simp [firsts]
  | cons f _ ih =>
    by_cases hspan : f.span = e.span
    · unfold firsts
      rw [hspan]
      split
      · next hseen => simp [ih, hseen]
      · next hseen => simp [ih, hspan, Bool.eq_false_iff.2 hseen, eq_comm]
    · have hne : f ≠ e := fun heq => hspan (congrArg Edit.span heq)
      unfold firsts
      rw [find?_cons_of_neg (by simpa using hspan)]
      split
      · exact ih
      · simp [ih, hspan, hne.symm]

theorem mem_of_mem_firsts (h : e ∈ firsts seen es) : e ∈ es :=
  mem_of_find?_eq_some (mem_firsts.1 h).2

theorem pairwise_firsts (seen es : List Edit) :
    (firsts seen es).Pairwise fun e f => e.span ≠ f.span := by
  induction es generalizing seen with
  | nil => exact .nil
  | cons e _ ih =>
    unfold firsts
    split
    · exact ih seen
    · refine pairwise_cons.2 ⟨fun f hf heq => ?_, ih _⟩
      have hseen := (mem_firsts.1 hf).1
      simp [heq] at hseen

theorem exists_mem_firsts {f} (h : f ∈ es) : ∃ e ∈ firsts [] es, e.span = f.span := by
  have hsome : (es.find? (·.span == f.span)).isSome := find?_isSome.2 ⟨f, h, by simp⟩
  obtain ⟨e, he⟩ := Option.isSome_iff_exists.1 hsome
  have hspan : e.span = f.span := by simpa using find?_some he
  exact ⟨e, mem_firsts.2 ⟨rfl, hspan ▸ he⟩, hspan⟩

theorem render_firsts (hfilled : ∀ f ∈ seen ++ es, f.span.Filled)
    (hspan : ∀ f ∈ seen ++ es, span.contains f.span)
    (hnested : ∀ f ∈ seen ++ es, ∀ g ∈ seen ++ es, Nested f g) :
    render ⟨seen ++ es⟩ source span = render ⟨seen ++ firsts seen es⟩ source span := by
  induction es generalizing seen with
  | nil => rfl
  | cons g rest ih =>
    unfold firsts
    split
    · next hseen =>
      obtain ⟨f, hf, hfg⟩ : ∃ f ∈ seen, f.span = g.span := by simpa using hseen
      have hsub : ∀ x ∈ seen ++ rest, x ∈ seen ++ g :: rest := fun x hx => by
        simp only [mem_append] at hx ⊢
        tauto
      have hmem : f ∈ seen ++ g :: rest := mem_append_left _ hf
      rw [render_absorb (.inl hf) (hfg ▸ Span.contains_self _) (hspan f hmem)
        (hfilled g (by simp)) (fun x hx => hfilled x (hsub x hx))
        fun x hx => hnested x (hsub x hx) f hmem]
      exact ih (fun x hx => hfilled x (hsub x hx)) (fun x hx => hspan x (hsub x hx))
        fun x hx y hy => hnested x (hsub x hx) y (hsub y hy)
    · simpa using @ih (seen ++ [g]) (by simpa using hfilled) (by simpa using hspan)
        (by simpa using hnested)

/-! What counts in a range. -/

/-- A replacement that lies in the range, inside of no larger one there, and that was recorded first
of those of its own range. -/
structure Counts (es : List Edit) (span : Span) (e : Edit) : Prop where
  inside : span.contains e.span
  outermost : ∀ f ∈ es, span.contains f.span → f.span.contains e.span → f.span = e.span
  first : es.find? (·.span == e.span) = some e

theorem counts_iff : Counts es span e ↔
    e ∈ (firsts [] (es.filter (span.contains ·.span))).filter
      (isOuter (firsts [] (es.filter (span.contains ·.span)))) := by
  have hfind (hinside : span.contains e.span) :
      (es.filter (span.contains ·.span)).find? (·.span == e.span) =
        es.find? (·.span == e.span) := by
    rw [find?_filter]
    congr 1
    funext f
    by_cases hf : f.span = e.span
    · simp [hf, hinside]
    · simp [hf]
  rw [mem_filter, isOuter_iff]
  constructor
  · intro h
    refine ⟨mem_firsts.2 ⟨rfl, (hfind h.inside).trans h.first⟩, fun f hf hcovers => ?_⟩
    obtain ⟨hmem, hspan⟩ := mem_filter.1 (mem_of_mem_firsts hf)
    exact h.outermost f hmem hspan hcovers
  · rintro ⟨hfirst, houter⟩
    have hinside : span.contains e.span := (mem_filter.1 (mem_of_mem_firsts hfirst)).2
    refine ⟨hinside, fun f hf hspan hcovers => ?_, hfind hinside ▸ (mem_firsts.1 hfirst).2⟩
    have hinner : f ∈ es.filter (span.contains ·.span) := mem_filter.2 ⟨hf, hspan⟩
    obtain ⟨f', hf', heq⟩ := exists_mem_firsts hinner
    exact heq ▸ houter f' hf' (heq ▸ hcovers)

theorem Counts.mem (h : Counts es span e) : e ∈ es :=
  mem_of_find?_eq_some h.first

/-- Replacements of ranges that are not empty, on whole characters, and disjoint or nested. -/
structure WellPlaced (source : Source) (es : List Edit) : Prop where
  filled : ∀ e ∈ es, e.span.Filled
  boundary : ∀ e ∈ es, source.isBoundary e.span.start ∧ source.isBoundary e.span.stop
  nested : ∀ e ∈ es, ∀ f ∈ es, Nested e f

theorem exists_counting (h : WellPlaced source es) (span : Span) :
    ∃ outer : List Edit, (∀ e, e ∈ outer ↔ Counts es span e) ∧
      (outer.Pairwise fun e f => e.span.stop ≤ f.span.start) ∧
      render ⟨es⟩ source span = source.splice span outer := by
  have hmem : ∀ f ∈ es.filter (span.contains ·.span), f ∈ es ∧ span.contains f.span :=
    fun f hf => mem_filter.1 hf
  have hinner : render ⟨es⟩ source span =
      render ⟨firsts [] (es.filter (span.contains ·.span))⟩ source span := by
    have hfirsts := @render_firsts source (es.filter (span.contains ·.span)) [] span
      (fun f hf => h.filled f (hmem f hf).1) (fun f hf => (hmem f hf).2)
      fun f hf g hg => h.nested f (hmem f hf).1 g (hmem g hg).1
    rw [nil_append, nil_append] at hfirsts
    rw [← hfirsts]
    simp [render]
  obtain ⟨hsorted, hsplice⟩ := @render_eq_splice _ source span
    (fun f hf => h.filled f (hmem f (mem_of_mem_firsts hf)).1)
    (fun f hf => (hmem f (mem_of_mem_firsts hf)).2)
    (fun f hf g hg => h.nested f (hmem f (mem_of_mem_firsts hf)).1 g
      (hmem g (mem_of_mem_firsts hg)).1) (pairwise_firsts [] _)
  exact ⟨_, fun e => mem_ordered.trans counts_iff.symm, hsorted, hinner.trans hsplice⟩

theorem eq_of_mem_iff {a b : List Edit} (hfilled : ∀ e ∈ a, e.span.Filled)
    (ha : a.Pairwise fun e f => e.span.stop ≤ f.span.start)
    (hb : b.Pairwise fun e f => e.span.stop ≤ f.span.start) (h : ∀ e, e ∈ a ↔ e ∈ b) : a = b := by
  have ha' : a.Pairwise fun e f => e.span.start < f.span.start :=
    ha.imp_of_mem fun he _ hle => Nat.lt_of_lt_of_le (hfilled _ he) hle
  have hb' : b.Pairwise fun e f => e.span.start < f.span.start :=
    hb.imp_of_mem fun he _ hle => Nat.lt_of_lt_of_le (hfilled _ ((h _).2 he)) hle
  exact ha'.eq_of_mem_iff hb' h

/-- What is rendered of a range is its text with exactly the replacements that count there: their
texts stand for their ranges, one after the other, and all between them is copied. Another order of
recording gives the same, if only replacements of one range keep their order. -/
theorem render_outermost (h : WellPlaced source es)
    (hspan : source.isBoundary span.start ∧ source.isBoundary span.stop) :
    (∃ outer : List Edit, (∀ e, e ∈ outer ↔ Counts es span e) ∧
      (outer.Pairwise fun e f => e.span.stop ≤ f.span.start) ∧
      render ⟨es⟩ source span = source.splice span outer ∧
      source.slice span = source.splice span (outer.map source.unchanged)) ∧
    ∀ es' : List Edit, (∀ s, es'.filter (·.span == s) = es.filter (·.span == s)) →
      render ⟨es'⟩ source span = render ⟨es⟩ source span := by
  obtain ⟨outer, hcounts, hsorted, hrender⟩ := exists_counting h span
  have hmem : ∀ e ∈ outer, e ∈ es := fun e he => ((hcounts e).1 he).mem
  have hfilled : ∀ e ∈ outer, e.span.Filled := fun e he => h.filled e (hmem e he)
  refine ⟨⟨outer, hcounts, hsorted, hrender, ?_⟩, fun es' hes => ?_⟩
  · cases outer with
    | nil => rfl
    | cons e rest =>
      have hinside : ∀ f ∈ e :: rest, span.contains f.span := fun f hf => ((hcounts f).1 hf).inside
      have hle : span.Filled := (hfilled e (by simp)).of_contains (hinside e (by simp))
      exact (Source.splice_unchanged hinside hfilled hsorted hle.le hspan
        fun f hf => h.boundary f (hmem f hf)).symm
  · have hsame : ∀ e, e ∈ es' ↔ e ∈ es := by
      intro e
      have hfilter := congrArg (e ∈ ·) (hes e.span)
      simpa using hfilter
    have hwell : WellPlaced source es' :=
      ⟨fun e he => h.filled e ((hsame e).1 he), fun e he => h.boundary e ((hsame e).1 he),
        fun e he f hf => h.nested e ((hsame e).1 he) f ((hsame f).1 hf)⟩
    have hcounts' : ∀ e, Counts es' span e ↔ Counts es span e := by
      intro e
      have hfind : es'.find? (·.span == e.span) = es.find? (·.span == e.span) := by
        rw [← List.head?_filter, ← List.head?_filter, hes]
      exact ⟨fun hc => ⟨hc.inside, fun f hf => hc.outermost f ((hsame f).2 hf), hfind ▸ hc.first⟩,
        fun hc => ⟨hc.inside, fun f hf => hc.outermost f ((hsame f).1 hf), hfind ▸ hc.first⟩⟩
    obtain ⟨outer', hmem', hsorted', hrender'⟩ := exists_counting hwell span
    obtain rfl : outer = outer' := eq_of_mem_iff hfilled hsorted hsorted' fun e =>
      (hcounts e).trans ((hcounts' e).symm.trans (hmem' e).symm)
    rw [hrender, hrender']

/-- A replacement inside of another one, one of the same range after it, and one apart, which may as
well be recorded first. -/
theorem render_outermost_nested :
    let source := Source.ofString "aé(b)c"
    let es : List Edit := [⟨⟨3, 6⟩, ['x']⟩, ⟨⟨4, 5⟩, ['y']⟩, ⟨⟨3, 6⟩, ['z']⟩]
    let last : Edit := ⟨⟨0, 1⟩, []⟩
    WellPlaced source (es ++ [last]) ∧ (source.isBoundary 0 ∧ source.isBoundary 7) ∧
      render ⟨es ++ [last]⟩ source ⟨0, 7⟩ = "éxc".toList ∧
      render ⟨last :: es⟩ source ⟨0, 7⟩ = render ⟨es ++ [last]⟩ source ⟨0, 7⟩ := by
  intro source es last
  have hwell : WellPlaced source (es ++ [last]) := by
    refine ⟨by decide, by decide +kernel, ?_⟩
    unfold Nested
    decide
  have hspan : source.isBoundary 0 ∧ source.isBoundary 7 := by decide +kernel
  refine ⟨hwell, hspan, by decide +kernel, (render_outermost hwell hspan).2 _ fun s => ?_⟩
  by_cases hs : s = ⟨0, 1⟩
  · subst hs
    decide
  · simp [last, Ne.symm hs]

end Sveltify.EditSet
