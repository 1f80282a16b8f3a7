import Sveltify.Proofs.Source.Edits

/-! What is rendered, as a splice: the ranges that are replaced lie one after the other, and all that
lies between them is copied from the source. Of replacements that nest, the outermost ones count. -/

namespace Sveltify

open List

/-! Texts by bytes. -/

namespace Text

@[simp] theorem byteSize_nil : byteSize [] = 0 :=
  rfl

theorem eq_nil_of_byteSize {s} (h : byteSize s = 0) : s = [] := by
  cases s with
  | nil => rfl
  | cons c =>
    have := c.utf8Size_pos
    rw [byteSize_cons] at h
    omega

theorem dropBytes?_eq_some_iff {n s r} :
    dropBytes? n s = some r ↔ ∃ u, s = u ++ r ∧ byteSize u = n := by
  fun_induction dropBytes? n s with
  | case1 s =>
    constructor
    · intro h
      exact ⟨[], by simpa using h, rfl⟩
    · rintro ⟨u, rfl, hu⟩
      simp [eq_nil_of_byteSize hu]
  | case2 n =>
    constructor
    · simp
    · rintro ⟨u, hu, hsize⟩
      obtain ⟨rfl, rfl⟩ : u = [] ∧ r = [] := by simpa using hu.symm
      simp at hsize
  | case3 n c s hle ih =>
    rw [ih]
    clear ih
    constructor
    · rintro ⟨u, rfl, hu⟩
      refine ⟨c :: u, rfl, ?_⟩
      rw [byteSize_cons]
      omega
    · rintro ⟨u, hu, hsize⟩
      cases u with
      | nil => simp at hsize
      | cons d u =>
        obtain ⟨rfl, rfl⟩ := List.cons.inj hu
        rw [byteSize_cons] at hsize
        exact ⟨u, rfl, by omega⟩
  | case4 =>
    constructor
    · simp
    · rintro ⟨u, hu, hsize⟩
      cases u with
      | nil => simp at hsize
      | cons =>
        obtain ⟨rfl, rfl⟩ := List.cons.inj hu
        rw [byteSize_cons] at hsize
        omega

theorem takeBytes?_append (t v : Text) : takeBytes? (byteSize t) (t ++ v) = some t := by
  induction t with
  | nil => simp [takeBytes?]
  | cons c t ih =>
    have hpos := c.utf8Size_pos
    obtain ⟨k, hk⟩ : ∃ k, byteSize (c :: t) = k + 1 :=
      Nat.exists_eq_succ_of_ne_zero (by rw [byteSize_cons]; omega)
    have hle : c.utf8Size ≤ k + 1 := by
      rw [← hk, byteSize_cons]
      omega
    have hrest : k + 1 - c.utf8Size = byteSize t := by
      rw [← hk, byteSize_cons]
      omega
    rw [hk, cons_append, takeBytes?, if_pos hle, hrest, ih, Option.map_some]

theorem bytes?_append (u t v : Text) :
    bytes? (u ++ t ++ v) ⟨byteSize u, byteSize u + byteSize t⟩ = some t := by
  have hdrop : dropBytes? (byteSize u) (u ++ t ++ v) = some (t ++ v) :=
    dropBytes?_eq_some_iff.2 ⟨u, by simp, rfl⟩
  rw [bytes?, if_pos (by simp), hdrop, Option.bind_some, Nat.add_sub_cancel_left, takeBytes?_append]

/-- Of two ways to cut a text the one that is made earlier leaves a part of what the other takes. -/
theorem exists_of_append_eq {u v u' v'} (h : u ++ v = u' ++ v')
    (hle : byteSize u ≤ byteSize u') : ∃ t, u' = u ++ t ∧ v = t ++ v' := by
  rcases append_eq_append_iff.1 h with ⟨t, hu, hv⟩ | ⟨t, hu, hv⟩
  · exact ⟨t, hu, hv⟩
  · have ht : t = [] := eq_nil_of_byteSize (by rw [hu, byteSize_append] at hle; omega)
    subst ht
    exact ⟨[], by simpa using hu.symm, by simpa using hv.symm⟩

end Text

namespace Source

variable {source : Source}

theorem isBoundary_iff {offset} :
    source.isBoundary offset ↔ ∃ u v, source.text = u ++ v ∧ Text.byteSize u = offset := by
  simp only [isBoundary, Option.isSome_iff_exists, Text.dropBytes?_eq_some_iff]
  exact exists_comm

theorem slice_append {a b c} (ha : source.isBoundary a) (hb : source.isBoundary b)
    (hc : source.isBoundary c) (hab : a ≤ b) (hbc : b ≤ c) :
    source.slice ⟨a, b⟩ ++ source.slice ⟨b, c⟩ = source.slice ⟨a, c⟩ := by
  rw [isBoundary_iff] at ha hb hc
  obtain ⟨u, _, hu, rfl⟩ := ha
  obtain ⟨v, _, hv, rfl⟩ := hb
  obtain ⟨w, rw', hw, rfl⟩ := hc
  obtain ⟨s, rfl, -⟩ := Text.exists_of_append_eq (hu.symm.trans hv) hab
  obtain ⟨t, rfl, -⟩ := Text.exists_of_append_eq (hv.symm.trans hw) hbc
  have hs := Text.bytes?_append u s (t ++ rw')
  have ht := Text.bytes?_append (u ++ s) t rw'
  have hst := Text.bytes?_append u (s ++ t) rw'
  simp only [append_assoc] at hs ht hst hw
  simp only [slice, hw, Text.byteSize_append] at *
  rw [hs, ht, Nat.add_assoc, hst]
  rfl

/-- The text of a range in which ranges that lie in it one after the other are replaced. -/
def splice (source : Source) : Span → List Edit → Text
  | span, [] => source.slice span
  | span, e :: rest => source.slice ⟨span.start, e.span.start⟩ ++ e.text ++
      source.splice ⟨e.span.stop, span.stop⟩ rest

def unchanged (source : Source) (e : Edit) : Edit :=
  ⟨e.span, source.slice e.span⟩

theorem splice_unchanged {span} {es : List Edit}
    (hin : ∀ e ∈ es, span.contains e.span) (hfilled : ∀ e ∈ es, e.span.Filled)
    (hsorted : es.Pairwise fun e f => e.span.stop ≤ f.span.start) (hle : span.start ≤ span.stop)
    (hspan : source.isBoundary span.start ∧ source.isBoundary span.stop)
    (hes : ∀ e ∈ es, source.isBoundary e.span.start ∧ source.isBoundary e.span.stop) :
    source.splice span (es.map source.unchanged) = source.slice span := by
  induction es generalizing span with
  | nil => rfl
  | cons e rest ih =>
    obtain ⟨hnext, hsorted⟩ := pairwise_cons.1 hsorted
    simp only [mem_cons, forall_eq_or_imp] at hin hfilled hes
    obtain ⟨hstart, hstop⟩ := Span.contains_iff.1 hin.1
    have hlt : e.span.start < e.span.stop := hfilled.1
    have hrest : source.splice ⟨e.span.stop, span.stop⟩ (rest.map source.unchanged) =
        source.slice ⟨e.span.stop, span.stop⟩ := by
      refine ih (fun f hf => ?_) hfilled.2 hsorted hstop ⟨hes.1.2, hspan.2⟩ hes.2
      exact Span.contains_iff.2 ⟨hnext f hf, (Span.contains_iff.1 (hin.2 f hf)).2⟩
    calc source.slice ⟨span.start, e.span.start⟩ ++ source.slice e.span ++
          source.splice ⟨e.span.stop, span.stop⟩ (rest.map source.unchanged)
        = source.slice ⟨span.start, e.span.stop⟩ ++ source.slice ⟨e.span.stop, span.stop⟩ := by
          rw [hrest, ← slice_append hspan.1 hes.1.1 hes.1.2 hstart hlt.le]
      _ = source.slice span :=
          slice_append hspan.1 hes.1.2 hspan.2 (hstart.trans hlt.le) hstop

end Source

/-! Rendering as a splice. -/

namespace EditSet

variable {source : Source}

variable {es : List Edit}

theorem apply_eq_splice {cursor stop} (hcursor : ∀ e ∈ es, cursor ≤ e.span.start)
    (hsorted : es.Pairwise fun e f => e.span.stop ≤ f.span.start) :
    apply source stop cursor es = source.splice ⟨cursor, stop⟩ es := by
  induction es generalizing cursor with
  | nil => rfl
  | cons e _ ih =>
    obtain ⟨hnext, hsorted⟩ := pairwise_cons.1 hsorted
    have hle := hcursor e (by simp)
    rw [apply, if_neg (by omega), ih hnext hsorted]
    rfl

theorem pairwise_stop_le_ordered (hfilled : ∀ e ∈ es, e.span.Filled)
    (hapart : es.Pairwise fun e f => e.span.Apart f.span) :
    (ordered es).Pairwise fun e f => e.span.stop ≤ f.span.start := by
  have hperm : (ordered es).Perm es := ordered_eq es ▸ perm_insertionSort _ es
  have hapart' : (ordered es).Pairwise fun e f => e.span.Apart f.span :=
    (hperm.pairwise_iff fun h => Span.Apart.symm h).2 hapart
  refine ((pairwise_ordered es).and hapart').imp_of_mem fun {e f} he hf h => ?_
  have hf := hfilled f (mem_ordered.1 hf)
  have hprecedes := precedes_iff.1 h.1
  have happ := h.2
  unfold Span.Filled at hf
  unfold Span.Apart at happ
  omega

def isOuter (es : List Edit) (e : Edit) : Bool :=
  es.all fun f => !f.span.contains e.span || f.span == e.span

theorem isOuter_iff {e} :
    isOuter es e ↔ ∀ f ∈ es, f.span.contains e.span → f.span = e.span := by
  simp [isOuter, ← Bool.not_eq_true, ← imp_iff_not_or]

theorem render_filter_isOuter {span} (hfilled : ∀ e ∈ es, e.span.Filled)
    (hspan : ∀ e ∈ es, span.contains e.span) (hnested : ∀ e ∈ es, ∀ f ∈ es, Nested e f) :
    render ⟨es⟩ source span = render ⟨es.filter (isOuter es)⟩ source span := by
  -- Covered replacements are taken out one by one; what covers one of them stays.
  induction hlen : es.length generalizing es with
  | zero =>
    obtain rfl := length_eq_zero_iff.1 hlen
    rfl
  | succ k ih =>
    by_cases hall : ∀ e ∈ es, isOuter es e
    · rw [filter_eq_self.2 hall]
    obtain ⟨g, hg, hgouter⟩ : ∃ g ∈ es, ¬ isOuter es g := by simpa using hall
    obtain ⟨f, hf, hcovers, hne⟩ : ∃ f ∈ es, f.span.contains g.span ∧ f.span ≠ g.span := by
      simpa [isOuter_iff] using hgouter
    obtain ⟨A, B, rfl⟩ := append_of_mem hg
    have hfAB : f ∈ A ++ B := by
      simp only [mem_append, mem_cons] at hf ⊢
      rcases hf with hf | rfl | hf
      · exact .inl hf
      · exact absurd rfl hne
      · exact .inr hf
    have hsub : ∀ e ∈ A ++ B, e ∈ A ++ g :: B := by
      intro e he
      simp only [mem_append] at he ⊢
      tauto
    have houter : ∀ e, isOuter (A ++ g :: B) e = isOuter (A ++ B) e := by
      intro e
      rw [Bool.eq_iff_iff, isOuter_iff, isOuter_iff]
      refine ⟨fun h x hx => h x (hsub x hx), fun h x hx hxe => ?_⟩
      by_cases hxg : x ∈ A ++ B
      · exact h x hxg hxe
      obtain rfl : x = g := by
        simp only [mem_append, mem_cons] at hx hxg
        tauto
      have hfe := h f hfAB (Span.contains_trans hcovers hxe)
      exact absurd (Span.contains_antisymm hcovers (hfe ▸ hxe)) hne
    have habsorb : render ⟨A ++ g :: B⟩ source span = render ⟨A ++ B⟩ source span :=
      render_absorb ((mem_append.1 hfAB).imp id (⟨·, hne⟩)) hcovers (hspan f hf)
        (hfilled g hg) (fun e he => hfilled e (hsub e he))
        (fun e he => hnested e (hsub e he) f hf)
    have hfilter : (A ++ g :: B).filter (isOuter (A ++ g :: B)) =
        (A ++ B).filter (isOuter (A ++ B)) := by
      have hg' : isOuter (A ++ B) g = false := by rwa [← houter, ← Bool.not_eq_true]
      rw [funext houter]
      simp [hg']
    rw [habsorb, hfilter]
    refine ih (fun e he => hfilled e (hsub e he)) (fun e he => hspan e (hsub e he))
      (fun e he x hx => hnested e (hsub e he) x (hsub x hx)) ?_
    simp only [length_append, length_cons] at hlen ⊢
    omega

/-- What is rendered is the source with the outermost ranges replaced, in the order of the source. -/
theorem render_eq_splice (source : Source) {span : Span} (hfilled : ∀ e ∈ es, e.span.Filled)
    (hspan : ∀ e ∈ es, span.contains e.span) (hnested : ∀ e ∈ es, ∀ f ∈ es, Nested e f)
    (hspans : es.Pairwise fun e f => e.span ≠ f.span) :
    ((ordered (es.filter (isOuter es))).Pairwise fun e f => e.span.stop ≤ f.span.start) ∧
    render ⟨es⟩ source span = source.splice span (ordered (es.filter (isOuter es))) := by
  have hapart : (es.filter (isOuter es)).Pairwise fun e f => e.span.Apart f.span := by
    refine (hspans.sublist filter_sublist).imp_of_mem fun {e f} he hf hne => ?_
    obtain ⟨he, heouter⟩ := mem_filter.1 he
    obtain ⟨hf, hfouter⟩ := mem_filter.1 hf
    rcases hnested e he f hf with h | h | h
    · exact h
    · exact absurd (isOuter_iff.1 heouter f hf h).symm hne
    · exact absurd (isOuter_iff.1 hfouter e he h) hne
  have hmem : ∀ e ∈ es.filter (isOuter es), e ∈ es := fun e he => (mem_filter.1 he).1
  have hsorted := pairwise_stop_le_ordered (fun e he => hfilled e (hmem e he)) hapart
  refine ⟨hsorted, ?_⟩
  rw [render_filter_isOuter hfilled hspan hnested, render, filter_eq_self.2]
  · refine apply_eq_splice (fun e he => ?_) hsorted
    exact (Span.contains_iff.1 (hspan e (hmem e (mem_ordered.1 he)))).1
  · exact fun e he => hspan e (hmem e he)

end EditSet

end Sveltify
