import Sveltify.Proofs.Component.Orderly
import Sveltify.Proofs.Component.Steps
import Sveltify.Proofs.Component.Writing

/-! The text that a part is rendered as. In an orderly tree the replacements that a walk leaves give
the text of the code that the walk makes. -/

namespace Sveltify

open List
open Script (Node Kind)
open Script.Tree Output Visit

/-- The replacements `es` are those of `m` and others apart from it, and those of `m` give the text
of `p`. -/
def Holds (source : Source) (es : List Edit) (m : Node) (p : Output) : Prop :=
  ∃ A own B, es = A ++ own ++ B ∧ Agree source (m.reach source) own (pieces source [p]) ∧
    Clear (m.reach source) A ∧ Clear (m.reach source) B

/-- A walk from `w` to `w'` leaves the replacements `es` that show `o` in the place of `n`. -/
structure Leaves (source : Source) (w w' : Walk) (n : Node) (o : Output) (es : List Edit) :
    Prop where
  edits : w'.edits.edits = w.edits.edits ++ es
  agree : Agree source (n.reach source) es (pieces source [o])
  inner : ∀ m p, Inner n o m p → Holds source es m p

variable {source : Source} {o p : Output} {n m : Node} {bag : Option String} {es : List Edit}
variable {w : Walk} {os : List Output}

theorem Rewrites.span_eq (h : Rewrites source w n o) : o.span = n.span := by
  cases h <;> simp [name, gone, parenthesized, assignment]

theorem Visit.kind_of_isUpdateCall (h : isUpdateCall n) : n.kind = .call := by
  obtain ⟨⟨⟩, kind, _, _⟩ := n
  cases kind <;> first | rfl | simp [isUpdateCall, calleeMember?, callee?] at h

theorem Rewrites.gone_eq {range} (h : Rewrites source w n o) (ho : n.orderly source bag)
    (hgone : o.label = .gone range) : range.contains n.span := by
  have hat := orderlyAt_of_orderly ho
  cases h with
  | declaration h =>
    obtain rfl : source.statementRange _ = range := by simpa [gone, label] using hgone
    simp only [orderlyAt, kind_node, Bool.and_eq_true] at hat
    exact hat.2
  | emptyUpdateStatement h =>
    obtain rfl : source.statementRange _ = range := by simpa [gone, label] using hgone
    simp only [orderlyAt, kind_node, kids_node, h, Bool.not_true, Bool.false_or, Bool.and_eq_true] at hat
    exact hat.1.2
  | this => simp [untouched, relabel_node, label] at hgone
  | updateDeferred =>
    unfold deferred at hgone
    split at hgone
    · rw [label_withArguments] at hgone
      simp at hgone
    · simp [name, label] at hgone
  | _ => simp [name, parenthesized, assignment, label] at hgone

/-! The text of a value that has been visited. -/

theorem Holds.render {old} (h : Holds source es m p)
    (hold : Clear (m.reach source) old) (hsolid : solid source m) (hm : m.orderly source bag)
    (hp : Rewrites source w m p) : EditSet.render ⟨old ++ es⟩ source m.span = text source p := by
  obtain ⟨A, own, B, rfl, hagree, hA, hB⟩ := h
  have hspan := span_mem_reach_of_solid hsolid
  have hlocal : EditSet.render ⟨(old ++ A) ++ own ++ B⟩ source m.span =
      EditSet.render ⟨own⟩ source m.span :=
    EditSet.render_local ((hold.append hA).not_contains hspan) (hB.not_contains hspan)
  have hsame := hagree.same m.span [] [] (contains_of_solid hsolid) (by simp [Clear])
    (by simp [Clear])
  calc EditSet.render ⟨old ++ (A ++ own ++ B)⟩ source m.span
      = EditSet.render ⟨own⟩ source m.span := by rw [← hlocal]; simp
    _ = EditSet.render ⟨pieces source [p]⟩ source m.span := by simpa using hsame
    _ = text source p := by
      rw [← hp.span_eq]
      refine render_pieces p fun range hgone => ?_
      -- A removed range lies in the node and the node in it.
      have hrange : range ∈ m.reach source := by
        have := hagree.right ⟨range, []⟩
        obtain ⟨l, _, _, _⟩ := p
        obtain rfl : l = .gone range := hgone
        exact this (by simp [pieces])
      rw [hp.span_eq]
      exact Span.contains_antisymm (hp.gone_eq hm hgone) (contains_of_solid hsolid range hrange)

theorem Inner.within (h : Inner n o m p) : m.Within n := by
  induction h with
  | refl => exact .self
  | kid _ hmem _ ih => exact .kid (of_mem_zip hmem).1 ih

theorem Inner.solid (h : Inner n o m p) (hn : Script.Tree.solid source n)
    (ho : n.orderly source bag) : Script.Tree.solid source m := by
  induction h with
  | refl => exact hn
  | @kid n _ _ k q m p hk hmem _ ih =>
    have hkids := (of_mem_zip hmem).1
    refine ih ?_ (orderly_of_mem (orderlyAll_kids ho) hkids)
    have hat := orderlyAt_of_orderly ho
    obtain ⟨l, kind, s, _⟩ := n
    cases kind <;> first
      | exact all_eq_true.1 hat k hkids
      | simp [Script.Kind.carries] at hk

theorem Carried.render {args old} {Q : Walk → Prop}
    (h : Carried source Q args os m p) (ho : orderlyAll source bag args)
    (hsolid : args.all (solid source)) (hold : Clear (reachAll source args) old)
    (hes : ∀ a ∈ args.zip os, ∀ m p, Inner a.1 a.2 m p → Holds source es m p) :
    EditSet.render ⟨old ++ es⟩ source m.span = text source p := by
  obtain ⟨⟨a, ha, hin⟩, w, -, hp⟩ := h
  have hmem := (of_mem_zip ha).1
  have hao := orderly_of_mem ho hmem
  have hm : m.reach source ⊆ reachAll source args := by
    rw [reachAll_eq]
    exact fun r hr => mem_flatMap.2 ⟨a.1, hmem, hin.within.reach_subset hr⟩
  exact (hes a ha m p hin).render (hold.mono hm)
    (hin.solid (all_eq_true.1 hsolid _ hmem) hao) (hin.within.orderly hao) hp

/-! What a walk leaves. -/

theorem Inner.eq_of_not_carries (h : Inner n o m p) (hn : n.kind.carries = false) :
    m = n ∧ p = o := by
  cases h with
  | refl => exact ⟨rfl, rfl⟩
  | kid hc => simp [hn] at hc

theorem Leaves.of_not_carries {w'} (hedits : w'.edits.edits = w.edits.edits ++ es)
    (hagree : Agree source (n.reach source) es (pieces source [o]))
    (hn : n.kind.carries = false) : Leaves source w w' n o es where
  edits := hedits
  agree := hagree
  inner m p h := by
    obtain ⟨rfl, rfl⟩ := h.eq_of_not_carries hn
    exact ⟨[], es, [], by simp, hagree, by simp [Clear], by simp [Clear]⟩

/-- A walk over nodes leaves the replacements `es` that show their codes. -/
structure LeavesAll (source : Source) (w w' : Walk) (ns : List Node) (os : List Output)
    (es : List Edit) : Prop where
  edits : w'.edits.edits = w.edits.edits ++ es
  agree : Agree source (reachAll source ns) es (pieces source os)
  inner : ∀ a ∈ ns.zip os, ∀ m p, Inner a.1 a.2 m p → Holds source es m p

theorem LeavesAll.cons {ns : List Node} {es' : List Edit}
    (h : Leaves source w (w.visit source n) n o es)
    (h' : LeavesAll source (w.visit source n) (w.visits source (n :: ns)) ns os es')
    (hapart : Span.allApart (n.reach source) (reachAll source ns)) :
    LeavesAll source w (w.visits source (n :: ns)) (n :: ns) (o :: os) (es ++ es') where
  edits := by rw [h'.edits, h.edits, append_assoc]
  agree := by
    rw [pieces_cons]
    exact h.agree.append h'.agree (fun _ hr => filled_of_mem_reach hr)
      (fun _ hr => filled_of_mem_reachAll hr) (allApart_iff.1 hapart)
  inner a ha m p hin := by
    rw [allApart_iff] at hapart
    rcases mem_cons.1 ha with rfl | ha
    · obtain ⟨A, own, B, rfl, hown, hA, hB⟩ := h.inner m p hin
      refine ⟨A, own, B ++ es', by simp, hown, hA, hB.append ?_⟩
      refine Clear.of_mem h'.agree.left (fun _ hr => filled_of_mem_reachAll hr) ?_
      exact fun r hr r' hr' => (hapart r' (hin.within.reach_subset hr') r hr).symm
    · obtain ⟨A, own, B, rfl, hown, hA, hB⟩ := h'.inner a ha m p hin
      refine ⟨es ++ A, own, B, by simp, hown, Clear.append ?_ hA, hB⟩
      refine Clear.of_mem h.agree.left (fun _ hr => filled_of_mem_reach hr) ?_
      intro r hr _ hr'
      apply hapart r hr
      rw [reachAll_eq]
      exact mem_flatMap.2 ⟨a.1, (of_mem_zip ha).1, hin.within.reach_subset hr'⟩

theorem LeavesAll.edits_eq {w' ns} (h : LeavesAll source w w' ns os es) :
    w'.edits = ⟨w.edits.edits ++ es⟩ := by
  rw [← h.edits]

/-- The walk leaves the replacements that show the code of a node, apart from what it has left
before. -/
def ShownAs (source : Source) (bag : Option String) (w : Walk) (n : Node) (o : Output) : Prop :=
  n.orderly source bag → w.draft.scope.propsBag = bag → Clear (n.reach source) w.edits.edits →
    ∃ es, Leaves source w (w.visit source n) n o es

/-- A walk over the node leaves the replacements that show its code, whatever the walk has left
before. -/
def Shown (source : Source) (bag : Option String) (n : Node) : Prop :=
  ∀ (w : Walk) (o : Output), Rewrites source w n o → n.orderly source bag →
    w.draft.scope.propsBag = bag → Clear (n.reach source) w.edits.edits →
    ∃ es, Leaves source w (w.visit source n) n o es

section

variable {source : Source} {bag : Option String} {w : Walk}

variable {os : List Output} {span : Span} {n : Node} {kids args : List Node} {o : Output}
variable {es : List Edit} {v : Update Layout} {w' inner : Walk} {u : Update Unit}

theorem RewritesAll.leaves {ns} (h : RewritesAll source w ns os)
    (hshown : ∀ n ∈ ns, Shown source bag n) (ho : orderlyAll source bag ns)
    (hbag : w.draft.scope.propsBag = bag) (hw : Clear (reachAll source ns) w.edits.edits) :
    ∃ es, LeavesAll source w (w.visits source ns) ns os es := by
  induction ns generalizing w os with
  | nil =>
    cases h
    exact ⟨[], by simp, .nil, by simp⟩
  | cons n ns ih =>
    cases h with
    | @cons _ _ _ o _ hn hns =>
      simp only [orderlyAll, Bool.and_eq_true] at ho
      obtain ⟨⟨hon, hapart⟩, hons⟩ := ho
      obtain ⟨es, hes⟩ := hshown n (by simp) w o hn hon hbag
        (hw.mono (subset_append_left _ _))
      have hclear : Clear (reachAll source ns) (w.visit source n).edits.edits := by
        rw [hes.edits]
        refine (hw.mono (subset_append_right _ _)).append ?_
        exact .of_mem hes.agree.left (fun _ hr => filled_of_mem_reach hr) (allApart_iff.1 hapart)
      obtain ⟨es', hes'⟩ := ih hns (fun m hm => hshown m (by simp [hm])) hons
        ((Walk.visit_propsBag w n).trans hbag) hclear
      exact ⟨es ++ es', .cons hes hes' hapart⟩

theorem listed_leaves {s} (hs : Rewrites source (w.enter s.span) s o)
    (hshown : Shown source bag s) (ho : s.orderly source bag)
    (hbag : w.draft.scope.propsBag = bag) (hfilled : (source.statementRange s.span).Filled)
    (hin : (source.statementRange s.span).encloses (s.reach source))
    (hw : Clear (reachListed source s) w.edits.edits) :
    ∃ es, (w.listed source s).edits.edits = w.edits.edits ++ es ∧
      Agree source (reachListed source s) es (pieces source
        [.settled source ((w.enter s.span).visit source s) s.span o]) := by
  have hreach : s.reach source ⊆ reachListed source s := subset_append_right _ _
  have hrange : source.statementRange s.span ∈ reachListed source s :=
    mem_append_left _ (mem_present.2 ⟨rfl, hfilled⟩)
  obtain ⟨es, hes⟩ := hshown (w.enter s.span) o hs ho hbag (hw.mono hreach)
  have hagree := hes.agree.mono hreach
  have hinside : ∀ g ∈ es, (source.statementRange s.span).contains g.span :=
    fun g hg => encloses_iff.1 hin _ (hes.agree.left g hg)
  unfold Walk.listed Walk.leave settled
  cases hfind : ((w.enter s.span).visit source s).deferred.find? (·.1 == s.span) with
  | none =>
    have hany : ((w.enter s.span).visit source s).deferred.any (·.1 == s.span) = false :=
      any_eq_false.2 (find?_eq_none.1 hfind)
    rw [hany]
    exact ⟨es, hes.edits, hagree⟩
  | some found =>
    have hany : ((w.enter s.span).visit source s).deferred.any (·.1 == s.span) :=
      any_eq_true.2 ⟨found, mem_of_find?_eq_some hfind,
        find?_some (p := fun d : Span × String => d.1 == s.span) hfind⟩
    refine ⟨es ++ [⟨source.statementRange s.span, []⟩], ?_, ?_⟩
    · change ((w.enter s.span).visit source s).edits.edits ++ _ = _
      rw [hes.edits, append_assoc]
      rfl
    rw [hany]
    by_cases hdone : ((w.enter s.span).visit source s).edits.edits.any
        (·.span == source.statementRange s.span)
    · -- The range has been replaced while the statement was visited, not before.
      rw [hdone]
      obtain ⟨e, he, hspan⟩ := any_eq_true.1 hdone
      rw [beq_iff_eq] at hspan
      rw [hes.edits, mem_append] at he
      rcases he with he | he
      · have hapart := (hw e he).2 _ hrange
        rw [hspan] at hapart
        unfold Span.Apart at hapart
        unfold Span.Filled at hfilled
        omega
      · exact hagree.again he hspan.symm (fun _ hr => filled_of_mem_reachListed hr)
          (fun f hf => hspan ▸ hinside f hf)
    · rw [Bool.not_eq_true] at hdone
      rw [hdone]
      refine Agree.outer hagree.left hrange (fun _ hr => filled_of_mem_reachListed hr)
        fun g hg => ⟨hinside g hg, fun heq => ?_⟩
      rw [hes.edits, any_append, Bool.or_eq_false_iff] at hdone
      exact any_eq_false.1 hdone.2 g hg (beq_iff_eq.2 heq)

theorem Walk.listed_propsBag (w : Walk) (s : Node) :
    (w.listed source s).draft.scope.propsBag = w.draft.scope.propsBag := by
  have h : (w.visit source (.node () .block s.span [s])).draft.scope.propsBag = _ :=
    Walk.visit_propsBag w _
  rwa [Walk.visit_block] at h

theorem RewritesListed.leaves {ss} (h : RewritesListed source w ss os)
    (hshown : ∀ s ∈ ss, Shown source bag s) (ho : orderlyAll source bag ss)
    (hlisted : listedApart source ss) (hbag : w.draft.scope.propsBag = bag)
    (hw : Clear (ss.flatMap (reachListed source)) w.edits.edits) :
    ∃ es, (ss.foldl (Walk.listed source) w).edits.edits = w.edits.edits ++ es ∧
      Agree source (ss.flatMap (reachListed source)) es (pieces source os) := by
  induction ss generalizing w os with
  | nil =>
    cases h
    exact ⟨[], by simp, .nil⟩
  | cons s ss ih =>
    cases h with
    | @cons _ _ _ o _ hs hss =>
      simp only [orderlyAll, Bool.and_eq_true] at ho
      simp only [listedApart, Bool.and_eq_true, decide_eq_true_eq] at hlisted
      obtain ⟨⟨⟨hfilled, hin⟩, hapart⟩, hrest⟩ := hlisted
      rw [allApart_iff] at hapart
      obtain ⟨es, hedits, hagree⟩ := listed_leaves hs (hshown s (by simp)) ho.1.1 hbag hfilled hin
        (hw.mono (subset_append_left _ _))
      have hclear : Clear (ss.flatMap (reachListed source)) (w.listed source s).edits.edits := by
        rw [hedits]
        refine (hw.mono (subset_append_right _ _)).append ?_
        exact .of_mem hagree.left (fun _ hr => filled_of_mem_reachListed hr) hapart
      obtain ⟨es', hedits', hagree'⟩ := ih hss (fun m hm => hshown m (by simp [hm])) ho.2 hrest
        ((Walk.listed_propsBag w s).trans hbag) hclear
      refine ⟨es ++ es', ?_, ?_⟩
      · rw [foldl_cons, hedits', hedits, append_assoc]
      · rw [pieces_cons]
        refine hagree.append hagree' (fun _ hr => filled_of_mem_reachListed hr) ?_ hapart
        intro r hr
        obtain ⟨m, _, hm⟩ := mem_flatMap.1 hr
        exact filled_of_mem_reachListed hm

section

variable (hn : n.kind = .call) (ho : n.orderly source bag)

include hn ho

/-! Updates. -/

theorem orderly_call : n.span ∈ n.reach source ∧ n.span.surrounds (reachAll source n.kids) ∧
      n.arguments.all (solid source) := by
  have hat := orderlyAt_of_orderly ho
  obtain ⟨⟨⟩, kind, _, _⟩ := n
  obtain rfl : kind = .call := hn
  simp only [orderlyAt, kind_node, Bool.and_eq_true] at hat
  refine ⟨?_, hat.1.2, hat.2⟩
  exact mem_append_left _ (mem_present.2 ⟨rfl, of_decide_eq_true hat.1.1⟩)

theorem span_mem_reach_of_call :
    n.span ∈ n.reach source ∧ n.span.surrounds (reachAll source n.arguments) := by
  obtain ⟨hspan, hin, -⟩ := orderly_call hn ho
  exact ⟨hspan, surrounds_iff.2 fun r hr => surrounds_iff.1 hin r (reachAll_arguments_subset _ hr)⟩

theorem solid_arguments_of_call : n.arguments.all (solid source) :=
  (orderly_call hn ho).2.2

end

theorem LeavesAll.texts {Q : Walk → Prop} (hes : LeavesAll source w w' args os es)
    (ho : orderlyAll source bag args) (hsolid : args.all (solid source))
    (hw : Clear (reachAll source args) w.edits.edits) (h : SameUpdate source Q args os u v)
    (span : Span) : (updates span v).map (text source) = w'.updateTexts source u := by
  refine texts_updates span h fun m p hc => ?_
  rw [hes.edits_eq]
  exact hc.render ho hsolid hw hes.inner

variable {e : Edit}

theorem LeavesAll.covered (hes : LeavesAll source w w' args os es)
    (hargs : reachAll source args ⊆ n.reach source) (he : e.span ∈ n.reach source)
    (hin : e.span.surrounds (reachAll source args)) :
    Agree source (n.reach source) (es ++ [e]) [e] :=
  .outer (fun g hg => hargs (hes.agree.left g hg)) he (fun _ hr => filled_of_mem_reach hr)
    fun g hg => surrounds_iff.1 hin _ (hes.agree.left g hg)

theorem LeavesAll.leaves (hes : LeavesAll source w inner args os es)
    (hargs : reachAll source args ⊆ n.reach source) (he : e.span ∈ n.reach source)
    (hin : e.span.surrounds (reachAll source args)) (hn : n.kind.carries = false)
    (hedits : w'.edits.edits = inner.edits.edits ++ [e]) (hpieces : pieces source [o] = [e]) :
    ∃ es, Leaves source w w' n o es := by
  refine ⟨es ++ [e], .of_not_carries ?_ ?_ hn⟩
  · rw [hedits, hes.edits, append_assoc]
  · rw [hpieces]
    exact hes.covered hargs he hin

theorem LeavesAll.defer {call} (hes : LeavesAll source w inner call.arguments os es)
    (hcall : isUpdateCall call) (hargs : RewritesAll source w call.arguments os)
    (ho : call.orderly source bag) :
    ∃ es', (inner.defer source call).edits.edits = w.edits.edits ++ es' ∧
      Agree source (call.reach source) es' (pieces source [.deferred inner call os]) := by
  have hreach : reachAll source call.arguments ⊆ call.reach source :=
    reachAll_arguments_subset_reach call
  unfold Walk.defer deferred
  cases inner.statements.head? with
  | some span =>
    refine ⟨es, ?_, ?_⟩
    · dsimp only
      split <;> exact hes.edits
    · rw [pieces_withArguments (kind_of_isUpdateCall hcall) hargs]
      exact hes.agree.mono hreach
  | none =>
    refine ⟨es ++ [⟨call.span, "undefined".toList⟩], ?_, ?_⟩
    · change inner.edits.edits ++ _ = _
      rw [hes.edits, append_assoc]
    · obtain ⟨hspan, hin⟩ := span_mem_reach_of_call (kind_of_isUpdateCall hcall) ho
      exact hes.covered hreach hspan hin

/-! Every node of an orderly tree is shown. -/

theorem shown_kept (h : Walk.passes w.draft n) (hkids : RewritesAll source w n.kids os)
    (hshown : ∀ k ∈ n.kids, Shown source bag k) :
    ShownAs source bag w n (.node .kept n.kind n.span os) := by
  intro ho hbag hw
  obtain ⟨es, hes⟩ := hkids.leaves hshown (orderlyAll_kids ho) hbag
    (hw.mono (reachAll_kids_subset n))
  have hagree : Agree source (n.reach source) es
      (pieces source [.node .kept n.kind n.span os]) := by
    rw [pieces_kept]
    exact hes.agree.mono (reachAll_kids_subset n)
  rw [Walk.visit_of_passes h]
  refine ⟨es, hes.edits, hagree, fun m p hin => ?_⟩
  cases hin with
  | refl => exact ⟨[], es, [], by simp, hagree, by simp [Clear], by simp [Clear]⟩
  | kid _ hmem hin => exact hes.inner _ hmem m p hin

theorem shown_block {ss} (hss : RewritesListed source w ss os)
    (hshown : ∀ s ∈ ss, Shown source bag s) :
    ShownAs source bag w (.node () .block span ss) (.node .kept .block span os) := by
  intro ho hbag hw
  have hreach : ss.flatMap (reachListed source) ⊆ (node () .block span ss).reach source := by
    intro r hr
    obtain ⟨s, hs, hr⟩ := mem_flatMap.1 hr
    rcases mem_append.1 hr with hr | hr
    · refine mem_append_left _ (mem_append_right _ (mem_flatMap.2 ⟨s, hs, hr⟩))
    · exact reach_subset_of_mem_kids hs hr
  obtain ⟨es, hedits, hagree⟩ := hss.leaves hshown (orderlyAll_kids ho) (orderlyAt_of_orderly ho)
    hbag (hw.mono hreach)
  rw [Walk.visit_block]
  refine ⟨es, .of_not_carries hedits ?_ rfl⟩
  rw [pieces_kept]
  exact hagree.mono hreach

theorem shown_switchCase {test body} (htest : Rewrites source w test o)
    (hbody : RewritesListed source (w.visit source test) body.kids os)
    (hshown : Shown source bag test) (hshown' : ∀ s ∈ body.kids, Shown source bag s) :
    ShownAs source bag w (.node () .switchCase span [test, body])
      (.node .kept .switchCase span [o, .node .kept body.kind body.span os]) := by
  intro ho hbag hw
  have hlist : body.kids.flatMap (reachListed source) ⊆
      (node () .switchCase span [test, body]).reach source := by
    intro r hr
    obtain ⟨s, hs, hr⟩ := mem_flatMap.1 hr
    rcases mem_append.1 hr with hr | hr
    · refine mem_append_left _ (mem_append_right _ (mem_flatMap.2 ⟨s, hs, hr⟩))
    · have hbody : body ∈ (node () .switchCase span [test, body]).kids := by simp
      exact reach_subset_of_mem_kids hbody (reach_subset_of_mem_kids hs hr)
  have htestReach : test.reach source ⊆ (node () .switchCase span [test, body]).reach source :=
    reach_subset_of_mem_kids (by simp)
  have hat := orderlyAt_of_orderly ho
  simp only [orderlyAt, kind_node, kids_node, Bool.and_eq_true] at hat
  have hapart := allApart_iff.1 hat.2
  have hkids := orderlyAll_kids ho
  obtain ⟨es, hes⟩ := hshown w o htest (orderly_of_mem hkids (by simp)) hbag (hw.mono htestReach)
  have hclear : Clear (body.kids.flatMap (reachListed source)) (w.visit source test).edits.edits := by
    rw [hes.edits]
    refine (hw.mono hlist).append ?_
    exact .of_mem hes.agree.left (fun _ hr => filled_of_mem_reach hr) hapart
  obtain ⟨es', hedits, hagree⟩ := hbody.leaves hshown'
    (orderlyAll_kids (orderly_of_mem hkids (n := body) (by simp))) hat.1.2
    ((Walk.visit_propsBag w test).trans hbag) hclear
  rw [Walk.visit_switchCase]
  refine ⟨es ++ es', .of_not_carries ?_ ?_ rfl⟩
  · rw [hedits, hes.edits, append_assoc]
  · rw [pieces_kept, pieces_cons, pieces_kept]
    refine (hes.agree.append hagree (fun _ hr => filled_of_mem_reach hr) ?_ hapart).mono
      (append_subset.2 ⟨htestReach, hlist⟩)
    intro r hr
    obtain ⟨m, _, hm⟩ := mem_flatMap.1 hr
    exact filled_of_mem_reachListed hm

theorem shown_bag {name} (h : w.draft.scope.propsBag = some name)
    (hkids : RewritesAll source (w.replace span "$$props".toList) kids os)
    (hshown : ∀ k ∈ kids, Shown source bag k) :
    ShownAs source bag w (.node () (.ident name) span kids)
      (.node (.word "$$props".toList) (.ident name) span os) := by
  intro ho hbag hw
  have hat := orderlyAt_of_orderly ho
  change (bag != some name || (decide span.Filled && (reachAll source kids).isEmpty)) = true at hat
  rw [← hbag, h, bne_self_eq_false, Bool.false_or, Bool.and_eq_true, List.isEmpty_iff] at hat
  obtain ⟨hfilled, hnone⟩ := hat
  have hfilled : span.Filled := of_decide_eq_true hfilled
  have hclear : Clear (reachAll source kids) (w.replace span "$$props".toList).edits.edits := by
    refine (hw.mono (reachAll_kids_subset _)).append ?_
    intro e he
    rw [mem_singleton.1 he]
    exact ⟨hfilled, by simp [hnone]⟩
  obtain ⟨es, hes⟩ := hkids.leaves hshown (orderlyAll_kids ho) hbag hclear
  have hnil : es = [] := by
    rw [eq_nil_iff_forall_not_mem]
    intro e he
    have := hes.agree.left e he
    simp [hnone] at this
  subst hnil
  rw [Walk.visit_bag _ _ h]
  refine ⟨[⟨span, "$$props".toList⟩], .of_not_carries ?_ ?_ rfl⟩
  · rw [hes.edits, append_nil]
    rfl
  · refine Agree.refl fun e he => ?_
    rw [mem_singleton.1 he]
    exact mem_append_left _ (mem_present.2 ⟨rfl, hfilled⟩)

theorem Leaves.single (hedits : w'.edits.edits = w.edits.edits ++ [e])
    (hpieces : pieces source [o] = [e]) (he : e.span ∈ n.reach source)
    (hn : n.kind.carries = false) : Leaves source w w' n o [e] := by
  refine .of_not_carries hedits ?_ hn
  rw [hpieces]
  exact Agree.refl fun g hg => mem_singleton.1 hg ▸ he

theorem shown_member {name symbols}
    (h : memberReplacement? w.draft (.node () .member span kids : Node) =
      some (name, symbols)) :
    ShownAs source bag w (.node () .member span kids) (.name span name) := by
  intro ho _ _
  have hat := orderlyAt_of_orderly ho
  simp only [orderlyAt, kind_node, Bool.and_eq_true] at hat
  rw [Walk.visit_member h]
  refine ⟨[⟨span, name.toList⟩], .single rfl rfl ?_ rfl⟩
  exact mem_append_left _ (mem_present.2 ⟨rfl, of_decide_eq_true hat.1.1⟩)

theorem shown_declaration {word} (h : Walk.consumes w.draft.scope kids) :
    ShownAs source bag w (.node () (.variableDecl word) span kids)
      (.gone (source.statementRange span) span) := by
  intro ho _ _
  have hat := orderlyAt_of_orderly ho
  simp only [orderlyAt, kind_node, Bool.and_eq_true] at hat
  have hfilled : span.Filled := of_decide_eq_true hat.1
  rw [Walk.visit_consumed h]
  refine ⟨[⟨source.statementRange span, []⟩], .single rfl rfl ?_ rfl⟩
  exact mem_append_left _
    (mem_append_right _ (mem_present.2 ⟨rfl, hfilled.of_contains hat.2⟩))

theorem shown_update (h : isUpdateCall (.node () .call span kids : Node))
    (hargs : RewritesAll source w (arguments (.node () .call span kids : Node)) os)
    (hu : update? (arguments (.node () .call span kids : Node)) = some u) (hv : update? os = some v)
    (hshown : ∀ a ∈ arguments (.node () .call span kids : Node), Shown source bag a) :
    ShownAs source bag w (.node () .call span kids)
      (.parenthesized span (.sequence span (updates span v))) := by
  intro ho hbag hw
  have hreach : _ ⊆ (node () .call span kids).reach source := reachAll_arguments_subset_reach _
  have hoargs := orderlyAll_arguments ho
  obtain ⟨_, hes⟩ := hargs.leaves hshown hoargs hbag (hw.mono hreach)
  have hsame := hargs.sameUpdate hu hv
  obtain ⟨hspan, hin⟩ := span_mem_reach_of_call rfl ho
  rw [Walk.visit_update h]
  simp only [hu]
  refine hes.leaves hreach hspan hin rfl rfl ?_
  rw [← hes.texts hoargs (solid_arguments_of_call rfl ho) (hw.mono hreach) hsame span,
    ← text_sequence]
  rfl

theorem shown_updateStatement {e} (h : isUpdateCall e.unparen)
    (hargs : RewritesAll source w e.unparen.arguments os)
    (hu : update? e.unparen.arguments = some u) (hv : update? os = some v)
    (hshown : ∀ a ∈ e.unparen.arguments, Shown source bag a) :
    ShownAs source bag w (.node () .expression span [e])
      (if (updates span v).isEmpty then .gone (source.statementRange span) span
        else .node (.lines (source.lineIndent span.start)) .list span
          ((updates span v).map (statement span))) := by
  intro ho hbag hw
  have hat := orderlyAt_of_orderly ho
  simp only [orderlyAt, kind_node, kids_node, h, Bool.not_true, Bool.false_or,
    Bool.and_eq_true] at hat
  obtain ⟨⟨hfilled, hcontains⟩, hin⟩ := hat
  have hfilled : span.Filled := of_decide_eq_true hfilled
  have hwithin : e.unparen.Within (.node () .expression span [e]) :=
    unparen_within_statement () span e
  have hcall := hwithin.orderly ho
  have hreach : reachAll source e.unparen.arguments ⊆
      (node () .expression span [e]).reach source :=
    fun _ hr => hwithin.reach_subset (reachAll_arguments_subset_reach _ hr)
  have hoargs := orderlyAll_arguments hcall
  have hclear := hw.mono hreach
  obtain ⟨_, hes⟩ := hargs.leaves hshown hoargs hbag hclear
  have hsolid := solid_arguments_of_call (kind_of_isUpdateCall h) hcall
  have htexts := hes.texts hoargs hsolid hclear (hargs.sameUpdate hu hv) span
  have hranges : ranges source (node () .expression span [e]) =
      span.present ++ (source.statementRange span).present := by
    simp [Script.Tree.ranges, h]
  rw [Walk.visit_updateStatement h]
  simp only [hu, ← htexts, isEmpty_map]
  split
  · refine hes.leaves hreach ?_ ?_ rfl rfl rfl
    · rw [reach_eq, hranges]
      exact mem_append_left _
        (mem_append_right _ (mem_present.2 ⟨rfl, hfilled.of_contains hcontains⟩))
    · refine surrounds_iff.2 fun r hr => ?_
      obtain ⟨hr, hne⟩ := surrounds_iff.1 hin r hr
      refine ⟨Span.contains_trans hcontains hr, fun heq => hne ?_⟩
      exact Span.contains_antisymm (heq ▸ hcontains) hr
  · refine hes.leaves hreach ?_ hin rfl rfl ?_
    · rw [reach_eq, hranges]
      exact mem_append_left _ (mem_append_left _ (mem_present.2 ⟨rfl, hfilled⟩))
    · rw [pieces_lines, map_map, map_map]
      rfl

theorem LeavesAll.setArgument (hes : LeavesAll source w w' args os es)
    (ho : orderlyAll source bag args) (hsolid : args.all (solid source))
    (hw : Clear (reachAll source args) w.edits.edits) (hargs : RewritesAll source w args os) :
    (setArgument args os).map (fun p => (p.1, text source p.2)) =
      (args.head?.map spreadValue).map fun value =>
        (value.unparen.isFunction, w'.edits.render source value.span) := by
  rw [hes.edits_eq]
  cases hargs with
  | nil => rfl
  | @cons _ a _ o _ ha =>
    have hrender := Carried.render (Q := fun _ => True)
      ⟨⟨(a, o), by simp, ha.spreadValue.1⟩, w, trivial, ha.spreadValue.2⟩ ho hsolid hw hes.inner
    simp [setArgument, hrender]

theorem shown_setter {target} (hupdate : isUpdateCall (.node () .call span kids : Node) = false)
    (hbound : boundMethod? (.node () .call span kids : Node) = none)
    (h : setVariable? w.draft (.node () .call span kids : Node) = some target)
    (hargs : RewritesAll source w (arguments (.node () .call span kids : Node)) os)
    (hshown : ∀ a ∈ arguments (.node () .call span kids : Node), Shown source bag a) :
    ShownAs source bag w (.node () .call span kids) (.assignment span target
      (.setValue span target (setArgument (arguments (.node () .call span kids : Node)) os))) := by
  intro ho hbag hw
  have hreach : _ ⊆ (node () .call span kids).reach source := reachAll_arguments_subset_reach _
  have hoargs := orderlyAll_arguments ho
  obtain ⟨_, hes⟩ := hargs.leaves hshown hoargs hbag (hw.mono hreach)
  obtain ⟨hspan, hin⟩ := span_mem_reach_of_call rfl ho
  rw [Walk.visit_setter hupdate hbound h]
  refine hes.leaves hreach hspan hin rfl rfl ?_
  change [Edit.mk span (text source (.assignment span target _))] = _
  rw [text_setValue, hes.setArgument hoargs (solid_arguments_of_call rfl ho)
    (hw.mono hreach) hargs]

theorem solid_boundMethod {method} (h : boundMethod? n = some method)
    (ho : n.orderly source bag) : solid source method := by
  obtain ⟨member, hmember, -, hobject⟩ := exists_of_boundMethod? h
  have hat := orderlyAt_of_orderly ((calleeMember?_inside hmember).within.orderly ho)
  have hmem := memberObject?_mem_kids hobject
  fun_cases memberObject? member with
  | case1 =>
    simp only [orderlyAt, kind_node, Bool.and_eq_true] at hat
    exact all_eq_true.1 hat.2 _ hmem
  | case2 => simp [memberObject?] at hobject

theorem shown_bound {method} (hupdate : isUpdateCall (.node () .call span kids : Node) = false)
    (h : boundMethod? (.node () .call span kids : Node) = some method)
    (hmethod : Rewrites source w method o) (hshown : Shown source bag method) :
    ShownAs source bag w (.node () .call span kids)
      (.node (.word (text source o)) .list span [o]) := by
  intro ho hbag hw
  have hinside := boundMethod?_inside h
  have hreach : method.reach source ⊆ (node () .call span kids).reach source :=
    hinside.within.reach_subset
  have homethod := hinside.within.orderly ho
  obtain ⟨es, hes⟩ := hshown w o hmethod homethod hbag (hw.mono hreach)
  have htext : (w.visit source method).edits.render source method.span = text source o := by
    have hrender := (hes.inner method o .refl).render (hw.mono hreach) (solid_boundMethod h ho)
      homethod hmethod
    rwa [← hes.edits] at hrender
  have hat := orderlyAt_of_orderly ho
  simp only [orderlyAt, kind_node, Bool.and_eq_true] at hat
  have hspan : span ∈ (node () .call span kids).reach source :=
    (span_mem_reach_of_call rfl ho).1
  rw [Walk.visit_bound hupdate h]
  refine ⟨es ++ [⟨span, text source o⟩], .of_not_carries ?_ ?_ rfl⟩
  · rw [← htext, ← append_assoc, ← hes.edits]
    rfl
  · refine Agree.outer (fun g hg => hreach (hes.agree.left g hg)) hspan
      (fun _ hr => filled_of_mem_reach hr) fun g hg => ?_
    obtain ⟨k, hk, hmethodIn⟩ := hinside
    refine surrounds_iff.1 hat.1.2 _ ?_
    rw [reachAll_eq]
    exact mem_flatMap.2 ⟨k, hk, hmethodIn.reach_subset (hes.agree.left g hg)⟩

theorem shown (n : Node) : Shown source bag n := by
  induction n using inside_induction with
  | h n hinside =>
    intro w o h ho hbag hw
    have hkids : ∀ k ∈ n.kids, Shown source bag k := fun k hk => hinside k (inside_of_mem_kids hk)
    have hargs : ∀ m : Node, m.Within n → ∀ a ∈ m.arguments, Shown source bag a :=
      fun m hm a ha => hinside a ((inside_of_mem_arguments ha).trans_within hm)
    cases h with
    | kept h hall => exact shown_kept h hall hkids ho hbag hw
    | this =>
      rw [Walk.visit_this]
      refine ⟨[], .of_not_carries (by simp [Walk.withDraft]) ?_ rfl⟩
      rw [pieces_untouched]
      exact .nil
    | block hss => exact shown_block hss hkids ho hbag hw
    | @switchCase _ span test body _ _ htest hbody =>
      have hin : body ∈ (node () .switchCase span [test, body]).kids := by simp
      exact shown_switchCase htest hbody (hkids test (by simp))
        (fun s hs => hinside s ((inside_of_mem_kids hs).trans_within (.kid hin .self))) ho hbag hw
    | bag h hall => exact shown_bag h hall hkids ho hbag hw
    | member h => exact shown_member h ho hbag hw
    | declaration h => exact shown_declaration h ho hbag hw
    | update h hall hu hv => exact shown_update h hall hu hv (hargs _ .self) ho hbag hw
    | @updateDeferred _ span _ os h hall hu =>
      obtain ⟨es, hes⟩ := hall.leaves (hargs _ .self) (orderlyAll_arguments ho) hbag
        (hw.mono (reachAll_arguments_subset_reach _))
      obtain ⟨es', hedits, hagree⟩ := hes.defer h hall ho
      rw [Walk.visit_update h]
      simp only [hu]
      exact ⟨es', .of_not_carries hedits hagree rfl⟩
    | @updateStatement _ span e _ _ _ h hall hu hv hne =>
      have hwithin := unparen_within_statement () span e
      have hleaves := shown_updateStatement h hall hu hv (hargs _ hwithin) ho hbag hw
      rwa [if_neg (by simpa using hne)] at hleaves
    | @emptyUpdateStatement _ span e _ _ _ h hall hu hv hnil =>
      have hwithin := unparen_within_statement () span e
      have hleaves := shown_updateStatement h hall hu hv (hargs _ hwithin) ho hbag hw
      rwa [if_pos (by simpa using hnil)] at hleaves
    | @updateStatementDeferred _ span e _ h hall hu =>
      have hwithin := unparen_within_statement () span e
      have hcall := hwithin.orderly ho
      have hreach : reachAll source e.unparen.arguments ⊆ e.unparen.reach source :=
        reachAll_arguments_subset_reach _
      obtain ⟨_, hes⟩ := hall.leaves (hargs _ hwithin) (orderlyAll_arguments hcall) hbag
        (hw.mono fun _ hr => hwithin.reach_subset (hreach hr))
      obtain ⟨es', hedits, hagree⟩ := hes.defer h hall hcall
      rw [Walk.visit_updateStatement h]
      simp only [hu]
      refine ⟨es', .of_not_carries hedits ?_ rfl⟩
      rw [pieces_kept, pieces_wrap]
      exact hagree.mono hwithin.reach_subset
    | bound hupdate h hmethod =>
      exact shown_bound hupdate h hmethod (hinside _ (boundMethod?_inside h)) ho hbag hw
    | setter hupdate hbound h hall =>
      exact shown_setter hupdate hbound h hall (hargs _ .self) ho hbag hw

theorem solid_of_call (hn : n.kind = .call) (ho : n.orderly source bag) : solid source n := by
  obtain ⟨hspan, hin, -⟩ := orderly_call hn ho
  obtain ⟨⟨⟩, kind, _, _⟩ := n
  obtain rfl : kind = .call := hn
  rw [solid, Bool.and_eq_true, contains_iff_mem]
  refine ⟨hspan, encloses_iff.2 fun r hr => ?_⟩
  rw [reach_eq, mem_append] at hr
  rcases hr with hr | hr
  · rw [(mem_present.1 hr).1]
    exact Span.contains_self _
  · exact (surrounds_iff.1 hin r hr).1

/-- After its walk a solid node has the text of the code that is made of it. -/
theorem Rewrites.render (h : Rewrites source w n o) (ho : n.orderly source w.draft.scope.propsBag)
    (hsolid : solid source n) (hw : Clear (n.reach source) w.edits.edits) :
    (w.visit source n).edits.render source n.span = o.text source := by
  obtain ⟨es, hes⟩ := shown n w o h ho rfl hw
  have hrender : EditSet.render ⟨w.edits.edits ++ es⟩ source n.span = text source o :=
    (hes.inner n o .refl).render hw hsolid ho h
  rwa [← hes.edits] at hrender

theorem LeavesAll.render {text} (hes : LeavesAll source w inner args os es)
    (hspan : span.Filled) (hin : span.surrounds (reachAll source args))
    (hw : Clear (span :: reachAll source args) w.edits.edits)
    (hedits : w'.edits.edits = inner.edits.edits ++ [⟨span, text⟩]) :
    w'.edits.render source span = text := by
  have hfilled : ∀ r ∈ span :: reachAll source args, r.Filled :=
    forall_mem_cons.2 ⟨hspan, fun _ hr => filled_of_mem_reachAll hr⟩
  have hcontains : ∀ r ∈ span :: reachAll source args, span.contains r :=
    forall_mem_cons.2 ⟨Span.contains_self _, fun r hr => (surrounds_iff.1 hin r hr).1⟩
  have hagree : Agree source (span :: reachAll source args) (es ++ [⟨span, text⟩]) [⟨span, text⟩] :=
    .outer (fun g hg => mem_cons_of_mem _ (hes.agree.left g hg)) (mem_cons_self ..) hfilled
      fun g hg => surrounds_iff.1 hin _ (hes.agree.left g hg)
  have hold : ∀ e ∈ w.edits.edits, span.contains e.span = false :=
    hw.not_contains (mem_cons_self ..)
  calc w'.edits.render source span
      = EditSet.render ⟨w.edits.edits ++ (es ++ [⟨span, text⟩]) ++ []⟩ source span := by
        rw [append_nil, ← append_assoc, ← hes.edits, ← hedits]
    _ = EditSet.render ⟨w.edits.edits ++ [⟨span, text⟩] ++ []⟩ source span :=
        hagree.same span _ [] hcontains hw (by simp [Clear])
    _ = EditSet.render ⟨[⟨span, text⟩]⟩ source span := EditSet.render_local hold (by simp)
    _ = text := EditSet.render_whole _ _

/-- A statement of updates has the text of its lines, though the range that is dropped with it may
be wider. -/
theorem Rewrites.render_lines {indent} (h : Rewrites source w n o)
    (hlines : o.label = .lines indent) (ho : n.orderly source w.draft.scope.propsBag)
    (hw : Clear (n.reach source) w.edits.edits) :
    (w.visit source n).edits.render source n.span = o.text source := by
  cases h with
  | @updateStatement _ span e _ u v h hargs hu hv hne =>
    have hat := orderlyAt_of_orderly ho
    simp only [orderlyAt, kind_node, kids_node, span_node, h, Bool.not_true, Bool.false_or,
      Bool.and_eq_true] at hat
    obtain ⟨⟨hfilled, -⟩, hin⟩ := hat
    have hwithin : e.unparen.Within (.node () .expression span [e]) :=
      unparen_within_statement () span e
    have hcall := hwithin.orderly ho
    have hreach : span :: reachAll source e.unparen.arguments ⊆
        (node () .expression span [e]).reach source := by
      refine cons_subset.2 ⟨?_, fun _ hr =>
        hwithin.reach_subset (reachAll_arguments_subset_reach _ hr)⟩
      rw [reach_eq]
      simp [Script.Tree.ranges, h, mem_present, of_decide_eq_true hfilled]
    have hclear := hw.mono hreach
    have hargsClear := hclear.mono (subset_cons_self ..)
    obtain ⟨_, hes⟩ := hargs.leaves (fun a _ => shown a) (orderlyAll_arguments hcall) rfl hargsClear
    have hsolid := solid_arguments_of_call (kind_of_isUpdateCall h) hcall
    have htexts := hes.texts (orderlyAll_arguments hcall) hsolid hargsClear
      (hargs.sameUpdate hu hv) span
    refine hes.render (of_decide_eq_true hfilled) hin hclear ?_
    rw [Walk.visit_updateStatement h]
    simp only [hu, ← htexts, isEmpty_map, List.isEmpty_iff, hne]
    rw [text_lines, map_map, map_map]
    rfl
  | this => simp [untouched, relabel_node, label] at hlines
  | updateDeferred =>
    unfold deferred at hlines
    split at hlines
    · rw [label_withArguments] at hlines
      simp at hlines
    · simp [name, label] at hlines
  | _ => simp [name, gone, parenthesized, assignment, label] at hlines

theorem render_ofNode {draft} (h : Rewrites source { draft } n o)
    (ho : n.orderly source draft.scope.propsBag) (hsolid : solid source n) :
    (render source (Part.ofNode source n) draft).1 = o.text source := by
  rw [← h.render ho hsolid (by simp [Clear, EditSet.empty])]
  exact congrArg (EditSet.render _ source) (span_relabel _ n)

end

end Sveltify
