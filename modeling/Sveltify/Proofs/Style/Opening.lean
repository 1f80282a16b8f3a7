import Sveltify.Proofs.Style.Lossless
import Sveltify.Proofs.Style.Selector

/-! Lines that open a rule. A printed selector line ends with the brace that opens its rule; what it
opens before that shows in its characters, of which only blanks and semicolons are lost. -/

namespace Sveltify.Style

open List
open Text (trim)
open Scanner

namespace Token

/-! ### Characters in tokens -/

def isOpen : Token → Bool
  | .open _ => true
  | _ => false

/-- Nothing but blanks and semicolons is lost between the tokens of a text. -/
theorem countP_written_ofText {p} (hblank : ∀ c, Text.isBlank c → p c = false)
    (hsemicolon : p ';' = false) (t : Text) :
    ((ofText t).flatMap written).countP p = t.countP p := by
  rw [← countP_solid hblank hsemicolon, solid_ofText, countP_solid hblank hsemicolon]

variable {t : Text}

theorem close_not_mem_ofText (h : hides (· == '\x7d') {} t) : .close ∉ ofText t := by
  intro hmem
  induction t using braces_induction with
  | hides t ht =>
    rw [ofText_of_hides ht] at hmem
    obtain ⟨_, -, htext⟩ := mem_map.mp hmem
    cases htext
  | opens a b ha hrun ih =>
    have hadvance : advance {} '\x7b' = {} := by decide
    rw [hides_append, Bool.and_eq_true, hrun] at h
    rw [ofText_open b ha hrun] at hmem
    refine ih ?_ (by simpa using hmem)
    simpa [hides, hadvance] using h.2
  | closes a b _ hrun =>
    rw [hides_append, hrun] at h
    simp [hides] at h

theorem countP_isOpen_declarations (t : Text) : (declarations t).countP isOpen = 0 := by
  rw [countP_eq_zero]
  intro _ htoken
  obtain ⟨_, -, rfl⟩ := mem_map.mp htoken
  simp [isOpen]

variable {u : Text}

theorem concat_inj_of_cons {a init c d e} (h : a ++ d :: init.concat c = u ++ [e]) :
    a ++ d :: init = u ∧ c = e := by
  have hsplit : a ++ d :: init.concat c = (a ++ d :: init) ++ [c] := by simp
  rw [hsplit] at h
  obtain ⟨hu, hc⟩ := append_inj' h (by simp)
  exact ⟨hu, by simpa using hc⟩

/-- A text that ends with its only opening brace at top level opens one rule at most. -/
theorem countP_isOpen_ofText (ht : t = u ++ ['\x7b']) (h : hides (· == '\x7b') {} u) :
    (ofText t).countP isOpen ≤ 1 := by
  induction t using braces_induction generalizing u with
  | hides t hhides =>
    rw [ofText_of_hides hhides, countP_isOpen_declarations]
    omega
  | opens a b ha hrun ih =>
    rcases eq_nil_or_concat b with rfl | ⟨init, c, rfl⟩
    · rw [ofText_open [] ha hrun, ofText_nil]
      simp [isOpen]
    · obtain ⟨hu, -⟩ := concat_inj_of_cons ht
      rw [← hu, hides_append, hrun] at h
      simp [hides] at h
  | closes a b ha hrun ih =>
    rcases eq_nil_or_concat b with rfl | ⟨init, c, rfl⟩
    · simp at ht
    · obtain ⟨hu, rfl⟩ := concat_inj_of_cons ht
      have hadvance : advance {} '\x7d' = {} := by decide
      rw [← hu, hides_append, Bool.and_eq_true, hrun] at h
      have hinit : hides (· == '\x7b') {} init := by
        simpa [hides, hadvance] using h.2
      have hrest := ih (by rw [concat_eq_append]) hinit
      rw [ofText_close _ ha hrun, countP_append, countP_isOpen_declarations]
      simpa [isOpen] using hrest

/-- A text that ends with an opening brace and declares nothing ends by opening a rule. -/
theorem exists_last_open (ht : t = u ++ ['\x7b']) (hnone : (ofText t).flatMap texts = []) :
    ∃ init head, ofText t = init ++ [.open head] := by
  induction t using braces_induction generalizing u with
  | hides t hhides =>
    have hsolid := solid_declarations t
    rw [ofText_of_hides hhides, flatMap_texts_declarations] at hnone
    rw [declarations, hnone, ht] at hsolid
    simp [show solid ['\x7b'] = ['\x7b'] by decide] at hsolid
  | opens a b ha hrun ih =>
    rw [ofText_open b ha hrun] at hnone ⊢
    rcases eq_nil_or_concat b with rfl | ⟨init, c, rfl⟩
    · exact ⟨[], trim a, rfl⟩
    · obtain ⟨-, rfl⟩ := concat_inj_of_cons ht
      obtain ⟨before, head, hlast⟩ :=
        ih (by rw [concat_eq_append]) (by simpa [texts] using hnone)
      exact ⟨.open (trim a) :: before, head, by rw [hlast, cons_append]⟩
  | closes a b ha hrun ih =>
    rw [ofText_close b ha hrun] at hnone ⊢
    rcases eq_nil_or_concat b with rfl | ⟨init, c, rfl⟩
    · simp at ht
    · obtain ⟨-, rfl⟩ := concat_inj_of_cons ht
      have hrest : (ofText (init.concat '\x7b')).flatMap texts = [] := by
        simp only [flatMap_append, flatMap_cons, append_eq_nil_iff] at hnone
        exact hnone.2.2
      obtain ⟨before, head, hlast⟩ := ih (by rw [concat_eq_append]) hrest
      exact ⟨declarations a ++ .close :: before, head, by rw [hlast]; simp⟩

theorem trim_openLine_eq (depth : Nat) (head : Text) :
    trim (openLine depth head) =
      Text.trimStart (pad depth ++ head ++ [' ']) ++ ['\x7b'] := by
  rw [openLine, append_cons, Text.trim_concat _ (by decide)]

theorem ofLine_openLine_eq (depth : Nat) (head : Text) :
    ofLine (openLine depth head) = ofText (trim (openLine depth head)) := by
  have htrim := trim_openLine_eq depth head
  exact ofLine_of_braces (by simp [htrim]) (inlineRule_of_last (by simp [htrim]))

end Token

def Rule.Tangled (rule : Rule) : Prop :=
  hides (· == '\x7b') {} rule.selector = false ∧
    hides (· == '\x7d') {} rule.selector = false

instance (rule : Rule) : Decidable rule.Tangled :=
  inferInstanceAs (Decidable (_ ∧ _))

namespace Token

variable {head : Text}

theorem hides_pad {p} (hp : p ' ' = false) (depth : Nat)
    (h : hides p {} head) : hides p {} (pad depth ++ head ++ [' ']) := by
  have hpad : ∀ c ∈ pad depth, Text.isBlank c := fun _ => blank_of_mem_pad
  have hhides : hides p {} (pad depth) :=
    hides_of_forall {} fun c hc => by rw [eq_of_mem_replicate hc, hp]
  rw [hides_append, hides_append, hhides, regular_start.run_blanks hpad, h]
  simp [hides, hp]

theorem exists_map_open {tokens : List Token} (h : ∀ token ∈ tokens, ∃ head, token = .open head) :
    ∃ heads : List Text, tokens = heads.map .open := by
  induction tokens with
  | nil => exact ⟨[], rfl⟩
  | cons token _ ih =>
    obtain ⟨head, rfl⟩ := h token (by simp)
    obtain ⟨heads, rfl⟩ := ih fun t ht => h t (by simp [ht])
    exact ⟨head :: heads, rfl⟩

/-- The line of a selector that is not tangled and that declares nothing: it opens rules only, or it
closes some and then opens one. -/
theorem ofLine_openLine_cases {rule : Rule} (htangled : ¬rule.Tangled) (depth : Nat)
    (hnone : (ofLine (openLine depth rule.selector)).flatMap texts = []) :
    (∃ heads : List Text, heads ≠ [] ∧ ofLine (openLine depth rule.selector) = heads.map .open) ∨
      ∃ n head, 0 < n ∧
        ofLine (openLine depth rule.selector) = List.replicate n .close ++ [.open head] := by
  have htrim := trim_openLine_eq depth rule.selector
  rw [ofLine_openLine_eq] at hnone ⊢
  obtain ⟨init, head, hlast⟩ := exists_last_open htrim hnone
  have hkind : ∀ token ∈ ofText (trim (openLine depth rule.selector)),
      (∃ head, token = .open head) ∨ token = .close := by
    intro token htoken
    rcases mem_ofText_cases htoken with ⟨text, rfl⟩ | hopen | hclose
    · have htext : trim text ∈ ([] : List Text) := by
        rw [← hnone]
        exact mem_flatMap.mpr ⟨_, htoken, by simp [texts]⟩
      simp at htext
    · exact .inl hopen
    · exact .inr hclose
  by_cases hclose : Token.close ∈ ofText (trim (openLine depth rule.selector))
  · right
    have hbare : hides (· == '\x7d') {} rule.selector = false := by
      by_contra hhides
      have hpad := hides_trimStart (hides_pad (p := (· == '\x7d')) (by decide) depth
        (by simpa using hhides))
      refine close_not_mem_ofText ?_ hclose
      rw [htrim, hides_append, hpad]
      simp [hides]
    have hopen : hides (· == '\x7b') {} rule.selector := by
      by_contra hhides
      exact htangled ⟨by simpa using hhides, hbare⟩
    have hcount := countP_isOpen_ofText htrim
      (hides_trimStart (hides_pad (by decide) depth hopen))
    rw [hlast] at hcount hkind hclose ⊢
    have hinit : ∀ token ∈ init, token = .close := by
      intro token htoken
      rcases hkind token (mem_append_left _ htoken) with ⟨_, rfl⟩ | htoken
      · have hpos : 0 < init.countP isOpen := countP_pos_iff.mpr ⟨_, htoken, rfl⟩
        rw [countP_append, countP_singleton, isOpen, if_pos rfl] at hcount
        omega
      · exact htoken
    refine ⟨init.length, head, length_pos_iff.mpr ?_, ?_⟩
    · rintro rfl
      simp at hclose
    · rw [eq_replicate_of_mem hinit, length_replicate]
  · left
    obtain ⟨heads, hheads⟩ := exists_map_open fun token htoken =>
      (hkind token htoken).resolve_right fun h => hclose (h ▸ htoken)
    refine ⟨heads, ?_, hheads⟩
    rintro rfl
    simp [hlast] at hheads

/-! ### The heads of a selector line -/

/-- A text that ends with an opening brace and opens one rule has nothing else. -/
theorem head_of_ofText {t u} (ht : t = u ++ ['\x7b']) (h : ofText t = [.open head]) :
    head = trim u := by
  induction t using braces_induction with
  | hides t hhides =>
    rw [ofText_of_hides hhides] at h
    have hmem : Token.open head ∈ declarations t := by simp [h]
    obtain ⟨_, -, htext⟩ := mem_map.mp hmem
    cases htext
  | opens a b ha hrun =>
    rw [ofText_open b ha hrun, List.cons.injEq, Token.open.injEq] at h
    obtain ⟨rfl, hnone⟩ := h
    rcases eq_nil_or_concat b with rfl | ⟨_, c, rfl⟩
    · rw [(append_inj' ht rfl).1]
    · obtain ⟨-, rfl⟩ := concat_inj_of_cons ht
      obtain ⟨_, _, hlast⟩ := exists_last_open concat_eq_append (by rw [hnone]; rfl)
      rw [hnone] at hlast
      simp at hlast
  | closes a b ha hrun =>
    rw [ofText_close b ha hrun] at h
    have hmem : Token.close ∈ declarations a ++ .close :: ofText b := by simp
    simp [h] at hmem

variable {selector : Text}

theorem head_of_openLine (h : ofLine (openLine 0 selector) = [.open head]) :
    head = trim selector := by
  rw [ofLine_openLine_eq] at h
  rw [head_of_ofText (trim_openLine_eq 0 selector) h, Text.trim_trimStart]
  exact Text.trim_append_blank selector (by decide)

theorem sum_countP_heads {p} (hp : Kept p) (hsemicolon : p ';' = false)
    {heads : List Text} (h : ofLine (openLine 0 selector) = heads.map .open) :
    (heads.map (List.countP p)).sum + heads.length * (p '\x7b').toNat =
      selector.countP p + (p '\x7b').toNat := by
  have hwritten : ∀ texts : List Text, ((texts.map Token.open).flatMap written).countP p =
      (texts.map (List.countP p)).sum + texts.length * (p '\x7b').toNat := by
    intro texts
    induction texts with
    | nil => simp
    | cons _ _ ih =>
      simp only [map_cons, flatMap_cons, countP_append, ih, written, countP_singleton]
      cases p '\x7b' <;> simp
      omega
  have hsum := countP_written_ofText hp.blank hsemicolon (trim (openLine 0 selector))
  rw [← ofLine_openLine_eq, h, hwritten, Text.countP_trim hp.blank] at hsum
  rw [hsum]
  have hspace := hp.space
  cases hbrace : p '\x7b' <;> simp [openLine, pad, hspace, hbrace]

theorem length_heads {heads alternatives : List Text}
    (h : ofLine (openLine 0 selector) = heads.map .open) (hhead : ∀ head ∈ heads, IsHead head)
    (hjoin : joinHeads heads.reverse = some alternatives) (hne : alternatives ≠ [])
    (hselector : Text.joinWith [',', ' '] alternatives = selector) : heads.length = 1 := by
  have hopeners := sum_countP_heads kept_isOpener (by decide) h
  have hbraces := sum_countP_heads kept_isBrace (by decide) h
  have htotal : ∀ {p : Char → Bool}, Kept p → total p alternatives = selector.countP p := by
    intro p hp
    rw [total, ← hp.countP_joinWith, hselector]
  have hsum : ∀ p : Char → Bool, (heads.reverse.map (List.countP p)).sum =
      (heads.map (List.countP p)).sum := by
    intro p
    rw [map_reverse, sum_reverse]
  obtain ⟨-, hrepeat⟩ := total_joinHeads kept_isOpener (by decide) kept_isBrace (by decide)
    (fun head hmem hzero => countP_of_hides hzero (hhead head (by simpa using hmem)).hidden)
    hjoin hne
  rw [htotal kept_isOpener, htotal kept_isBrace, hsum, hsum] at hrepeat
  -- no quote or bracket is repeated, so no brace is, and each head but one would cost a brace
  have hopener : (isOpener '\x7b').toNat = 0 := by decide
  have hbrace : (isBrace '\x7b').toNat = 1 := by decide
  rw [hopener] at hopeners
  rw [hbrace] at hbraces
  omega

end Token

end Sveltify.Style
