import Sveltify.Proofs.Component.Operands
import Sveltify.Proofs.Component.Spelling
import Sveltify.Proofs.Script.Quoted

/-! The variable block of a generated script as code. The names of variables are words of the source
or keys in quotes, and those of style constants are words of an import. What is assigned to is
declared there. The value of a style constant is printed between quotes as it is. -/

namespace Sveltify

open List
open Script (Node Kind)
open Script.Tree ImportOutcome
open Text (isName)

namespace Script

/-! Words. -/

def forbiddenWords : List String :=
  plainWords ++ Grammar.strictWords ++ ["eval", "arguments"]

namespace WordScan

theorem scanFrom_continue {s word} (h : s.all Text.isIdContinue) (hword : word ≠ [])
    (offset : Nat) : Cursor.scanFrom step { name := word } offset s =
      ({ name := s.reverse ++ word }, ⟨[], offset + Text.byteSize s⟩) := by
  induction s generalizing word offset with
  | nil => rfl
  | cons c s ih =>
    obtain ⟨hc, hs⟩ := Bool.and_eq_true_iff.1 h
    have hslash : c ≠ '\\' := by
      rintro rfl
      exact absurd hc (by decide +kernel)
    have hstep : step { name := word } c = some { name := c :: word } := by
      simp [step, push, hslash, hword, hc]
    rw [Cursor.scanFrom, hstep]
    dsimp only
    rw [ih hs (by simp)]
    simp [Nat.add_assoc]

theorem readWord_of_isName {s} (h : isName s) :
    Token.readWord (.ofText s) = some ({ name := s.reverse }, ⟨[], Text.byteSize s⟩) := by
  cases s with
  | nil => simp [isName] at h
  | cons c s =>
    obtain ⟨hc, hs⟩ := Bool.and_eq_true_iff.1 h
    have hslash : c ≠ '\\' := by
      rintro rfl
      exact absurd hc (by decide +kernel)
    have hstep : step {} c = some { name := [c] } := by
      simp [step, push, hslash, hc]
    have hscan : Cursor.scan step {} (.ofText (c :: s)) =
        ({ name := (c :: s).reverse }, ⟨[], Text.byteSize (c :: s)⟩) := by
      rw [Cursor.scan, Cursor.ofText, Cursor.scanFrom, hstep]
      dsimp only
      rw [scanFrom_continue hs (by simp)]
      simp
    rw [Token.readWord, hscan]
    simp

end WordScan

theorem isTarget_of_isName {name} (h : isName name.toList)
    (hword : name ∉ forbiddenWords) : isTarget name := by
  simp only [forbiddenWords, mem_append, mem_cons, not_or] at hword
  obtain ⟨⟨hplain, hstrict⟩, heval, harguments⟩ := hword
  simp [isTarget, isVariable, WordScan.readWord_of_isName h, hplain, hstrict, heval, harguments]

end Script

/-! Declarations and the symbols that they come from. -/

theorem SymbolTable.cases_of_mem_declarations {x} {t : SymbolTable}
    (h : x ∈ t.propDeclarations ++ t.internalDeclarations) :
    (x.keyword ≠ .const ∧ (t.isProp x.name ∨ t.isState x.name ∨ x.name ∈ t.refs)) ∨
      ∃ c ∈ t.styleConstants, x = ⟨.const, c.1, some s!"'{c.2}'"⟩ := by
  have hknown {s : Symbol} {symbols : List Symbol} (hs : s ∈ symbols) :
      Symbol.known s.name symbols := any_eq_true.2 ⟨s, hs, by simp⟩
  rcases mem_append.1 h with h | h
  · obtain ⟨s, hs, rfl⟩ := mem_map.1 (Declaration.mem_sort.1 h)
    exact .inl ⟨by simp, .inl (hknown hs)⟩
  · have hcandidate := Declaration.mem_of_mem_distinct (Declaration.mem_sort.1 h)
    simp only [internalCandidates, mem_append, mem_map] at hcandidate
    rcases hcandidate with ((⟨c, hc, rfl⟩ | ⟨s, hs, rfl⟩) | ⟨_, hname, rfl⟩) | ⟨s, hs, rfl⟩
    · exact .inr ⟨c, hc, rfl⟩
    · exact .inl ⟨by simp, .inr (.inl (by simp [isState, hknown hs]))⟩
    · exact .inl ⟨by simp, .inr (.inr hname)⟩
    · exact .inl ⟨by simp, .inr (.inl (by simp [isState, hknown hs]))⟩

/-! Style constants. -/

/-- The constant is one that the import names, with the value that the style module exports. -/
def StyleImport.Gives (style : StyleImport) (constant : String × String) : Prop :=
  (∃ exported, (constant.1, exported) ∈ style.named) ∧
    style.exportedValue? constant.1 = some constant.2.toList

def Draft.Constants (style : StyleImport) (d d' : Draft) : Prop :=
  ∀ c ∈ d'.symbols.styleConstants, c ∈ d.symbols.styleConstants ∨ style.Gives c

section

open Conversion

theorem obeys_constants (source : Source) (style : StyleImport) (markup : Text) :
    Obeys (Draft.Constants style) (declareStyleConstants source style markup) := by
  have : Std.Refl (Draft.Constants style) := ⟨fun _ _ h => .inl h⟩
  have : IsTrans Draft (Draft.Constants style) :=
    ⟨fun _ _ _ h h' c hc => (h' c hc).elim (h c) .inr⟩
  refine .of_forM fun entry hentry d => ?_
  have hnamed : ∃ exported, (entry.1, exported) ∈ style.named := ⟨entry.2, hentry⟩
  change d.Constants style (StateT.run (ite _ _ _ : Conversion Unit) d).2
  split
  · split
    · next value hvalue =>
      change ∀ c ∈ (d.symbols.addStyleConstant entry.1 (String.ofList value)).styleConstants, _
      intro c hc
      unfold SymbolTable.addStyleConstant at hc
      split at hc
      · exact .inl hc
      · rcases mem_append.1 hc with hc | hc
        · exact .inl hc
        · obtain rfl := mem_singleton.1 hc
          exact .inr ⟨hnamed, by simpa using hvalue⟩
    · exact fun c hc => .inl hc
  · exact fun c hc => .inl hc

theorem constants_convertItems (setting : Markup.Setting) (items : List Part)
    (component : LocatedComponent Visit) (d : Draft) {c}
    (hc : c ∈ ((convertItems setting items component).run d).2.symbols.styleConstants) :
    c ∈ ((collectItems setting items component).run d).2.settled.symbols.styleConstants ∨
      ∃ style, setting.style = some style ∧ style.Gives c := by
  rw [convertItems_eq] at hc
  cases hstyle : setting.style with
  | none =>
    rw [hstyle] at hc
    exact .inl hc
  | some style =>
    rw [hstyle] at hc
    exact (obeys_constants setting.source style _ _ c hc).imp_right fun h => ⟨style, rfl, h⟩

end

variable {declaration : ImportDeclaration} {s : ImportSetting}

theorem processImports_keeps {P : ImportOutcome → Prop} {items outcome} (h : processImports s items = .ok outcome) (hempty : P {})
    (hadd : ∀ before after item declaration, item ∈ items →
      ImportDeclaration.ofNode? item = some declaration → P before →
      add s before declaration = .ok after → P after) : P outcome := by
  have hfold {declarations : List ImportDeclaration} {before : ImportOutcome} (hbefore : P before)
      (hall : ∀ x ∈ declarations, ∃ item ∈ items, ImportDeclaration.ofNode? item = some x)
      (h : declarations.foldlM (add s) before = .ok outcome) : P outcome := by
    induction declarations generalizing before with
    | nil =>
      obtain rfl := Except.ok.inj h
      exact hbefore
    | cons first _ ih =>
      rw [foldlM_cons] at h
      obtain ⟨item, hitem, hfirst⟩ := hall first (by simp)
      cases hnext : add s before first with
      | error => simp [hnext, bind, Except.bind] at h
      | ok =>
        rw [hnext] at h
        exact ih (hadd _ _ item first hitem hfirst hbefore hnext) (fun x hx => hall x (by simp [hx])) h
  exact hfold hempty (fun x hx => by simpa using hx) h

theorem Binding.calls_of_ofNode? {n name exported}
    (h : Binding.ofNode? n = some (.named name exported)) : n.Calls name := by
  unfold Binding.ofNode? at h
  split at h
  · simp at h
  · simp at h
  · next local' _ _ imported =>
    obtain rfl : local' = name := by
      split at h <;> exact (Binding.named.inj (Option.some.inj h)).1
    exact .ident mem_cons_self rfl
  · simp at h

theorem ImportSetting.named_of_loadStyle {style} (h : s.loadStyle declaration = .ok style) {entry}
    (hentry : entry ∈ style.named) : .named entry.1 entry.2 ∈ declaration.bindings := by
  unfold loadStyle at h
  dsimp only at h
  repeat' split at h
  all_goals simp only [pure, Except.pure, reduceCtorEq,
    Except.ok.injEq] at h
  subst h
  obtain ⟨binding, hbinding, hname⟩ := mem_filterMap.1 hentry
  cases binding with
  | whole => simp at hname
  | named => exact Option.some.inj hname ▸ hbinding

theorem ImportOutcome.style_of_add {before after} (h : add s before declaration = .ok after) :
    after.style = before.style ∨
      ∃ style, s.loadStyle declaration = .ok style ∧ after.style = some style := by
  unfold add at h
  dsimp only at h
  split at h
  · exact .inl (Except.ok.inj h ▸ rfl)
  split at h
  · split at h
    · simp at h
    · cases hload : s.loadStyle declaration with
      | error => simp [hload] at h
      | ok style =>
        rw [hload] at h
        exact .inr ⟨style, rfl, Except.ok.inj h ▸ rfl⟩
  · split at h <;> exact .inl (Except.ok.inj h ▸ rfl)

theorem ImportDeclaration.exists_of_mem_bindings {item}
    (h : ofNode? item = some declaration) {binding}
    (hbinding : binding ∈ declaration.bindings) :
    ∃ n : Node, n.Within item ∧ Binding.ofNode? n = some binding := by
  unfold ofNode? at h
  split at h
  · obtain rfl := Option.some.inj h
    obtain ⟨n, hn, hof⟩ := mem_filterMap.1 hbinding
    exact ⟨n, .kid mem_cons_self (.kid hn .self), hof⟩
  · simp at h

theorem calls_of_processImports {items outcome} (h : processImports s items = .ok outcome) :
    ∀ style, outcome.style = some style → ∀ entry ∈ style.named,
      ∃ item ∈ items, ∃ n : Node, n.Within item ∧ n.Calls entry.1 := by
  refine processImports_keeps (P := fun outcome => ∀ style, outcome.style = some style →
    ∀ entry ∈ style.named, ∃ item ∈ items, ∃ n : Node, n.Within item ∧ n.Calls entry.1) h ?_ ?_
  · simp
  intro _ _ item _ hitem hof hbefore hadd style hstyle entry hentry
  rcases style_of_add hadd with hsame | ⟨loaded, hload, hloaded⟩
  · exact hbefore style (hsame ▸ hstyle) entry hentry
  · obtain rfl : loaded = style := Option.some.inj (hloaded.symm.trans hstyle)
    have hbinding := ImportSetting.named_of_loadStyle hload hentry
    obtain ⟨n, hn, hnamed⟩ := ImportDeclaration.exists_of_mem_bindings hof hbinding
    exact ⟨item, hitem, n, hn, Binding.calls_of_ofNode? hnamed⟩

/-! Assignments. -/

/-- The code has an assignment to the name that the source does not have. -/
def Output.Assigns (o : Output) (name : String) : Prop :=
  ∃ q : Output, q.Within o ∧ q.label = .made ∧ (∃ operator, q.kind = .assign operator) ∧
    ∃ target rest, q.kids = target :: rest ∧ target.label = .word name.toList

theorem isState_of_assigns {source d e} {U : Node → Prop} {n o name} (h : AllStem source d e U n o) (hname : o.Assigns name) :
    e.symbols.isState name := by
  obtain ⟨q, hq, hlabel, ⟨operator, hkind⟩, _, _, hkids, htarget⟩ := hname
  cases h q hq with
  | assignment =>
    obtain ⟨rfl, -⟩ := List.cons.inj hkids
    have heq : String.toList _ = name.toList := Layout.word.inj htarget
    rwa [← String.toList_inj.1 heq]
  | glue hglue =>
    obtain rfl : _ = Kind.assign operator := hkind
    cases hglue
  | untouched => simp [Output.label_untouched] at hlabel
  | next => simp at hkind
  | _ => simp [label, Output.name, Output.gone] at hlabel

namespace Transformation

variable {files : FileSystem} {text : String} {options : Options}

/-- How the name of a variable is spelled: it is one that a variable may have, or a word that is
forbidden, or a key in quotes, or the code of an attribute that refers to an element. -/
def Spells (t : Transformation files text options) (name : String) : Prop :=
  Script.isTarget name ∨ name ∈ Script.forbiddenWords ∨
    (∃ n : Node, n.Within t.module ∧ n.Quotes name) ∨
    (name ∈ t.draft.symbols.refs ∧ Markup.isIdentifier name.toList)

variable (t : Transformation files text options)

theorem spells_of_calls {name} {n : Node} (hn : n.Within t.module) (h : n.Calls name) :
    t.Spells name := by
  rcases (t.placed_of_within hn).names name h with hname | hquotes
  · by_cases hword : name ∈ Script.forbiddenWords
    · exact .inr (.inl hword)
    · exact .inl (Script.isTarget_of_isName hname hword)
  · exact .inr (.inr (.inl ⟨n, hn, hquotes⟩))

theorem gives_of_mem_styleConstants {c} (hc : c ∈ t.draft.symbols.styleConstants) :
    ∃ style, t.imports.style = some style ∧ style.Gives c := by
  refine (constants_convertItems t.setting t.items t.component {} hc).resolve_left fun hmem => ?_
  obtain ⟨_, hsettled, -⟩ := t.collected.settled_eq
  change c ∈ t.collected.settled.symbols.styleConstants at hmem
  rw [hsettled] at hmem
  exact absurd (t.named.constants ▸ hmem) not_mem_nil

theorem spells_of_mem_declarations {x : Declaration} (hx : x ∈ t.document.script.declarations) :
    t.Spells x.name := by
  have hfinishes := t.finishes
  have hcalled {name : String} (h : ∃ n : Node, n.Within t.module ∧ n.Calls name) :
      t.Spells name := h.elim fun _ hn => t.spells_of_calls hn.1 hn.2
  rcases SymbolTable.cases_of_mem_declarations hx with ⟨-, hprop | _ | href⟩ | ⟨c, hc, rfl⟩
  · obtain ⟨s, hs, hname⟩ := Symbol.exists_of_known hprop
    rw [hfinishes.props] at hs
    obtain ⟨props, hsettled, hsub⟩ := t.collected.settled_eq
    rw [hsettled] at hs
    refine hcalled (t.named.props _ (any_eq_true.2 ⟨s, hsub s hs, ?_⟩))
    simp [hname]
  · refine hcalled (t.named.state _ ?_)
    rwa [SymbolTable.isState, ← hfinishes.initialState, ← hfinishes.state]
  · rcases t.named.refs _ (hfinishes.refs ▸ href) with hname | hcode
    · exact hcalled hname
    · exact .inr (.inr (.inr ⟨href, hcode⟩))
  · obtain ⟨style, hstyle, ⟨_, hnamed⟩, -⟩ := t.gives_of_mem_styleConstants hc
    obtain ⟨_, hitem, n, hn, hname⟩ := calls_of_processImports t.processes style hstyle _ hnamed
    exact t.spells_of_calls (hn.trans (.kid hitem .self)) hname

def quotedNote : FileSystem :=
  { entries := [(["a.styles.js".toList],
      .file (.text "export const NOTE = \"it's\";\nexport default css\x60\x60;\n"))] }

end Transformation

end Sveltify
