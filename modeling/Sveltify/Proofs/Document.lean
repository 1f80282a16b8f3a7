import Sveltify.Document
import Sveltify.Proofs.Text.Layout

/-! Where the texts of a document stand in it. A document is laid out by lines: its texts follow each
other in a fixed order, and each keeps the content of its lines. -/

namespace Sveltify

open Text

def contentOf (texts : List String) : List Text :=
  texts.flatMap fun text => contentLines text.toList

@[simp] theorem contentOf_nil : contentOf [] = [] :=
  rfl

@[simp] theorem contentOf_cons (text : String) (texts : List String) :
    contentOf (text :: texts) = contentLines text.toList ++ contentOf texts :=
  rfl

@[simp] theorem contentOf_append (texts others : List String) :
    contentOf (texts ++ others) = contentOf texts ++ contentOf others :=
  List.flatMap_append

theorem contentOf_filter (texts : List String) :
    contentOf (texts.filter (!isBlankText ·.toList)) = contentOf texts := by
  induction texts with
  | nil => rfl
  | cons text _ ih =>
    by_cases hblank : isBlankText text.toList
    · simp [hblank, ih, contentLines_of_isBlankText hblank]
    · simp [hblank, ih]

theorem contentLines_intercalate {sep : String}
    (hsep : ∀ s t : Text, contentLines (s ++ sep.toList ++ t) = contentLines s ++ contentLines t)
    (texts : List String) : contentLines (sep.intercalate texts).toList = contentOf texts := by
  induction texts with
  | nil => rfl
  | cons _ texts ih =>
    by_cases hempty : texts = []
    · subst hempty
      simp
    · rw [String.intercalate_cons_of_ne_nil hempty, String.toList_append, String.toList_append, hsep,
        ih, contentOf_cons]

theorem contentLines_lines (texts : List String) :
    contentLines ("\n".intercalate texts).toList = contentOf texts := by
  apply contentLines_intercalate
  intro s t
  rw [← contentLines_append]
  simp

theorem contentLines_blocks (texts : List String) :
    contentLines ("\n\n".intercalate texts).toList = contentOf texts := by
  apply contentLines_intercalate
  intro s t
  have hblank : contentLines ('\n' :: t) = contentLines t := contentLines_append [] t
  rw [← hblank, ← contentLines_append]
  simp

theorem contentLines_tagged {opening closing} (hopening : contentLines opening = [opening])
    (hclosing : contentLines closing = [closing]) (body : Text) :
    contentLines (opening ++ '\n' :: (indent body ++ '\n' :: closing)) =
      opening :: contentLines body ++ [closing] := by
  rw [contentLines_append, contentLines_append, contentLines_indent, hopening, hclosing]
  rfl

namespace ScriptSection

def texts (script : ScriptSection) : List String :=
  script.importLines ++ script.moduleCode ++ script.declarations.map Declaration.line ++
    script.reactive ++ script.functions ++ script.reviewBlocks.map ReviewBlock.fenced

theorem contentOf_groups (script : ScriptSection) :
    contentOf script.groups = contentOf script.texts := by
  unfold groups texts
  rw [contentOf_filter]
  simp only [contentOf_append, contentOf_cons, contentOf_nil, contentLines_lines, List.append_nil,
    List.append_assoc]

def opening (typescript : Bool) : String :=
  if typescript then "<script lang=\"ts\">" else "<script>"

theorem contentLines_element (script : ScriptSection) (typescript : Bool) :
    contentLines (script.element typescript).toList =
      (opening typescript).toList :: contentOf script.texts ++ ["</script>".toList] := by
  have htext : (script.element typescript).toList = (opening typescript).toList ++ '\n' ::
      (indent ("\n\n".intercalate script.groups).toList ++ '\n' :: "</script>".toList) := by
    simp [element, opening, toString]
  have hopening : contentLines (opening typescript).toList = [(opening typescript).toList] := by
    cases typescript <;> decide
  have hclosing : contentLines "</script>".toList = ["</script>".toList] := by decide
  rw [htext, contentLines_tagged hopening hclosing, contentLines_blocks, contentOf_groups]

end ScriptSection

namespace Document

/-- The content of a document: the script between its tags, the markup, and the style between its
tags. -/
def content (doc : Document) : List Text :=
  (if doc.script.isEmpty then []
    else (ScriptSection.opening doc.typescript).toList :: contentOf doc.script.texts ++
      ["</script>".toList]) ++
    contentLines doc.markup.toList ++
    (if doc.style.isEmpty then []
      else "<style>".toList :: contentOf doc.style ++ ["</style>".toList])

theorem contentLines_code (doc : Document) : contentLines doc.code.toList = doc.content := by
  have hend : doc.code.toList = ("\n\n".intercalate doc.sections).toList ++ '\n' :: [] := by
    simp [code]
  have hmarkup : contentOf (if isBlankText doc.markup.toList then [] else [doc.markup]) =
      contentLines doc.markup.toList := by
    split
    · next hblank => rw [contentLines_of_isBlankText hblank, contentOf_nil]
    · simp
  have hstyle : ∀ body : Text, (s!"<style>\n{String.ofList body}\n</style>").toList =
      "<style>".toList ++ '\n' :: (body ++ '\n' :: "</style>".toList) := by
    simp [toString]
  rw [hend, contentLines_append, contentLines_nil, List.append_nil, contentLines_blocks]
  unfold sections content
  rw [contentOf_append, contentOf_append]
  congr 2
  · split
    · rfl
    · rw [contentOf_cons, ScriptSection.contentLines_element, contentOf_nil, List.append_nil]
  · split
    · rfl
    · rw [contentOf_cons, contentOf_nil, List.append_nil, hstyle,
        contentLines_tagged (by decide) (by decide), contentLines_lines]

end Document

end Sveltify
