import Sveltify.Proofs.Component.Conversions

/-! Tags and markers of generated markup. Nothing is done to the name of an element: whatever becomes
of the elements of an expression, their tags are names of elements in it, as the source writes them.
What cannot be shown as markup is left to manual review: a marker takes its place, and its code goes
into a block whose reason ends in the number of the marker. Markers and blocks are numbered alike, in
the order in which they are met. -/

namespace Sveltify

open List Script.Tree Part

/-! Numbered blocks. -/

namespace Draft

/-- The markers that are given out between two drafts: they are counted on from those before, and for
every marker there is one block that carries its number, in the same order. -/
structure Numbers (d : Draft) (markers : List Nat) (e : Draft) : Prop where
  count : e.markers = d.markers + markers.length
  inOrder : markers = List.range' (d.markers + 1) markers.length
  blocks : ∃ added, e.reviewBlocks = d.reviewBlocks ++ added ∧
    added.filterMap (ReviewBlock.markerIn? ·.reason) = markers

variable {source : Source} {p : Policy} {d d' e : Draft}

theorem Numbers.of_eq (hmarkers : e.markers = d.markers)
    (hblocks : e.reviewBlocks = d.reviewBlocks) : d.Numbers [] e :=
  ⟨hmarkers, rfl, [], by rw [hblocks, append_nil], rfl⟩

theorem Numbers.refl (d : Draft) : d.Numbers [] d :=
  .of_eq rfl rfl

theorem Numbers.append {markers more} (h : d.Numbers markers d')
    (h' : d'.Numbers more e) : d.Numbers (markers ++ more) e := by
  obtain ⟨added, hadded, hnumbers⟩ := h.blocks
  obtain ⟨added', hadded', hnumbers'⟩ := h'.blocks
  refine ⟨?_, ?_, added ++ added', ?_, ?_⟩
  · rw [h'.count, h.count, length_append, Nat.add_assoc]
  · have hmore := h'.inOrder
    rw [h.count, Nat.add_right_comm] at hmore
    rw [length_append, ← range'_append_1, ← h.inOrder, ← hmore]
  · rw [hadded', hadded, append_assoc]
  · rw [filterMap_append, hnumbers, hnumbers']

theorem numbers_review {reason} (code : String) (offset : Nat)
    (h : ReviewBlock.markerIn? reason = none) : d.Numbers [] (d.review source reason code offset) :=
  ⟨rfl, rfl, [⟨reason, code⟩], rfl, by simp [h]⟩

/-- A marker is given out, and then its block is added; the code in it may leave other code to manual
review before. -/
theorem Numbers.review (h : d.nextMarker.2.Numbers [] e) (start code : String) (offset : Nat) :
    d.Numbers [d.markers + 1] (e.review source s!"{start} #{d.markers + 1}" code offset) := by
  obtain ⟨added, hadded, hnone⟩ := h.blocks
  refine ⟨h.count, rfl, added ++ [⟨s!"{start} #{d.markers + 1}", code⟩], ?_, ?_⟩
  · exact (congrArg (· ++ [_]) hadded).trans (append_assoc _ _ _)
  · simp only [filterMap_append, hnone, filterMap_cons, ReviewBlock.markerIn?_numbered]
    rfl

theorem Change.numbers (hp : ¬ p.marks) (h : Change source p d d') : d.Numbers [] d' := by
  cases h with
  | marker hmarks => exact absurd hmarks hp
  | review offset hreason =>
    refine numbers_review _ offset (Option.not_isSome_iff_eq_none.1 fun hsome => ?_)
    exact hp (hreason.2 hsome)
  | reactive =>
    unfold addReactive
    split
    · exact .refl d
    · exact .of_eq rfl rfl
  | _ => exact .of_eq rfl rfl

theorem Run.numbers (hp : ¬ p.marks) (h : Run source p d d') : d.Numbers [] d' := by
  induction h with
  | refl => exact .refl d
  | tail _ hstep ih => exact ih.append (hstep.numbers hp)

end Draft

def Policy.unmarked (methods : String → Prop) : Policy :=
  { Policy.free methods True with marks := False }

/-- A conversion that takes steps without a marker gives out none. -/
theorem Conversion.Yields.quiet {α : Type} {source p d c} {Q R : α → Draft → Prop} (h : Yields source p d c Q)
    (hquiet : Yields source (.unmarked fun _ => True) d c R) :
    Yields source p d c fun a e => Q a e ∧ d.Numbers [] e :=
  fun hd => ⟨(h hd).1, (h hd).2, (hquiet hd).1.numbers id⟩

namespace Script.Tree

variable {α : Type}

def elementName? (t : Script.Tree α) : Option (Script.Tree α) :=
  match t.kids with
  | .node _ (.jsxOpening _) _ (name :: _) :: _ => some name
  | _ => none

end Script.Tree

/-! Tags and markers of markup. -/

namespace Markup

mutual

def Node.tags : Node → List String
  | .element tag _ children _ _ => tag :: tagsOf children
  | .text _ | .comment _ | .slot | .review _ | .expression _ => []
  | .conditional branches otherwise _ => branchTags branches ++ otherwiseTags otherwise
  | .iteration _ _ _ body _ => bodyTags body

def tagsOf : List Node → List String
  | [] => []
  | first :: rest => first.tags ++ tagsOf rest

def bodyTags : Body Node → List String
  | ⟨nodes, _⟩ => tagsOf nodes

def branchTags : List (Branch Node) → List String
  | [] => []
  | ⟨_, body⟩ :: rest => bodyTags body ++ branchTags rest

def otherwiseTags : Option (Body Node) → List String
  | none => []
  | some body => bodyTags body

end

mutual

def Node.markers : Node → List Nat
  | .review marker => [marker]
  | .element _ _ children _ _ => markersOf children
  | .text _ | .comment _ | .slot | .expression _ => []
  | .conditional branches otherwise _ => branchMarkers branches ++ otherwiseMarkers otherwise
  | .iteration _ _ _ body _ => bodyMarkers body

/-- The markers of manual review in the order in which they stand. -/
def markersOf : List Node → List Nat
  | [] => []
  | first :: rest => first.markers ++ markersOf rest

def bodyMarkers : Body Node → List Nat
  | ⟨nodes, _⟩ => markersOf nodes

def branchMarkers : List (Branch Node) → List Nat
  | [] => []
  | ⟨_, body⟩ :: rest => bodyMarkers body ++ branchMarkers rest

def otherwiseMarkers : Option (Body Node) → List Nat
  | none => []
  | some body => bodyMarkers body

end

def IsTag (source : Source) (root : Script.Node) (tag : String) : Prop :=
  ∃ n name : Script.Node, n.Within root ∧ n.elementName? = some name ∧
    tag = String.ofList (source.slice name.span)

def Tagged (source : Source) (root : Script.Node) (nodes : List Node) : Prop :=
  ∀ tag ∈ tagsOf nodes, IsTag source root tag

/-- The nodes of a body that may be missing. -/
def nodesOf : Option (Body Node) → List Node
  | none => []
  | some body => body.nodes

/-- Two lists of nodes have the same tags and markers. -/
def Alike (nodes others : List Node) : Prop :=
  tagsOf nodes = tagsOf others ∧ markersOf nodes = markersOf others

theorem tagsOf_eq (nodes : List Node) : tagsOf nodes = nodes.flatMap Node.tags := by
  induction nodes with
  | nil => rfl
  | cons _ _ ih => rw [tagsOf, ih, flatMap_cons]

theorem markersOf_eq (nodes : List Node) : markersOf nodes = nodes.flatMap Node.markers := by
  induction nodes with
  | nil => rfl
  | cons _ _ ih => rw [markersOf, ih, flatMap_cons]

theorem bodyTags_eq (body : Body Node) : bodyTags body = tagsOf body.nodes := by
  cases body
  rfl

theorem bodyMarkers_eq (body : Body Node) : bodyMarkers body = markersOf body.nodes := by
  cases body
  rfl

theorem alike_mapText (f : Text → Text) (node : Node) : Alike [node.mapText f] [node] := by
  unfold Node.mapText
  split
  · exact ⟨rfl, rfl⟩
  · exact ⟨rfl, rfl⟩

theorem Alike.append {nodes nodes' others others'} (h : Alike nodes others)
    (h' : Alike nodes' others') : Alike (nodes ++ nodes') (others ++ others') := by
  simp_all [Alike, tagsOf_eq, markersOf_eq]

theorem alike_mapFirst {f} (hf : ∀ node, Alike [f node] [node]) (nodes : List Node) :
    Alike (mapFirst f nodes) nodes := by
  cases nodes with
  | nil => exact ⟨rfl, rfl⟩
  | cons node rest =>
    have hrest : Alike rest rest := ⟨rfl, rfl⟩
    exact (hf node).append hrest

theorem alike_mapLast {f} (hf : ∀ node, Alike [f node] [node]) (nodes : List Node) :
    Alike (mapLast f nodes) nodes := by
  obtain rfl | ⟨front, last, rfl⟩ := eq_nil_or_concat nodes
  · exact ⟨rfl, rfl⟩
  · have hlast : mapLast f (front.concat last) = front ++ [f last] := by
      simp [mapLast, mapFirst]
    rw [hlast, concat_eq_append]
    exact Alike.append ⟨rfl, rfl⟩ (hf last)

end Markup

end Sveltify
