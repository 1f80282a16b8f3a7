import Sveltify.Diagnostic
import Sveltify.Document
import Sveltify.Source.Basic
import Sveltify.Table

/-! The draft of a generated component: everything that its script needs, collected while the
source is read. -/

namespace Sveltify

structure ComponentScope where
  methods : List String := []
  propsBag : Option String := none
  setters : Table String := []
  hookRefs : List String := []
deriving Inhabited

structure Draft where
  symbols : SymbolTable := {}
  scope : ComponentScope := {}
  diagnostics : List Diagnostic := []
  /-- The framework functions that the script imports, in alphabetical order. -/
  helpers : List String := []
  moduleCode : List String := []
  reactive : List String := []
  functions : List String := []
  reviewBlocks : List ReviewBlock := []
  helperNames : List String := []
  markers : Nat := 0
  usesSlot : Bool := false
  cuts : List Nat := []
deriving Inhabited

def insertName (name : String) : List String → List String
  | [] => [name]
  | first :: rest =>
    if name == first then first :: rest
    else if name < first then name :: first :: rest
    else first :: insertName name rest

namespace Draft

variable (d : Draft)

def addHelper (name : String) : Draft :=
  { d with helpers := insertName name d.helpers }

def report (source : Source) (finding : Finding) (message : String) (offset : Nat) :
    Draft :=
  let (line, column) := source.lineColumn offset
  { d with diagnostics := d.diagnostics ++ [⟨finding, message, line, column⟩] }

def review (source : Source) (reason code : String) (offset : Nat) : Draft :=
  let reported := d.report source .manualReview s!"{reason} needs manual review" offset
  { reported with reviewBlocks := reported.reviewBlocks ++ [⟨reason, code⟩] }

def addReactive (statement : String) : Draft :=
  if d.reactive.contains statement then d else { d with reactive := d.reactive ++ [statement] }

def addFunction (text : String) : Draft :=
  { d with functions := d.functions ++ [text] }

def addModuleCode (text : String) : Draft :=
  { d with moduleCode := d.moduleCode ++ [text] }

def withSymbols (f : SymbolTable → SymbolTable) : Draft :=
  { d with symbols := f d.symbols }

def withScope (f : ComponentScope → ComponentScope) : Draft :=
  { d with scope := f d.scope }

/-- The first name from `base`, `base2`, `base3`, … that is not taken: `counter` is the number to
try next, and at most `tries` numbers are tried. -/
def freshName (taken : List String) (base : String) : (tries counter : Nat) → String → String
  | 0, _, name => name
  | tries + 1, counter, name =>
    if taken.contains name then freshName taken base tries (counter + 1) s!"{base}{counter}"
    else name

def helperName (base : String) : String × Draft :=
  let name := freshName d.helperNames base (d.helperNames.length + 1) 2 base
  (name, { d with helperNames := name :: d.helperNames })

def cut (offsets : List Nat) : Draft :=
  { d with cuts := offsets ++ d.cuts }

def nextMarker : Nat × Draft :=
  (d.markers + 1, { d with markers := d.markers + 1 })

end Draft

end Sveltify
