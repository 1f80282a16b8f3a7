import Sveltify.Text.Case

/-! The symbol table of a component: its props, state, element references and style constants, each
list in the order of first registration. The variable block of the generated script is read off the
table. -/

namespace Sveltify

structure Symbol where
  name : String
  value : Option String
deriving DecidableEq, Repr, Inhabited

namespace Symbol

/-- Registers a name: a new one goes to the end, and a known one takes the value only if it has
none. -/
def register (name : String) (value : Option String) : List Symbol → List Symbol
  | [] => [⟨name, value⟩]
  | s :: rest =>
    if s.name == name then (if s.value.isNone then ⟨s.name, value⟩ else s) :: rest
    else s :: register name value rest

def known (name : String) (symbols : List Symbol) : Bool :=
  symbols.any (·.name == name)

end Symbol

inductive Keyword where
  | exportLet
  | «let»
  | const
deriving DecidableEq, Repr, Inhabited

def Keyword.text : Keyword → String
  | .exportLet => "export let"
  | .let => "let"
  | .const => "const"

structure Declaration where
  keyword : Keyword
  name : String
  value : Option String
deriving DecidableEq, Repr, Inhabited

namespace Declaration

def line (d : Declaration) : String :=
  match d.value with
  | some value => s!"{d.keyword.text} {d.name} = {value};"
  | none => s!"{d.keyword.text} {d.name};"

def sortKey (d : Declaration) : Text :=
  Text.lower d.name.toList

def sort (declarations : List Declaration) : List Declaration :=
  declarations.mergeSort fun a b => !decide (b.sortKey < a.sortKey)

def distinct (seen : List String) : List Declaration → List Declaration
  | [] => []
  | d :: rest =>
    if seen.contains d.name then distinct seen rest else d :: distinct (d.name :: seen) rest

end Declaration

structure SymbolTable where
  props : List Symbol := []
  initialState : List Symbol := []
  refs : List String := []
  state : List Symbol := []
  styleConstants : List (String × String) := []
deriving Inhabited

namespace SymbolTable

variable (t : SymbolTable)

def addProp (name : String) (default : Option String) : SymbolTable :=
  { t with props := Symbol.register name default t.props }

def removeProp (name : String) : SymbolTable :=
  { t with props := t.props.filter (·.name != name) }

def addInitialState (name : String) (value : Option String) : SymbolTable :=
  { t with initialState := Symbol.register name value t.initialState }

def addState (name : String) (value : Option String) : SymbolTable :=
  { t with state := Symbol.register name value t.state }

def addRef (name : String) : SymbolTable :=
  if t.refs.contains name then t else { t with refs := t.refs ++ [name] }

def addStyleConstant (name value : String) : SymbolTable :=
  if t.styleConstants.any (·.1 == name) then t
  else { t with styleConstants := t.styleConstants ++ [(name, value)] }

def isProp (name : String) : Bool :=
  Symbol.known name t.props

def isRef (name : String) : Bool :=
  t.refs.contains name

def isState (name : String) : Bool :=
  Symbol.known name t.initialState || Symbol.known name t.state

def contains (name : String) : Bool :=
  t.isProp name || t.isRef name || t.isState name

def propDeclarations : List Declaration :=
  Declaration.sort (t.props.map fun p => ⟨.exportLet, p.name, some (p.value.getD "undefined")⟩)

/-- Every internal variable in the order of precedence: style constants, initial state, references,
other state. -/
def internalCandidates : List Declaration :=
  t.styleConstants.map (fun (name, value) => ⟨.const, name, some s!"'{value}'"⟩) ++
    t.initialState.map (fun s => ⟨.let, s.name, s.value⟩) ++
    t.refs.map (fun name => ⟨.let, name, none⟩) ++
    t.state.map (fun s => ⟨.let, s.name, s.value⟩)

/-- The declarations of the internal variables that are no props, the first candidate of each name,
sorted by lower-case name. -/
def internalDeclarations : List Declaration :=
  Declaration.sort (Declaration.distinct (t.props.map (·.name)) t.internalCandidates)

end SymbolTable

end Sveltify
