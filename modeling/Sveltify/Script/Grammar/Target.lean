import Sveltify.Script.Grammar.Basic

/-! Expressions that stand where a value goes: the targets of assignments, and the parameters of
arrow functions, which are read as expressions before the arrow is seen. -/

namespace Sveltify.Script.Grammar

variable [Subject]

inductive Fit where
  | fits
  | faulty
  | fails
deriving DecidableEq, Repr, Inhabited

namespace Fit

def ofBool (condition : Bool) : Fit :=
  if condition then .fits else .faulty

def and : Fit → Fit → Fit
  | .fails, _ | _, .fails => .fails
  | .faulty, _ | _, .faulty => .faulty
  | .fits, .fits => .fits

end Fit

def demand : Fit → Reader Unit
  | .fits => pure ()
  | .faulty => fault
  | .fails => unexpected

def isSimpleTarget : Node → Bool
  | .of (.ident name) _ _ _ => name != "eval" && name != "arguments"
  | .of .member _ _ | .of .superMember _ _ => true
  | .of .paren _ [inner] => isSimpleTarget inner
  | .of .cast _ (inner :: _) | .of .instantiation _ (inner :: _) => isSimpleTarget inner
  | .of .nonNull _ [inner] => isSimpleTarget inner
  | _ => false

def isDenied (calls : Bool) : Node → Bool
  | .of (.ident name) _ _ _ => name == "eval" || name == "arguments"
  | .of (.string _) _ _ | .of (.number _ _) _ _ | .of .bigint _ _ | .of (.bool _) _ _
  | .of .null _ _ | .of (.regex _ _) _ _ | .of (.binary _) _ _ => true
  | .of .call _ _ => calls
  | .of .paren _ [inner] => isDenied calls inner
  | _ => false

def simpleFit (typescript calls : Bool) (target : Node) : Fit :=
  .ofBool (isSimpleTarget target || (typescript && !isDenied calls target))

def takesValue (target : Node) : Bool :=
  match target.kind with
  | .ident _ | .member | .superMember | .chain | .paren | .cast | .nonNull | .instantiation => true
  | _ => false

def isStructure (node : Node) : Bool :=
  match node.kind with
  | .array | .object => true
  | _ => false

def isAssignment : Node → Bool
  | .of (.assign "=") _ _ => true
  | _ => false

mutual

/-- How an expression fits as a part of a pattern, which declares variables if `binds` holds. The
pattern that stands left of a default has been looked at before. -/
def elementFit (commas : List Nat) (binds : Bool) : Node → Fit
  | .of .array span elements =>
    (Fit.ofBool !(commas.contains span.start.offset)).and (elementsFit commas binds elements)
  | .of .object span members =>
    (Fit.ofBool !(commas.contains span.start.offset)).and (membersFit commas binds members)
  | .of (.assign "=") _ [target, _] =>
    if isStructure target then .fits else elementFit commas binds target
  | .of .hole _ _ => .fits
  | .of .spread _ [target] => (Fit.ofBool !(isAssignment target)).and (elementFit commas binds target)
  | .of .property _ [_, value] => elementFit commas binds value
  | .of .defaulted _ _ => .fits
  | node => .ofBool (if binds then node.ident?.isSome else isSimpleTarget node)

def elementsFit (commas : List Nat) (binds : Bool) : List Node → Fit
  | [] => .fits
  | [last] => elementFit commas binds last
  | first :: rest =>
    let fit : Fit := match first.kind with
      | .spread => .faulty
      | _ => elementFit commas binds first
    fit.and (elementsFit commas binds rest)

def membersFit (commas : List Nat) (binds : Bool) : List Node → Fit
  | [] => .fits
  | member :: rest =>
    let fit : Fit := match member.kind with
      | .getter | .setter | .method => .fails
      | .ident _ => .fits
      | .spread =>
        if !rest.isEmpty then .fails
        else if binds then .ofBool (member.kids.all fun target => target.ident?.isSome)
        else elementFit commas binds member
      | _ => elementFit commas binds member
    fit.and (membersFit commas binds rest)

end

def assignmentFit (typescript : Bool) (commas : List Nat) (operator : String) (left : Node) : Fit :=
  if operator == "=" && isStructure left then elementFit commas false left
  else if !takesValue left then .fails
  else if operator == "=" then simpleFit typescript true left
  else .ofBool (isSimpleTarget left)

def loopFit (typescript : Bool) (commas : List Nat) (left : Node) : Fit :=
  if isStructure left then elementFit commas false left else simpleFit typescript true left

mutual

def toPattern : Node → Node
  | .of .array span elements =>
    .of .arrayPattern span (toPatterns elements ++ [Node.absentAt span.stop])
  | .of .object span members =>
    .of .objectPattern span (toProperties members ++ [Node.absentAt span.stop])
  | .of (.assign "=") span [target, value] => .of .assignPattern span [toPattern target, value]
  | .of .spread span [target] => .of .rest span [toPattern target]
  | .of .property span [key, value] => .of .patternProperty span [key, toPattern value]
  | .of (.ident name) span _ named => .of (.ident name) span [Node.absentAt span.stop] named
  | node => node

def toPatterns : List Node → List Node
  | [] => []
  | node :: rest => toPattern node :: toPatterns rest

def toProperties : List Node → List Node
  | [] => []
  | member :: rest =>
    let property : Node := match member with
      | .of (.ident name) span _ named =>
        .of .defaulted span [.of (.ident name) span [] named, Node.absentAt span.stop]
      | _ => toPattern member
    property :: toProperties rest

end

mutual

def hasTakenName : Node → Bool
  | .of (.ident name) _ _ _ => name == "eval" || name == "arguments"
  | .of .defaulted _ (name :: _) => hasTakenName name
  | .of .assignPattern _ (target :: _) | .of .rest _ (target :: _) => hasTakenName target
  | .of .patternProperty _ [_, value] => hasTakenName value
  | .of .arrayPattern _ parts | .of .objectPattern _ parts => haveTakenName parts
  | _ => false

def haveTakenName : List Node → Bool
  | [] => false
  | part :: rest => hasTakenName part || haveTakenName rest

end

end Sveltify.Script.Grammar
