import Loom.Specialization.Registry

/-!
The index of typeclass implementations. A typeclass is an interface with the typeclass marker and one parameter; a
type that lists it implements it for the argument. For a generic implementation the argument is a pattern over its
parameters.
-/
namespace Loom

/-- The type `implementation` implements `marker` for `argument`. -/
structure Implementation where
  marker : TypeId
  implementation : TypeId
  argument : TypeRef
  /-- The specializations made of it so far. -/
  specializations : List Entry := []
  deriving Inhabited

/-- The implementations of a module: those to be used as they are and those to be specialized first. -/
structure TypeclassIndex where
  plain : List Implementation := []
  generic : List Implementation := []
  deriving Inhabited

/-- Bindings of parameters by position, the last one first. -/
abbrev Bindings := List (Nat × TypeRef)

namespace Program

def implementationText (p : Program) (i : Implementation) : String :=
  p.fullName i.implementation ++ ": " ++ p.fullName i.marker ++ "<" ++ i.argument.fullName p ++ ">"

/-- The implementations that a type lists. Abstract types implement nothing. -/
def implementationsOf (p : Program) (marker : String) (t : TypeId) : List Implementation :=
  let d := p.typeAt t
  if d.isAbstract then []
  else d.interfaces.filterMap fun i => match i with
    | .applied element [argument] => if p.hasAttribute element marker then some ⟨element,t,argument,[]⟩ else none
    | _ => none

def typeclassIndex (p : Program) (home : ModuleId) (marker : String) : TypeclassIndex :=
  let all := (p.allTypes home).flatMap (p.implementationsOf marker)
  let isGeneric (i : Implementation) : Bool := (p.typeAt i.implementation).isGeneric
  { plain := all.filter fun i => !isGeneric i, generic := all.filter isGeneric }

mutual
/-- Matches a pattern against a type. Parameters of the owner are bound by position; one bound twice must be bound to
    the same type. -/
def unify (p : Program) (owner : TypeId) : TypeRef → TypeRef → Bindings → Option Bindings
  | .param g, actual, bound =>
    if g.owner = .type owner then
      match bound.lookup g.position with
      | some known => if p.same known actual then some bound else none
      | none => some ((g.position,actual) :: bound)
    else if p.same (.param g) actual then some bound else none
  | .applied a as, .applied b bs, bound => if p.sameDecl a b then unifyList p owner as bs bound else none
  | .decl a, actual, bound => if p.same (.decl a) actual then some bound else none
  | .absent, actual, bound => if actual.isAbsent then some bound else none
  | .applied _ _, _, _ => none
/-- Matches patterns against as many types, from left to right. -/
def unifyList (p : Program) (owner : TypeId) : List TypeRef → List TypeRef → Bindings → Option Bindings
  | [], [], bound => some bound
  | a :: as, b :: bs, bound => (unify p owner a b bound).bind (unifyList p owner as bs)
  | _, _, _ => none
end

end Program

namespace TypeclassIndex

/-- The number of implementations. -/
def size (x : TypeclassIndex) : Nat := x.plain.length + x.generic.length

/-- The interface has an implementation. -/
def isTypeclass (x : TypeclassIndex) (t : TypeId) : Bool := (x.plain ++ x.generic).any (·.marker == t)

/-- A generic implementation, or a type declared inside one by a chain of bounded length. -/
def isInsideGenericWithin (x : TypeclassIndex) (p : Program) : Nat → TypeId → Bool
  | 0, _ => false
  | n + 1, t =>
    x.generic.any (·.implementation == t) ||
    match (p.typeAt t).declaring with
    | some outer => x.isInsideGenericWithin p n outer
    | none => false

/-- The type is a generic implementation or is declared inside one, so only its specializations are woven. -/
def isInsideGeneric (x : TypeclassIndex) (p : Program) (t : TypeId) : Bool :=
  x.isInsideGenericWithin p (p.types.size + 1) t

def lookup (x : TypeclassIndex) (p : Program) (marker : TypeId) (argument : TypeRef) : List Implementation :=
  x.plain.filter fun i => i.marker == marker && p.same i.argument argument

/-- The generic implementations of a typeclass that match a type, by their place, each with the argument to specialize
    it for. -/
def lookupGeneric (x : TypeclassIndex) (p : Program) (marker : TypeId) (argument : TypeRef) : List (Nat × TypeRef) :=
  x.generic.zipIdx.filterMap fun (i,place) =>
    if i.marker = marker then
      ((p.unify i.implementation i.argument argument []).bind (·.lookup 0)).map (place,·)
    else none

end TypeclassIndex
end Loom
