import Loom.Error

/-!
The registry of specializations. It takes entries until it is sealed; the sealed view answers which clone stands for
a generic type, or for one of its methods, at an argument.
-/
namespace Loom

/-- A specialization: the generic type, the argument of its first parameter, the clone, the clone of each method, and
    the specializations of nested types. -/
inductive Entry where
  | mk (generic : TypeId) (argument : TypeRef) (specialized : TypeId) (methods : List (MethodId × MethodId))
      (nested : List Entry)
  deriving Inhabited

namespace Entry

def generic : Entry → TypeId
  | .mk g _ _ _ _ => g

def argument : Entry → TypeRef
  | .mk _ a _ _ _ => a

def specialized : Entry → TypeId
  | .mk _ _ s _ _ => s

def methods : Entry → List (MethodId × MethodId)
  | .mk _ _ _ m _ => m

def nested : Entry → List Entry
  | .mk _ _ _ _ n => n

mutual
/-- An entry followed by the entries nested in it, depth first. -/
def flatten : Entry → List Entry
  | .mk g a s m n => .mk g a s m n :: flattenAll n
/-- The entries, each followed by those nested in it. -/
def flattenAll : List Entry → List Entry
  | [] => []
  | e :: es => flatten e ++ flattenAll es
end

def method? (e : Entry) (m : MethodId) : Option MethodId := e.methods.lookup m

end Entry

namespace Program

def isEntryFor (p : Program) (e : Entry) (generic : TypeId) (argument : TypeRef) : Bool :=
  e.generic == generic && p.same e.argument argument

/-- The name of the argument of a specialization. An absent one has none. -/
def argumentName (p : Program) : TypeRef → Except Failure String
  | .absent => .error (.crash .absent)
  | argument => .ok (argument.fullName p)

def entryText (p : Program) (e : Entry) : Except Failure String := do
  return p.fullName e.generic ++ "[" ++ (← p.argumentName e.argument) ++ "] -> " ++ p.fullName e.specialized

def specializationFailure (p : Program) (t : TypeId) (argument : TypeRef) (fault : String → WeaveFault) : Failure :=
  match p.argumentName argument with
  | .ok name => .weave .ambiguousSpecialization (p.fullName t) (fault name)
  | .error f => f

end Program

/-- Entries under collection. -/
structure Registry where
  entries : List Entry := []
  isSealed : Bool := false
  deriving Inhabited

structure SealedRegistry where
  entries : List Entry := []
  deriving Inhabited

namespace Registry

/-- The first type among the flattened entries for which the registry already has an entry at that argument. -/
def repeated? (p : Program) (r : Registry) (e : Entry) : Option Entry :=
  let existing := Entry.flattenAll r.entries
  e.flatten.find? fun c => existing.any fun known => p.isEntryFor known c.generic c.argument

/-- Adds an entry, unless the registry is sealed or has one for the same type and argument at some level. -/
def add (p : Program) (r : Registry) (e : Entry) : Except Failure Registry :=
  if r.isSealed then .error (.error (.cause .sealedRegistry))
  else match r.repeated? p e with
    | some c => .error (p.specializationFailure c.generic c.argument .registeredTwice)
    | none => .ok { r with entries := r.entries ++ [e] }

/-- Ends the collection. -/
def close (r : Registry) : SealedRegistry × Registry := (⟨r.entries⟩,{ r with isSealed := true })

end Registry

namespace SealedRegistry

/-- Every entry, nested ones right after the entry that holds them. -/
def flat (s : SealedRegistry) : List Entry := Entry.flattenAll s.entries

/-- More than one entry answers. -/
def ambiguous (p : Program) (t : TypeId) (argument : TypeRef) : Failure :=
  p.specializationFailure t argument .severalSpecializations

def only? {α : Type} (tooMany : Failure) : List α → Except Failure (Option α)
  | [] => .ok none
  | [a] => .ok (some a)
  | _ => .error tooMany

def lookup (s : SealedRegistry) (p : Program) (t : TypeId) (argument : TypeRef) : Except Failure (Option Entry) :=
  only? (ambiguous p t argument) (s.flat.filter fun e => p.isEntryFor e t argument)

def lookupMethod (s : SealedRegistry) (p : Program) (m : MethodId) (argument : TypeRef) :
    Except Failure (Option (MethodId × Entry)) :=
  only? (ambiguous p m.owner argument) <|
    (s.flat.filter fun e => p.same e.argument argument).filterMap fun e => (e.method? m).map (·,e)

end SealedRegistry
end Loom
