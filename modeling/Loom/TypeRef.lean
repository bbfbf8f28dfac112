/-!
References to types. A reference is a declared type, a generic parameter or a declared type applied to
arguments. A parameter is known by its owner and position; its name is informational.
-/
namespace Loom

/-- A declared type, by its place among the declarations of a program. -/
structure TypeId where
  index : Nat
  deriving DecidableEq, Inhabited

/-- A declared method, by its type and its place among the methods of that type. -/
structure MethodId where
  owner : TypeId
  position : Nat
  deriving DecidableEq, Inhabited

/-- A method reference: the method in whose body it stands, the place in that body that it was made for, and how many
    were made for that place before. -/
structure RefId where
  method : MethodId
  place : Nat
  version : Nat := 0
  deriving DecidableEq, Inhabited

/-- The reference that takes the place of another. -/
def RefId.next (r : RefId) : RefId := { r with version := r.version + 1 }

/-- What introduces a generic parameter. -/
inductive Owner where
  | type (t : TypeId)
  | method (m : MethodId)
  | reference (r : RefId)
  deriving DecidableEq

/-- The parameter belongs to a method and not to a type. -/
def Owner.isMethod : Owner → Bool
  | .type _ => false
  | _ => true

structure GenericParam where
  owner : Owner
  position : Nat
  name : String
  deriving DecidableEq

namespace GenericParam

def isMethod (p : GenericParam) : Bool := p.owner.isMethod

/-- The positional form: one mark for the parameters of a type, two for those of a method. -/
def text (p : GenericParam) : String := (if p.isMethod then "!!" else "!") ++ toString p.position

def declare (owner : Owner) (names : List String) : List GenericParam :=
  names.zipIdx.map fun (name,i) => ⟨owner,i,name⟩

end GenericParam

inductive TypeRef where
  /-- No type stands here. -/
  | absent
  | decl (t : TypeId)
  | param (p : GenericParam)
  | applied (element : TypeId) (args : List TypeRef)
  deriving Inhabited

namespace TypeRef

mutual
/-- Equality of references. -/
def beq : TypeRef → TypeRef → Bool
  | .absent, .absent => true
  | .decl a, .decl b => a == b
  | .param a, .param b => a == b
  | .applied a as, .applied b bs => a == b && beqList as bs
  | _, _ => false
/-- Equality of argument lists. -/
def beqList : List TypeRef → List TypeRef → Bool
  | [], [] => true
  | a :: as, b :: bs => beq a b && beqList as bs
  | _, _ => false
end

instance : BEq TypeRef := ⟨beq⟩

mutual
/-- The reference mentions a generic parameter. -/
def isOpen : TypeRef → Bool
  | .param _ => true
  | .applied _ args => isOpenList args
  | _ => false
/-- One of the references mentions a generic parameter. -/
def isOpenList : List TypeRef → Bool
  | [] => false
  | a :: as => isOpen a || isOpenList as
end

mutual
def mapParams (f : GenericParam → TypeRef) : TypeRef → TypeRef
  | .param p => f p
  | .applied element args => .applied element (mapParamsList f args)
  | t => t
def mapParamsList (f : GenericParam → TypeRef) : List TypeRef → List TypeRef
  | [] => []
  | a :: as => mapParams f a :: mapParamsList f as
end

/-- Moves the parameters of an owner onto others by their positions. A parameter without a counterpart stays. -/
def rebindParams (source : Owner) (params : List GenericParam) (t : TypeRef) : TypeRef :=
  t.mapParams fun g => .param (if g.owner = source then params[g.position]?.getD g else g)

/-- The declaration behind a reference: parameters have none. -/
def element? : TypeRef → Option TypeId
  | .decl t => some t
  | .applied t _ => some t
  | _ => none

def arguments : TypeRef → List TypeRef
  | .applied _ args => args
  | _ => []

/-- Appends an argument to an applied type, whatever number of parameters the type has. -/
def addArgument? (t arg : TypeRef) : Option TypeRef :=
  match t with
  | .applied element args => some (.applied element (args ++ [arg]))
  | _ => none

def isAbsent : TypeRef → Bool
  | .absent => true
  | _ => false

end TypeRef

/-- A reference to a method through a declaring type. Signature types are expressed over the open declaring type
    and the parameters of the reference itself. -/
structure MethodRef where
  name : String
  declaring : TypeRef
  returns : TypeRef := .absent
  params : List TypeRef := []
  generics : List String := []
  hasThis : Bool := false
  id : RefId := default
  deriving BEq, Inhabited

namespace MethodRef

def genericParams (r : MethodRef) : List GenericParam := GenericParam.declare (.reference r.id) r.generics

/-- A reference like the given one through another declaring type, with parameters of its own. -/
def withDeclaring (r : MethodRef) (declaring : TypeRef) (id : RefId := r.id.next) : MethodRef :=
  let own := GenericParam.declare (.reference id) r.generics
  { r with
    id
    declaring
    returns := r.returns.rebindParams (.reference r.id) own
    params := r.params.map (TypeRef.rebindParams (.reference r.id) own) }

end MethodRef

/-- What a call names: a method, or a generic method applied to type arguments. -/
inductive MethodOperand where
  | plain (ref : MethodRef)
  | applied (ref : MethodRef) (args : List TypeRef)
  deriving BEq, Inhabited

namespace MethodOperand

/-- The method without type arguments. -/
def ref : MethodOperand → MethodRef
  | .plain r => r
  | .applied r _ => r

def arguments : MethodOperand → List TypeRef
  | .plain _ => []
  | .applied _ args => args

end MethodOperand

/-- A reference to a field through a declaring type. The type of the field is expressed over the open declaring
    type. -/
structure FieldRef where
  name : String
  fieldType : TypeRef
  declaring : TypeRef
  deriving BEq, Inhabited

end Loom
