import Loom.Program.Sameness

/-!
Looking up types and members by name and signature.
-/
namespace Loom.Program

/-- A type with the types nested in it, outer types first, down to a bounded depth. -/
def withNested (p : Program) : Nat → TypeId → List TypeId
  | 0, _ => []
  | n + 1, t => t :: (p.typeAt t).nested.flatMap (p.withNested n)

/-- Every type of a module, nested types right after the type they are nested in. -/
def allTypes (p : Program) (m : ModuleId) : List TypeId :=
  (p.moduleAt m).types.flatMap (p.withNested p.types.size)

def findOwnType? (p : Program) (m : ModuleId) (name : String) : Option TypeId :=
  (p.allTypes m).find? fun t => p.fullName t == name

/-- The first type with the given full name in a module, or else in the modules it refers to. -/
def findType? (p : Program) (m : ModuleId) (name : String) : Option TypeId :=
  (p.findOwnType? m name).or ((p.moduleAt m).references.findSome? (p.findOwnType? · name))

/-- The first method of a type with the name, arity and signature of a reference. -/
def findMethod? (p : Program) (t : TypeId) (r : MethodRef) : Option MethodId :=
  (p.methodsOf t).find? fun m =>
    let d := p.methodAt m
    d.name == r.name && d.generics.length == r.generics.length && p.sameSignatureList d.paramTypes r.params

def resolveMethod? (p : Program) (o : MethodOperand) : Option MethodId :=
  o.ref.declaring.element?.bind (p.findMethod? · o.ref)

def attributesOf (p : Program) (t : TypeId) (name : String) : List Attribute :=
  (p.typeAt t).attributes.filter fun a => p.fullName a.type == name

def hasAttribute (p : Program) (t : TypeId) (name : String) : Bool := !(p.attributesOf t name).isEmpty

/-- The type, or one of the bounded number of bases above it, lists an interface of that declaration. -/
def implementsWithin (p : Program) (interface : TypeId) : Nat → TypeId → Bool
  | 0, _ => false
  | n + 1, t =>
    let d := p.typeAt t
    (d.interfaces.any fun i => match i.element? with
      | some e => p.sameDecl e interface
      | none => false) ||
    match d.base.element? with
    | some base => p.implementsWithin interface n base
    | none => false

/-- The type or one of its bases lists an interface of that declaration. -/
def implements (p : Program) (t interface : TypeId) : Bool := p.implementsWithin interface (p.types.size + 1) t

/-- Records a module as referred to, once and never by itself. -/
def addReference (p : Program) (m other : ModuleId) : Program :=
  if other == m || (p.moduleAt m).references.contains other then p
  else p.modifyModule m fun d => { d with references := d.references ++ [other] }

mutual
/-- Brings a reference into a module by recording the modules it comes from. -/
def importType (m : ModuleId) (p : Program) : TypeRef → Program
  | .decl t => p.addReference m (p.typeAt t).home
  | .applied t args => importTypes m (p.addReference m (p.typeAt t).home) args
  | _ => p
/-- Brings references into a module, in order. -/
def importTypes (m : ModuleId) (p : Program) : List TypeRef → Program
  | [] => p
  | a :: as => importTypes m (importType m p a) as
end

/-- Brings a method operand into a module: its declaring type, its signature and its type arguments. -/
def importMethod (m : ModuleId) (p : Program) (o : MethodOperand) : Program :=
  let r := o.ref
  let args := match o with
    | .plain _ => []
    | .applied _ args => args
  p.importTypes m (r.declaring :: r.returns :: r.params ++ args)

end Loom.Program
