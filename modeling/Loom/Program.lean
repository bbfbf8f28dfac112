import Loom.Flags
import Loom.Opcode
import Loom.TypeRef
import Loom.Version

/-!
Programs. A program is a store of modules, type declarations and instructions; modules, types and instructions
are known by their place in it. A declaration once made keeps its place, so a reference to it stays good while
members, bodies and operands change.
-/
namespace Loom

/-- A module, by its place in a program. -/
structure ModuleId where
  index : Nat
  deriving DecidableEq, Inhabited

/-- An instruction, by its place in a program. Branches name the instruction they lead to, so an insertion never
    moves their target. -/
structure InstructionId where
  index : Nat
  deriving DecidableEq, Inhabited

/-- What an instruction carries. -/
inductive Operand where
  | none
  | int (n : Int)
  | text (t : Text.Octets)
  | type (t : TypeRef)
  | method (m : MethodOperand)
  | field (f : FieldRef)
  | branch (target : InstructionId)
  deriving BEq, Inhabited

def Operand.kind : Operand → OperandKind
  | .none => .none
  | .int _ => .int
  | .text _ => .text
  | .type _ => .type
  | .method _ => .method
  | .field _ => .field
  | .branch _ => .branch

/-- Appends an argument to the application that an operand shows: a type, the declaring type of a field or a plain
    method, or the arguments of a generic method. -/
def Operand.addArgument? (arg : TypeRef) : Operand → Option Operand
  | .type t => (t.addArgument? arg).map .type
  | .field f => (f.declaring.addArgument? arg).map fun declaring => .field { f with declaring }
  | .method (.plain r) => (r.declaring.addArgument? arg).map fun declaring => .method (.plain { r with declaring })
  | .method (.applied r args) => some (.method (.applied r (args ++ [arg])))
  | _ => Option.none

/-- An operation with its operand. -/
structure Instruction where
  opcode : Opcode
  operand : Operand := .none
  deriving BEq, Inhabited

/-- The locals and instructions of a method. -/
structure Body where
  locals : List TypeRef := []
  code : List InstructionId := []
  initLocals : Bool := false
  deriving BEq, Inhabited

structure Param where
  name : String
  type : TypeRef
  deriving BEq, Inhabited

/-- A method declaration. A native method names the machine operation that stands in for its body. -/
structure MethodDecl where
  name : String
  flags : MethodFlags := {}
  returns : TypeRef := .absent
  params : List Param := []
  generics : List String := []
  body : Option Body := .none
  native : String := ""
  deriving BEq, Inhabited

namespace MethodDecl

def isStatic (m : MethodDecl) : Bool := m.flags.has .isStatic

def isAbstract (m : MethodDecl) : Bool := m.flags.has .isAbstract

def isVirtual (m : MethodDecl) : Bool := m.flags.has .isVirtual

def isConstructor (m : MethodDecl) : Bool := m.flags.has .isSpecialName && m.name == ".ctor"

def paramTypes (m : MethodDecl) : List TypeRef := m.params.map Param.type

end MethodDecl

structure FieldDecl where
  name : String
  type : TypeRef
  isStatic : Bool := false
  deriving BEq, Inhabited

/-- An argument of a custom attribute. -/
inductive AttributeArg where
  | type (t : TypeRef)
  | text (t : Text.Octets)
  | bool (b : Bool)
  | int (n : Int)
  deriving BEq, Inhabited

/-- A marker annotation on a type. -/
structure Attribute where
  type : TypeId
  args : List AttributeArg := []
  deriving BEq, Inhabited

/-- A type declaration. A nested type declares the parameters of its enclosing types again, before its own. -/
structure TypeDecl where
  space : String := ""
  name : String := ""
  flags : TypeFlags := {}
  base : TypeRef := .absent
  interfaces : List TypeRef := []
  generics : List String := []
  fields : List FieldDecl := []
  methods : List MethodDecl := []
  nested : List TypeId := []
  declaring : Option TypeId := .none
  attributes : List Attribute := []
  home : ModuleId
  deriving BEq, Inhabited

namespace TypeDecl

def isGeneric (t : TypeDecl) : Bool := !t.generics.isEmpty

def isInterface (t : TypeDecl) : Bool := t.flags.has .isInterface

def isAbstract (t : TypeDecl) : Bool := t.flags.has .isAbstract || t.flags.has .isInterface

def isValueType (t : TypeDecl) : Bool := t.flags.has .isValueType

def field? (t : TypeDecl) (name : String) : Option FieldDecl := t.fields.find? (·.name == name)

end TypeDecl

/-- A module: its top-level types in order and the modules it refers to. Generated types stand among the top-level
    types even when they have a declaring type. A module without a version id gets one at random. -/
structure ModuleDecl where
  name : String
  version : Option Version := .none
  references : List ModuleId := []
  types : List TypeId := []
  deriving BEq, Inhabited

/-- A store of modules, type declarations and instructions. -/
structure Program where
  modules : Array ModuleDecl := #[]
  types : Array TypeDecl := #[]
  code : Array Instruction := #[]
  deriving BEq, Inhabited

namespace Program

/-! ### Reading -/

def moduleAt (p : Program) (m : ModuleId) : ModuleDecl := (p.modules[m.index]?).getD default

def typeAt (p : Program) (t : TypeId) : TypeDecl := (p.types[t.index]?).getD default

def methodAt (p : Program) (m : MethodId) : MethodDecl := ((p.typeAt m.owner).methods[m.position]?).getD default

def instructionAt (p : Program) (i : InstructionId) : Instruction := (p.code[i.index]?).getD default

def methodsOf (p : Program) (t : TypeId) : List MethodId :=
  (List.range (p.typeAt t).methods.length).map (MethodId.mk t)

def methodsNamed (p : Program) (t : TypeId) (name : String) : List MethodId :=
  (p.methodsOf t).filter fun m => (p.methodAt m).name == name

def typeParams (p : Program) (t : TypeId) : List GenericParam :=
  GenericParam.declare (.type t) (p.typeAt t).generics

def methodParams (p : Program) (m : MethodId) : List GenericParam :=
  GenericParam.declare (.method m) (p.methodAt m).generics

/-- The generic parameters of a declaration. A reference is no declaration. -/
def paramsOf (p : Program) : Owner → List GenericParam
  | .type t => p.typeParams t
  | .method m => p.methodParams m
  | .reference _ => []

/-! ### Writing -/

def modifyModule (p : Program) (m : ModuleId) (f : ModuleDecl → ModuleDecl) : Program :=
  { p with modules := p.modules.modify m.index f }

def modifyType (p : Program) (t : TypeId) (f : TypeDecl → TypeDecl) : Program :=
  { p with types := p.types.modify t.index f }

def modifyMethod (p : Program) (m : MethodId) (f : MethodDecl → MethodDecl) : Program :=
  p.modifyType m.owner fun t => { t with methods := t.methods.modify m.position f }

def modifyBody (p : Program) (m : MethodId) (f : Body → Body) : Program :=
  p.modifyMethod m fun d => { d with body := d.body.map f }

def modifyInstruction (p : Program) (i : InstructionId) (f : Instruction → Instruction) : Program :=
  { p with code := p.code.modify i.index f }

def addInstruction (p : Program) (i : Instruction) : InstructionId × Program :=
  (⟨p.code.size⟩,{ p with code := p.code.push i })

def addModule (p : Program) (m : ModuleDecl) : ModuleId × Program :=
  (⟨p.modules.size⟩,{ p with modules := p.modules.push m })

/-- Declares a type. It belongs to no list of types yet. -/
def declareType (p : Program) (t : TypeDecl) : TypeId × Program :=
  (⟨p.types.size⟩,{ p with types := p.types.push t })

def addTopLevel (p : Program) (t : TypeId) : Program :=
  p.modifyModule (p.typeAt t).home fun m => { m with types := m.types ++ [t] }

def addMethod (p : Program) (t : TypeId) (m : MethodDecl) : MethodId × Program :=
  (⟨t,(p.typeAt t).methods.length⟩,p.modifyType t fun d => { d with methods := d.methods ++ [m] })

def addField (p : Program) (t : TypeId) (f : FieldDecl) : Program :=
  p.modifyType t fun d => { d with fields := d.fields ++ [f] }

end Program
end Loom
