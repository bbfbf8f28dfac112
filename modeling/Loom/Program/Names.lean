import Loom.Program
import Loom.Text.Decimal

/-!
Names and texts. A full name writes generic parameters by name and is for people; a text writes them by position
and is what documents hold.
-/
namespace Loom

open Text (Octets)

namespace Program

/-- The full name along a declaring chain of bounded length. -/
def fullNameWithin (p : Program) : Nat → TypeId → String
  | 0, _ => ""
  | n + 1, t =>
    let d := p.typeAt t
    match d.declaring with
    | some outer => p.fullNameWithin n outer ++ "/" ++ d.name
    | none => if d.space.isEmpty then d.name else d.space ++ "." ++ d.name

/-- The full name of a declared type: through its declaring type, or with its namespace. A declaring chain without
    repetition is no longer than the list of declarations. -/
def fullName (p : Program) (t : TypeId) : String := p.fullNameWithin (p.types.size + 1) t

/-- The declaring chain ends within the given number of steps. -/
def chainEndsWithin (p : Program) : Nat → TypeId → Bool
  | 0, _ => false
  | n + 1, t =>
    match (p.typeAt t).declaring with
    | some outer => p.chainEndsWithin n outer
    | none => true

def chainEnds (p : Program) (t : TypeId) : Bool := p.chainEndsWithin (p.types.size + 1) t

end Program

namespace TypeRef

mutual
/-- The name of a reference, with generic parameters by name. -/
def fullName (p : Program) : TypeRef → String
  | .absent => "?"
  | .decl t => p.fullName t
  | .param g => g.name
  | .applied t args => p.fullName t ++ "<" ++ ", ".intercalate (fullNames p args) ++ ">"
def fullNames (p : Program) : List TypeRef → List String
  | [] => []
  | a :: as => fullName p a :: fullNames p as
end

mutual
/-- The text of a reference, with generic parameters by position. -/
def text (p : Program) : TypeRef → String
  | .absent => "?"
  | .decl t => p.fullName t
  | .param g => g.text
  | .applied t args => p.fullName t ++ "<" ++ ", ".intercalate (texts p args) ++ ">"
def texts (p : Program) : List TypeRef → List String
  | [] => []
  | a :: as => text p a :: texts p as
end

def signatureText (p : Program) : TypeRef → String
  | .absent => "System.Void"
  | t => t.text p

/-- No value: the reference is absent or named as the empty type. -/
def isVoid (p : Program) : TypeRef → Bool
  | .absent => true
  | t => t.fullName p == "System.Void"

end TypeRef

namespace MethodRef

/-- The text of a method reference: a generic method shows how many parameters it has. -/
def text (p : Program) (r : MethodRef) : String :=
  let arity := if r.generics.isEmpty then "" else "\x60\x60" ++ toString r.generics.length
  r.returns.signatureText p ++ " " ++ r.declaring.signatureText p ++ "::" ++ r.name ++ arity ++
    "(" ++ ", ".intercalate (TypeRef.texts p r.params) ++ ")"

end MethodRef

namespace MethodOperand

def text (p : Program) : MethodOperand → String
  | .plain r => r.text p
  | .applied r args =>
    r.returns.signatureText p ++ " " ++ r.declaring.signatureText p ++ "::" ++ r.name ++
      "<" ++ ", ".intercalate (TypeRef.texts p args) ++ ">" ++
      "(" ++ ", ".intercalate (TypeRef.texts p r.params) ++ ")"

end MethodOperand

def FieldRef.text (p : Program) (f : FieldRef) : String :=
  f.fieldType.signatureText p ++ " " ++ f.declaring.signatureText p ++ "::" ++ f.name

/-- The text of an attribute argument. -/
def AttributeArg.written (p : Program) : AttributeArg → String
  | .type t => "typeof(" ++ t.text p ++ ")"
  | .text t => Text.Quoted.encode t
  | .bool b => if b then "true" else "false"
  | .int n => toString n

/-- An attribute argument in a message, where text stands for itself. -/
def AttributeArg.plain (p : Program) : AttributeArg → Octets
  | .type t => t.text p
  | .text t => t
  | .bool b => if b then "true" else "false"
  | .int n => toString n

namespace Program

/-- The full name of a method: its type, its name, its generic parameters and its parameter types. -/
def methodFullName (p : Program) (m : MethodId) : String :=
  let d := p.methodAt m
  let generics := if d.generics.isEmpty then "" else "<" ++ ", ".intercalate d.generics ++ ">"
  p.fullName m.owner ++ "::" ++ d.name ++ generics ++
    "(" ++ ", ".intercalate (TypeRef.fullNames p d.paramTypes) ++ ")"

/-- The text of an operand that is no branch, after a blank. -/
def operandText (p : Program) : Operand → String
  | .none => ""
  | .int n => " " ++ toString n
  | .text t => " " ++ Text.Quoted.encode t
  | .type t => " " ++ t.text p
  | .method m => " " ++ m.text p
  | .field f => " " ++ f.text p
  | .branch _ => ""

/-- The text of an instruction by itself, where a branch shows the operation that it leads to. -/
def instructionText (p : Program) (i : Instruction) : String :=
  match i.operand with
  | .branch target => i.opcode.name ++ " -> " ++ (p.instructionAt target).opcode.name
  | operand => i.opcode.name ++ p.operandText operand

end Program
end Loom
