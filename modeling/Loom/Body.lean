import Loom.Error

/-!
Editing bodies. An edit names the instruction it is about; branches that led to a replaced or removed instruction
follow to the one that takes its place.
-/
namespace Loom

namespace Body

/-- The first place of an instruction. -/
def indexOf? (b : Body) (i : InstructionId) : Option Nat := b.code.findIdx? (· == i)

def lastIndexOf? (b : Body) (i : InstructionId) : Option Nat :=
  (b.code.reverse.findIdx? (· == i)).map (b.code.length - 1 - ·)

/-- The instruction before the first place of the given one. -/
def previous? (b : Body) (i : InstructionId) : Option InstructionId :=
  match b.indexOf? i with
  | some (n + 1) => b.code[n]?
  | _ => none

def addLocal (b : Body) (t : TypeRef) : Nat × Body := (b.locals.length,{ b with locals := b.locals ++ [t] })

/-- Adds instructions at the end. -/
def append (b : Body) (is : List InstructionId) : Body := { b with code := b.code ++ is }

/-- Puts an instruction right before another. -/
def insertBefore? (b : Body) (target i : InstructionId) : Option Body :=
  (b.indexOf? target).map fun n => { b with code := b.code.insertIdx n i }

/-- Puts an instruction right after another. -/
def insertAfter? (b : Body) (target i : InstructionId) : Option Body :=
  (b.indexOf? target).map fun n => { b with code := b.code.insertIdx (n + 1) i }

end Body

/-- Leads a branch elsewhere if it leads to the given instruction. -/
def Instruction.retarget (source target : InstructionId) (i : Instruction) : Instruction :=
  match i.operand with
  | .branch t => if t = source then { i with operand := .branch target } else i
  | _ => i

namespace Program

/-- Leads every branch among the given instructions elsewhere that leads to the given instruction. -/
def retarget (p : Program) (code : List InstructionId) (source target : InstructionId) : Program :=
  code.foldl (fun p i => p.modifyInstruction i (Instruction.retarget source target)) p

/-- Puts an instruction in the place of another. Branches to the old one lead to the new one. -/
def replaceIn? (p : Program) (b : Body) (target i : InstructionId) : Option (Program × Body) :=
  (b.indexOf? target).map fun n =>
    let b := { b with code := b.code.set n i }
    (p.retarget b.code target i,b)

/-- Takes an instruction out. Branches to it lead to its successor, if it has one. -/
def removeIn? (p : Program) (b : Body) (target : InstructionId) : Option (Program × Body) :=
  (b.indexOf? target).map fun n =>
    let b := { b with code := b.code.eraseIdx n }
    match b.code[n]? with
    | some next => (p.retarget b.code target next,b)
    | none => (p,b)

/-- An edit about an instruction that the body does not hold. -/
def notInBody (p : Program) (i : InstructionId) : Failure :=
  .error (.cause (.notInBody (p.instructionText (p.instructionAt i))))

end Program

/-- A value offered as an operand. No operation takes a truth value. -/
inductive Offer where
  | operand (o : Operand)
  | bool (b : Bool)

/-- The form of an offered value, in words. -/
def Offer.form : Offer → String
  | .bool _ => "bool"
  | .operand .none => "<nil>"
  | .operand (.int _) => "int"
  | .operand (.text _) => "string"
  | .operand (.type (.decl _)) => "*metadata.TypeDef"
  | .operand (.type (.param _)) => "*metadata.GenericParam"
  | .operand (.type (.applied _ _)) => "*metadata.GenericInstance"
  | .operand (.type .absent) => "<nil>"
  | .operand (.method (.plain _)) => "*metadata.MethodRef"
  | .operand (.method (.applied _ _)) => "*metadata.GenericInstanceMethod"
  | .operand (.field _) => "*metadata.FieldRef"
  | .operand (.branch _) => "*metadata.Instruction"

/-- Builds an instruction, if the offered value is of the kind that the operation takes. -/
def Instruction.create (opcode : Opcode) (offer : Offer) : Except Failure Instruction :=
  match offer with
  | .operand operand =>
    if operand.kind = opcode.operandKind then .ok { opcode, operand }
    else .error (.error (.cause (.operandMismatch offer.form opcode)))
  | .bool _ => .error (.error (.cause (.operandMismatch offer.form opcode)))

end Loom
