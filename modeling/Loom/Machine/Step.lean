import Loom.Body
import Loom.Machine.Memory

/-!
One instruction. It either goes on, returns, or asks for a method to be run or an object to be constructed.
-/
namespace Loom.Machine

open Run

def codeOf (p : Program) (m : MethodId) : List InstructionId := ((p.methodAt m).body.getD {}).code

/-- The instructions of a method among which branches find their targets, as they were at the first branch. -/
def labelsOf (p : Program) (m : MethodId) : Run (List InstructionId) := do
  match (← get).labels.lookup m with
  | some code => return code
  | none =>
    modify fun s => { s with labels := (m,codeOf p m) :: s.labels }
    return codeOf p m

/-- What is to happen after an instruction. -/
inductive Effect where
  | next
  | ret
  | invoke (m : MethodId) (c : Context) (this : Value) (args : List Value)
  | construct (t : TypeId) (typeArgs : List TypeRef) (m : MethodId) (args : List Value)

/-- Where an instruction runs: the program, its module, the activation, and a bound on searches. -/
structure Site where
  program : Program
  home : ModuleId
  frame : Frame
  bound : Nat

namespace Site

variable (s : Site)

def operand {α : Type} (ofKind? : Operand → Option α) (i : Instruction) : Run α :=
  orRaise s.program .operandKind (ofKind? i.operand)

def intOperand : Instruction → Run Int := s.operand fun
  | .int n => some n
  | _ => none

def textOperand : Instruction → Run Text.Octets := s.operand fun
  | .text t => some t
  | _ => none

def typeOperand : Instruction → Run TypeRef := s.operand fun
  | .type t => some t
  | _ => none

def methodOperand : Instruction → Run MethodOperand := s.operand fun
  | .method m => some m
  | _ => none

def fieldOperand : Instruction → Run FieldRef := s.operand fun
  | .field f => some f
  | _ => none

def branchOperand : Instruction → Run InstructionId := s.operand fun
  | .branch t => some t
  | _ => none

def slot (slots : List SlotId) (i : Instruction) : Run SlotId := do
  let n ← s.intOperand i
  orRaise s.program (.slotRange (s.program.instructionText i)) (if n < 0 then none else slots[n.toNat]?)

/-- The object whose field an instruction names. -/
def object (v : Value) (f : FieldRef) : Run ObjectId := do
  match (← heap).load v with
  | .null => raise s.program (.nullField f.name)
  | .object o => return o
  | _ => raise s.program (.fieldless (← format s.program v))

/-- Goes on at the target of a branch. -/
def jump (i : Instruction) : Run Effect := do
  let m := s.frame.method
  let code ← labelsOf s.program m
  let target ← s.branchOperand i
  match ({ code } : Body).lastIndexOf? target with
  | none => raise s.program (.branchOutside (s.program.methodFullName m))
  | some place =>
    modify fun st => { st with frames := st.frames.modifyHead fun f => { f with next := place } }
    return .next

/-- Two numbers from the stack. -/
def numbers (i : Instruction) : Run (Int32 × Int32) := do
  let b ← pop s.program
  let a ← pop s.program
  match a.int?, b.int? with
  | some x, some y => return (x,y)
  | _, _ => raise s.program (.badOperands i.opcode.name (← format s.program a) (← format s.program b))

/-- The method that an operand names in this activation, with its declaring type. -/
def target (o : MethodOperand) : Run (MethodId × TypeId × TypeRef) := do
  let declaring := s.frame.context.subst o.ref.declaring
  let found := declaring.element?.bind fun t => (resolveOn? s.program t o.ref).map fun m => (m,t,declaring)
  orRaise s.program (.unresolved (o.text s.program)) found

/-- Prepares the call of a method on a receiver. A virtual call runs the override that the receiver has. -/
def callOn (isVirtual : Bool) (m : MethodId) (c : Context) (this : Value) (args : List Value) : Run Effect := do
  let p := s.program
  let receiver := (← heap).load this
  if receiver = .null then raise p (.nullCall (p.methodFullName m))
  else if isVirtual && (p.methodAt m).isVirtual then
    match ← dispatch p s.home s.bound receiver (p.methodAt m) with
    | none => raise p (.noOverride (p.methodFullName m) (← format p receiver))
    | some (m,typeArgs) => return .invoke m { c with typeArgs } this args
  else return .invoke m c this args

def call (i : Instruction) (isVirtual : Bool) : Run Effect := do
  let o ← s.methodOperand i
  let (m,_,declaring) ← s.target o
  let c : Context := ⟨declaring.arguments,o.arguments.map s.frame.context.subst⟩
  let d := s.program.methodAt m
  let args ← popMany s.program d.params.length
  if d.isStatic then return .invoke m c .null args
  else s.callOn isVirtual m c (← pop s.program) args

def step (i : Instruction) : Run Effect := do
  let p := s.program
  let frame := s.frame
  match i.opcode with
  | .nop | .constrained => return .next
  | .loadArg =>
    let slot ← s.slot frame.args i
    let v := (← heap).slotAt slot
    if i.operand == .int 0 && !(p.methodAt frame.method).isStatic then push v else pushCopy p s.bound v
    return .next
  | .loadArgAddress =>
    let (v,h) := (← heap).takeAddress (← s.slot frame.args i)
    setHeap h
    push v
    return .next
  | .storeArg =>
    let slot ← s.slot frame.args i
    let v ← pop p
    setHeap ((← heap).setSlot slot v)
    return .next
  | .loadLocal =>
    let slot ← s.slot frame.locals i
    pushCopy p s.bound ((← heap).slotAt slot)
    return .next
  | .loadLocalAddress =>
    let (v,h) := (← heap).takeAddress (← s.slot frame.locals i)
    setHeap h
    push v
    return .next
  | .storeLocal =>
    let slot ← s.slot frame.locals i
    let v ← pop p
    setHeap ((← heap).setSlot slot v)
    return .next
  | .loadInt =>
    push (.int (.ofInt (← s.intOperand i)))
    return .next
  | .loadText =>
    push (.text (← s.textOperand i))
    return .next
  | .loadNull =>
    push .null
    return .next
  | .loadField =>
    let f ← s.fieldOperand i
    let o ← s.object (← pop p) f
    match (← heap).field? o f.name with
    | none => raise p (.noField (← format p (.object o)) f.name)
    | some v =>
      pushCopy p s.bound v
      return .next
  | .storeField =>
    let f ← s.fieldOperand i
    let v ← pop p
    let o ← s.object (← pop p) f
    match (← heap).field? o f.name with
    | none => raise p (.noField (← format p (.object o)) f.name)
    | some _ =>
      setHeap ((← heap).setField o f.name v)
      return .next
  | .call => s.call i false
  | .callVirtual => s.call i true
  | .newObject =>
    let (m,t,declaring) ← s.target (← s.methodOperand i)
    return .construct t declaring.arguments m (← popMany p (p.methodAt m).params.length)
  | .ret => return .ret
  | .pop =>
    discard (pop p)
    return .next
  | .dup =>
    push (← peek p)
    return .next
  | .box | .unbox =>
    let v ← pop p
    pushCopy p s.bound ((← heap).load v)
    return .next
  | .initObject =>
    match ← pop p with
    | .address _ slot =>
      let t := frame.context.subst (← s.typeOperand i)
      let (v,h) ← orUnbounded (zeroWithin p s.bound t (← heap))
      setHeap (h.setSlot slot v)
      return .next
    | _ => raise p .noAddress
  | .castClass =>
    let t := frame.context.subst (← s.typeOperand i)
    let v ← peek p
    if v = .null then return .next
    if ← isAssignable p s.home s.bound v t then return .next
    raise p (.badCast (← format p v) (t.fullName p))
  | .add =>
    let (x,y) ← s.numbers i
    push (.int (x + y))
    return .next
  | .sub =>
    let (x,y) ← s.numbers i
    push (.int (x - y))
    return .next
  | .mul =>
    let (x,y) ← s.numbers i
    push (.int (x * y))
    return .next
  | .equal =>
    let b ← pop p
    let a ← pop p
    push (.bool (a.isSame b))
    return .next
  | .greater =>
    let (x,y) ← s.numbers i
    push (.bool (y < x))
    return .next
  | .less =>
    let (x,y) ← s.numbers i
    push (.bool (x < y))
    return .next
  | .branch => s.jump i
  | .branchTrue => if (← pop p).isTruthy then s.jump i else return .next
  | .branchFalse => if (← pop p).isTruthy then return .next else s.jump i
  | .unknown _ => raise p (.unknownOpcode i.opcode.name)

end Site
end Loom.Machine
