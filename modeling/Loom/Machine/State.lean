import Loom.Machine.Fault
import Loom.Machine.Value

/-!
The state of the machine: the store, one operand stack for all activations, and the activations. An activation takes
operands only from above the height that the stack had when it began.
-/
namespace Loom.Machine

/-- What the generic parameters of an activation stand for. -/
structure Context where
  typeArgs : List TypeRef := []
  methodArgs : List TypeRef := []
  deriving Inhabited

namespace Context

/-- What a parameter stands for: one without an argument stays. -/
def param (c : Context) (g : GenericParam) : TypeRef :=
  ((if g.isMethod then c.methodArgs else c.typeArgs)[g.position]?).getD (.param g)

/-- Puts arguments in the place of parameters. -/
def subst (c : Context) (t : TypeRef) : TypeRef := t.mapParams c.param

end Context

/-- What the caller of a method is given when it ends. -/
inductive Delivery where
  /-- The value that the method returns, if it returns one. -/
  | result
  /-- The object that the method has constructed. -/
  | object (v : Value)
  deriving Inhabited

/-- The activation of a method. -/
structure Frame where
  method : MethodId
  context : Context
  args : List SlotId
  locals : List SlotId
  /-- The place of the next instruction. -/
  next : Nat := 0
  /-- The height of the operand stack at the start. -/
  base : Nat
  delivery : Delivery
  deriving Inhabited

/-- The machine. Places of branch targets are looked up once for each body and kept, and so are the types of plain
    values. -/
structure State where
  heap : Heap := {}
  /-- The operands, the last one first. -/
  stack : List Value := []
  /-- The activations, the innermost first. -/
  frames : List Frame := []
  labels : List (MethodId × List InstructionId) := []
  /-- The types that were looked up by name, found or not. -/
  types : List (String × Option TypeId) := []
  deriving Inhabited

/-- The height below which the operands belong to other activations. -/
def State.base (s : State) : Nat := (s.frames.head?.map Frame.base).getD 0

/-- The innermost activation goes on behind its instruction. -/
def State.advance (s : State) : State :=
  { s with frames := s.frames.modifyHead fun f => { f with next := f.next + 1 } }

/-- The number of activations that the machine holds. -/
def maxFrames : Nat := 1024

/-- How a run ends without a value. -/
inductive Stop where
  /-- A fault; inside a run with the activations at that point, innermost first. -/
  | fault (f : Fault) (trace : Option (List String))
  /-- The run takes more steps than it was given. -/
  | unbounded
  deriving Inhabited

/-- A run of the machine. What it has changed stays when it stops. -/
abbrev Run := ExceptT Stop (StateM State)

/-- The line of an activation in a trace: the method and the instruction it is at. -/
def Frame.line (p : Program) (f : Frame) : String :=
  p.methodFullName f.method ++ " IL_" ++ Text.Decimal.padded 4 (f.next - 1 : Nat)

namespace Run

variable {α : Type} (p : Program)

def raise (f : Fault) : Run α := do throw (.fault f (some ((← get).frames.map (Frame.line p))))

/-- Goes on with a value, or stops with a fault. -/
def orRaise (f : Fault) : Option α → Run α
  | some a => return a
  | none => raise p f

/-- Goes on with a value, or gives up. -/
def orUnbounded : Option α → Run α
  | some a => return a
  | none => throw .unbounded

def heap : Run Heap := do return (← get).heap

def setHeap (h : Heap) : Run Unit := modify fun s => { s with heap := h }

def format (v : Value) : Run Text.Octets := do return (← heap).format p v

def push (v : Value) : Run Unit := modify fun s => { s with stack := v :: s.stack }

/-- The last operand. -/
def peek : Run Value := do
  let s ← get
  match s.stack with
  | v :: _ => if s.stack.length ≤ s.base then raise p .stackUnderflow else return v
  | [] => raise p .stackUnderflow

/-- Takes the last operand. -/
def pop : Run Value := do
  let v ← peek p
  modify fun s => { s with stack := s.stack.tail }
  return v

/-- Takes the last operands and returns them in the order they were pushed. -/
def popMany : Nat → Run (List Value)
  | 0 => return []
  | n + 1 => do
    let last ← pop p
    return (← popMany n) ++ [last]

/-- Pushes a copy of a value. Objects that hold themselves have none. -/
def pushCopy (bound : Nat) (v : Value) : Run Unit := do
  let (v,h) ← orUnbounded (Heap.copyWithin p bound (← heap) v)
  setHeap h
  push v

end Run
end Loom.Machine
