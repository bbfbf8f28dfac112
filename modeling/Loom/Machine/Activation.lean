import Loom.Machine.Native
import Loom.Machine.Memory

/-!
Activations: how a method begins, and how what it yields reaches its caller. A native method ends as soon as it begins;
a method with a body becomes the innermost activation.
-/
namespace Loom.Machine

open Run

def allocate : List Value → Run (List SlotId)
  | [] => return []
  | v :: rest => do
    let (slot,h) := (← heap).addSlot v
    setHeap h
    return slot :: (← allocate rest)

def zeroLocals (p : Program) (bound : Nat) (c : Context) : List TypeRef → Run (List Value)
  | [] => return []
  | t :: rest => do
    let (v,h) ← orUnbounded (zeroWithin p bound (c.subst t) (← heap))
    setHeap h
    return v :: (← zeroLocals p bound c rest)

def invokeNative (p : Program) (bound : Nat) (m : MethodId) (c : Context) (this : Value) (args : List Value) :
    Run Value := do
  let key := (p.methodAt m).native
  match Native.ofKey? key with
  | none => raise p (.unknownNative key)
  | some op =>
    match op.run p bound c (← heap) this args with
    | .value v h =>
      setHeap h
      return v
    | .fault f => raise p (.within (p.methodFullName m) f)
    | .crash => raise p .missingArgument
    | .unbounded => throw .unbounded

def enterFrame (p : Program) (bound : Nat) (m : MethodId) (body : Body) (c : Context) (this : Value)
    (args : List Value) (delivery : Delivery) : Run Unit := do
  let base := (← get).stack.length
  let args ← allocate (if (p.methodAt m).isStatic then args else this :: args)
  let locals ← allocate (← zeroLocals p bound c body.locals)
  modify fun s => { s with frames := { method := m, context := c, args, locals, base, delivery } :: s.frames }

/-- Ends the innermost activation. What it left on the stack is dropped. -/
def leaveFrame : Run Unit := modify fun s =>
  match s.frames with
  | f :: frames => { s with frames, stack := s.stack.drop (s.stack.length - f.base) }
  | [] => s

def result (p : Program) (m : MethodId) : Run Value := do
  let returns := (p.methodAt m).returns
  if returns.isVoid p then return .null
  let v ← pop p
  if returns.fullName p = "System.Boolean" then return .bool v.isTruthy
  return v

/-- Ends a method that returns a value: the caller is given its due, or the run is over and has a value. -/
def deliver (p : Program) (m : MethodId) (v : Value) (delivery : Delivery) : Run (Option Value) := do
  let isLast := (← get).frames.isEmpty
  match delivery with
  | .result =>
    if isLast then return some v
    unless (p.methodAt m).returns.isVoid p do push v
    return none
  | .object o =>
    if isLast then return some o
    push o
    return none

/-- Stops where the machine holds no further activation. -/
def checkDepth (p : Program) : Run Unit := do
  if maxFrames ≤ (← get).frames.length then raise p .stackOverflow

def begin (p : Program) (bound : Nat) (m : MethodId) (c : Context) (this : Value) (args : List Value)
    (delivery : Delivery) : Run (Option Value) := do
  checkDepth p
  let this := (← heap).load this
  let d := p.methodAt m
  if !d.native.isEmpty then deliver p m (← invokeNative p bound m c this args) delivery
  else match d.body with
    | none => raise p (.withoutBody (p.methodFullName m))
    | some body =>
      enterFrame p bound m body c this args delivery
      return none

/-- Ends the innermost activation, which is the given one. -/
def finish (p : Program) (f : Frame) : Run (Option Value) := do
  let v ← result p f.method
  leaveFrame
  deliver p f.method v f.delivery

def constructNatively (p : Program) (bound : Nat) (m : MethodId) (c : Context) (args : List Value) : Run Value := do
  if (p.methodAt m).native.isEmpty then return .null
  checkDepth p
  invokeNative p bound m c .null args

/-- Makes an object and begins a constructor on it, unless a native constructor makes the value itself. -/
def construct (p : Program) (bound : Nat) (t : TypeId) (typeArgs : List TypeRef) (ctor : MethodId) (args : List Value) :
    Run (Option Value) := do
  let c : Context := { typeArgs }
  let own ← constructNatively p bound ctor c args
  if own ≠ .null then deliver p ctor own (.object own)
  else
    let (v,h) ← orUnbounded (newObjectWithin p bound t typeArgs (← heap))
    setHeap h
    begin p bound ctor c v args (.object v)

end Loom.Machine
