import Loom.Machine.Activation
import Loom.Machine.Step

/-!
Running methods. A step does one instruction of the innermost activation; a run makes steps until the outermost
activation has ended. The number of steps is bounded, and so are the searches inside a step.
-/
namespace Loom.Machine

open Run

/-- Carries out what an instruction of an activation asks for. -/
def perform (p : Program) (bound : Nat) (frame : Frame) : Effect → Run (Option Value)
  | .next => return none
  | .ret => finish p frame
  | .invoke m c this args => begin p bound m c this args .result
  | .construct t typeArgs ctor args => construct p bound t typeArgs ctor args

/-- Does one instruction. The step that ends the outermost activation has the value of the run. -/
def step (p : Program) (home : ModuleId) (bound : Nat) : Run (Option Value) := do
  let frame := ((← get).frames.head?).getD default
  match (codeOf p frame.method)[frame.next]? with
  | none => raise p (.endless (p.methodFullName frame.method))
  | some i =>
    modify State.advance
    perform p bound frame (← (⟨p,home,frame,bound⟩ : Site).step (p.instructionAt i))

/-- Makes steps until the run has a value, at most so many. -/
def steps (p : Program) (home : ModuleId) (bound : Nat) : Nat → Run Value
  | 0 => throw .unbounded
  | n + 1 => do
    match ← step p home bound with
    | some v => return v
    | none => steps p home bound n

/-- Runs what has begun to its end. -/
def runOut (p : Program) (home : ModuleId) (bound : Nat) (start : Run (Option Value)) : Run Value := do
  match ← start with
  | some v => return v
  | none => steps p home bound bound

/-- Runs what has begun to its end. Afterwards no activation and no operand is left. -/
def complete (p : Program) (home : ModuleId) (bound : Nat) (start : Run (Option Value)) : Run Value := do
  let r ← tryCatch (.ok <$> runOut p home bound start) fun e => return .error e
  modify fun s => { s with frames := [], stack := [] }
  ExceptT.mk (pure r)

/-- Stops before anything is run. -/
def refuse {α : Type} (f : Fault) : Run α := throw (.fault f none)

/-- Runs the static method of a type with that name and as many parameters. -/
def call (bound : Nat) (p : Program) (home : ModuleId) (type method : String) (args : List Value) : Run Value :=
  match p.findType? home type with
  | none => refuse (.typeNotFound type)
  | some t =>
    match findByArity? p t method args.length true with
    | none => refuse (.noStatic type method args.length)
    | some m => complete p home bound (begin p bound m {} .null args .result)

/-- Makes an instance of a type with the constructor that has as many parameters. -/
def create (bound : Nat) (p : Program) (home : ModuleId) (type : TypeRef) (args : List Value) : Run Value :=
  match type.element? with
  | none => refuse (.notConstructible (refName p type))
  | some t =>
    match findByArity? p t ".ctor" args.length false with
    | none => refuse (.noConstructor (p.fullName t) args.length)
    | some m => complete p home bound (construct p bound t type.arguments m args)

def callMethod (bound : Nat) (p : Program) (home : ModuleId) (this : Value) (method : String) (args : List Value) :
    Run Value := do
  let h ← heap
  let receiver := h.load this
  if receiver = .null then refuse .nullReceiver
  let find (t : TypeId) (typeArgs : List TypeRef) : Option (MethodId × List TypeRef) :=
    (findByArity? p t method args.length false).map (·,typeArgs)
  match ← searchType p home find bound receiver with
  | none => refuse (.noMethod (h.format p receiver) method args.length)
  | some (m,typeArgs) => complete p home bound (begin p bound m { typeArgs } this args .result)

/-- How many steps a run may take before it is given up. -/
def budget : Nat := 1000000000

end Loom.Machine
