import Loom.Config
import Loom.Weaving

/-!
Injecting specializations. The bodies of consumers are rewired from applied generic types to the clones that a sealed
registry has for them. Instructions are neither added nor removed nor moved.
-/
namespace Loom

/-- How many locals and operands of a method were rewired. -/
structure MethodInjection where
  method : String
  locals : Nat := 0
  operands : Nat := 0
  deriving DecidableEq, Inhabited

structure Injection where
  types : Nat
  methods : List MethodInjection
  deriving DecidableEq, Inhabited

/-- How much was rewired in all. -/
def Injection.total (i : Injection) : Nat := i.methods.foldr (fun m rest => m.locals + m.operands + rest) 0

namespace SealedRegistry

variable (s : SealedRegistry) (p : Program) (site : String)

/-- Reports a failed lookup at the method that is rewired. -/
def atSite {α : Type} : Except Failure α → Except Failure α
  | .error (.error e) => .error (.error (e.moveTo .ambiguousSpecialization site))
  | r => r

/-- The clone in place of a type with one argument, if there is one. -/
def injectType? (t : TypeRef) : Except Failure (Option TypeId) :=
  match t with
  | .applied element [argument] => do return (← atSite site (s.lookup p element argument)).map Entry.specialized
  | _ => .ok none

/-- The reference with the clone in its place, if there is one. -/
def injectType (t : TypeRef) : Except Failure TypeRef := do
  return ((← s.injectType? p site t).map .decl).getD t

/-- The method of a clone in place of a method of an applied type. Arguments after the first stay on the clone. -/
def injectMethodRef? (r : MethodRef) : Except Failure (Option MethodRef) :=
  match r.declaring with
  | .applied element args =>
    match p.findMethod? element r, args with
    | none, _ => .ok none
    | some _, [] => .error (.crash .noElement)
    | some m, first :: trailing => do
      match ← atSite site (s.lookupMethod p m first) with
      | none => return none
      | some (clone,entry) =>
        let declaring ← if trailing.isEmpty then pure (.decl entry.specialized)
          else (p.applyType entry.specialized trailing).mapError (.countAt site)
        return some (p.refOn clone declaring r.id.next)
  | _ => .ok none

def injectMethod? (o : MethodOperand) : Except Failure (Option MethodOperand) := do
  match ← s.injectMethodRef? p site o.ref with
  | none => return none
  | some r =>
    match o with
    | .plain _ => return some (.plain r)
    | .applied _ args => do
      let args ← args.mapM (s.injectType p site)
      return some (← (r.apply args).mapError (.countAt site))

/-- The field of a clone in place of a field of an applied type. -/
def injectField? (f : FieldRef) : Except Failure (Option FieldRef) := do
  match ← s.injectType? p site f.declaring with
  | none => return none
  | some t =>
    match (p.typeAt t).field? f.name with
    | none => throw (.weave .memberNotFound site (.fieldNotFound f.name (p.fullName t)))
    | some d => return some ⟨f.name,d.type,.decl t⟩

/-- The operand in place of another, if something is rewired in it. -/
def injectOperand? : Operand → Except Failure (Option Operand)
  | .type t => do return (← s.injectType? p site t).map fun c => .type (.decl c)
  | .method m => do return (← s.injectMethod? p site m).map .method
  | .field f => do return (← s.injectField? p site f).map .field
  | _ => .ok none

end SealedRegistry

namespace Injection

def rewireLocals (s : SealedRegistry) (m : MethodId) (site : String) : Nat → Nat → List TypeRef → Weaving Unit Nat
  | _, count, [] => return count
  | i, count, t :: rest => do
    let p ← Weaving.program
    match ← Weaving.ofExcept (s.injectType? p site t) with
    | none => rewireLocals s m site (i + 1) count rest
    | some c =>
      Weaving.setProgram (p.modifyBody m fun b => { b with locals := b.locals.set i (.decl c) })
      rewireLocals s m site (i + 1) (count + 1) rest

def rewireOperands (s : SealedRegistry) (site : String) : Nat → List InstructionId → Weaving Unit Nat
  | count, [] => return count
  | count, i :: rest => do
    let p ← Weaving.program
    match ← Weaving.ofExcept (s.injectOperand? p site (p.instructionAt i).operand) with
    | none => rewireOperands s site count rest
    | some operand =>
      Weaving.setProgram (p.modifyInstruction i fun ins => { ins with operand })
      rewireOperands s site (count + 1) rest

def rewireMethod (s : SealedRegistry) (m : MethodId) : Weaving Unit MethodInjection := do
  let p ← Weaving.program
  let site := p.methodFullName m
  match (p.methodAt m).body with
  | none => return { method := site }
  | some body =>
    let locals ← rewireLocals s m site 0 0 body.locals
    let operands ← rewireOperands s site 0 body.code
    unless locals + operands = 0 do
      Weaving.report ("injected " ++ site ++ ": " ++ toString locals ++ " locals, " ++ toString operands ++ " operands")
    return ⟨site,locals,operands⟩

def rewire (s : SealedRegistry) (ts : List TypeId) : Weaving Unit Injection := do
  let p ← Weaving.program
  let methods ← (ts.flatMap p.methodsOf).mapM (rewireMethod s)
  return ⟨ts.length,methods⟩

/-- Rewires the top-level types of a module that carry the marker. -/
def run (s : SealedRegistry) (home : ModuleId) (config : Config) : Weaving Unit Injection := do
  let p ← Weaving.program
  rewire s ((p.moduleAt home).types.filter fun t => p.hasAttribute t config.injectMarker)

end Injection
end Loom
