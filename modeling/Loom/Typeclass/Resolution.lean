import Loom.Config
import Loom.Typeclass.Index
import Loom.Weaving

/-!
Resolving typeclasses. A call of the resolution primitive is replaced by the construction of the implementation that
the index has for the requested type; a generic implementation is specialized first, and its clones are woven too.
-/
namespace Loom

/-- The resolution of typeclasses in a module. -/
structure Resolver where
  home : ModuleId
  config : Config
  index : TypeclassIndex
  /-- The types to weave, in order. -/
  queue : List TypeId := []
  /-- The number of calls replaced so far. -/
  callSites : Nat := 0
  /-- The specializations made so far. -/
  specializations : List Entry := []
  deriving Inhabited

def Resolver.start (p : Program) (home : ModuleId) (config : Config) : Resolver :=
  { home, config, index := p.typeclassIndex home config.typeclassMarker }

namespace Program

def constructor? (p : Program) (t : TypeId) (params : List TypeRef) : Option MethodId :=
  (p.methodsNamed t ".ctor").find? fun m =>
    let d := p.methodAt m
    !d.isStatic && p.sameList d.paramTypes params

def bodyOf (p : Program) (m : MethodId) : Body := (p.methodAt m).body.getD {}

/-- Puts a body in place. -/
def setBody (p : Program) (m : MethodId) (b : Body) : Program := p.modifyMethod m fun d => { d with body := some b }

/-- Puts new instructions in the place of one, in order. Branches to it lead to the first of them. -/
def substituteIn (p : Program) (m : MethodId) (target : InstructionId) (first : Instruction) (rest : List Instruction) :
    Except Failure Program :=
  let (i,p) := p.addInstruction first
  match p.replaceIn? (p.bodyOf m) target i with
  | none => .error (p.notInBody target)
  | some (p,b) =>
    let (p,b,_) := rest.foldl
      (fun (p,b,last) ins =>
        let (i,p) := p.addInstruction ins
        (p,(b.insertAfter? last i).getD b,i))
      (p,b,i)
    .ok (p.setBody m b)

end Program

namespace Resolver

/-- The requested type of a call of the primitive, with the call's method. -/
def request? (config : Config) (p : Program) (i : Instruction) : Option (TypeRef × MethodRef) :=
  match i.opcode, i.operand with
  | .call, .method (.applied r [typeclass]) =>
    if r.name == config.resolverMethod && !r.declaring.isAbsent && r.declaring.fullName p == config.resolverType then
      some (typeclass,r)
    else none
  | _, _ => none

/-- The clone of a generic implementation for an argument, made at the first request. Clones join the queue. -/
def specialization (place : Nat) (argument : TypeRef) : Weaving Resolver TypeId := do
  let r ← Weaving.own
  let p ← Weaving.program
  let i := (r.index.generic[place]?).getD default
  match i.specializations.find? fun e => p.same e.argument argument with
  | some e => return e.specialized
  | none =>
    let entry ← Weaving.cloning (Cloning.specialize { delimiter := r.config.delimiter } r.home i.implementation argument)
    let generic := r.index.generic.modify place fun i => { i with specializations := i.specializations ++ [entry] }
    Weaving.setOwn
      { r with
        index := { r.index with generic }
        specializations := r.specializations ++ [entry]
        queue := r.queue ++ entry.flatten.map Entry.specialized }
    let p ← Weaving.program
    Weaving.report ("specialized typeclass " ++ p.fullName i.implementation ++ " for " ++ argument.fullName p)
    return entry.specialized

def resolve (typeclass : TypeRef) : Weaving Resolver TypeId := do
  let r ← Weaving.own
  let p ← Weaving.program
  let site := typeclass.fullName p
  match typeclass with
  | .absent => throw (.crash .absent)
  | .applied marker [argument] =>
    unless p.hasAttribute marker r.config.typeclassMarker do
      throw (.weave .unresolvedTypeclass site .notTypeclass)
    match r.index.lookup p marker argument with
    | [i] => return i.implementation
    | _ :: _ :: more =>
      throw (.weave .ambiguousSpecialization site (.severalImplementations (more.length + 2)))
    | [] =>
      match r.index.lookupGeneric p marker argument with
      | [] => throw (.weave .unresolvedTypeclass site .noImplementation)
      | [(place,argument)] => specialization place argument
      | found => throw (.weave .ambiguousSpecialization site (.severalGenericImplementations found.length))
  | _ => throw (.weave .unresolvedTypeclass site .notTypeclass)

/-- Replaces a call without a value by a default implementation: a fresh object, or an initialised local in a box for
    a value type. -/
def replaceInstance (p : Program) (m : MethodId) (call : InstructionId) (t : TypeId) (id : RefId) :
    Except Failure Program :=
  if (p.typeAt t).isValueType then
    let (v,b) := (p.bodyOf m).addLocal (.decl t)
    let p := p.setBody m { b with initLocals := true }
    p.substituteIn m call ⟨.loadLocalAddress,.int v⟩
      [⟨.initObject,.type (.decl t)⟩,⟨.loadLocal,.int v⟩,⟨.box,.type (.decl t)⟩]
  else match p.constructor? t [] with
    | none => .error (.weave .memberNotFound (p.methodFullName m) (.noDefaultConstructor (p.fullName t)))
    | some c => p.substituteIn m call ⟨.newObject,.method (.plain (p.refOn c (.decl t) id))⟩ []

/-- Takes out the box right before a call. -/
def dropBox (p : Program) (m : MethodId) (call : InstructionId) : Program :=
  let b := p.bodyOf m
  match b.previous? call with
  | some i =>
    if (p.instructionAt i).opcode = .box then
      match p.removeIn? b i with
      | some (p,b) => p.setBody m b
      | none => p
    else p
  | none => p

/-- Replaces a call with a value by an implementation constructed around the value, which is not boxed any more. -/
def replaceWithValue (p : Program) (m : MethodId) (call : InstructionId) (t : TypeId) (argument : TypeRef)
    (id : RefId) : Except Failure Program :=
  match p.constructor? t [argument] with
  | none =>
    .error (.weave .memberNotFound (p.methodFullName m) (.noConstructorTaking (p.fullName t) (argument.fullName p)))
  | some c =>
    (dropBox p m call).substituteIn m call ⟨.newObject,.method (.plain (p.refOn c (.decl t) id))⟩
      (if (p.typeAt t).isValueType then [⟨.box,.type (.decl t)⟩] else [])

/-- Reports a failed resolution at the method that is woven. A report that is there already stays as it is. -/
def atMethod (site : String) : Failure → Failure
  | .error e =>
    if e.diagnostic?.any (·.site == site) then .error e else .error (e.moveTo .unresolvedTypeclass site)
  | f => f

/-- Weaves one instruction of a method. A request for an open type is left to the specializations of the method's
    type. -/
def weaveInstruction (m : MethodId) (i : InstructionId) : Weaving Resolver Unit := do
  let r ← Weaving.own
  let p ← Weaving.program
  match request? r.config p (p.instructionAt i) with
  | none => return ()
  | some (typeclass,method) =>
    let site := p.methodFullName m
    if typeclass.isOpen then
      Weaving.report (site ++ ": skipping open request " ++ typeclass.fullName p)
    else
      let t ← tryCatch (resolve typeclass) fun f => throw (atMethod site f)
      let p ← Weaving.program
      let edited := if method.params.isEmpty then replaceInstance p m i t method.id.next
        else replaceWithValue p m i t (typeclass.arguments.headD .absent) method.id.next
      match edited with
      | .error f => throw f
      | .ok p =>
        Weaving.setProgram p
        let r ← Weaving.own
        Weaving.setOwn { r with callSites := r.callSites + 1 }
        Weaving.report (site ++ ": resolved " ++ typeclass.fullName p ++ " to " ++ p.fullName t)

def weaveMethod (m : MethodId) : Weaving Resolver Unit := do
  (((← Weaving.program).methodAt m).body.getD {}).code.forM (weaveInstruction m)

/-- Weaves the queue from the given place on. The queue can grow on the way. -/
def weaveQueue : Nat → Nat → Weaving Resolver Unit
  | 0, _ => throw .unbounded
  | n + 1, place => do
    match (← Weaving.own).queue[place]? with
    | none => return ()
    | some t =>
      ((← Weaving.program).methodsOf t).forM weaveMethod
      weaveQueue n (place + 1)

/-- Weaves every type outside the generic implementations, then the specializations made on the way. A run that would
    weave more types than the bound is given up. -/
def run (bound : Nat) : Weaving Resolver Unit := do
  let r ← Weaving.own
  let p ← Weaving.program
  let types := (p.allTypes r.home).filter fun t => !r.index.isInsideGeneric p t
  Weaving.setOwn { r with queue := r.queue ++ types }
  weaveQueue bound 0

/-- How many types a run may weave. -/
def budget : Nat := 1000000

end Resolver
end Loom
