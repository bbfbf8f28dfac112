import Loom.Body
import Loom.Specialization.Registry
import Loom.Specialization.Scope

/-!
Cloning a generic type for an argument of its first parameter. The clones of the type and of its nested types are
declared first, then their members, then their bodies, so that every clone can refer to every other. References are
substituted, redirected to the clones and moved onto the parameters that are left over.
-/
namespace Loom

/-- How clones are named, and which attributes they do not take over. -/
structure CloneStyle where
  delimiter : String
  dropped : List String := []
  deriving Inhabited

/-- Cloning extends a program; what it has declared stays when it fails. -/
abbrev Cloning := ExceptT Failure (StateM Program)

/-- A clone with the type it is made from and the scopes that hold inside it. -/
structure Shell where
  source : TypeId
  clone : TypeId
  chain : List Scope
  deriving Inhabited

/-- Where a reference stands that is brought over to a clone. -/
structure CloneSite where
  family : List Scope
  chain : List Scope
  /-- The method and its clone, inside a method. -/
  method : Option (MethodId × MethodId) := none

namespace CloneSite

def isProduced (s : CloneSite) (t : TypeId) : Bool := s.family.any (·.produced == t)

def clone? (s : CloneSite) (m : MethodId) : Option MethodId :=
  (s.family.find? (·.owner == m.owner)).map fun c => ⟨c.produced,m.position⟩

/-- The name of the place, for reports. -/
def name (s : CloneSite) (p : Program) : String :=
  match s.method, s.chain with
  | some (_,clone), _ => p.methodFullName clone
  | none, scope :: _ => p.fullName scope.produced
  | none, [] => ""

/-- Brings a type reference over: substitutes, redirects, then moves what parameters are left. -/
def type (s : CloneSite) (p : Program) (t : TypeRef) : Except Failure TypeRef := do
  let t ← p.redirect s.family (Scope.resolve s.chain t)
  let t := p.rebindScoped s.chain t
  match s.method with
  | some (source,clone) => return p.rebind (.method source) (.method clone) 0 t
  | none => return t

/-- The reference that the clone has in the place of another. -/
def refId (s : CloneSite) (r : RefId) : RefId :=
  match s.method with
  | some (_,clone) => { r with method := clone }
  | none => r

/-- Brings a plain method reference over. A member of the family is referred to through its clone; any other member
    keeps its signature. -/
def methodRef (s : CloneSite) (p : Program) (r : MethodRef) : Except Failure MethodRef := do
  let declaring ← s.type p r.declaring
  match declaring.element?, r.declaring.element? with
  | some t, some source =>
    if s.isProduced t then
      match p.findMethod? source r with
      | none => throw (.weave .memberNotFound (s.name p) (.methodNotFound (r.text p)))
      | some m =>
        match s.clone? m with
        | none => throw (.weave .memberNotFound (s.name p) (.withoutClone (p.methodFullName m)))
        | some clone => return p.refOn clone declaring (s.refId r.id)
    else return r.withDeclaring declaring (s.refId r.id)
  | _, _ => return r.withDeclaring declaring (s.refId r.id)

def methodOperand (s : CloneSite) (p : Program) : MethodOperand → Except Failure MethodOperand
  | .plain r => do return .plain (← s.methodRef p r)
  | .applied r args => do
    let r ← s.methodRef p r
    let args ← args.mapM (s.type p)
    (r.apply args).mapError (.countAt (s.name p))

/-- Brings a field reference over. A field of the family is looked up by name in its clone. -/
def field (s : CloneSite) (p : Program) (f : FieldRef) : Except Failure FieldRef := do
  let declaring ← s.type p f.declaring
  match declaring.element? with
  | some t =>
    if s.isProduced t then
      match (p.typeAt t).field? f.name with
      | none => throw (.weave .memberNotFound (s.name p) (.fieldNotFound f.name (p.fullName t)))
      | some d => return ⟨f.name,d.type,declaring⟩
    else return { f with declaring }
  | none => return { f with declaring }

/-- Brings an operand over. Branches are left for later. -/
def operand (s : CloneSite) (p : Program) : Operand → Except Failure Operand
  | .type t => do return .type (← s.type p t)
  | .method m => do return .method (← s.methodOperand p m)
  | .field f => do return .field (← s.field p f)
  | o => .ok o

end CloneSite

namespace Program

/-- The branches among the given operands lead to places of the new body that starts at `start`. The number is that of
    the first operand. -/
def placeBranches (b : Body) (start : Nat) (fault : Nat → Failure) : Nat → List Instruction →
    Except Failure (List Instruction)
  | _, [] => .ok []
  | i, ins :: rest =>
    match ins.operand with
    | .branch target =>
      match b.lastIndexOf? target with
      | none => .error (fault i)
      | some j => do return { ins with operand := .branch ⟨start + j⟩ } :: (← placeBranches b start fault (i + 1) rest)
    | _ => do return ins :: (← placeBranches b start fault (i + 1) rest)

def cloneBody (p : Program) (s : CloneSite) (b : Body) : Except Failure (Program × Body) := do
  let locals ← b.locals.mapM (s.type p)
  let code ← b.code.mapM fun i => do
    let ins := p.instructionAt i
    return { ins with operand := ← s.operand p ins.operand }
  let start := p.code.size
  let code ← placeBranches b start (fun i => .weave .invalidModule (s.name p) (.branchOutside i)) 0 code
  return ({ p with code := p.code ++ code.toArray },
    { b with locals, code := (List.range code.length).map fun j => ⟨start + j⟩ })

end Program

namespace Cloning

/-- Brings a value over at the present state of the program. -/
def bring {α : Type} (f : Program → Except Failure α) : Cloning α := do ExceptT.mk (pure (f (← get)))

/-- Declares the clone of a type and, inside it, the clones of its generic nested types. The first clone is named for
    the argument and stands where its source stands; the others keep their names. -/
def declareShell (style : CloneStyle) (home : ModuleId) (argument : TypeRef) :
    Nat → List Scope → Option TypeId → TypeId → Cloning (Entry × List Shell)
  | 0, _, _, _ => throw .unbounded
  | n + 1, outer, parent, source => do
    let p ← get
    let d := p.typeAt source
    let shell : TypeDecl := match parent with
      | none => { space := d.space, name := d.name ++ style.delimiter ++ argument.fullName p, declaring := d.declaring, home }
      | some _ => { name := d.name, declaring := parent, home }
    let clone ← modifyGet (·.declareType { shell with flags := d.flags, generics := d.generics.tail })
    modify (·.addTopLevel clone)
    let chain := ⟨source,argument,clone⟩ :: outer
    let nested ← (d.nested.filter fun t => (p.typeAt t).isGeneric).mapM (declareShell style home argument n chain (some clone))
    let methods := (p.methodsOf source).map fun m => (m,⟨clone,m.position⟩)
    return (.mk source argument clone methods (nested.map Prod.fst),⟨source,clone,chain⟩ :: nested.flatMap Prod.snd)

def declareMethod (family : List Scope) (shell : Shell) (m : MethodId) : Cloning Unit := do
  let d := (← get).methodAt m
  let clone ← modifyGet (·.addMethod shell.clone
    { name := d.name, flags := d.flags, native := d.native, generics := d.generics })
  let site : CloneSite := ⟨family,shell.chain,some (m,clone)⟩
  let returns ← bring (site.type · d.returns)
  modify (·.modifyMethod clone fun c => { c with returns })
  d.params.forM fun param => do
    let type ← bring (site.type · param.type)
    modify (·.modifyMethod clone fun c => { c with params := c.params ++ [{ param with type }] })

def declareMembers (style : CloneStyle) (family : List Scope) (shell : Shell) : Cloning Unit := do
  let d := (← get).typeAt shell.source
  let site : CloneSite := { family, chain := shell.chain }
  let base ← bring (site.type · d.base)
  modify (·.modifyType shell.clone fun c => { c with base })
  d.interfaces.forM fun i => do
    let i ← bring (site.type · i)
    modify (·.modifyType shell.clone fun c => { c with interfaces := c.interfaces ++ [i] })
  modify fun p =>
    let attributes := d.attributes.filter fun a => !style.dropped.contains (p.fullName a.type)
    p.modifyType shell.clone fun c => { c with attributes }
  d.fields.forM fun f => do
    let type ← bring (site.type · f.type)
    modify (·.addField shell.clone { f with type })
  ((← get).methodsOf shell.source).forM (declareMethod family shell)

/-- Fills in the body of the clone of a method. Abstract methods get none. -/
def fillBody (family : List Scope) (shell : Shell) (m : MethodId) : Cloning Unit := do
  let d := (← get).methodAt m
  match d.isAbstract, d.body with
  | false, some body =>
    let clone : MethodId := ⟨shell.clone,m.position⟩
    let (p,body) ← bring (·.cloneBody ⟨family,shell.chain,some (m,clone)⟩ body)
    set (p.modifyMethod clone fun c => { c with body := some body })
  | _, _ => return ()

def refusal? (p : Program) (source : TypeId) (argument : TypeRef) : Option Failure :=
  let params := (p.typeAt source).generics.length
  let site := p.fullName source
  if params = 0 then some (.weave .unsupportedKind site .notGeneric)
  else if params > 1 then some (.weave .notImplemented site (.severalParams params))
  else if argument.isAbsent then some (.weave .unsupportedKind site (.openArgument "<nil>"))
  else if argument.isOpen then some (.weave .unsupportedKind site (.openArgument (argument.text p)))
  else none

/-- Clones a type for an argument of its one parameter, with the generic types nested in it. -/
def specialize (style : CloneStyle) (home : ModuleId) (source : TypeId) (argument : TypeRef) : Cloning Entry := do
  let p ← get
  if let some failure := refusal? p source argument then throw failure
  let (entry,shells) ← declareShell style home argument (p.types.size + 1) [] none source
  let family := shells.flatMap fun s => s.chain.head?.toList
  shells.forM (declareMembers style family)
  shells.forM fun shell => do ((← get).methodsOf shell.source).forM (fillBody family shell)
  return entry

end Cloning
end Loom
