import Loom.Body
import Loom.Document.Link

/-!
Building: the document of a module.
-/
namespace Loom.Program

def labelOf (b : Body) (target : InstructionId) : String :=
  let place : Int := match b.indexOf? target with
    | some n => n
    | none => -1
  "IL_" ++ Text.Decimal.padded 4 place

def branchTargets (p : Program) (b : Body) : List InstructionId :=
  b.code.filterMap fun i => match (p.instructionAt i).operand with
    | .branch target => some target
    | _ => none

/-- The lines of a body. An instruction that a branch leads to has a label before it. -/
def bodyLines (p : Program) (b : Body) : List String :=
  let targets := p.branchTargets b
  b.code.flatMap fun i =>
    let d := p.instructionAt i
    let line := match d.operand with
      | .branch target => d.opcode.name ++ " " ++ labelOf b target
      | operand => d.opcode.name ++ p.operandText operand
    if targets.contains i then [".label " ++ labelOf b i,line] else [line]

def buildMethod (p : Program) (m : MethodDecl) : MethodDoc :=
  let doc : MethodDoc :=
    { name := m.name
      flags := m.flags.names
      generics := m.generics
      returns := if m.returns.isVoid p then "" else m.returns.text p
      params := m.params.map fun d => ⟨d.name,d.type.text p⟩
      native := m.native }
  match m.body with
  | none => doc
  | some b => { doc with initLocals := b.initLocals, locals := b.locals.map (·.text p), body := p.bodyLines b }

/-- The document of a type and the types nested in it, down to a bounded depth. -/
def buildType (p : Program) (home : ModuleId) : Nat → TypeId → TypeDoc
  | 0, _ => {}
  | n + 1, t =>
    let d := p.typeAt t
    let base := if d.base.isAbsent || p.same d.base (p.defaultBase home t) then "" else d.base.text p
    { space := d.space
      name := d.name
      flags := d.flags.names
      generics := d.generics
      base
      interfaces := d.interfaces.map (·.text p)
      attributes := d.attributes.map fun a => ⟨p.fullName a.type,a.args.map (·.written p)⟩
      fields := d.fields.map fun f => ⟨f.name,f.type.text p,f.isStatic⟩
      methods := d.methods.map p.buildMethod
      nested := d.nested.map fun t => some (p.buildType home n t) }

/-- The document of a top-level type. A type that has a declaring type names it and has no namespace. -/
def buildTopLevel (p : Program) (home : ModuleId) (t : TypeId) : TypeDoc :=
  let doc := p.buildType home (p.types.size + 1) t
  match (p.typeAt t).declaring with
  | some outer => { doc with space := "", declaring := p.fullName outer }
  | none => doc

/-- A parameter, local, field or interface without a type has no text. -/
def hasMissingType (p : Program) (t : TypeId) : Bool :=
  let d := p.typeAt t
  (d.interfaces ++ d.fields.map FieldDecl.type ++ d.methods.flatMap fun m =>
    m.paramTypes ++ ((m.body.map Body.locals).getD [])).any TypeRef.isAbsent

/-- The document of a module, if every type in it can be written. -/
def build? (p : Program) (home : ModuleId) : Option Document :=
  if (p.allTypes home).any p.hasMissingType then none
  else
    let d := p.moduleAt home
    some
      { moduleName := d.name
        version := (d.version.map Version.text).getD ""
        types := d.types.map fun t => some (p.buildTopLevel home t) }

end Loom.Program
