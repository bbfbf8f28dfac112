import Loom.Body

/-!
Listings of modules and methods. Nested types follow the type that declares them; generated types that only name
a declaring type are listed under it too.
-/
namespace Loom.Program

/-- An instruction of a body as it is listed. A branch shows the place of its target. -/
def instructionLine (p : Program) (b : Body) (i : InstructionId) : String :=
  let d := p.instructionAt i
  match d.operand with
  | .branch target =>
    let place := match b.lastIndexOf? target with
      | some n => Text.Decimal.padded 4 n
      | none => "????"
    d.opcode.name ++ " " ++ place
  | operand => d.opcode.name ++ p.operandText operand

def methodLines (p : Program) (indent : String) (m : MethodDecl) : List String :=
  let flags := String.join (m.flags.names.map (· ++ " "))
  let generics := if m.generics.isEmpty then "" else "<" ++ ", ".intercalate m.generics ++ ">"
  let key := if m.native.isEmpty then "" else " native " ++ Text.quote m.native
  let head := indent ++ ".method " ++ flags ++ m.returns.signatureText p ++ " " ++ m.name ++ generics ++
    "(" ++ ", ".intercalate (TypeRef.texts p m.paramTypes) ++ ")" ++ key
  match m.body with
  | none => [head]
  | some b =>
    head :: b.locals.zipIdx.map (fun (t,i) => indent ++ "  .local " ++ toString i ++ " " ++ t.signatureText p) ++
      b.code.zipIdx.map fun (c,i) => indent ++ "  " ++ Text.Decimal.padded 4 i ++ " " ++ p.instructionLine b c

def typeHeadLines (p : Program) (indent : String) (t : TypeId) : List String :=
  let d := p.typeAt t
  let flags := String.join (d.flags.names.map (· ++ " "))
  let generics := if d.generics.isEmpty then "" else "<" ++ ", ".intercalate d.generics ++ ">"
  let base := if d.base.isAbsent then "" else " extends " ++ d.base.text p
  let interfaces :=
    if d.interfaces.isEmpty then "" else " implements " ++ ", ".intercalate (TypeRef.texts p d.interfaces)
  let custom (a : Attribute) : String :=
    let args := if a.args.isEmpty then "" else "(" ++ ", ".intercalate (a.args.map (·.written p)) ++ ")"
    indent ++ "  .custom " ++ p.fullName a.type ++ args
  let field (f : FieldDecl) : String :=
    indent ++ "  .field " ++ (if f.isStatic then "static " else "") ++ f.type.signatureText p ++ " " ++ f.name
  (indent ++ ".class " ++ flags ++ p.fullName t ++ generics ++ base ++ interfaces) ::
    d.attributes.map custom ++ d.fields.map field ++ d.methods.flatMap (p.methodLines (indent ++ "  "))

/-- The types listed under a type: those nested in it, then the other top-level types of its module that name it as
    their declaring type. -/
def listedUnder (p : Program) (t : TypeId) : List TypeId :=
  let d := p.typeAt t
  d.nested ++ (p.moduleAt d.home).types.filter fun other =>
    (p.typeAt other).declaring == some t && !d.nested.contains other

/-- The lines of a type and the types under it, down to a bounded depth. -/
def typeLines (p : Program) : Nat → String → TypeId → List String
  | 0, _, _ => []
  | n + 1, indent, t =>
    p.typeHeadLines indent t ++ (p.listedUnder t).flatMap (p.typeLines n (indent ++ "  "))

/-- The lines of a module: its types that have no declaring type, each with the types under it. -/
def moduleLines (p : Program) (m : ModuleId) : List String :=
  let d := p.moduleAt m
  ("== module " ++ d.name ++ " ==") ::
    (d.types.filter fun t => (p.typeAt t).declaring.isNone).flatMap (p.typeLines (p.types.size + 1) "")

def listing (p : Program) (m : ModuleId) : String := "\n".intercalate (p.moduleLines m)

def methodListing (p : Program) (m : MethodDecl) : String := "\n".intercalate (p.methodLines "" m)

end Loom.Program
