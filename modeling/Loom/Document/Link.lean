import Loom.CoreLibrary
import Loom.Document.Expression

/-!
Linking: a module from its document. Types come first, then their members, then the bodies, so that any member can
refer to any type or member of the document.
-/
namespace Loom.Document

/-- Linking extends a program, or fails and leaves it as it was. -/
abbrev Linking := StateT Program (Except Failure)

/-- A declared type with the document it comes from. -/
structure PendingType where
  doc : TypeDoc
  id : TypeId

/-- A declared method with the document it comes from. -/
structure PendingMethod where
  doc : MethodDoc
  id : MethodId

def readTypeFlags (site : String) (names : List String) : Except Failure TypeFlags :=
  names.foldlM
    (fun flags name => match TypeFlag.ofName? name with
      | some f => .ok (flags.insert f)
      | none => .error (.link site (.unknownTypeFlag name)))
    {}

def readMethodFlags (site : String) (names : List String) : Except Failure MethodFlags :=
  names.foldlM
    (fun flags name => match MethodFlag.ofName? name with
      | some f => .ok (flags.insert f)
      | none => .error (.link site (.unknownMethodFlag name)))
    {}

mutual
def declareType (home : ModuleId) (declaring : Option TypeId) : TypeDoc → Linking (List PendingType)
  | ⟨space,name,declaredBy,flagNames,generics,base,interfaces,attributes,fields,methods,nested⟩ => do
    if name.isEmpty then throw (.link space .unnamedType)
    let flags ← readTypeFlags name flagNames
    let doc : TypeDoc :=
      ⟨space,name,declaredBy,flagNames,generics,base,interfaces,attributes,fields,methods,nested⟩
    let id ← modifyGet (·.declareType { space, name, flags, generics, declaring, home })
    if let some outer := declaring then
      modify (·.modifyType outer fun d => { d with nested := d.nested ++ [id] })
    return ⟨doc,id⟩ :: (← declareNested home id nested)
def declareNested (home : ModuleId) (declaring : TypeId) : List (Option TypeDoc) → Linking (List PendingType)
  | [] => return []
  | none :: _ => throw (.crash .absent)
  | some doc :: rest => do
    unless doc.declaring.isEmpty do throw (.link doc.name .nestedWithDeclaring)
    let first ← declareType home (some declaring) doc
    return first ++ (← declareNested home declaring rest)
end

def declareTypes (home : ModuleId) : List (Option TypeDoc) → Linking (List PendingType)
  | [] => return []
  | none :: _ => throw (.crash .absent)
  | some doc :: rest => do
    let first ← declareType home none doc
    if let some top := first.head? then modify (·.addTopLevel top.id)
    return first ++ (← declareTypes home rest)

/-- The first of the types with the given full name. A type that has no full name because its declaring chain does not
    end is never passed. -/
def findNamed (p : Program) (name : String) : List TypeId → Except Failure (Option TypeId)
  | [] => .ok none
  | t :: rest =>
    if !p.chainEnds t then .error .unbounded
    else if p.fullName t == name then .ok (some t)
    else findNamed p name rest

def bindDeclaring (home : ModuleId) (pending : PendingType) : Linking Unit := do
  unless pending.doc.declaring.isEmpty do
    let p ← get
    let own ← findNamed p pending.doc.declaring (p.allTypes home)
    match own.or ((p.moduleAt home).references.findSome? (p.findOwnType? · pending.doc.declaring)) with
    | some outer => modify (·.modifyType pending.id fun d => { d with declaring := some outer })
    | none => throw (.link pending.doc.name (.unknownDeclaring pending.doc.declaring))

/-- Refuses a full name that was seen before. -/
def checkNames (p : Program) : List String → List TypeId → Except Failure Unit
  | _, [] => .ok ()
  | seen, t :: rest =>
    if !p.chainEnds t then .error .unbounded
    else
      let name := p.fullName t
      if seen.contains name then .error (.link name .declaredTwice) else checkNames p (name :: seen) rest

end Loom.Document

/-- The base type that a document need not name. Interfaces and the root of all types have none. -/
def Loom.Program.defaultBase (p : Program) (m : ModuleId) (t : TypeId) : TypeRef :=
  let d := p.typeAt t
  if d.isInterface || p.fullName t == "System.Object" then .absent
  else match p.findType? m (if d.isValueType then "System.ValueType" else "System.Object") with
    | some base => .decl base
    | none => .absent

namespace Loom.Document

/-- Reads the return type of a declared method. A method that returns nothing has none. -/
def declareReturns (home : ModuleId) (id : MethodId) (scope : ParamScope) (text : String) : Linking Unit := do
  unless text.isEmpty do
    let p ← get
    let returns ← (p.readType home scope text.toList).mapError fun e =>
      Failure.link (p.methodFullName id) (.returnType e)
    unless returns.isVoid p do modify (·.modifyMethod id fun d => { d with returns })

def declareParam (home : ModuleId) (id : MethodId) (scope : ParamScope) (param : ParamDoc) : Linking Unit := do
  let p ← get
  let type ← (p.readType home scope param.type.toList).mapError fun e =>
    Failure.link (p.methodFullName id) (.param param.name e)
  modify (·.modifyMethod id fun d => { d with params := d.params ++ [⟨param.name,type⟩] })

def declareMethod (home : ModuleId) (t : TypeId) (doc : MethodDoc) : Linking PendingMethod := do
  let flags ← readMethodFlags ((← get).fullName t ++ "::" ++ doc.name) doc.flags
  let flags := if doc.name = ".ctor" then flags.insert .isSpecialName else flags
  let id ← modifyGet (·.addMethod t { name := doc.name, flags, native := doc.native, generics := doc.generics })
  let p ← get
  let scope : ParamScope := ⟨p.typeParams t,p.methodParams id⟩
  declareReturns home id scope doc.returns
  doc.params.forM (declareParam home id scope)
  return ⟨doc,id⟩

def readAttribute (p : Program) (home : ModuleId) (site : String) (doc : AttributeDoc) : Except Failure Attribute := do
  let type ← (p.readTypeName home doc.type.toList).mapError fun e => Failure.link site (.attribute e)
  let args ← doc.args.mapM fun a =>
    (p.readAttributeArg home a).mapError fun e => Failure.link site (.attributeArg doc.type e)
  return { type, args }

/-- What a document says about a type besides its methods. -/
structure TypeMembers where
  base : TypeRef
  interfaces : List TypeRef
  attributes : List Attribute
  fields : List FieldDecl

def readMemberType (p : Program) (home : ModuleId) (t : TypeId) (fault : ReadFault → LinkFault) (text : String) :
    Except Failure TypeRef :=
  (p.readType home ⟨p.typeParams t,[]⟩ text.toList).mapError fun e => Failure.link (p.fullName t) (fault e)

def readBase (p : Program) (home : ModuleId) (t : TypeId) (text : String) : Except Failure TypeRef :=
  if text.isEmpty then .ok (p.defaultBase home t) else readMemberType p home t .base text

/-- Reads the base, interfaces, attributes and fields of a type. -/
def readMembers (p : Program) (home : ModuleId) (t : TypeId) (doc : TypeDoc) : Except Failure TypeMembers := do
  let base ← readBase p home t doc.base
  let interfaces ← doc.interfaces.mapM (readMemberType p home t .interface)
  let attributes ← doc.attributes.mapM (readAttribute p home (p.fullName t))
  let fields ← doc.fields.mapM fun f => do
    return ({ name := f.name, type := ← readMemberType p home t (.field f.name) f.type, isStatic := f.isStatic } : FieldDecl)
  return { base, interfaces, attributes, fields }

/-- Declares the base, interfaces, attributes, fields and methods of a type. -/
def declareMembers (home : ModuleId) (pending : PendingType) : Linking (List PendingMethod) := do
  let members ← readMembers (← get) home pending.id pending.doc
  modify (·.modifyType pending.id fun d =>
    { d with
      base := members.base
      interfaces := members.interfaces
      attributes := members.attributes
      fields := members.fields })
  pending.doc.methods.mapM (declareMethod home pending.id)

/-- A body while its lines are read: the labels so far, and the branches that wait for theirs. -/
structure PendingBody where
  code : List InstructionId := []
  labels : List (String × Nat) := []
  branches : List (InstructionId × String) := []

def readLine (home : ModuleId) (m : MethodId) (site : String) (scope : ParamScope) (body : PendingBody) (line : String) :
    Linking PendingBody := do
  let line := Text.trim line.toList
  match ".label ".toList.isPrefixOf? line with
  | some name =>
    let name := Text.trimString (String.ofList name)
    if (body.labels.lookup name).isSome then throw (.link site (.labelTwice name))
    return { body with labels := body.labels ++ [(name,body.code.length)] }
  | none =>
    let (instruction,label) ←
      match (← get).readInstruction home scope line ⟨m,body.code.length,0⟩ with
      | .ok r => pure r
      | .error (.error (.cause (.read e))) => throw (.link site (.instruction (String.ofList line) e))
      | .error e => throw e
    let id ← modifyGet (·.addInstruction instruction)
    let branches := match label with
      | some name => body.branches ++ [(id,name)]
      | none => body.branches
    return { body with code := body.code ++ [id], branches }

def bindBranch (site : String) (body : PendingBody) (branch : InstructionId × String) : Linking Unit := do
  match (body.labels.lookup branch.2).bind (body.code[·]?) with
  | some target => modify (·.modifyInstruction branch.1 fun d => { d with operand := .branch target })
  | none => throw (.link site (.undefinedLabel branch.2))

def fillBody (home : ModuleId) (pending : PendingMethod) : Linking Unit := do
  let doc := pending.doc
  unless doc.body.isEmpty && doc.locals.isEmpty do
    let p ← get
    let d := p.methodAt pending.id
    let site := p.methodFullName pending.id
    if d.isAbstract || !d.native.isEmpty then throw (.link site .needlessBody)
    let scope : ParamScope := ⟨p.typeParams pending.id.owner,p.methodParams pending.id⟩
    let locals ← doc.locals.zipIdx.mapM fun (text,i) =>
      (p.readType home scope text.toList).mapError fun e => Failure.link site (.localType i e)
    let body ← doc.body.foldlM (readLine home pending.id site scope) {}
    body.branches.forM (bindBranch site body)
    modify (·.modifyMethod pending.id fun d =>
      { d with body := some { locals, code := body.code, initLocals := doc.initLocals } })

def readVersion (doc : Document) : Except Failure (Option Version) :=
  if doc.version.isEmpty then .ok none
  else match Version.parse doc.version with
    | .ok v => .ok (some v)
    | .error e => .error (.error (.wrapped .invalidModule doc.moduleName (.cause (.link (.version e)))))

/-- Builds the module of a document into a program, referring to the given modules. -/
def linkInto (doc : Document) (references : List ModuleId) : Linking ModuleId := do
  if doc.moduleName.isEmpty then throw (.link "" .unnamedModule)
  let version ← readVersion doc
  let home ← modifyGet (·.addModule { name := doc.moduleName, version, references })
  let types ← declareTypes home doc.types
  types.forM (bindDeclaring home)
  let p ← get
  checkNames p [] (p.allTypes home)
  let methods ← types.mapM (declareMembers home)
  methods.flatten.forM (fillBody home)
  return home

def link (p : Program) (references : List ModuleId) (doc : Document) : Except Failure (ModuleId × Program) :=
  (doc.linkInto references).run p

end Loom.Document
