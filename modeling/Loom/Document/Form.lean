import Loom.Config
import Loom.Document

/-!
Documents as structured data. What is empty is not written, and what is not written is empty.
-/
namespace Loom

namespace Datum

def unlessEmpty (entries : List (String × Datum)) : List (String × Datum) :=
  entries.filter fun (_,d) => match d with
    | .text s => !s.isEmpty
    | .list items => !items.isEmpty
    | .bool b => b
    | _ => true

def texts (ss : List String) : Datum := .list (ss.map .text)

def text? (entries : List (String × Datum)) (key : String) : Option String :=
  (Config.decodeText .loose ((entries.lookup key).getD .null)).toOption

def texts? (entries : List (String × Datum)) (key : String) : Option (List String) :=
  (Config.decodeTexts .loose ((entries.lookup key).getD .null)).toOption

def bool? (entries : List (String × Datum)) (key : String) : Option Bool :=
  (Config.decodeBool .loose ((entries.lookup key).getD .null)).toOption

def table? (d : Datum) : Option (List (String × Datum)) := (Config.decodeTable d).toOption

def items? (entries : List (String × Datum)) (key : String) : Option (List Datum) :=
  match (entries.lookup key).getD .null with
  | .list items => some items
  | .null => some []
  | _ => none

end Datum

open Datum

def ParamDoc.toDatum (d : ParamDoc) : Datum := .table [("name",.text d.name),("type",.text d.type)]

def ParamDoc.ofDatum? (d : Datum) : Option ParamDoc := do
  let t ← table? d
  return ⟨← text? t "name",← text? t "type"⟩

def FieldDoc.toDatum (d : FieldDoc) : Datum :=
  .table (("name",.text d.name) :: ("type",.text d.type) :: unlessEmpty [("static",.bool d.isStatic)])

def FieldDoc.ofDatum? (d : Datum) : Option FieldDoc := do
  let t ← table? d
  return ⟨← text? t "name",← text? t "type",← bool? t "static"⟩

def AttributeDoc.toDatum (d : AttributeDoc) : Datum :=
  .table (("type",.text d.type) :: unlessEmpty [("args",texts d.args)])

def AttributeDoc.ofDatum? (d : Datum) : Option AttributeDoc := do
  let t ← table? d
  return ⟨← text? t "type",← texts? t "args"⟩

def MethodDoc.toDatum (d : MethodDoc) : Datum :=
  .table <| ("name",.text d.name) :: unlessEmpty
    [("flags",texts d.flags),("generics",texts d.generics),("returns",.text d.returns),
     ("params",.list (d.params.map ParamDoc.toDatum)),("native",.text d.native),("init_locals",.bool d.initLocals),
     ("locals",texts d.locals),("body",texts d.body)]

def MethodDoc.ofDatum? (d : Datum) : Option MethodDoc := do
  let t ← table? d
  return {
    name := ← text? t "name"
    flags := ← texts? t "flags"
    generics := ← texts? t "generics"
    returns := ← text? t "returns"
    params := ← (← items? t "params").mapM ParamDoc.ofDatum?
    native := ← text? t "native"
    initLocals := ← bool? t "init_locals"
    locals := ← texts? t "locals"
    body := ← texts? t "body" }

mutual
def TypeDoc.toDatum : TypeDoc → Datum
  | ⟨space,name,declaring,flags,generics,base,interfaces,attributes,fields,methods,nested⟩ =>
    .table <| ("name",.text name) :: unlessEmpty
      [("namespace",.text space),("declaring",.text declaring),("flags",texts flags),("generics",texts generics),
       ("base",.text base),("interfaces",texts interfaces),("attributes",.list (attributes.map AttributeDoc.toDatum)),
       ("fields",.list (fields.map FieldDoc.toDatum)),("methods",.list (methods.map MethodDoc.toDatum)),
       ("nested",.list (TypeDoc.toData nested))]
def TypeDoc.toData : List (Option TypeDoc) → List Datum
  | [] => []
  | none :: rest => .null :: TypeDoc.toData rest
  | some d :: rest => d.toDatum :: TypeDoc.toData rest
end

/-- Reads a type, down to a bounded depth of nested types. -/
def TypeDoc.ofDatumWithin? : Nat → Datum → Option (Option TypeDoc)
  | 0, _ => none
  | _, .null => some none
  | n + 1, d => do
    let t ← table? d
    return some {
      space := ← text? t "namespace"
      name := ← text? t "name"
      declaring := ← text? t "declaring"
      flags := ← texts? t "flags"
      generics := ← texts? t "generics"
      base := ← text? t "base"
      interfaces := ← texts? t "interfaces"
      attributes := ← (← items? t "attributes").mapM AttributeDoc.ofDatum?
      fields := ← (← items? t "fields").mapM FieldDoc.ofDatum?
      methods := ← (← items? t "methods").mapM MethodDoc.ofDatum?
      nested := ← (← items? t "nested").mapM (TypeDoc.ofDatumWithin? n) }

def Document.maxDepth : Nat := 10000

/-- The data of a module. -/
def Document.toDatum (d : Document) : Datum :=
  .table (("module",.text d.moduleName) :: unlessEmpty
    [("mvid",.text d.version),("types",.list (TypeDoc.toData d.types))])

/-- Reads a module. Other entries do not count. -/
def Document.ofDatum? (d : Datum) : Option Document := do
  let t ← table? d
  return {
    moduleName := ← text? t "module"
    version := ← text? t "mvid"
    types := ← (← items? t "types").mapM (TypeDoc.ofDatumWithin? Document.maxDepth) }

end Loom
