import Loom.Program

/-!
The core library: the base types, a list type and the support types of the weaver. Its members are native, except
that the markers have none.
-/
namespace Loom.CoreLibrary

def splitFullName (name : String) : String × String :=
  let cs := name.toList.reverse
  match cs.dropWhile (· ≠ '.') with
  | _ :: space => (String.ofList space.reverse,String.ofList (cs.takeWhile (· ≠ '.')).reverse)
  | [] => ("",name)

/-- The core library is the first module of every program. -/
def home : ModuleId := ⟨0⟩

def object : TypeId := ⟨0⟩
def valueType : TypeId := ⟨1⟩
def void : TypeId := ⟨2⟩
def boolean : TypeId := ⟨3⟩
def int32 : TypeId := ⟨4⟩
def string : TypeId := ⟨5⟩
def enumerable : TypeId := ⟨6⟩
def list : TypeId := ⟨7⟩
def marker : TypeId := ⟨8⟩
def implicitly : TypeId := ⟨12⟩

/-- A type of the core library. -/
def type (name : String) (flags : List TypeFlag) (base : TypeRef) (methods : List MethodDecl) : TypeDecl :=
  let (space,name) := splitFullName name
  { space, name, flags := .ofList flags, base, methods, home }

/-- A native method of the core library. Its parameters are numbered. -/
def native (name : String) (flags : List MethodFlag) (returns : TypeRef) (key : String) (params : List TypeRef) :
    MethodDecl :=
  { name
    flags := .ofList flags
    returns
    params := params.zipIdx.map fun (t,i) => ⟨"arg" ++ toString i,t⟩
    native := key }

def element : TypeRef := .param ⟨.type list,0,"T"⟩

/-- The resolution primitive, by itself or around a value. -/
def resolve (position : Nat) (params : List Param) : MethodDecl :=
  { name := "Resolve"
    flags := .ofList [.isPublic,.isStatic]
    returns := .param ⟨.method ⟨implicitly,position⟩,0,"TC"⟩
    params
    generics := ["TC"]
    native := "Implicitly::Resolve" }

/-- The types of the core library, in order. -/
def types : List TypeDecl :=
  [ type "System.Object" [.isPublic] .absent
      [ native ".ctor" [.isPublic,.isSpecialName] (.decl void) "Object::.ctor" [],
        native "Equals" [.isPublic,.isVirtual] (.decl boolean) "Object::Equals" [.decl object],
        native "ToString" [.isPublic,.isVirtual] (.decl string) "Object::ToString" [] ],
    type "System.ValueType" [.isPublic,.isAbstract] (.decl object) [],
    type "System.Void" [.isPublic,.isSealed,.isValueType] (.decl valueType) [],
    type "System.Boolean" [.isPublic,.isSealed,.isValueType] (.decl valueType)
      [native "ToString" [.isPublic,.isVirtual] (.decl string) "Boolean::ToString" []],
    type "System.Int32" [.isPublic,.isSealed,.isValueType] (.decl valueType)
      [native "ToString" [.isPublic,.isVirtual] (.decl string) "Int32::ToString" []],
    type "System.String" [.isPublic,.isSealed] (.decl object)
      [ native "Concat" [.isPublic,.isStatic] (.decl string) "String::Concat" [.decl string,.decl string],
        native "Concat" [.isPublic,.isStatic] (.decl string) "String::Concat"
          [.decl string,.decl string,.decl string],
        native "get_Length" [.isPublic] (.decl int32) "String::get_Length" [] ],
    { type "System.Collections.Generic.IEnumerable" [.isPublic,.isInterface,.isAbstract] .absent [] with
      generics := ["T"] },
    { type "System.Collections.Generic.List" [.isPublic] (.decl object)
        [ native ".ctor" [.isPublic,.isSpecialName] (.decl void) "List::.ctor" [],
          native "Add" [.isPublic] (.decl void) "List::Add" [element],
          native "get_Count" [.isPublic] (.decl int32) "List::get_Count" [],
          native "get_Item" [.isPublic] element "List::get_Item" [.decl int32] ] with
      generics := ["T"]
      interfaces := [.applied enumerable [element]] },
    type "System.Attribute" [.isPublic,.isAbstract] (.decl object) [],
    type "Funweave.GenerateSpecializationAttribute" [.isPublic,.isSealed] (.decl marker) [],
    type "Funweave.InjectSpecializationsAttribute" [.isPublic,.isSealed] (.decl marker) [],
    type "Funweave.TypeclassAttribute" [.isPublic,.isSealed] (.decl marker) [],
    type "Funweave.Implicitly" [.isPublic,.isAbstract,.isSealed] (.decl object)
      [resolve 0 [],resolve 1 [⟨"value",.decl object⟩]] ]

end Loom.CoreLibrary

/-- The program that holds the core library alone. -/
def Loom.Program.core : Program :=
  { modules := #[{ name := "System.Private.CoreLib", types := (List.range CoreLibrary.types.length).map TypeId.mk }]
    types := CoreLibrary.types.toArray }
