/-!
Module documents: the written form of a module, with types, members and instructions as text.
-/
namespace Loom

structure AttributeDoc where
  type : String := ""
  args : List String := []
  deriving BEq, Inhabited

structure FieldDoc where
  name : String := ""
  type : String := ""
  isStatic : Bool := false
  deriving BEq, Inhabited

structure ParamDoc where
  name : String := ""
  type : String := ""
  deriving BEq, Inhabited

/-- A method. A line of its body is an instruction, or names the instruction after it. -/
structure MethodDoc where
  name : String := ""
  flags : List String := []
  generics : List String := []
  returns : String := ""
  params : List ParamDoc := []
  native : String := ""
  initLocals : Bool := false
  locals : List String := []
  body : List String := []
  deriving BEq, Inhabited

/-- A type. Nested types stand under the type that declares them; a generated type names it. An entry of a list of
    types can be missing. -/
structure TypeDoc where
  space : String := ""
  name : String := ""
  declaring : String := ""
  flags : List String := []
  generics : List String := []
  base : String := ""
  interfaces : List String := []
  attributes : List AttributeDoc := []
  fields : List FieldDoc := []
  methods : List MethodDoc := []
  nested : List (Option TypeDoc) := []
  deriving Inhabited

/-- A module. -/
structure Document where
  moduleName : String := ""
  version : String := ""
  types : List (Option TypeDoc) := []
  deriving Inhabited

end Loom
