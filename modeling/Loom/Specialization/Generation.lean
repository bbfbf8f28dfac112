import Loom.Config
import Loom.Weaving

/-!
Generating specializations. Each top-level type with the marker is cloned once for each marker argument, and the
registry of the clones is sealed at the end.
-/
namespace Loom

/-- The generation of specializations in a module. What was generated once is not generated again. -/
structure Specializer where
  home : ModuleId
  marker : String
  style : CloneStyle
  registry : Registry := {}
  memo : List Entry := []
  deriving Inhabited

/-- The marker is not copied onto clones. -/
def Specializer.start (home : ModuleId) (config : Config) : Specializer :=
  { home
    marker := config.generateMarker
    style := { delimiter := config.delimiter, dropped := [config.generateMarker] } }

namespace Specializer

def specialize (source : TypeId) (argument : TypeRef) : Weaving Specializer Entry := do
  let s ← Weaving.own
  let p ← Weaving.program
  match s.memo.find? fun e => p.isEntryFor e source argument with
  | some e => return e
  | none =>
    let entry ← Weaving.cloning (Cloning.specialize s.style s.home source argument)
    let p ← Weaving.program
    let registry ← Weaving.ofExcept (s.registry.add p entry)
    Weaving.setOwn { s with registry, memo := s.memo ++ [entry] }
    Weaving.report ("specialized " ++ p.fullName source ++ " for " ++ argument.fullName p ++ " as " ++
      p.fullName entry.specialized ++ " (" ++ toString entry.nested.length ++ " nested)")
    return entry

def markerArgument (p : Program) (t : TypeId) (a : Attribute) : Except Failure TypeRef :=
  match a.args with
  | [.type argument] => .ok argument
  | [other] => .error (.weave .invalidModule (p.fullName t) (.markerArgument (p.fullName a.type) (other.plain p)))
  | args => .error (.weave .invalidModule (p.fullName t) (.markerArity (p.fullName a.type) args.length))

def generate (t : TypeId) : Weaving Specializer Unit := do
  let p ← Weaving.program
  let s ← Weaving.own
  (p.attributesOf t s.marker).forM fun a => do
    let argument ← Weaving.ofExcept (markerArgument p t a)
    discard (specialize t argument)

/-- Generates what the markers of a module ask for and seals the registry. Clones are not searched for markers. -/
def run : Weaving Specializer SealedRegistry := do
  let p ← Weaving.program
  let s ← Weaving.own
  (p.moduleAt s.home).types.forM generate
  let s ← Weaving.own
  let (view,registry) := s.registry.close
  Weaving.setOwn { s with registry }
  return view

end Specializer
end Loom
