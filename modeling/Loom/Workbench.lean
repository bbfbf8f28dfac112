import Loom.Machine.Execution
import Loom.Weave

/-!
A workbench: one module with the passes, the registry and the machine that work on it. Passes and machine are set up at
first use and keep what they know; a module that is read again starts afresh.
-/
namespace Loom

/-- A module under work. -/
structure Workbench where
  program : Program
  home : ModuleId
  config : Config := {}
  specializer : Option Specializer := none
  registry : Registry := {}
  view : Option SealedRegistry := none
  resolver : Option Resolver := none
  machine : Machine.State := {}
  deriving Inhabited

namespace Workbench

/-- What a request did: its result, the lines it logged and the workbench after it. -/
structure Outcome (α : Type) where
  result : Except Failure α
  log : List String := []
  bench : Workbench

def onSpecializer {α : Type} (w : Workbench) (pass : Weaving Specializer α) : Outcome α :=
  let (result,space) := pass.run ⟨w.program,w.specializer.getD (.start w.home w.config),[]⟩
  ⟨result,space.log,{ w with program := space.program, specializer := some space.own }⟩

def onResolver {α : Type} (w : Workbench) (pass : Weaving Resolver α) : Outcome α :=
  let (result,space) := pass.run ⟨w.program,w.resolver.getD (.start w.program w.home w.config),[]⟩
  ⟨result,space.log,{ w with program := space.program, resolver := some space.own }⟩

/-- Generates the specializations that the module asks for. -/
def specialize (w : Workbench) : Outcome SealedRegistry :=
  let o := w.onSpecializer Specializer.run
  match o.result with
  | .ok view => { o with bench := { o.bench with view := some view } }
  | .error _ => o

def sealRegistry (w : Workbench) : SealedRegistry × Workbench :=
  let (view,registry) := w.registry.close
  (view,{ w with registry, view := some view })

/-- Injects into the given types, or into those that carry the marker. -/
def inject (w : Workbench) (view : SealedRegistry) (types : Option (List TypeId)) : Outcome Injection :=
  let pass := match types with
    | some ts => Injection.rewire view ts
    | none => Injection.run view w.home w.config
  let (result,space) := pass.run ⟨w.program,(),[]⟩
  ⟨result,space.log,{ w with program := space.program }⟩

/-- Resolves the typeclasses of the module. A run that would weave more types than the bound is given up. -/
def implicit (w : Workbench) (bound : Nat := Resolver.budget) : Outcome TypeclassReport :=
  w.onResolver do
    Resolver.run bound
    let r ← Weaving.own
    return ⟨r.callSites,r.specializations⟩

/-- Reads the module again from its document. -/
def relink (w : Workbench) (d : Document) : Except Failure Workbench := do
  let (home,program) ← d.link w.program (w.program.moduleAt w.home).references
  return { program, home, config := w.config }

/-- Writes the module and reads it again. Also says whether both list alike. -/
def reload (w : Workbench) : Except Failure (Bool × Workbench) :=
  match w.program.build? w.home with
  | none => .error (.crash .absent)
  | some d => do
    let next ← w.relink d
    return (next.program.listing next.home == w.program.listing w.home,next)

/-- Weaves the module and reads again what was written. -/
def weave (w : Workbench) : Outcome Unit :=
  let done := Weave.run { path := "", config := w.config } Stage.all { loaded := some (w.program,w.home) }
  let program := (done.loaded.map Prod.fst).getD w.program
  let bench := { w with program := program.modifyModule w.home fun m => { m with version := none } }
  match done.failure, done.written with
  | some f, _ => ⟨.error f,done.log,bench⟩
  | none, none => ⟨.ok (),done.log,bench⟩
  | none, some d =>
    match bench.relink d with
    | .ok next => ⟨.ok (),done.log,next⟩
    | .error (.error e) => ⟨.error (.error (.within "emitted module" e)),done.log,bench⟩
    | .error f => ⟨.error f,done.log,bench⟩

def onMachine {α : Type} (w : Workbench) (run : Program → ModuleId → Machine.Run α) : Except Machine.Stop α × Workbench :=
  let (r,machine) := (run w.program w.home).run w.machine
  (r,{ w with machine })

end Workbench
end Loom
