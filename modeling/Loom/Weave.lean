import Loom.Document.Build
import Loom.Files
import Loom.Injection
import Loom.Listing
import Loom.Specialization.Generation
import Loom.Typeclass.Resolution

/-!
Weaving a module: it is loaded, goes through the passes that the configuration asks for, and is written again. After
a failure the stages that follow leave everything as it is.
-/
namespace Loom

inductive Stage where
  | load
  | specialize
  | inject
  | implicit
  | emit
  deriving DecidableEq, Inhabited

namespace Stage

/-- The stages in their usual order. -/
def all : List Stage := [.load,.specialize,.inject,.implicit,.emit]

def name : Stage → String
  | .load => "load"
  | .specialize => "specialize"
  | .inject => "inject"
  | .implicit => "implicit"
  | .emit => "emit"

def ofName? (s : String) : Option Stage := all.find? (·.name == s)

end Stage

/-- What is to be woven, and how. -/
structure Job where
  path : String
  /-- The path that decides the written form; the module's own if it is empty. -/
  output : String := ""
  config : Config := {}
  source : Except FileFault Content := .error .missing
  /-- How many types the resolution of typeclasses may weave. -/
  bound : Nat := Resolver.budget
  /-- Nothing is written. -/
  isCheck : Bool := false

/-- What the resolution of typeclasses did. -/
structure TypeclassReport where
  callSites : Nat
  specializations : List Entry
  deriving Inhabited

/-- A module on its way through the stages, with what they produced. -/
structure Weave where
  loaded : Option (Program × ModuleId) := none
  registry : Option SealedRegistry := none
  injection : Option Injection := none
  typeclasses : Option TypeclassReport := none
  written : Option Document := none
  failure : Option Failure := none
  log : List String := []
  deriving Inhabited

/-- Reads and links a module against the core library. -/
def Document.read (path : String) (source : Except FileFault Content) : Except Failure (ModuleId × Program) :=
  match source with
  | .error f => .error (.error (.within ("reading module " ++ path) (.cause (.text (f.reading path)))))
  | .ok content => do (← content.document path).link .core [CoreLibrary.home]

namespace Weave

/-- Reads the module unless there is one. Errors without a site get the path of the file. -/
def load (job : Job) (w : Weave) : Weave :=
  if w.loaded.isSome then w
  else match Document.read job.path job.source with
    | .error (.error e) => { w with failure := some (.error (e.withSite .invalidModule job.path)) }
    | .error f => { w with failure := some f }
    | .ok (home,p) =>
      { w with
        loaded := some (p,home)
        log := w.log ++
          ["loaded " ++ (p.moduleAt home).name ++ ": " ++ toString (p.allTypes home).length ++ " types"] }

def pass {σ α : Type} (w : Weave) (start : Program → ModuleId → σ) (run : ModuleId → Weaving σ α)
    (finish : Weave → σ → α → Weave) : Weave :=
  match w.loaded with
  | none => { w with failure := some (.crash .absent) }
  | some (p,home) =>
    let (r,space) := (run home).run ⟨p,start p home,[]⟩
    let w := { w with loaded := some (space.program,home), log := w.log ++ space.log }
    match r with
    | .error f => { w with failure := some f }
    | .ok a => finish w space.own a

def specialize (job : Job) (w : Weave) : Weave :=
  w.pass (fun _ home => Specializer.start home job.config) (fun _ => Specializer.run)
    fun w _ view => { w with registry := some view }

def inject (job : Job) (w : Weave) : Weave :=
  match w.registry with
  | none => { w with failure := some (.weave .configuration job.path .registryMissing) }
  | some registry =>
    w.pass (fun _ _ => ()) (fun home => Injection.run registry home job.config)
      fun w _ report => { w with injection := some report }

def implicit (job : Job) (w : Weave) : Weave :=
  w.pass (fun p home => Resolver.start p home job.config) (fun _ => Resolver.run job.bound)
    fun w r _ => { w with typeclasses := some ⟨r.callSites,r.specializations⟩ }

/-- Writes the module under a fresh identity. -/
def emit (job : Job) (w : Weave) : Weave :=
  match w.loaded with
  | none => w
  | some (p,home) =>
    if job.isCheck then w
    else
      let p := p.modifyModule home fun m => { m with version := none }
      match p.build? home with
      | none => { w with loaded := some (p,home), failure := some (.crash .absent) }
      | some d => { w with loaded := some (p,home), written := some d }

/-- Runs a stage, if nothing has failed and the configuration asks for it. -/
def stage (job : Job) (w : Weave) (s : Stage) : Weave :=
  if w.failure.isSome then w
  else match s with
    | .load => w.load job
    | .specialize => if job.config.enabled .specialize then w.specialize job else w
    | .inject => if job.config.enabled .inject then w.inject job else w
    | .implicit => if job.config.enabled .implicit then w.implicit job else w
    | .emit => w.emit job

def run (job : Job) (stages : List Stage) (w : Weave) : Weave := stages.foldl (stage job) w

end Weave

/-- The path that decides the written form of a module. -/
def Job.target (job : Job) : String := if job.output.isEmpty then job.path else job.output

end Loom
