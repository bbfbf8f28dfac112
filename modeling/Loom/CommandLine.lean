import Loom.Files
import Loom.Machine.Execution
import Loom.Weave

/-!
The command line: weaving and checking modules, listing a module, and running a method of it.
-/
namespace Loom.CommandLine

open Text (Octets)

/-- What a command leaves behind: its exit code, what it prints, the files, and which of them it wrote. -/
structure Outcome where
  exit : Nat := 0
  out : Octets := ⟨[]⟩
  err : Octets := ⟨[]⟩
  files : Files
  written : List (String × Content) := []

def line (t : Octets) : Octets := t ++ Octets.ofString "\n"

def lines (ts : List Octets) : Octets := ts.foldl (fun t l => t ++ line l) ⟨[]⟩

/-- The help text. -/
def usage : String :=
  "Usage:
  funweave weave <module> [module...] [-o output] [-config file] [-v]
  funweave check <module> [module...] [-config file] [-v]
  funweave dump <module>
  funweave run <module> <Type> <method> [args...]

Modules are read as text (.fwm.yaml) or binary (.fwm) by extension.
The output format follows the extension of -o; without -o a module is
woven in place.
"

/-! ### Options -/

/-- The options of weaving and checking. -/
structure Options where
  inputs : List String := []
  output : String := ""
  configPath : String := ""
  verbose : Bool := false
  deriving DecidableEq, Inhabited

/-- Why options are refused. -/
inductive OptionFault where
  | needsValue (flag : String)
  | notAccepted (flag : String)
  | unknownFlag (flag : String)
  | noModule
  | outputOfMany
  deriving DecidableEq, Inhabited

/-- The words for refused options. -/
def OptionFault.message : OptionFault → String
  | .needsValue f => f ++ " needs a value"
  | .notAccepted f => f ++ " is not accepted here"
  | .unknownFlag f => "unknown flag " ++ f
  | .noModule => "no module given"
  | .outputOfMany => "-o can only be used with a single module"

/-- Reads options one after the other. -/
def scan (allowOutput : Bool) : Options → List String → Except OptionFault Options
  | o, [] => .ok o
  | o, arg :: rest =>
    if arg = "-o" || arg = "--output" then
      match rest with
      | [] => .error (.needsValue arg)
      | v :: rest => if allowOutput then scan allowOutput { o with output := v } rest else .error (.notAccepted arg)
    else if arg = "-config" || arg = "--config" then
      match rest with
      | [] => .error (.needsValue arg)
      | v :: rest => scan allowOutput { o with configPath := v } rest
    else if arg = "-v" || arg = "--verbose" then scan allowOutput { o with verbose := true } rest
    else if 1 < arg.length && arg.startsWith "-" then .error (.unknownFlag arg)
    else scan allowOutput { o with inputs := o.inputs ++ [arg] } rest

/-- Reads the options of weaving, or of checking, which writes nothing. -/
def readOptions (allowOutput : Bool) (args : List String) : Except OptionFault Options := do
  let o ← scan allowOutput {} args
  if o.inputs.isEmpty then throw .noModule
  if !o.output.isEmpty && 1 < o.inputs.length then throw .outputOfMany
  return o

/-! ### Weaving -/

/-- A configuration that cannot be used. -/
def configError (text : String) : Error := .wrapped .configuration "" (.cause (.text text))

/-- The configuration for a module: the given one, or else the nearest one above the module, or else the defaults. -/
def loadConfig (files : Files) (o : Options) (input : String) : Except Error Config := do
  let source? := if o.configPath.isEmpty then
      (files.findConfig? input).map fun place => (files.nameOf place,files.readAt place)
    else some (o.configPath,files.read o.configPath)
  let config ← match source? with
    | none => pure {}
    | some (path,source) =>
      match source with
      | .error f => throw (configError ("reading config " ++ path ++ ": " ++ f.reading path))
      | .ok content => (content.config path).mapError fun f => configError (f.message path)
  return if o.verbose then { config with verbose := true } else config

/-- How the weaving of one module went. -/
structure Result where
  input : String
  output : String
  weave : Weave

/-- Reads a module and links it against the core library. -/
def readModule (files : Files) (path : String) : Except Failure (ModuleId × Program) :=
  Document.read path (files.read path)

/-- Weaves one module and writes it. Also returns what was logged, each entry after the name of the file. -/
def weaveOne (isCheck : Bool) (o : Options) (files : Files) (input : String) : Result × List String × Files :=
  let output := if o.output.isEmpty then input else o.output
  match loadConfig files o input with
  | .error e => (⟨input,output,{ failure := some (.error e) }⟩,[],files)
  | .ok config =>
    let job : Job := { path := input, output, config, source := files.read input, isCheck }
    let w := Weave.run job Stage.all {}
    let log := if config.verbose then w.log.map fun e => Files.baseName input ++ ": " ++ e else []
    match w.failure, w.written with
    | none, some d =>
      match files.write output (.module d) with
      | .ok files => (⟨input,output,w⟩,log,files)
      | .error f =>
        let e : Error := .wrapped .invalidModule output (.cause (.text (f.writing output)))
        (⟨input,output,{ w with failure := some (.error e) }⟩,log,files)
    | _, _ => (⟨input,output,w⟩,log,files)

/-- Weaves modules in order. -/
def weaveAll (isCheck : Bool) (o : Options) (files : Files) : List Result × List String × Files :=
  o.inputs.foldl
    (fun (results,log,files) input =>
      let (r,more,files) := weaveOne isCheck o files input
      (results ++ [r],log ++ more,files))
    ([],[],files)

def report (input : String) : Failure → List Octets
  | .error e => [Octets.ofString ("Weaving failed: " ++ input),Octets.ofString "- " ++ e.message]
  | .crash c => [Octets.ofString ("Internal error: " ++ c.text),"This is a bug. Please report it."]
  | .unbounded => ["Internal error: too many steps","This is a bug. Please report it."]

/-- The counts that are printed for a woven module. -/
def summary (size : String → Content → String) (output : String) (w : Weave) : String :=
  let specializations := (w.registry.map fun r => r.entries.length).getD 0
  let changes := (w.injection.map Injection.total).getD 0
  let callSites := (w.typeclasses.map TypeclassReport.callSites).getD 0
  toString specializations ++ " specializations, " ++ toString changes ++ " rewrites, " ++ toString callSites ++
    " call sites, " ++ (w.written.map fun d => size output (.module d)).getD ""

/-- The lines that are printed for a module that did not fail. -/
def success (size : String → Content → String) (isCheck : Bool) (r : Result) : List Octets :=
  if r.weave.failure.isSome then []
  else if isCheck then [Octets.ofString ("ok  " ++ r.input)]
  else
    [Octets.ofString ("Woven " ++ r.input ++ " -> " ++ r.output),Octets.ofString ("  " ++ summary size r.output r.weave)]

/-- Weaves or checks modules. Reports follow the log, in the order of the modules. -/
def weave (size : String → Content → String) (isCheck : Bool) (args : List String) (files : Files) : Outcome :=
  match readOptions (!isCheck) args with
  | .error f => { exit := 2, err := line ("Error: " ++ f.message), files }
  | .ok o =>
    let (results,log,files) := weaveAll isCheck o files
    let reports := results.flatMap fun r => (r.weave.failure.map (report r.input)).getD []
    { exit := if reports.isEmpty then 0 else 1
      out := lines (results.flatMap (success size isCheck))
      err := Octets.ofString (logText log) ++ lines reports
      files
      written := results.filterMap fun r =>
        if r.weave.failure.isSome then none else r.weave.written.map fun d => (r.output,.module d) }

/-! ### Listing and running -/

def dump (args : List String) (files : Files) : Outcome :=
  match args with
  | [path] =>
    match readModule files path with
    | .error f => { exit := 1, err := lines (report path f), files }
    | .ok (home,p) => { out := line (p.listing home), files }
  | _ => { exit := 2, err := line "Usage: funweave dump <module>", files }

def readArgument (s : String) : Machine.Value :=
  match Text.Decimal.parse s.toList with
  | .ok n => if -0x80000000 ≤ n && n < 0x80000000 then .int (.ofInt n) else .text s
  | .error _ =>
    match s.toLower with
    | "true" => .bool true
    | "false" => .bool false
    | _ => .text s

def stopReport : Machine.Stop → List Octets
  | .fault f none => [f.message]
  | .fault f (some trace) =>
    (Octets.ofString "runtime error: " ++ f.message) :: trace.map fun l => Octets.ofString ("  at " ++ l)
  | .unbounded => ["Internal error: too many steps"]

/-- Runs a static method of a module. -/
def run (args : List String) (files : Files) : Outcome :=
  match args with
  | path :: type :: method :: values =>
    match readModule files path with
    | .error f => { exit := 1, err := lines (report path f), files }
    | .ok (home,p) =>
      let (r,s) := (Machine.call Machine.budget p home type method (values.map readArgument)).run {}
      match r with
      | .ok v => { out := line (s.heap.format p v), files }
      | .error stop => { exit := 1, err := lines (stopReport stop), files }
  | _ => { exit := 2, err := line "Usage: funweave run <module> <Type> <method> [args...]", files }

/-- Carries out a command. The size of a written file is printed as the given text. -/
def execute (size : String → Content → String) (args : List String) (files : Files) : Outcome :=
  match args with
  | [] => { out := usage, files }
  | command :: rest =>
    if ["-help","--help","help","-h"].contains command then { out := usage, files }
    else match command with
      | "weave" => weave size false rest files
      | "check" => weave size true rest files
      | "dump" => dump rest files
      | "run" => run rest files
      | _ => { exit := 2, err := Octets.ofString ("Unknown command: " ++ command ++ "\n\n" ++ usage), files }

end Loom.CommandLine
