/-!
Paths of module files.
-/
namespace Loom.Path

/-- The extensions of module files, longer ones first. -/
def moduleExtensions : List String := [".fwm.yaml",".fwm.yml",".fwm"]

/-- The module is stored in the binary form. -/
def isBinary (path : String) : Bool := path.endsWith ".fwm"

/-- The path without the extension of a module file, unless nothing else is left of it. -/
def trimModuleExtension (path : String) : String :=
  match moduleExtensions.find? fun e => e.length < path.length && path.endsWith e with
  | some e => String.ofList (path.toList.take (path.length - e.length))
  | none => path

end Loom.Path
