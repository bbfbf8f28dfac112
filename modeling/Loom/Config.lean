import Loom.Datum
import Loom.Text.Quoted

/-!
The configuration of a run: the names of the markers and of the resolution primitive, the delimiter in generated
names, and the passes. What a configuration leaves out has a default.
-/
namespace Loom

/-- A pass over a module. -/
inductive Pass where
  | specialize
  | inject
  | implicit
  deriving DecidableEq, Inhabited

namespace Pass

def all : List Pass := [.specialize,.inject,.implicit]

def name : Pass → String
  | .specialize => "specialize"
  | .inject => "inject"
  | .implicit => "implicit"

def ofName? (s : String) : Option Pass := all.find? (·.name == s)

end Pass

/-- A configuration. -/
structure Config where
  generateMarker : String := "Funweave.GenerateSpecializationAttribute"
  injectMarker : String := "Funweave.InjectSpecializationsAttribute"
  typeclassMarker : String := "Funweave.TypeclassAttribute"
  resolverType : String := "Funweave.Implicitly"
  resolverMethod : String := "Resolve"
  delimiter : String := "$specialized$"
  passes : List Pass := Pass.all
  verbose : Bool := false
  deriving DecidableEq, Inhabited

namespace Config

/-- The pass is part of the run. -/
def enabled (c : Config) (pass : Pass) : Bool := c.passes.contains pass

/-- A pass of that name is part of the run. -/
def enabledName (c : Config) (name : String) : Bool := c.passes.any (·.name == name)

/-- Why a configuration is refused. -/
inductive Fault where
  /-- The data has not the form of a configuration. -/
  | undecodable
  | unknownPass (index : Nat) (name : String)
  | passTwice (index : Nat) (name : String)
  | injectAlone
  | injectFirst
  | delimiter (text : String)
  | typeName (field name : String)

/-- The words for a refused configuration. -/
def Fault.message (path : String) : Fault → String
  | .undecodable => "parsing " ++ path
  | .unknownPass i n => path ++ ": passes[" ++ toString i ++ "]: unknown pass " ++ Text.quote n
  | .passTwice i n => path ++ ": passes[" ++ toString i ++ "]: pass " ++ Text.quote n ++ " listed twice"
  | .injectAlone => path ++ ": pass \"inject\" requires \"specialize\""
  | .injectFirst => path ++ ": pass \"inject\" must run after \"specialize\""
  | .delimiter t => path ++ ": delimiter " ++ Text.quote t ++ " contains reserved characters"
  | .typeName f n => path ++ ": " ++ f ++ ": " ++ Text.quote n ++ " is not a type name"

/-! ### Decoding -/

/-- How the data of a configuration is written: where scalars have no type of their own, or where they do and the case
    of keys does not count. -/
inductive Format where
  | loose
  | typed
  deriving DecidableEq

/-- The format of a configuration file. -/
def Format.ofPath (path : String) : Format := if path.endsWith ".toml" then .typed else .loose

def decodeText (format : Format) : Datum → Except Fault String
  | .text s => .ok s
  | .null => .ok ""
  | .int n => if format = .loose then .ok (toString n) else .error .undecodable
  | .bool b => if format = .loose then .ok (if b then "true" else "false") else .error .undecodable
  | _ => .error .undecodable

/-- Words that stand for a truth value where scalars have no type. -/
def truthWord? (s : String) : Option Bool :=
  if ["y","Y","yes","Yes","YES","on","On","ON"].contains s then some true
  else if ["n","N","no","No","NO","off","Off","OFF"].contains s then some false
  else none

/-- A truth value. -/
def decodeBool (format : Format) : Datum → Except Fault Bool
  | .bool b => .ok b
  | .null => .ok false
  | .text s =>
    match format, truthWord? s with
    | .loose, some b => .ok b
    | _, _ => .error .undecodable
  | _ => .error .undecodable

def decodeTable : Datum → Except Fault (List (String × Datum))
  | .table entries => .ok entries
  | .null => .ok []
  | _ => .error .undecodable

/-- A list of texts. Items without a value do not count. -/
def decodeTexts (format : Format) : Datum → Except Fault (List String)
  | .list items => (items.filter (!·.isNull)).mapM (decodeText format)
  | .null => .ok []
  | _ => .error .undecodable

/-! ### Checking -/

/-- The passes of the given names, each known and listed once. -/
def readPasses : Nat → List Pass → List String → Except Fault (List Pass)
  | _, seen, [] => .ok seen.reverse
  | i, seen, name :: rest =>
    match Pass.ofName? name with
    | none => .error (.unknownPass i name)
    | some pass => if seen.contains pass then .error (.passTwice i name) else readPasses (i + 1) (pass :: seen) rest

/-- One of the characters occurs in the text. -/
def holdsAny (reserved : List Char) (s : String) : Bool := s.toList.any reserved.contains

/-- The first rule that a configuration breaks. -/
def check (c : Config) : Except Fault Unit := do
  if c.enabled .inject && !c.enabled .specialize then throw .injectAlone
  if c.enabled .inject && c.passes.idxOf .inject < c.passes.idxOf .specialize then throw .injectFirst
  if holdsAny ['/','<','>',',','!',':',' '] c.delimiter then throw (.delimiter c.delimiter)
  let names := [("markers.generate_specialization",c.generateMarker),("markers.inject_specializations",c.injectMarker),
    ("markers.typeclass",c.typeclassMarker),("resolver.type",c.resolverType)]
  names.forM fun (field,name) => if holdsAny ['<','>','!',',',' '] name then throw (.typeName field name) else pure ()

/-- A configuration as it is written, where what is left out is empty. -/
structure Raw where
  generateMarker : String := ""
  injectMarker : String := ""
  typeclassMarker : String := ""
  resolverType : String := ""
  resolverMethod : String := ""
  delimiter : String := ""
  passes : List String := []
  verbose : Bool := false

def Raw.decode (format : Format) (data : Datum) : Except Fault Raw := do
  let get (entries : List (String × Datum)) (key : String) : Datum :=
    (Datum.get? (format = .typed) key entries).getD .null
  let entries ← decodeTable data
  let markers ← decodeTable (get entries "markers")
  let generateMarker ← decodeText format (get markers "generate_specialization")
  let injectMarker ← decodeText format (get markers "inject_specializations")
  let typeclassMarker ← decodeText format (get markers "typeclass")
  let resolver ← decodeTable (get entries "resolver")
  let resolverType ← decodeText format (get resolver "type")
  let resolverMethod ← decodeText format (get resolver "method")
  let delimiter ← decodeText format (get entries "delimiter")
  let passes ← decodeTexts format (get entries "passes")
  let verbose ← decodeBool format (get entries "verbose")
  return { generateMarker, injectMarker, typeclassMarker, resolverType, resolverMethod, delimiter, passes, verbose }

/-- The configuration that is meant, with the defaults in place of what is empty. -/
def Raw.config (raw : Raw) : Except Fault Config := do
  let defaults : Config := {}
  let orDefault (s default : String) : String := if s.isEmpty then default else s
  let passes ← if raw.passes.isEmpty then pure defaults.passes else readPasses 0 [] raw.passes
  let config : Config :=
    { generateMarker := orDefault raw.generateMarker defaults.generateMarker
      injectMarker := orDefault raw.injectMarker defaults.injectMarker
      typeclassMarker := orDefault raw.typeclassMarker defaults.typeclassMarker
      resolverType := orDefault raw.resolverType defaults.resolverType
      resolverMethod := orDefault raw.resolverMethod defaults.resolverMethod
      delimiter := orDefault raw.delimiter defaults.delimiter
      passes
      verbose := raw.verbose }
  config.check
  return config

def ofDatum (format : Format) (data : Datum) : Except Fault Config := do
  (← Raw.decode format data).config

end Config
end Loom
