import Loom.Fault

/-!
Errors as they are reported. A diagnostic has a code and a site; errors nest when one is reported because of
another. A request can also fail without a report: it needs something that is not there, or it does not end.
-/
namespace Loom

open Text (Octets)

/-- The class of a diagnostic. -/
inductive Code where
  | unsupportedKind
  | parameterCount
  | notImplemented
  | unresolvedTypeclass
  | ambiguousSpecialization
  | memberNotFound
  | invalidModule
  | configuration
  | other (text : String)
  deriving DecidableEq, Inhabited

namespace Code

/-- The classes that have a number, in order. -/
def all : List Code :=
  [.unsupportedKind,.parameterCount,.notImplemented,.unresolvedTypeclass,.ambiguousSpecialization,
   .memberNotFound,.invalidModule,.configuration]

def text : Code → String
  | .unsupportedKind => "W001"
  | .parameterCount => "W002"
  | .notImplemented => "W003"
  | .unresolvedTypeclass => "W004"
  | .ambiguousSpecialization => "W005"
  | .memberNotFound => "W006"
  | .invalidModule => "W007"
  | .configuration => "W008"
  | .other t => t

def ofText (s : String) : Code := (all.find? (·.text == s)).getD (.other s)

end Code

/-- What an error says by itself. -/
inductive Cause where
  | text (t : Octets)
  | read (f : ReadFault)
  | link (f : LinkFault)
  | weave (f : WeaveFault)
  | count (e : CountMismatch)
  | sealedRegistry
  | notInBody (instruction : String)
  | operandMismatch (operand : String) (opcode : Opcode)

def Cause.message : Cause → Octets
  | .text t => t
  | .read f => f.message
  | .link f => f.message
  | .weave f => f.message
  | .count e => e.message
  | .sealedRegistry => "registry is sealed"
  | .notInBody i => "instruction " ++ i ++ " is not part of the body"
  | .operandMismatch t o => "invalid operand " ++ t ++ " for " ++ o.name

inductive Error where
  | cause (c : Cause)
  /-- A diagnostic. -/
  | diagnostic (code : Code) (site : String) (c : Cause)
  /-- A diagnostic that reports another error. -/
  | wrapped (code : Code) (site : String) (inner : Error)
  /-- A diagnostic brought to another site, with its first site in the message. -/
  | moved (site : String) (inner : Error)
  /-- An error in a context. -/
  | within (context : String) (inner : Error)

structure Diagnostic where
  code : Code
  site : String
  message : Octets

/-- The line that reports a diagnostic. -/
def Diagnostic.text (d : Diagnostic) : Octets :=
  Octets.ofString ((if d.site.isEmpty then "" else d.site ++ ": ") ++ "error [" ++ d.code.text ++ "]: ") ++ d.message

namespace Error

/-- The text of an error, together with the first diagnostic in it. -/
def view : Error → Octets × Option Diagnostic
  | .cause c => (c.message,none)
  | .diagnostic code site c =>
    let d : Diagnostic := ⟨code,site,c.message⟩
    (d.text,some d)
  | .wrapped code site inner =>
    let d : Diagnostic := ⟨code,site,inner.view.1⟩
    (d.text,some d)
  | .moved site inner =>
    match inner.view.2 with
    | some first =>
      let lead := if first.site.isEmpty then "" else first.site ++ ": "
      let d : Diagnostic := ⟨first.code,site,Octets.ofString lead ++ first.message⟩
      (d.text,some d)
    | none => inner.view
  | .within context inner => (Octets.ofString (context ++ ": ") ++ inner.view.1,inner.view.2)

def message (e : Error) : Octets := e.view.1

def diagnostic? (e : Error) : Option Diagnostic := e.view.2

/-- The first diagnostic in an error; an error without one is wrapped under the given code. -/
def asDiagnostic (fallback : Code) (e : Error) : Diagnostic := e.diagnostic?.getD ⟨fallback,"",e.message⟩

/-- The error that another one reports. -/
def inner? : Error → Option Error
  | .cause _ => none
  | .diagnostic _ _ _ => none
  | .wrapped _ _ inner => some inner
  | .moved _ inner => some inner
  | .within _ inner => some inner

/-- The classes of every diagnostic in an error. -/
def codes : Error → List Code
  | .cause _ => []
  | .diagnostic code _ _ => [code]
  | .wrapped code _ inner => code :: inner.codes
  | .moved _ inner => inner.codes
  | .within _ inner => inner.codes

/-- The argument count that was wrong, if that is what the error reports. -/
def count? : Error → Option CountMismatch
  | .cause (.count e) => some e
  | .cause (.read f) => f.count?
  | .cause _ => none
  | .diagnostic _ _ _ => none
  | .wrapped _ _ inner => inner.count?
  | .moved _ inner => inner.count?
  | .within _ inner => inner.count?

/-- Brings an error to a site; an error without a diagnostic is wrapped under the given code. -/
def moveTo (fallback : Code) (site : String) (e : Error) : Error :=
  match e.diagnostic? with
  | some _ => .moved site e
  | none => .wrapped fallback site e

/-- Puts the site on a diagnostic that has none. A context around the diagnostic is dropped. -/
def withSite (fallback : Code) (path : String) : Error → Error
  | .diagnostic code site c => .diagnostic code (if site.isEmpty then path else site) c
  | .wrapped code site inner => .wrapped code (if site.isEmpty then path else site) inner
  | .moved site inner => .moved site inner
  | .within context inner =>
    match inner.diagnostic? with
    | some _ => inner.withSite fallback path
    | none => .wrapped fallback path (.within context inner)
  | .cause c => .wrapped fallback path (.cause c)

end Error

/-- What a request can need and not find. -/
inductive Crash where
  /-- A value that is absent. -/
  | absent
  /-- The first element of an empty list. -/
  | noElement
  /-- A list of an impossible length. -/
  | length
  deriving DecidableEq, Inhabited

/-- The words for a request that cannot go on. -/
def Crash.text : Crash → String
  | .absent => "runtime error: invalid memory address or nil pointer dereference"
  | .noElement => "runtime error: index out of range [0] with length 0"
  | .length => "runtime error: makeslice: len out of range"

/-- How a request can fail. -/
inductive Failure where
  /-- It is refused with a report. -/
  | error (e : Error)
  /-- It cannot go on and is not reported. -/
  | crash (c : Crash)
  /-- It takes more steps than it was given. -/
  | unbounded

namespace Failure

def weave (code : Code) (site : String) (f : WeaveFault) : Failure := .error (.diagnostic code site (.weave f))

def link (site : String) (f : LinkFault) : Failure := .error (.diagnostic .invalidModule site (.link f))

/-- A text that cannot be read. -/
def read (f : ReadFault) : Failure := .error (.cause (.read f))

/-- A wrong number of arguments at a site. -/
def countAt (site : String) (e : CountMismatch) : Failure :=
  .error (.wrapped .parameterCount site (.cause (.count e)))

end Failure
end Loom
