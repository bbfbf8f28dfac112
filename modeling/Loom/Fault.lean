import Loom.Program.Rebind

/-!
What can go wrong, cause by cause, and the words for it.
-/
namespace Loom

open Text (Octets quote)

/-- Why a type, member or instruction text cannot be read. -/
inductive ReadFault where
  | emptyType
  | typeParamRange (text : String)
  | methodParamRange (text : String)
  | unknownType (name : String)
  | unbalanced
  | unbalancedArguments (name args : String)
  | unbalancedIn (text : String)
  | count (e : CountMismatch)
  | methodWithoutReturn (text : String)
  | methodWithoutDeclaring (text : String)
  | malformedMethod (text : String)
  | malformedArity (text : String)
  | unterminatedArguments (text : String)
  | methodOnParameter (text : String)
  | unresolvedMethod (text : String)
  | fieldWithoutType (text : String)
  | fieldWithoutDeclaring (text : String)
  | unresolvedField (declaring name : String)
  | unknownOpcode (name : String)
  | noOperandTaken (opcode : Opcode)
  | labelNeeded (opcode : Opcode)
  | number (text : String) (e : Text.Decimal.Fault)
  | unquotable
  | inOperand (opcode : Opcode) (e : ReadFault)
  | unsupportedArgument (text : String)

namespace ReadFault

/-- The words for a text that cannot be read. -/
def message : ReadFault → String
  | .emptyType => "empty type"
  | .typeParamRange t => "type parameter " ++ t ++ " out of range"
  | .methodParamRange t => "method type parameter " ++ t ++ " out of range"
  | .unknownType n => "unknown type " ++ quote n
  | .unbalanced => "unbalanced brackets"
  | .unbalancedArguments n a => n ++ "<" ++ a ++ ">: unbalanced brackets"
  | .unbalancedIn t => quote t ++ ": unbalanced brackets"
  | .count e => e.message
  | .methodWithoutReturn t => "method reference " ++ quote t ++ " has no return type"
  | .methodWithoutDeclaring t => "method reference " ++ quote t ++ " has no declaring type"
  | .malformedMethod t => "malformed method reference " ++ quote t
  | .malformedArity t => "malformed generic arity in " ++ quote t
  | .unterminatedArguments t => "unterminated generic arguments in " ++ quote t
  | .methodOnParameter t => "method reference " ++ quote t ++ " is declared on a type parameter"
  | .unresolvedMethod t => "unresolved method " ++ t
  | .fieldWithoutType t => "field reference " ++ quote t ++ " has no type"
  | .fieldWithoutDeclaring t => "field reference " ++ quote t ++ " has no declaring type"
  | .unresolvedField d n => "unresolved field " ++ d ++ "::" ++ n
  | .unknownOpcode n => "unknown opcode " ++ quote n
  | .noOperandTaken o => o.name ++ " takes no operand"
  | .labelNeeded o => o.name ++ " needs a label"
  | .number t .malformed => "strconv.Atoi: parsing " ++ quote t ++ ": invalid syntax"
  | .number t .outOfRange => "strconv.Atoi: parsing " ++ quote t ++ ": value out of range"
  | .unquotable => "invalid syntax"
  | .inOperand o e => o.name ++ ": " ++ e.message
  | .unsupportedArgument t => "unsupported attribute argument " ++ quote t

def count? : ReadFault → Option CountMismatch
  | .count e => some e
  | .inOperand _ e => e.count?
  | _ => none

end ReadFault

/-- Why a document is no module. -/
inductive LinkFault where
  | unnamedModule
  | version (e : Version.Fault)
  | unnamedType
  | unknownTypeFlag (name : String)
  | nestedWithDeclaring
  | unknownDeclaring (name : String)
  | declaredTwice
  | base (e : ReadFault)
  | interface (e : ReadFault)
  | attribute (e : ReadFault)
  | attributeArg (type : String) (e : ReadFault)
  | field (name : String) (e : ReadFault)
  | unknownMethodFlag (name : String)
  | returnType (e : ReadFault)
  | param (name : String) (e : ReadFault)
  | needlessBody
  | localType (index : Nat) (e : ReadFault)
  | labelTwice (name : String)
  | instruction (line : String) (e : ReadFault)
  | undefinedLabel (name : String)
  | truncatedHeader
  | foreignHeader
  | foreignVersion (version : Nat)
  | emptyPayload
  | malformed

/-- The words for a document that is no module. -/
def LinkFault.message : LinkFault → String
  | .unnamedModule => "module name is missing"
  | .version e => "mvid: " ++ e.message
  | .unnamedType => "type without a name"
  | .unknownTypeFlag n => "unknown type flag " ++ quote n
  | .nestedWithDeclaring => "nested type cannot name a declaring type"
  | .unknownDeclaring n => "unknown declaring type " ++ quote n
  | .declaredTwice => "type declared twice"
  | .base e => "base type: " ++ e.message
  | .interface e => "interface: " ++ e.message
  | .attribute e => "attribute: " ++ e.message
  | .attributeArg t e => "attribute " ++ t ++ ": " ++ e.message
  | .field n e => "field " ++ n ++ ": " ++ e.message
  | .unknownMethodFlag n => "unknown method flag " ++ quote n
  | .returnType e => "return type: " ++ e.message
  | .param n e => "parameter " ++ n ++ ": " ++ e.message
  | .needlessBody => "abstract or native method with a body"
  | .localType i e => "local " ++ toString i ++ ": " ++ e.message
  | .labelTwice n => "label " ++ n ++ " defined twice"
  | .instruction l e => quote l ++ ": " ++ e.message
  | .undefinedLabel n => "branch to undefined label " ++ n
  | .truncatedHeader => "module data too short"
  | .foreignHeader => "invalid magic number, expected FWMB"
  | .foreignVersion v => "unsupported module version: " ++ toString v ++ " (this binary supports version 1)"
  | .emptyPayload => "v1 gob decoding failed: EOF"
  | .malformed => "malformed module data"

/-- Why a pass over a module fails. -/
inductive WeaveFault where
  | notGeneric
  | severalParams (count : Nat)
  | openArgument (text : String)
  | methodNotFound (text : String)
  | withoutClone (method : String)
  | fieldNotFound (name on : String)
  | branchOutside (index : Nat)
  | registeredTwice (argument : String)
  | severalSpecializations (argument : String)
  | markerArity (marker : String) (count : Nat)
  | markerArgument (marker : String) (argument : Octets)
  | notTypeclass
  | noImplementation
  | severalImplementations (count : Nat)
  | severalGenericImplementations (count : Nat)
  | noDefaultConstructor (type : String)
  | noConstructorTaking (type argument : String)
  | registryMissing

/-- The words for a pass that fails. -/
def WeaveFault.message : WeaveFault → Octets
  | .notGeneric => "type has no generic parameters to specialize"
  | .severalParams n => "specializing a type with " ++ toString n ++ " generic parameters is not implemented"
  | .openArgument t => "specialization argument " ++ t ++ " is not a concrete type"
  | .methodNotFound t => "method " ++ t ++ " not found"
  | .withoutClone m => "no clone of " ++ m
  | .fieldNotFound n t => "field " ++ n ++ " not found on " ++ t
  | .branchOutside i => "instruction " ++ toString i ++ " branches outside of the body"
  | .registeredTwice a => "specialization for " ++ a ++ " registered twice"
  | .severalSpecializations a => "more than one specialization matches " ++ a
  | .markerArity m n => m ++ " expects one type argument, got " ++ toString n
  | .markerArgument m a => Octets.ofString (m ++ " argument ") ++ a ++ Octets.ofString " is not a type"
  | .notTypeclass => "not a typeclass instance"
  | .noImplementation => "no implementation found"
  | .severalImplementations n => toString n ++ " implementations match"
  | .severalGenericImplementations n => toString n ++ " generic implementations match"
  | .noDefaultConstructor t => t ++ " has no parameterless constructor"
  | .noConstructorTaking t a => t ++ " has no constructor taking " ++ a
  | .registryMissing => "injection requires the specialize pass to run first"

end Loom
