import Loom.Text.Octets

/-!
What can go wrong in the machine, and the words for it.
-/
namespace Loom.Machine

open Text (Octets)

inductive FaultKind where
  | stackUnderflow
  | stackOverflow
  | unknownNative
  | unresolvedMethod
  | notWoven
  | nullReference
  | invalidCast
  | invalidProgram
  | indexOutOfRange
  /-- The request names something that is not there. -/
  | other
  /-- The program needs a value that is not there. -/
  | crash
  deriving DecidableEq, Inhabited

/-- The words that begin the message of a class. -/
def FaultKind.text : FaultKind → String
  | .stackUnderflow => "stack underflow"
  | .stackOverflow => "stack overflow"
  | .unknownNative => "unknown native"
  | .unresolvedMethod => "unresolved method"
  | .notWoven => "resolution primitive called at run time: module was not woven"
  | .nullReference => "null reference"
  | .invalidCast => "invalid cast"
  | .invalidProgram => "invalid program"
  | .indexOutOfRange => "index out of range"
  | .other => ""
  | .crash => "runtime error"

/-- Why the machine stops. -/
inductive Fault where
  | stackUnderflow
  | stackOverflow
  | unknownNative (key : String)
  | unresolved (operand : String)
  | withoutBody (method : String)
  | noStatic (type method : String) (count : Nat)
  | noConstructor (type : String) (count : Nat)
  | noMethod (receiver : Octets) (method : String) (count : Nat)
  | noOverride (method : String) (receiver : Octets)
  | notWoven (requested : String)
  | nullReceiver
  | nullCall (method : String)
  | nullField (field : String)
  | badCast (value : Octets) (type : String)
  | endless (method : String)
  | noField (value : Octets) (field : String)
  | fieldless (value : Octets)
  | noAddress
  | badOperands (operation : String) (left right : Octets)
  | unknownOpcode (name : String)
  | slotRange (instruction : String)
  | branchOutside (method : String)
  | lengthOf (value : Octets)
  | notList (value : Octets)
  | index (value : Octets) (count : Nat)
  | typeNotFound (name : String)
  | notConstructible (name : String)
  /-- A native operation is given no argument. -/
  | missingArgument
  /-- An operand is not of the kind that its operation takes. -/
  | operandKind
  | within (method : String) (f : Fault)
  deriving Inhabited

namespace Fault

def kind : Fault → FaultKind
  | .stackUnderflow => .stackUnderflow
  | .stackOverflow => .stackOverflow
  | .unknownNative _ => .unknownNative
  | .unresolved _ => .unresolvedMethod
  | .withoutBody _ => .unresolvedMethod
  | .noStatic _ _ _ => .unresolvedMethod
  | .noConstructor _ _ => .unresolvedMethod
  | .noMethod _ _ _ => .unresolvedMethod
  | .noOverride _ _ => .unresolvedMethod
  | .notWoven _ => .notWoven
  | .nullReceiver => .nullReference
  | .nullCall _ => .nullReference
  | .nullField _ => .nullReference
  | .badCast _ _ => .invalidCast
  | .endless _ => .invalidProgram
  | .noField _ _ => .invalidProgram
  | .fieldless _ => .invalidProgram
  | .noAddress => .invalidProgram
  | .badOperands _ _ _ => .invalidProgram
  | .unknownOpcode _ => .invalidProgram
  | .slotRange _ => .invalidProgram
  | .branchOutside _ => .invalidProgram
  | .lengthOf _ => .invalidProgram
  | .notList _ => .invalidProgram
  | .index _ _ => .indexOutOfRange
  | .typeNotFound _ => .other
  | .notConstructible _ => .other
  | .missingArgument => .crash
  | .operandKind => .crash
  | .within _ f => f.kind

/-- The details of a fault, after the words of its class. -/
def detail : Fault → Octets
  | .stackUnderflow => ""
  | .stackOverflow => ""
  | .unknownNative key => ": " ++ key
  | .unresolved operand => ": " ++ operand
  | .withoutBody m => ": " ++ m ++ " has no body"
  | .noStatic t m n => ": static " ++ t ++ "::" ++ m ++ " with " ++ toString n ++ " arguments"
  | .noConstructor t n => ": " ++ t ++ " has no constructor with " ++ toString n ++ " arguments"
  | .noMethod v m n =>
    Octets.ofString ": " ++ v ++ Octets.ofString (" has no method " ++ m ++ " with " ++ toString n ++ " arguments")
  | .noOverride m v => Octets.ofString (": no implementation of " ++ m ++ " on ") ++ v
  | .notWoven t => " (requested " ++ t ++ ")"
  | .nullReceiver => ""
  | .nullCall m => ": calling " ++ m
  | .nullField f => ": accessing " ++ f
  | .badCast v t => Octets.ofString ": " ++ v ++ Octets.ofString (" to " ++ t)
  | .endless m => ": " ++ m ++ " falls off the end of its body"
  | .noField v f => Octets.ofString ": " ++ v ++ Octets.ofString (" has no field " ++ f)
  | .fieldless v => Octets.ofString ": " ++ v ++ Octets.ofString " has no fields"
  | .noAddress => ": initobj expects an address"
  | .badOperands o a b => Octets.ofString (": " ++ o ++ " on ") ++ a ++ Octets.ofString " and " ++ b
  | .unknownOpcode o => ": unknown opcode " ++ o
  | .slotRange i => ": " ++ i ++ " out of range"
  | .branchOutside m => ": branch target outside " ++ m
  | .lengthOf v => Octets.ofString ": get_Length on " ++ v
  | .notList v => Octets.ofString ": " ++ v ++ Octets.ofString " is not a list"
  | .index v n => Octets.ofString ": " ++ v ++ Octets.ofString (" of " ++ toString n)
  | .typeNotFound n => "type " ++ n ++ " not found"
  | .notConstructible n => "cannot construct " ++ n
  | .missingArgument => ": index out of range [0] with length 0"
  | .operandKind => ": operand of another kind"
  | .within _ f => f.detail

/-- The message of a fault. A fault of a native operation begins with its method. -/
def message : Fault → Octets
  | .within m f => Octets.ofString (m ++ ": ") ++ f.message
  | f => Octets.ofString f.kind.text ++ f.detail

end Fault
end Loom.Machine
