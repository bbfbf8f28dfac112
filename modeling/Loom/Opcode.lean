/-!
Operation codes of the stack machine. Every code has a mnemonic and says what kind of operand it takes; a code
that names no operation is kept as a number.
-/
namespace Loom

/-- What an instruction carries beside its operation. -/
inductive OperandKind where
  | none
  | int
  | text
  | type
  | method
  | field
  | branch
  deriving DecidableEq

def OperandKind.code : OperandKind → Nat
  | .none => 0
  | .int => 1
  | .text => 2
  | .type => 3
  | .method => 4
  | .field => 5
  | .branch => 6

/-- An operation of the stack machine. -/
inductive Opcode where
  | nop
  | loadArg
  | loadArgAddress
  | storeArg
  | loadLocal
  | loadLocalAddress
  | storeLocal
  | loadInt
  | loadText
  | loadNull
  | loadField
  | storeField
  | call
  | callVirtual
  | newObject
  | ret
  | pop
  | dup
  | box
  | unbox
  | initObject
  | castClass
  | constrained
  | add
  | sub
  | mul
  | equal
  | greater
  | less
  | branch
  | branchTrue
  | branchFalse
  | unknown (code : UInt8)
  deriving DecidableEq, Inhabited

namespace Opcode

/-- The operations in the order of their codes. -/
def all : List Opcode :=
  [.nop,.loadArg,.loadArgAddress,.storeArg,.loadLocal,.loadLocalAddress,.storeLocal,.loadInt,
   .loadText,.loadNull,.loadField,.storeField,.call,.callVirtual,.newObject,.ret,.pop,.dup,
   .box,.unbox,.initObject,.castClass,.constrained,.add,.sub,.mul,.equal,.greater,.less,
   .branch,.branchTrue,.branchFalse]

/-- The mnemonic of an operation. -/
def name : Opcode → String
  | .nop => "nop"
  | .loadArg => "ldarg"
  | .loadArgAddress => "ldarga"
  | .storeArg => "starg"
  | .loadLocal => "ldloc"
  | .loadLocalAddress => "ldloca"
  | .storeLocal => "stloc"
  | .loadInt => "ldc.i4"
  | .loadText => "ldstr"
  | .loadNull => "ldnull"
  | .loadField => "ldfld"
  | .storeField => "stfld"
  | .call => "call"
  | .callVirtual => "callvirt"
  | .newObject => "newobj"
  | .ret => "ret"
  | .pop => "pop"
  | .dup => "dup"
  | .box => "box"
  | .unbox => "unbox.any"
  | .initObject => "initobj"
  | .castClass => "castclass"
  | .constrained => "constrained."
  | .add => "add"
  | .sub => "sub"
  | .mul => "mul"
  | .equal => "ceq"
  | .greater => "cgt"
  | .less => "clt"
  | .branch => "br"
  | .branchTrue => "brtrue"
  | .branchFalse => "brfalse"
  | .unknown code => "op(" ++ toString code.toNat ++ ")"

/-- What an operation carries; an unknown code carries nothing. -/
def operandKind : Opcode → OperandKind
  | .loadArg => .int
  | .loadArgAddress => .int
  | .storeArg => .int
  | .loadLocal => .int
  | .loadLocalAddress => .int
  | .storeLocal => .int
  | .loadInt => .int
  | .loadText => .text
  | .loadField => .field
  | .storeField => .field
  | .call => .method
  | .callVirtual => .method
  | .newObject => .method
  | .box => .type
  | .unbox => .type
  | .initObject => .type
  | .castClass => .type
  | .constrained => .type
  | .branch => .branch
  | .branchTrue => .branch
  | .branchFalse => .branch
  | _ => .none

/-- The number of an operation. -/
def code : Opcode → Nat
  | .nop => 0
  | .loadArg => 1
  | .loadArgAddress => 2
  | .storeArg => 3
  | .loadLocal => 4
  | .loadLocalAddress => 5
  | .storeLocal => 6
  | .loadInt => 7
  | .loadText => 8
  | .loadNull => 9
  | .loadField => 10
  | .storeField => 11
  | .call => 12
  | .callVirtual => 13
  | .newObject => 14
  | .ret => 15
  | .pop => 16
  | .dup => 17
  | .box => 18
  | .unbox => 19
  | .initObject => 20
  | .castClass => 21
  | .constrained => 22
  | .add => 23
  | .sub => 24
  | .mul => 25
  | .equal => 26
  | .greater => 27
  | .less => 28
  | .branch => 29
  | .branchTrue => 30
  | .branchFalse => 31
  | .unknown code => code.toNat

/-- The operation of that number. -/
def ofCode (code : UInt8) : Opcode := (all[code.toNat]?).getD (.unknown code)

/-- The operation of that mnemonic. -/
def ofName? (s : String) : Option Opcode := all.find? (·.name == s)

end Opcode
end Loom
