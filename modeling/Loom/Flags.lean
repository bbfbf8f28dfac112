/-!
Declaration flags of types and methods. Each flag has a name and a bit; a set of flags is a word of bits, and
its names are listed in the order of the bits.
-/
namespace Loom

inductive TypeFlag where
  | isPublic
  | isInterface
  | isAbstract
  | isSealed
  | isValueType
  deriving DecidableEq

namespace TypeFlag

/-- Every flag, in the order of their bits. -/
def all : List TypeFlag := [.isPublic,.isInterface,.isAbstract,.isSealed,.isValueType]

/-- The word that a document uses for the flag. -/
def name : TypeFlag → String
  | .isPublic => "public"
  | .isInterface => "interface"
  | .isAbstract => "abstract"
  | .isSealed => "sealed"
  | .isValueType => "valuetype"

/-- The word in which only this flag is set. -/
def bit : TypeFlag → UInt32
  | .isPublic => 1
  | .isInterface => 2
  | .isAbstract => 4
  | .isSealed => 8
  | .isValueType => 16

def ofName? (s : String) : Option TypeFlag := all.find? (·.name == s)

end TypeFlag

structure TypeFlags where
  bits : UInt32 := 0
  deriving DecidableEq, Inhabited

namespace TypeFlags

def has (fs : TypeFlags) (f : TypeFlag) : Bool := fs.bits &&& f.bit != 0

def insert (fs : TypeFlags) (f : TypeFlag) : TypeFlags := ⟨fs.bits ||| f.bit⟩

def ofList (fs : List TypeFlag) : TypeFlags := fs.foldl insert {}

/-- The names of the set flags, in the order of their bits. -/
def names (fs : TypeFlags) : List String := (TypeFlag.all.filter fs.has).map TypeFlag.name

end TypeFlags

inductive MethodFlag where
  | isPublic
  | isPrivate
  | isStatic
  | isVirtual
  | isAbstract
  | isSpecialName
  deriving DecidableEq

namespace MethodFlag

/-- Every flag, in the order of their bits. -/
def all : List MethodFlag := [.isPublic,.isPrivate,.isStatic,.isVirtual,.isAbstract,.isSpecialName]

/-- The word that a document uses for the flag. -/
def name : MethodFlag → String
  | .isPublic => "public"
  | .isPrivate => "private"
  | .isStatic => "static"
  | .isVirtual => "virtual"
  | .isAbstract => "abstract"
  | .isSpecialName => "specialname"

/-- The word in which only this flag is set. -/
def bit : MethodFlag → UInt32
  | .isPublic => 1
  | .isPrivate => 2
  | .isStatic => 4
  | .isVirtual => 8
  | .isAbstract => 16
  | .isSpecialName => 32

def ofName? (s : String) : Option MethodFlag := all.find? (·.name == s)

end MethodFlag

structure MethodFlags where
  bits : UInt32 := 0
  deriving DecidableEq, Inhabited

namespace MethodFlags

def has (fs : MethodFlags) (f : MethodFlag) : Bool := fs.bits &&& f.bit != 0

def insert (fs : MethodFlags) (f : MethodFlag) : MethodFlags := ⟨fs.bits ||| f.bit⟩

def ofList (fs : List MethodFlag) : MethodFlags := fs.foldl insert {}

/-- The names of the set flags, in the order of their bits. -/
def names (fs : MethodFlags) : List String := (MethodFlag.all.filter fs.has).map MethodFlag.name

end MethodFlags
end Loom
