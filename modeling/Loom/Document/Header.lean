import Loom.Error

/-!
The header of the binary form of a module: four octets that mark it and one for its version.
-/
namespace Loom.Document

/-- The octets that mark a module. -/
def mark : List UInt8 := [0x46,0x57,0x4d,0x42]

/-- What is wrong with the data before its payload can be read, or with an empty payload. -/
def headerFault? : List UInt8 → Option LinkFault
  | a :: b :: c :: d :: version :: payload =>
    if [a,b,c,d] ≠ mark then some .foreignHeader
    else if version ≠ 1 then some (.foreignVersion version.toNat)
    else if payload.isEmpty then some .emptyPayload
    else none
  | _ => some .truncatedHeader

end Loom.Document
