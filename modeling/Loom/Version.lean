import Loom.Text.Quoted

/-!
Module version ids: sixteen octets, read from several written forms and written as five groups of lower-case
hexadecimal digits.
-/
namespace Loom

/-- The identity of a module. -/
structure Version where
  octets : List UInt8
  deriving DecidableEq, Inhabited

namespace Version

/-- Why a text is not a version id. -/
inductive Fault where
  | length (octets : Nat)
  | urn (lead : Text.Octets)
  | malformed
  deriving DecidableEq

def Fault.message : Fault → String
  | .length n => "invalid UUID length: " ++ toString n
  | .urn lead => "invalid urn prefix: " ++ Text.Quoted.encode lead
  | .malformed => "invalid UUID format"

/-- Pairs of hexadecimal digits as octets. -/
def hexPairs : List UInt8 → Option (List UInt8)
  | [] => some []
  | a :: b :: rest => do
    let high ← Text.Quoted.hexValue? (Char.ofNat a.toNat)
    let low ← Text.Quoted.hexValue? (Char.ofNat b.toNat)
    return (high * 16 + low).toUInt8 :: (← hexPairs rest)
  | [_] => none

/-- The digits of the form with four dashes. -/
def dashed (bs : List UInt8) : Option (List UInt8) :=
  if [8,13,18,23].all fun i => bs[i]? = some 45 then
    some (bs.take 8 ++ (bs.drop 9).take 4 ++ (bs.drop 14).take 4 ++ (bs.drop 19).take 4 ++ (bs.drop 24).take 12)
  else none

/-- The letter in lower case, if it is an ASCII letter. -/
def lower (b : UInt8) : UInt8 := if 65 ≤ b && b ≤ 90 then b + 32 else b

def urnLead : List UInt8 := (Text.Octets.ofString "urn:uuid:").toList

/-- Reads a version id. The length of the text decides which form it has. -/
def parse (s : String) : Except Fault Version :=
  let bs := (Text.Octets.ofString s).toList
  let read (digits : Option (List UInt8)) : Except Fault Version :=
    match digits.bind hexPairs with
    | some octets => .ok ⟨octets⟩
    | none => .error .malformed
  match bs.length with
  | 36 => read (dashed bs)
  | 45 => if (bs.take 9).map lower = urnLead then read (dashed (bs.drop 9)) else .error (.urn ⟨bs.take 9⟩)
  | 38 => read (dashed (bs.drop 1))
  | 32 => read (some bs)
  | n => .error (.length n)

/-- Five groups of lower-case digits. -/
def text (v : Version) : String :=
  let digits := v.octets.flatMap fun b => Text.Quoted.hexDigits 2 b.toNat
  let group (start length : Nat) := (digits.drop start).take length
  String.ofList (group 0 8 ++ '-' :: group 8 4 ++ '-' :: group 12 4 ++ '-' :: group 16 4 ++ '-' :: group 20 12)

end Version
end Loom
