import Loom.Text.Quoted

/-!
Decimal numbers. Reading takes an optional sign and digits and keeps to 64 bits; writing can pad with zeros.
-/
namespace Loom.Text.Decimal

/-- Why a text is not a number. -/
inductive Fault where
  | malformed
  | outOfRange
  deriving DecidableEq

/-- Reads digits from the left. A number beyond 64 bits is out of range as soon as it is reached. -/
def magnitude : Nat → List Char → Except Fault Nat
  | n, [] => .ok n
  | n, c :: rest =>
    if '0' ≤ c && c ≤ '9' then
      let m := n * 10 + (c.toNat - '0'.toNat)
      if 0x10000000000000000 ≤ m then .error .outOfRange else magnitude m rest
    else .error .malformed

/-- Reads a number with an optional sign. -/
def parse (cs : List Char) : Except Fault Int :=
  let (negative,digits) :=
    match cs with
    | '-' :: rest => (true,rest)
    | '+' :: rest => (false,rest)
    | _ => (false,cs)
  if digits.isEmpty then .error .malformed
  else match magnitude 0 digits with
    | .error e => .error e
    | .ok n =>
      if negative then if n ≤ 0x8000000000000000 then .ok (-(n : Int)) else .error .outOfRange
      else if n < 0x8000000000000000 then .ok n else .error .outOfRange

/-- A signed number with at least `width` characters, padded with zeros after the sign. -/
def padded (width : Nat) (n : Int) : String :=
  let digits := Nat.toDigits 10 n.natAbs
  let sign := if n < 0 then ['-'] else []
  String.ofList (sign ++ List.replicate (width - sign.length - digits.length) '0' ++ digits)

end Loom.Text.Decimal
