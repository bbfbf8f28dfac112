import Loom.Text.Blank

/-!
Text as a sequence of octets. Names and documents are well-formed strings; string constants may hold any
octets, because an escape can write half of a character. `pieces` reads octets as characters and stray
octets, and `ofString` is read back as its own characters.
-/
namespace Loom.Text

/-- Text that need not be well-formed UTF-8. -/
structure Octets where
  /-- The octets in order. -/
  toList : List UInt8
  deriving DecidableEq, Inhabited

/-- What a reader of octets meets: a character, or an octet that belongs to none. -/
inductive Piece where
  | char (c : Char)
  | stray (b : UInt8)
  deriving DecidableEq

/-- The character of a piece that is no stray octet. -/
def Piece.char? : Piece → Option Char
  | .char c => some c
  | .stray _ => none

def Piece.octets : Piece → List UInt8
  | .char c => String.utf8EncodeChar c
  | .stray b => [b]

/-- A stray octet is not white space, whatever its number. -/
def Piece.isBlank : Piece → Bool
  | .char c => Text.isBlank c
  | .stray _ => false

namespace Octets

def ofChars (cs : List Char) : Octets := ⟨cs.flatMap String.utf8EncodeChar⟩

/-- The UTF-8 form of a string. -/
def ofString (s : String) : Octets := ofChars s.toList

instance : Append Octets := ⟨fun a b => ⟨a.toList ++ b.toList⟩⟩
instance : Coe String Octets := ⟨ofString⟩

/-- An octet that continues a character. -/
def isTail (b : UInt8) : Bool := 0x80 ≤ b && b ≤ 0xbf

/-- The six payload bits of a continuing octet. -/
def tailBits (b : UInt8) : Nat := b.toNat % 0x40

/-- The character that starts at a non-ASCII octet, with the number of octets that continue it. -/
def leadChar? (a : UInt8) (rest : List UInt8) : Option (Char × Nat) :=
  match rest with
  | b :: more =>
    if !isTail b then none
    else if 0xc2 ≤ a && a ≤ 0xdf then
      some (Char.ofNat (a.toNat % 0x20 * 0x40 + tailBits b),1)
    else match more with
      | c :: last =>
        if !isTail c then none
        else if 0xe0 ≤ a && a ≤ 0xef then
          let n := (a.toNat % 0x10 * 0x40 + tailBits b) * 0x40 + tailBits c
          if 0x800 ≤ n && !(0xd800 ≤ n && n ≤ 0xdfff) then some (Char.ofNat n,2) else none
        else match last with
          | d :: _ =>
            let n := ((a.toNat % 8 * 0x40 + tailBits b) * 0x40 + tailBits c) * 0x40 + tailBits d
            if isTail d && 0xf0 ≤ a && a ≤ 0xf4 && 0x10000 ≤ n && n ≤ 0x10ffff then some (Char.ofNat n,3)
            else none
          | [] => none
      | [] => none
  | [] => none

/-- The characters and stray octets of a list of octets, after the given number of octets that are already read. -/
def piecesAfter : Nat → List UInt8 → List Piece
  | _, [] => []
  | n + 1, _ :: rest => piecesAfter n rest
  | 0, a :: rest =>
    if a < 0x80 then .char (Char.ofNat a.toNat) :: piecesAfter 0 rest
    else match leadChar? a rest with
      | some (c,n) => .char c :: piecesAfter n rest
      | none => .stray a :: piecesAfter 0 rest

/-- The characters and stray octets of the text. -/
def pieces (t : Octets) : List Piece := piecesAfter 0 t.toList

/-- The string, if the octets are well-formed UTF-8. -/
def toString? (t : Octets) : Option String := (t.pieces.mapM Piece.char?).map String.ofList

/-- The number of characters, where a stray octet counts as one. -/
def length (t : Octets) : Nat := t.pieces.length

end Octets

/-- The octets without white space at both ends. -/
def trimOctets (bs : List UInt8) : List UInt8 := (trimBy Piece.isBlank (Octets.pieces ⟨bs⟩)).flatMap Piece.octets

end Loom.Text
