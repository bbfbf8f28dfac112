import Loom.Text.Octets
import Loom.Text.Printable

/-!
Quoted text. Writing puts text between double quotes and escapes what is not printable; reading takes
double-quoted, single-quoted and raw text with the same escapes.
-/
namespace Loom.Text.Quoted

/-! ### Writing -/

/-- The last `width` hexadecimal digits of a number, in lower case. -/
def hexDigits (width n : Nat) : List Char :=
  let digits := Nat.toDigits 16 n
  List.replicate (width - digits.length) '0' ++ digits

/-- One piece of text inside double quotes. -/
def escape : Piece → List Char
  | .stray b => '\\' :: 'x' :: hexDigits 2 b.toNat
  | .char c =>
    if c = '"' then ['\\','"']
    else if c = '\\' then ['\\','\\']
    else if isPrintable c then [c]
    else match c.toNat with
      | 7 => ['\\','a']
      | 8 => ['\\','b']
      | 9 => ['\\','t']
      | 10 => ['\\','n']
      | 11 => ['\\','v']
      | 12 => ['\\','f']
      | 13 => ['\\','r']
      | n =>
        if n < 0x20 || n = 0x7f then '\\' :: 'x' :: hexDigits 2 n
        else if n < 0x10000 then '\\' :: 'u' :: hexDigits 4 n
        else '\\' :: 'U' :: hexDigits 8 n

/-- The pieces between double quotes. -/
def encodePieces (ps : List Piece) : String := String.ofList ('"' :: ps.flatMap escape ++ ['"'])

/-- The text between double quotes. -/
def encode (t : Octets) : String := encodePieces t.pieces

/-! ### Reading -/

/-- The value of a hexadecimal digit. -/
def hexValue? (c : Char) : Option Nat :=
  if '0' ≤ c && c ≤ '9' then some (c.toNat - '0'.toNat)
  else if 'a' ≤ c && c ≤ 'f' then some (c.toNat - 'a'.toNat + 10)
  else if 'A' ≤ c && c ≤ 'F' then some (c.toNat - 'A'.toNat + 10)
  else none

def octalValue? (c : Char) : Option Nat := if '0' ≤ c && c ≤ '7' then some (c.toNat - '0'.toNat) else none

def number? (base : Nat) (value? : Char → Option Nat) (digits : List Char) : Option Nat :=
  digits.foldlM (fun n c => (value? c).map (n * base + ·)) 0

/-- The octets of the scalar value, unless it is a surrogate or too large. -/
def scalar? (n : Nat) : Option (List UInt8) :=
  if h : n.isValidChar then some (String.utf8EncodeChar (Char.ofNatAux n h)) else none

/-- The octets of the escape that follows a backslash, with the number of characters it takes. -/
def unescape (quote : Char) : List Char → Option (List UInt8 × Nat)
  | 'a' :: _ => some ([7],1)
  | 'b' :: _ => some ([8],1)
  | 'f' :: _ => some ([12],1)
  | 'n' :: _ => some ([10],1)
  | 'r' :: _ => some ([13],1)
  | 't' :: _ => some ([9],1)
  | 'v' :: _ => some ([11],1)
  | '\\' :: _ => some ([92],1)
  | 'x' :: h :: l :: _ => (number? 16 hexValue? [h,l]).map fun n => ([n.toUInt8],3)
  | 'u' :: rest =>
    if rest.length < 4 then none
    else (number? 16 hexValue? (rest.take 4)).bind fun n => (scalar? n).map (·,5)
  | 'U' :: rest =>
    if rest.length < 8 then none
    else (number? 16 hexValue? (rest.take 8)).bind fun n => (scalar? n).map (·,9)
  | c :: rest =>
    if c = '\'' || c = '"' then if c = quote then some ([c.toNat.toUInt8],1) else none
    else match octalValue? c, rest with
      | some _, d :: e :: _ => (number? 8 octalValue? [c,d,e]).bind fun n =>
          if n ≤ 255 then some ([n.toUInt8],3) else none
      | _, _ => none
  | [] => none

/-- The octets up to the closing quote, which ends the text, after the given number of characters that are already
    read. -/
def decodeAfter (quote : Char) : Nat → List Char → Option (List UInt8)
  | _, [] => none
  | n + 1, _ :: rest => decodeAfter quote n rest
  | 0, c :: rest =>
    if c = quote then if rest.isEmpty then some [] else none
    else if c = '\n' then none
    else if c = '\\' then
      match unescape quote rest with
      | some (bs,n) => (decodeAfter quote n rest).map (bs ++ ·)
      | none => none
    else (decodeAfter quote 0 rest).map (String.utf8EncodeChar c ++ ·)

/-- The octets of the single character before the closing quote. -/
def decodeSingle : List Char → Option (List UInt8)
  | ['\''] => some []
  | c :: rest =>
    if c = '\'' || c = '\n' then none
    else if c = '\\' then
      match unescape '\'' rest with
      | some (bs,n) => if rest.drop n = ['\''] then some bs else none
      | none => none
    else if rest = ['\''] then some (String.utf8EncodeChar c) else none
  | [] => none

/-- Raw text stands for itself up to the closing mark, without carriage returns. -/
def decodeRaw (cs : List Char) : Option (List UInt8) :=
  let body := cs.takeWhile (· ≠ '\x60')
  if cs.dropWhile (· ≠ '\x60') = ['\x60'] then some ((body.filter (· ≠ '\r')).flatMap String.utf8EncodeChar) else none

/-- The text that a quoted form stands for. -/
def decode : List Char → Option Octets
  | '"' :: rest => (decodeAfter '"' 0 rest).map Octets.mk
  | '\'' :: rest => (decodeSingle rest).map Octets.mk
  | '\x60' :: rest => (decodeRaw rest).map Octets.mk
  | _ => none

end Loom.Text.Quoted

/-- A string between double quotes, with what is not printable escaped. -/
def Loom.Text.quote (s : String) : String := Quoted.encodePieces (s.toList.map .char)
