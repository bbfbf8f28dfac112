import Loom.Proofs.Numerals
import Loom.Version

/-!
Quoted text and version ids. Text is read back from its quoted form whatever octets it holds, and a version id of sixteen
octets from its groups of digits.
-/
namespace Loom.Text

open List
open Char (ofNat)
open String (utf8EncodeChar)

variable {n : Nat} {c : Char}

/-! ### Octets as characters and stray octets -/

namespace Octets

variable {b a : UInt8}

theorem toNat_char_ofNat (valid : n.isValidChar) : (ofNat n).val.toNat = n := by
  rw [ofNat,dif_pos valid]
  rfl

theorem ofNat_eq_of_toNat (same : n = b.toNat) : UInt8.ofNat n = b := by
  rw [same,UInt8.ofNat_toNat]

theorem encode_ascii (small : a < 0x80) : utf8EncodeChar (ofNat a.toNat) = [a] := by
  have bound : a.toNat < 0x80 := small
  have value : (ofNat a.toNat).val.toNat = a.toNat := toNat_char_ofNat (.inl (by omega))
  simp only [utf8EncodeChar,value]
  rw [if_pos (by omega),UInt8.ofNat_toNat]

theorem isTail_bounds (tail : isTail b = true) : 0x80 ≤ b.toNat ∧ b.toNat ≤ 0xbf := by
  rw [isTail,Bool.and_eq_true,decide_eq_true_eq,decide_eq_true_eq] at tail
  exact tail

theorem encode_two (lead : 0xc2 ≤ a.toNat ∧ a.toNat ≤ 0xdf) (tail : isTail b = true)
    (same : n = a.toNat % 0x20 * 0x40 + tailBits b) : utf8EncodeChar (ofNat n) = [a,b] := by
  obtain ⟨low,high⟩ := isTail_bounds tail
  simp only [tailBits] at same
  have value : (ofNat n).val.toNat = n := toNat_char_ofNat (.inl (by omega))
  simp only [utf8EncodeChar,value]
  rw [if_neg (by omega),if_pos (by omega)]
  simp only [cons.injEq,and_true]
  constructor <;> exact ofNat_eq_of_toNat (by omega)

theorem encode_three {c : UInt8} (lead : 0xe0 ≤ a.toNat ∧ a.toNat ≤ 0xef) (second : isTail b = true)
    (third : isTail c = true) (same : n = (a.toNat % 0x10 * 0x40 + tailBits b) * 0x40 + tailBits c) (long : 0x800 ≤ n)
    (scalar : ¬(0xd800 ≤ n ∧ n ≤ 0xdfff)) : utf8EncodeChar (ofNat n) = [a,b,c] := by
  obtain ⟨low,high⟩ := isTail_bounds second
  obtain ⟨low',high'⟩ := isTail_bounds third
  simp only [tailBits] at same
  have value : (ofNat n).val.toNat = n := toNat_char_ofNat (by unfold Nat.isValidChar; omega)
  simp only [utf8EncodeChar,value]
  rw [if_neg (by omega),if_neg (by omega),if_pos (by omega)]
  simp only [cons.injEq,and_true]
  refine ⟨?_,?_,?_⟩ <;> exact ofNat_eq_of_toNat (by omega)

theorem encode_four {c d : UInt8} (lead : 0xf0 ≤ a.toNat ∧ a.toNat ≤ 0xf4) (second : isTail b = true)
    (third : isTail c = true) (fourth : isTail d = true)
    (same : n = ((a.toNat % 8 * 0x40 + tailBits b) * 0x40 + tailBits c) * 0x40 + tailBits d) (long : 0x10000 ≤ n)
    (short : n ≤ 0x10ffff) : utf8EncodeChar (ofNat n) = [a,b,c,d] := by
  obtain ⟨low,high⟩ := isTail_bounds second
  obtain ⟨low',high'⟩ := isTail_bounds third
  obtain ⟨low'',high''⟩ := isTail_bounds fourth
  simp only [tailBits] at same
  have value : (ofNat n).val.toNat = n := toNat_char_ofNat (.inr (by omega))
  simp only [utf8EncodeChar,value]
  rw [if_neg (by omega),if_neg (by omega),if_neg (by omega)]
  simp only [cons.injEq,and_true]
  refine ⟨?_,?_,?_,?_⟩ <;> exact ofNat_eq_of_toNat (by omega)

theorem encode_leadChar? {rest : List UInt8} (found : leadChar? a rest = some (c,n)) :
    utf8EncodeChar c ++ rest.drop n = a :: rest := by
  unfold leadChar? at found
  split at found
  · next b more =>
    split at found
    · cases found
    · next second =>
      have second : isTail b = true := by simpa using second
      split at found
      · next lead =>
        cases found
        rw [Bool.and_eq_true,decide_eq_true_eq,decide_eq_true_eq] at lead
        rw [encode_two lead second rfl]
        rfl
      · split at found
        · next third last =>
          split at found
          · cases found
          · next tail =>
            have tail : isTail third = true := by simpa using tail
            split at found
            · next lead =>
              rw [Bool.and_eq_true,decide_eq_true_eq,decide_eq_true_eq] at lead
              simp only at found
              split at found
              · next scalar =>
                cases found
                simp only [Bool.and_eq_true,Bool.not_eq_true',Bool.and_eq_false_iff,decide_eq_true_eq,
                  decide_eq_false_iff_not] at scalar
                rw [encode_three lead second tail rfl scalar.1 (by omega)]
                rfl
              · cases found
            · split at found
              · next fourth more _ _ =>
                simp only at found
                split at found
                · next scalar =>
                  cases found
                  simp only [Bool.and_eq_true,decide_eq_true_eq] at scalar
                  obtain ⟨⟨⟨⟨tail',low⟩,high⟩,long⟩,short⟩ := scalar
                  rw [encode_four ⟨low,high⟩ second tail tail' rfl long short]
                  rfl
                · cases found
              · cases found
        · cases found
  · cases found

theorem octets_piecesAfter (n : Nat) (bs : List UInt8) : (piecesAfter n bs).flatMap Piece.octets = bs.drop n := by
  induction bs generalizing n with
  | nil => simp [piecesAfter]
  | cons a rest ih =>
    cases n with
    | succ n => rw [piecesAfter,ih,drop_succ_cons]
    | zero =>
      rw [piecesAfter,drop_zero]
      split
      · next small =>
        rw [flatMap_cons,ih,Piece.octets,encode_ascii small]
        rfl
      · split
        · next c n found => rw [flatMap_cons,ih,Piece.octets,encode_leadChar? found]
        · rw [flatMap_cons,ih]
          rfl

end Octets

/-! ### Quoted text -/

namespace Quoted

theorem exists_hex_pair (fits : n < 256) : ∃ h l, hexDigits 2 n = [h,l] ∧ number? 16 hexValue? [h,l] = some n := by
  have length := length_hexDigits 2 (by decide) fits
  have value := number?_hexDigits 2 n
  match digits : hexDigits 2 n, length with
  | [h,l], _ => exact ⟨h,l,rfl,digits ▸ value⟩

theorem scalar?_toNat (c : Char) : scalar? c.toNat = some (utf8EncodeChar c) := by
  rw [scalar?,dif_pos (show c.toNat.isValidChar from c.valid)]
  rfl

theorem unescape_hex (fits : n < 256) (rest : List Char) :
    unescape '"' ('x' :: hexDigits 2 n ++ rest) = some ([n.toUInt8],3) := by
  obtain ⟨h,l,digits,value⟩ := exists_hex_pair fits
  rw [digits]
  show (number? 16 hexValue? [h,l]).map _ = _
  rw [value]
  rfl

theorem scalar?_hexDigits {k : Nat} (positive : 0 < k) (fits : c.toNat < Nat.pow 16 k) (rest : List Char) :
    (if (hexDigits k c.toNat ++ rest).length < k then none
      else (number? 16 hexValue? ((hexDigits k c.toNat ++ rest).take k)).bind fun n => (scalar? n).map (·,k + 1)) =
      some (utf8EncodeChar c,k + 1) := by
  have length := length_hexDigits k positive fits
  rw [if_neg (by rw [length_append]; omega),take_left' length,number?_hexDigits,Option.bind_some,scalar?_toNat]
  rfl

theorem decodeAfter_append (n : Nat) {read rest : List Char} (length : read.length = n) :
    decodeAfter '"' n (read ++ rest) = decodeAfter '"' 0 rest := by
  induction read generalizing n with
  | nil => subst length; rfl
  | cons c read ih =>
    subst length
    rw [cons_append,length_cons,decodeAfter]
    exact ih read.length rfl

theorem decodeAfter_escape (read : List Char) {rest : List Char} {bs : List UInt8}
    (escaped : unescape '"' (read ++ rest) = some (bs,n)) (length : read.length = n) :
    decodeAfter '"' 0 ('\\' :: read ++ rest) = (decodeAfter '"' 0 rest).map (bs ++ ·) := by
  rw [cons_append,decodeAfter,if_neg (by decide),if_neg (by decide),if_pos rfl,escaped]
  simp only
  rw [decodeAfter_append n length]

theorem decodeAfter_piece (piece : Piece) (rest : List Char) :
    decodeAfter '"' 0 (escape piece ++ rest) = (decodeAfter '"' 0 rest).map (piece.octets ++ ·) := by
  cases piece with
  | stray b =>
    have fits : b.toNat < 256 := b.toNat_lt
    have length := length_hexDigits 2 (by decide) fits
    have read := decodeAfter_escape _ (unescape_hex fits rest) (by rw [length_cons,length])
    rwa [Nat.toUInt8,UInt8.ofNat_toNat] at read
  | char c =>
    rw [escape]
    split
    · next quote => subst quote; exact decodeAfter_escape ['"'] rfl rfl
    · next noQuote =>
      split
      · next slash => subst slash; exact decodeAfter_escape ['\\'] rfl rfl
      · next noSlash =>
        split
        · next printable =>
          have noBreak : c ≠ '\n' := by rintro rfl; exact absurd printable (by decide)
          rw [singleton_append,decodeAfter,if_neg noQuote,if_neg noBreak,if_neg noSlash]
          rfl
        · have same (n : Nat) (value : c.toNat = n) : c = ofNat n := by rw [← value,Char.ofNat_toNat]
          split
          · next value => rw [same 7 value]; exact decodeAfter_escape ['a'] rfl rfl
          · next value => rw [same 8 value]; exact decodeAfter_escape ['b'] rfl rfl
          · next value => rw [same 9 value]; exact decodeAfter_escape ['t'] rfl rfl
          · next value => rw [same 10 value]; exact decodeAfter_escape ['n'] rfl rfl
          · next value => rw [same 11 value]; exact decodeAfter_escape ['v'] rfl rfl
          · next value => rw [same 12 value]; exact decodeAfter_escape ['f'] rfl rfl
          · next value => rw [same 13 value]; exact decodeAfter_escape ['r'] rfl rfl
          · split
            · next control =>
              have small : c.toNat ≤ 127 := by
                rw [Bool.or_eq_true,decide_eq_true_eq,decide_eq_true_eq] at control
                omega
              have fits : c.toNat < 256 := by omega
              have length := length_hexDigits 2 (by decide) fits
              have octets : (Piece.char c).octets = [c.toNat.toUInt8] := by
                show utf8EncodeChar c = _
                rw [utf8EncodeChar]
                exact if_pos small
              rw [octets]
              exact decodeAfter_escape _ (unescape_hex fits rest) (by rw [length_cons,length])
            · split
              · next short =>
                have length := length_hexDigits 4 (by decide) short
                exact decodeAfter_escape _ (scalar?_hexDigits (by decide) short rest) (by rw [length_cons,length])
              · have fits : c.toNat < Nat.pow 16 8 := Nat.lt_of_lt_of_le c.val.toNat_lt_size (by decide)
                have length := length_hexDigits 8 (by decide) fits
                exact decodeAfter_escape _ (scalar?_hexDigits (by decide) fits rest) (by rw [length_cons,length])

theorem decodeAfter_pieces (ps : List Piece) :
    decodeAfter '"' 0 (ps.flatMap escape ++ ['"']) = some (ps.flatMap Piece.octets) := by
  induction ps with
  | nil => rfl
  | cons piece rest ih =>
    rw [flatMap_cons,append_assoc,decodeAfter_piece,ih]
    rfl

theorem toList_encode (t : Octets) : (encode t).toList = '"' :: t.pieces.flatMap escape ++ ['"'] := by
  rw [encode,encodePieces,String.toList_ofList]

theorem decode_encode (t : Octets) : decode (encode t).toList = some t := by
  rw [toList_encode,cons_append]
  show (decodeAfter '"' 0 _).map Octets.mk = _
  rw [decodeAfter_pieces,Octets.pieces,Octets.octets_piecesAfter]
  rfl

end Quoted
end Loom.Text

/-! ### Version ids -/

namespace Loom.Version

open Text.Quoted

variable {c : Char} {v : Version}

def asciiOctet (c : Char) : UInt8 := UInt8.ofNat c.toNat

theorem hexValue?_ascii {v : Nat} (digit : hexValue? c = some v) : c.toNat < 128 := by
  have below (d : Char) (small : d.toNat < 128) (le : c ≤ d) : c.toNat < 128 := Nat.lt_of_le_of_lt le small
  unfold hexValue? at digit
  split at digit
  · next range => exact below '9' (by decide) (by simpa using (Bool.and_eq_true_iff.mp range).2)
  · split at digit
    · next range => exact below 'f' (by decide) (by simpa using (Bool.and_eq_true_iff.mp range).2)
    · split at digit
      · next range => exact below 'F' (by decide) (by simpa using (Bool.and_eq_true_iff.mp range).2)
      · cases digit

theorem char_asciiOctet (ascii : c.toNat < 128) : Char.ofNat (asciiOctet c).toNat = c := by
  have same : (asciiOctet c).toNat = c.toNat := by
    rw [asciiOctet,UInt8.toNat_ofNat_of_lt' (Nat.lt_trans ascii (by decide))]
  rw [same,Char.ofNat_toNat]

theorem hexValue?_of_pair {h l : Char} {n : Nat} (read : number? 16 hexValue? [h,l] = some n) :
    ∃ high low, hexValue? h = some high ∧ hexValue? l = some low ∧ high * 16 + low = n := by
  simp only [number?,List.foldlM_cons,List.foldlM_nil,Option.bind_eq_bind,Option.bind_eq_some_iff,
    Option.map_eq_some_iff,Option.pure_def,Option.some.injEq] at read
  obtain ⟨_,⟨high,first,rfl⟩,_,⟨low,second,rfl⟩,rfl⟩ := read
  exact ⟨high,low,first,second,by omega⟩

def digitsOf (b : UInt8) : List Char := hexDigits 2 b.toNat

theorem hexPairs_digits (octets : List UInt8) : hexPairs ((octets.flatMap digitsOf).map asciiOctet) = some octets := by
  induction octets with
  | nil => rfl
  | cons b rest ih =>
    obtain ⟨h,l,digits,read⟩ := exists_hex_pair b.toNat_lt
    obtain ⟨high,low,first,second,value⟩ := hexValue?_of_pair read
    rw [List.flatMap_cons,digitsOf,digits]
    simp only [List.cons_append,List.nil_append,List.map_cons,hexPairs,char_asciiOctet (hexValue?_ascii first),
      char_asciiOctet (hexValue?_ascii second),first,second,ih,Option.bind_eq_bind,Option.bind_some,value,
      Nat.toUInt8,UInt8.ofNat_toNat,Option.pure_def]

theorem length_digits (octets : List UInt8) : (octets.flatMap digitsOf).length = 2 * octets.length := by
  induction octets with
  | nil => rfl
  | cons b rest ih =>
    rw [List.flatMap_cons,List.length_append,ih,digitsOf,length_hexDigits 2 (by decide) b.toNat_lt,List.length_cons]
    omega

theorem ascii_digits {octets : List UInt8} (member : c ∈ octets.flatMap digitsOf) : c.toNat < 128 := by
  obtain ⟨b,-,member⟩ := List.mem_flatMap.mp member
  obtain ⟨h,l,digits,read⟩ := exists_hex_pair b.toNat_lt
  obtain ⟨high,low,first,second,-⟩ := hexValue?_of_pair read
  rw [digitsOf,digits] at member
  rcases List.mem_cons.mp member with rfl | member
  · exact hexValue?_ascii first
  · rw [List.mem_singleton.mp member]
    exact hexValue?_ascii second

theorem octets_ascii {cs : List Char} (ascii : ∀ c ∈ cs, c.toNat < 128) :
    (Text.Octets.ofString (String.ofList cs)).toList = cs.map asciiOctet := by
  rw [Text.Octets.ofString,Text.Octets.ofChars,String.toList_ofList]
  induction cs with
  | nil => rfl
  | cons c rest ih =>
    have single : String.utf8EncodeChar c = [asciiOctet c] := by
      have small : c.val.toNat ≤ 127 := Nat.le_of_lt_succ (ascii c (.head _))
      rw [String.utf8EncodeChar]
      exact if_pos small
    have others := ih fun d member => ascii d (.tail _ member)
    simp only at others ⊢
    rw [List.flatMap_cons,single,others]
    rfl

theorem dashed_groups {a b c d e : List UInt8} (first : a.length = 8) (second : b.length = 4) (third : c.length = 4)
    (fourth : d.length = 4) (fifth : e.length = 12) :
    dashed (a ++ 45 :: (b ++ 45 :: (c ++ 45 :: (d ++ 45 :: e)))) = some (a ++ b ++ c ++ d ++ e) := by
  simp [dashed,List.drop_append,List.getElem?_append,first,second,third,fourth,fifth,List.take_of_length_le,
    List.drop_of_length_le]

theorem exists_groups (v : Version) (length : v.octets.length = 16) :
    ∃ a b c d e : List Char, v.octets.flatMap digitsOf = a ++ b ++ c ++ d ++ e ∧ a.length = 8 ∧ b.length = 4 ∧
      c.length = 4 ∧ d.length = 4 ∧ e.length = 12 ∧
      v.text = String.ofList (a ++ '-' :: (b ++ '-' :: (c ++ '-' :: (d ++ '-' :: e)))) := by
  have size := length_digits v.octets
  rw [length] at size
  have text : v.text = String.ofList
      (((v.octets.flatMap digitsOf).drop 0).take 8 ++ '-' :: ((v.octets.flatMap digitsOf).drop 8).take 4 ++
        '-' :: ((v.octets.flatMap digitsOf).drop 12).take 4 ++ '-' :: ((v.octets.flatMap digitsOf).drop 16).take 4 ++
        '-' :: ((v.octets.flatMap digitsOf).drop 20).take 12) := rfl
  generalize v.octets.flatMap digitsOf = digits at size text
  refine ⟨digits.take 8,(digits.drop 8).take 4,(digits.drop 12).take 4,(digits.drop 16).take 4,digits.drop 20,?_,
    ?_,?_,?_,?_,?_,?_⟩
  · have join (n m : Nat) : digits.take n ++ (digits.drop n).take m = digits.take (n + m) := List.take_add.symm
    rw [join,join 12 4,join 16 4,List.take_append_drop]
  · simp; omega
  · simp; omega
  · simp; omega
  · simp; omega
  · simp; omega
  · have whole : (digits.drop 20).take 12 = digits.drop 20 := List.take_of_length_le (by simp; omega)
    rw [text,List.drop_zero,whole]
    simp only [List.append_assoc,List.cons_append]

theorem parse_text (length : v.octets.length = 16) : parse v.text = .ok v := by
  obtain ⟨a,b,c,d,e,digits,first,second,third,fourth,fifth,text⟩ := exists_groups v length
  have ascii : ∀ x ∈ a ++ '-' :: (b ++ '-' :: (c ++ '-' :: (d ++ '-' :: e))), x.toNat < 128 := by
    intro x member
    have among : x = '-' ∨ x ∈ v.octets.flatMap digitsOf := by
      rw [digits]
      simp only [List.mem_append,List.mem_cons] at member ⊢
      grind
    rcases among with rfl | among
    · decide
    · exact ascii_digits among
  have octets := octets_ascii ascii
  rw [← text] at octets
  have dash : asciiOctet '-' = 45 := by decide
  simp only [List.map_append,List.map_cons,dash] at octets
  have size : (Text.Octets.ofString v.text).toList.length = 36 := by
    rw [octets]
    simp [first,second,third,fourth,fifth]
  have pairs := hexPairs_digits v.octets
  rw [digits] at pairs
  simp only [List.map_append] at pairs
  have read : (dashed (Text.Octets.ofString v.text).toList).bind hexPairs = some v.octets := by
    have length {xs : List Char} {n : Nat} (count : xs.length = n) : (xs.map asciiOctet).length = n := by
      rw [List.length_map,count]
    rw [octets,dashed_groups (length first) (length second) (length third) (length fourth) (length fifth),
      Option.bind_some,pairs]
  simp only [parse,size,read]

theorem length_hexPairs {digits octets : List UInt8} (read : hexPairs digits = some octets) :
    digits.length = 2 * octets.length := by
  induction digits using hexPairs.induct generalizing octets with
  | case1 => cases read; rfl
  | case2 a b rest ih =>
    simp only [hexPairs,Option.bind_eq_bind,Option.bind_eq_some_iff,Option.pure_def,Option.some.injEq] at read
    obtain ⟨high,-,low,-,others,rest_read,rfl⟩ := read
    rw [List.length_cons,List.length_cons,ih rest_read,List.length_cons]
    omega
  | case3 a => cases read

theorem length_dashed {bs digits : List UInt8} (enough : 36 ≤ bs.length) (found : dashed bs = some digits) :
    digits.length = 32 := by
  rw [dashed] at found
  split at found
  · cases found
    simp
    omega
  · cases found

theorem length_of_parse {s : String} (read : parse s = .ok v) : v.octets.length = 16 := by
  have made {digits : Option (List UInt8)} (size : ∀ ds, digits = some ds → ds.length = 32) {octets : List UInt8}
      (found : digits.bind hexPairs = some octets) : octets.length = 16 := by
    obtain ⟨ds,same,pairs⟩ := Option.bind_eq_some_iff.mp found
    have := length_hexPairs pairs
    rw [size ds same] at this
    omega
  simp only [parse] at read
  split at read
  · next size =>
    split at read
    · next found => cases read; exact made (fun ds found => length_dashed (by omega) found) found
    · cases read
  · next size =>
    split at read
    · split at read
      · next found => cases read; exact made (fun ds found => length_dashed (by simp [size]) found) found
      · cases read
    · cases read
  · next size =>
    split at read
    · next found => cases read; exact made (fun ds found => length_dashed (by simp [size]) found) found
    · cases read
  · next size =>
    split at read
    · next found => cases read; exact made (fun ds found => by cases found; exact size) found
    · cases read
  · cases read

end Loom.Version
