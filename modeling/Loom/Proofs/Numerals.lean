import Loom.Text.Decimal

/-!
Numerals. A number that fits 64 bits is read back from its decimal form, padded forms of different numbers differ, and
hexadecimal digits stand for the number they were made from.
-/
namespace Loom.Text

open List
open Nat (ofDigitChars toDigits)

namespace Decimal

theorem le_ofDigitChars (n : Nat) (cs : List Char) : n ≤ ofDigitChars 10 cs n := by
  induction cs generalizing n with
  | nil => simp
  | cons c rest ih =>
    rw [Nat.ofDigitChars_cons]
    exact Nat.le_trans (by omega) (ih _)

theorem isDigit_bounds {c : Char} (digit : c.isDigit = true) : '0' ≤ c ∧ c ≤ '9' := by
  rw [Char.isDigit,Bool.and_eq_true,decide_eq_true_eq,decide_eq_true_eq] at digit
  exact digit

theorem magnitude_of_digits {n : Nat} {cs : List Char} (digits : ∀ c ∈ cs, c.isDigit = true)
    (fits : ofDigitChars 10 cs n < 0x10000000000000000) : magnitude n cs = .ok (ofDigitChars 10 cs n) := by
  induction cs generalizing n with
  | nil => rw [magnitude,Nat.ofDigitChars_nil]
  | cons c rest ih =>
    obtain ⟨low,high⟩ := isDigit_bounds (digits c (.head _))
    rw [Nat.ofDigitChars_cons,Nat.mul_comm] at fits ⊢
    have below : n * 10 + (c.toNat - '0'.toNat) < 0x10000000000000000 := Nat.lt_of_le_of_lt (le_ofDigitChars _ rest) fits
    simp only [magnitude,low,high,decide_true,Bool.and_self,if_true,if_neg (Nat.not_le_of_lt below)]
    exact ih (fun d member => digits d (.tail _ member)) fits

theorem magnitude_toDigits {n : Nat} (fits : n < 0x10000000000000000) : magnitude 0 (toDigits 10 n) = .ok n := by
  have digits : ∀ c ∈ toDigits 10 n, c.isDigit = true := fun c member =>
    Nat.isDigit_of_mem_toDigits (by decide) (by decide) member
  have same : ofDigitChars 10 (toDigits 10 n) 0 = n := Nat.ofDigitChars_ten_toDigits
  rw [magnitude_of_digits digits (by rw [same]; exact fits),same]

theorem exists_digit_cons (n : Nat) : ∃ c rest, toDigits 10 n = c :: rest ∧ c ≠ '-' ∧ c ≠ '+' := by
  cases digits : toDigits 10 n with
  | nil => exact absurd digits Nat.toDigits_ne_nil
  | cons c rest =>
    have member : c ∈ toDigits 10 n := by rw [digits]; exact .head _
    have digit : c.isDigit = true := Nat.isDigit_of_mem_toDigits (by decide) (by decide) member
    refine ⟨c,rest,rfl,?_,?_⟩
    · rintro rfl
      cases digit
    · rintro rfl
      cases digit

theorem parse_toDigits {n : Nat} (fits : n < 0x8000000000000000) : parse (toDigits 10 n) = .ok (n : Int) := by
  obtain ⟨c,rest,digits,noMinus,noPlus⟩ := exists_digit_cons n
  have read := magnitude_toDigits (show n < 0x10000000000000000 by omega)
  rw [digits] at read ⊢
  unfold parse
  split
  next signed =>
  split at signed
  · next first => cases first; exact absurd rfl noMinus
  · next first => cases first; exact absurd rfl noPlus
  · cases signed
    simp [read]
    omega

theorem toList_toString_nat (n : Nat) : (toString n).toList = toDigits 10 n := by
  rw [Nat.toString_eq_ofList_toDigits,String.toList_ofList]

theorem parse_minus {n : Nat} (fits : n ≤ 0x8000000000000000) : parse ('-' :: toDigits 10 n) = .ok (-(n : Int)) := by
  have read := magnitude_toDigits (show n < 0x10000000000000000 by omega)
  have some : (toDigits 10 n).isEmpty = false := by simp [Nat.toDigits_ne_nil]
  simp [parse,some,read]
  omega

theorem parse_toString {n : Int} (low : -0x8000000000000000 ≤ n) (high : n < 0x8000000000000000) :
    parse (toString n).toList = .ok n := by
  cases n with
  | ofNat n =>
    show parse (toString n).toList = _
    rw [toList_toString_nat]
    exact parse_toDigits (by simp at high; omega)
  | negSucc n =>
    show parse ("-" ++ toString (n + 1)).toList = _
    rw [String.toList_append,toList_toString_nat]
    exact parse_minus (by omega)

theorem ofDigitChars_padded (width n : Nat) : ofDigitChars 10 (padded width (n : Int)).toList 0 = n := by
  have plain : ¬(n : Int) < 0 := by omega
  rw [padded,String.toList_ofList,if_neg plain,nil_append,Int.natAbs_natCast,Nat.ofDigitChars_append,
    Nat.ofDigitChars_replicate_zero,Nat.mul_zero,Nat.ofDigitChars_ten_toDigits]

theorem padded_injective {width m n : Nat} (same : padded width (m : Int) = padded width (n : Int)) : m = n := by
  rw [← ofDigitChars_padded width m,same,ofDigitChars_padded]

end Decimal

namespace Quoted

theorem hexValue?_digitChar : ∀ d < 16, hexValue? d.digitChar = some d := by
  decide

theorem number?_append_single {n d : Nat} {digits : List Char} (read : number? 16 hexValue? digits = some n)
    (digit : d < 16) : number? 16 hexValue? (digits ++ [d.digitChar]) = some (n * 16 + d) := by
  rw [number?] at read ⊢
  rw [foldlM_append,read]
  simp [hexValue?_digitChar d digit]

theorem number?_toDigits (n : Nat) : number? 16 hexValue? (toDigits 16 n) = some n := by
  induction n using Nat.strongRecOn with
  | ind n ih =>
    by_cases small : n < 16
    · rw [Nat.toDigits_of_lt_base small]
      have none : number? 16 hexValue? [] = some 0 := rfl
      simpa using number?_append_single none small
    · rw [Nat.toDigits_of_base_le (by decide) (Nat.le_of_not_lt small)]
      rw [number?_append_single (ih (n / 16) (by omega)) (Nat.mod_lt _ (by decide)),Nat.mul_comm,Nat.div_add_mod]

theorem number?_replicate_zero (k : Nat) (digits : List Char) :
    number? 16 hexValue? (replicate k '0' ++ digits) = number? 16 hexValue? digits := by
  induction k with
  | zero => rfl
  | succ k ih =>
    rw [replicate_succ,cons_append]
    exact ih

theorem number?_hexDigits (width n : Nat) : number? 16 hexValue? (hexDigits width n) = some n := by
  rw [hexDigits,number?_replicate_zero,number?_toDigits]

theorem length_hexDigits (width : Nat) {n : Nat} (some : 0 < width) (fits : n < Nat.pow 16 width) :
    (hexDigits width n).length = width := by
  have short : (toDigits 16 n).length ≤ width := (Nat.length_toDigits_le_iff (by decide) some).mpr fits
  rw [hexDigits,length_append,length_replicate]
  omega

end Quoted
end Loom.Text
