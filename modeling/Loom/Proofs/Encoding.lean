import Loom.Proofs.Quotation
import Loom.Proofs.Splitting

/-!
Splitting octets. Octets are split where they stand, also inside of a character, and trimmed as the characters and stray
octets they hold. Encoded text is split like its characters.
-/
namespace Loom.Text

open List Brackets
open Char (ofNat)
open String (utf8EncodeChar)

variable {b sep : UInt8} {c : Char} {bs : List UInt8} {n : Nat}

namespace Octets

theorem toNat_ofNat (fits : n < 0x100) : (UInt8.ofNat n).toNat = n := UInt8.toNat_ofNat_of_lt fits

theorem not_small (fits : n < 0x100) (large : 0x80 ≤ n) : ¬UInt8.ofNat n < 0x80 := by
  rw [UInt8.lt_iff_toNat_lt,toNat_ofNat fits]
  exact Nat.not_lt_of_le large

theorem isTail_ofNat (n : Nat) : isTail (UInt8.ofNat (n % 0x40 + 0x80)) = true := by
  have value : (UInt8.ofNat (n % 0x40 + 0x80)).toNat = n % 0x40 + 0x80 := toNat_ofNat (by omega)
  simp only [isTail,Bool.and_eq_true,decide_eq_true_eq,UInt8.le_iff_toNat_le,value]
  exact ⟨Nat.le_add_left _ _,by show _ ≤ 0xbf; omega⟩

theorem tailBits_ofNat (n : Nat) : tailBits (UInt8.ofNat (n % 0x40 + 0x80)) = n % 0x40 := by
  rw [tailBits,toNat_ofNat (by omega)]
  omega

section

variable {a : UInt8} {b c d : Nat}

theorem leadChar?_two (lead : 0xc2 ≤ a.toNat ∧ a.toNat ≤ 0xdf) (rest : List UInt8) :
    leadChar? a (UInt8.ofNat (b % 0x40 + 0x80) :: rest) = some (ofNat (a.toNat % 0x20 * 0x40 + b % 0x40),1) := by
  have first : (0xc2 ≤ a && a ≤ 0xdf) = true := by simpa [UInt8.le_iff_toNat_le] using lead
  simp only [leadChar?,isTail_ofNat,tailBits_ofNat,first,Bool.not_true,Bool.false_eq_true,if_false,if_true]

theorem leadChar?_three (lead : 0xe0 ≤ a.toNat ∧ a.toNat ≤ 0xef) (rest : List UInt8)
    (same : n = (a.toNat % 0x10 * 0x40 + b % 0x40) * 0x40 + c % 0x40) (long : 0x800 ≤ n)
    (scalar : n < 0xd800 ∨ 0xdfff < n) :
    leadChar? a (UInt8.ofNat (b % 0x40 + 0x80) :: UInt8.ofNat (c % 0x40 + 0x80) :: rest) = some (ofNat n,2) := by
  have shorter : ¬(0xc2 ≤ a && a ≤ 0xdf) = true := by
    simp only [Bool.and_eq_true,decide_eq_true_eq,UInt8.le_iff_toNat_le]
    show ¬(0xc2 ≤ a.toNat ∧ a.toNat ≤ 0xdf)
    omega
  have first : (0xe0 ≤ a && a ≤ 0xef) = true := by simpa [UInt8.le_iff_toNat_le] using lead
  have fits : (0x800 ≤ n && !(0xd800 ≤ n && n ≤ 0xdfff)) = true := by
    simp only [Bool.and_eq_true,decide_eq_true_eq,Bool.not_eq_true',Bool.and_eq_false_iff,decide_eq_false_iff_not]
    omega
  simp only [leadChar?,isTail_ofNat,tailBits_ofNat,Bool.not_true,Bool.false_eq_true,if_false]
  rw [if_neg shorter,if_pos first,← same,if_pos fits]

theorem leadChar?_four (lead : 0xf0 ≤ a.toNat ∧ a.toNat ≤ 0xf4) (rest : List UInt8)
    (same : n = ((a.toNat % 8 * 0x40 + b % 0x40) * 0x40 + c % 0x40) * 0x40 + d % 0x40) (long : 0x10000 ≤ n)
    (short : n ≤ 0x10ffff) :
    leadChar? a (UInt8.ofNat (b % 0x40 + 0x80) :: UInt8.ofNat (c % 0x40 + 0x80) :: UInt8.ofNat (d % 0x40 + 0x80) :: rest) =
      some (ofNat n,3) := by
  have shorter : ¬(0xc2 ≤ a && a ≤ 0xdf) = true ∧ ¬(0xe0 ≤ a && a ≤ 0xef) = true := by
    simp only [Bool.and_eq_true,decide_eq_true_eq,UInt8.le_iff_toNat_le]
    show ¬(0xc2 ≤ a.toNat ∧ a.toNat ≤ 0xdf) ∧ ¬(0xe0 ≤ a.toNat ∧ a.toNat ≤ 0xef)
    omega
  have fits : (true && 0xf0 ≤ a && a ≤ 0xf4 && 0x10000 ≤ n && n ≤ 0x10ffff) = true := by
    simpa [UInt8.le_iff_toNat_le,long,short] using lead
  simp only [leadChar?,isTail_ofNat,tailBits_ofNat,Bool.not_true,Bool.false_eq_true,if_false]
  rw [if_neg shorter.1,if_neg shorter.2,← same,if_pos fits]

end

/-- The octets of a character beyond ASCII are a leading one and those that continue it. -/
theorem encode_cases (large : 0x80 ≤ c.toNat) : ∃ a tails, utf8EncodeChar c = a :: tails ∧ ¬a < 0x80 ∧
    (∀ b ∈ tails, isTail b = true) ∧ ∀ rest, leadChar? a (tails ++ rest) = some (c,tails.length) := by
  have valid : c.toNat < 0xd800 ∨ 0xdfff < c.toNat ∧ c.toNat < 0x110000 := c.valid
  have same : ofNat c.toNat = c := Char.ofNat_toNat c
  have value : c.val.toNat = c.toNat := rfl
  simp only [utf8EncodeChar,value]
  generalize c.toNat = v at large valid same
  subst same
  rw [if_neg (by omega)]
  split
  · refine ⟨_,_,rfl,not_small (by omega) (by omega),by simp only [forall_mem_cons,isTail_ofNat,true_and]; exact nofun,
    fun rest => ?_⟩
    have lead := toNat_ofNat (n := v / 64 % 32 + 192) (by omega)
    rw [singleton_append,leadChar?_two (by omega),lead]
    congr 3
    omega
  · split
    · refine ⟨_,_,rfl,not_small (by omega) (by omega),by simp only [forall_mem_cons,isTail_ofNat,true_and]; exact nofun,
      fun rest => ?_⟩
      have lead := toNat_ofNat (n := v / 4096 % 16 + 224) (by omega)
      exact leadChar?_three (by omega) _ (by omega) (by omega) (by omega)
    · refine ⟨_,_,rfl,not_small (by omega) (by omega),by simp only [forall_mem_cons,isTail_ofNat,true_and]; exact nofun,
      fun rest => ?_⟩
      have lead := toNat_ofNat (n := v / 262144 % 8 + 240) (by omega)
      exact leadChar?_four (by omega) _ (by omega) (by omega) (by omega)

theorem encode_small (small : c.toNat < 0x80) : utf8EncodeChar c = [UInt8.ofNat c.toNat] := by
  rw [utf8EncodeChar]
  exact if_pos (Nat.le_of_lt_succ small)

theorem eq_of_small (member : b ∈ utf8EncodeChar c) (small : b < 0x80) : c = ofNat b.toNat := by
  rcases Nat.lt_or_ge c.toNat 0x80 with ascii | large
  · rw [encode_small ascii,mem_singleton] at member
    rw [member,toNat_ofNat (by omega),Char.ofNat_toNat]
  · obtain ⟨a,tails,octets,lead,tail,-⟩ := encode_cases large
    rw [octets] at member
    rcases mem_cons.mp member with rfl | later
    · exact absurd small lead
    · exact absurd small (Nat.not_lt_of_le (isTail_bounds (tail b later)).1)

theorem piecesAfter_append (read rest : List UInt8) : piecesAfter read.length (read ++ rest) = piecesAfter 0 rest := by
  induction read with
  | nil => rfl
  | cons a read ih => exact ih

theorem piecesAfter_encode (c : Char) (rest : List UInt8) :
    piecesAfter 0 (utf8EncodeChar c ++ rest) = .char c :: piecesAfter 0 rest := by
  rcases Nat.lt_or_ge c.toNat 0x80 with ascii | large
  · have value := toNat_ofNat (n := c.toNat) (by omega)
    rw [encode_small ascii,singleton_append,piecesAfter,if_pos (by rw [UInt8.lt_iff_toNat_lt,value]; exact ascii),value,
      Char.ofNat_toNat]
  · obtain ⟨a,tails,octets,lead,-,read⟩ := encode_cases large
    rw [octets,cons_append,piecesAfter,if_neg lead,read]
    exact congrArg (_ :: ·) (piecesAfter_append tails rest)

theorem pieces_encode (cs : List Char) : pieces ⟨cs.flatMap utf8EncodeChar⟩ = cs.map .char := by
  rw [pieces]
  induction cs with
  | nil => rfl
  | cons c rest ih => rw [flatMap_cons,piecesAfter_encode,ih,map_cons]

end Octets

/-- Octets that are encoded white space. -/
def BlankOctets (bs : List UInt8) : Prop := ∀ piece ∈ Octets.pieces ⟨bs⟩, piece.isBlank = true

theorem trimOctets_eq_nil_iff : trimOctets bs = [] ↔ BlankOctets bs := by
  rw [trimOctets,flatMap_eq_nil_iff,BlankOctets,← trimBy_eq_nil_iff,eq_nil_iff_forall_not_mem]
  refine forall₂_congr fun piece _ => iff_false_intro ?_
  cases piece with
  | char c => exact String.utf8EncodeChar_ne_nil
  | stray b => exact cons_ne_nil _ _

theorem trimOctets_encode (cs : List Char) : trimOctets (cs.flatMap utf8EncodeChar) = (trim cs).flatMap utf8EncodeChar := by
  rw [trimOctets,Octets.pieces_encode,trimBy_map,flatMap_map]
  rfl

theorem trimOctets_space (bs : List UInt8) : trimOctets (0x20 :: bs) = trimOctets bs := by
  have same : trimBy Piece.isBlank (.char ' ' :: Octets.pieces ⟨bs⟩) = _ := trimBy_cons_of_pos (by decide)
  exact congrArg (flatMap Piece.octets) same

theorem not_blankOctets (comma : 0x2c ∈ bs) : ¬BlankOctets bs := by
  intro blank
  have whole := Octets.octets_piecesAfter 0 bs
  rw [drop_zero] at whole
  rw [← whole] at comma
  obtain ⟨piece,member,among⟩ := mem_flatMap.mp comma
  cases piece with
  | char c =>
    obtain rfl : c = ',' := Octets.eq_of_small among (by decide)
    exact absurd (blank _ member) (by decide)
  | stray b => exact absurd (blank _ member) Bool.false_ne_true

namespace Brackets

theorem plain_of_large {α : Type} [Letter α] {a : α} (large : 0x80 ≤ (Letter.char a).toNat) :
    isOpening a = false ∧ isClosing a = false := by
  have other (mark : Char) (small : mark.toNat < 0x80) : Letter.char a ≠ mark := by
    rintro rfl
    omega
  simp [isOpening,isClosing,other '<' (by decide),other '(' (by decide),other '>' (by decide),other ')' (by decide)]

section

variable {α : Type} {sep : α} {read : List α}

theorem foldr_pushFirst_nil (some : read ≠ []) : read.foldr pushFirst [] = [read] := by
  induction read with
  | nil => exact absurd rfl some
  | cons a read ih =>
    cases read with
    | nil => rfl
    | cons b rest => rw [foldr_cons,ih (cons_ne_nil _ _)]; rfl

/-- Letters that mean nothing are passed over at any depth. -/
theorem segments_append [Letter α] [DecidableEq α]
    (plain : ∀ a ∈ read, (isOpening a = false ∧ isClosing a = false) ∧ a ≠ sep) (rest : List α) (d : Nat) :
    segments sep (read ++ rest) d = (segments sep rest d).map (read.foldr pushFirst) := by
  induction read with
  | nil => simp
  | cons a read ih =>
    obtain ⟨⟨⟨opens,closes⟩,other⟩,plain⟩ := forall_mem_cons.mp plain
    rw [cons_append,segments,if_neg (by simp [opens]),if_neg (by simp [closes]),if_neg (by simp [other]),ih plain,
      Option.map_map]
    rfl

end

theorem map_pushFirst (c : Char) (parts : List (List Char)) : (pushFirst c parts).map (·.flatMap utf8EncodeChar) =
    (utf8EncodeChar c).foldr pushFirst (parts.map (·.flatMap utf8EncodeChar)) := by
  cases parts with
  | nil => simp [pushFirst,foldr_pushFirst_nil String.utf8EncodeChar_ne_nil]
  | cons first rest => rw [pushFirst,map_cons,map_cons,flatMap_cons,foldr_pushFirst]

theorem segments_encode (ascii : c.toNat < 0x80) (cs : List Char) (d : Nat) :
    segments (UInt8.ofNat c.toNat) (cs.flatMap utf8EncodeChar) d =
      (segments c cs d).map (·.map (·.flatMap utf8EncodeChar)) := by
  induction cs generalizing d with
  | nil =>
    rw [flatMap_nil,segments,segments]
    split <;> rfl
  | cons x rest ih =>
    have push (k : Nat) : (segments (UInt8.ofNat c.toNat) (rest.flatMap utf8EncodeChar) k).map
          ((utf8EncodeChar x).foldr pushFirst) =
        ((segments c rest k).map (pushFirst x)).map (·.map (·.flatMap utf8EncodeChar)) := by
      rw [ih,Option.map_map,Option.map_map]
      exact congrArg (fun f => Option.map f _) (funext fun parts => (map_pushFirst x parts).symm)
    rw [flatMap_cons]
    rcases Nat.lt_or_ge x.toNat 0x80 with small | large
    · rw [Octets.encode_small small] at push ⊢
      have value := Octets.toNat_ofNat (n := x.toNat) (by omega)
      have char : Letter.char (UInt8.ofNat x.toNat) = x := (congrArg ofNat value).trans (Char.ofNat_toNat x)
      have same : decide (UInt8.ofNat x.toNat = UInt8.ofNat c.toNat) = decide (x = c) := by
        refine decide_eq_decide.mpr ⟨fun same => Char.toNat_inj.mp ?_,fun same => by rw [same]⟩
        rw [← value,same,Octets.toNat_ofNat (by omega)]
      have apart : ((segments c rest 0).map (·.map (·.flatMap utf8EncodeChar))).map ([] :: ·) =
          ((segments c rest 0).map ([] :: ·)).map (·.map (·.flatMap utf8EncodeChar)) := by
        rw [Option.map_map,Option.map_map]
        rfl
      have opens : isOpening (UInt8.ofNat x.toNat) = isOpening x := by simp only [isOpening,char,char_char]
      have closes : isClosing (UInt8.ofNat x.toNat) = isClosing x := by simp only [isClosing,char,char_char]
      have push (k : Nat) : Option.map (pushFirst (UInt8.ofNat x.toNat)) _ = _ := push k
      rw [singleton_append,segments,segments,opens,closes,same,push,push,push,ih 0,apart]
      split_ifs <;> rfl
    · obtain ⟨a,tails,octets,lead,tail,-⟩ := Octets.encode_cases large
      have beyond (b : UInt8) (member : b ∈ utf8EncodeChar x) : 0x80 ≤ b.toNat := by
        rw [octets] at member
        rcases mem_cons.mp member with rfl | later
        · exact Nat.le_of_not_lt lead
        · exact (Octets.isTail_bounds (tail b later)).1
      rw [segments_append (fun b member => ⟨plain_of_large ?_,?_⟩),push,← singleton_append (x := x),
        segments_append (forall_mem_singleton.mpr ⟨plain_of_large large,?_⟩)]
      · rfl
      · rintro rfl
        omega
      · have value : (ofNat b.toNat).toNat = b.toNat := Octets.toNat_char_ofNat (.inl (Nat.lt_trans b.toNat_lt (by decide)))
        exact value ▸ beyond b member
      · rintro rfl
        have far := beyond _ member
        rw [Octets.toNat_ofNat (by omega)] at far
        omega

theorem splitOctets_encode (ascii : c.toNat < 0x80) (cs : List Char) :
    splitOctets (UInt8.ofNat c.toNat) (cs.flatMap utf8EncodeChar) = (split c cs).map (·.map (·.flatMap utf8EncodeChar)) := by
  have empty : ((trim cs).flatMap utf8EncodeChar).isEmpty = (trim cs).isEmpty := by
    cases trim cs with
    | nil => rfl
    | cons x rest => simp
  rw [splitOctets,split,splitBy,splitBy,trimOctets_encode,empty,segments_encode ascii,
    apply_ite (Option.map (map (flatMap utf8EncodeChar))),Option.map_map,Option.map_map]
  congr 2
  funext segs
  simp [Function.comp_def,trimOctets_encode]

/-- Splitting is exact, for any octets. Text that is not blank splits exactly if its brackets match, and then into the
    trimmed segments between the separators outside of brackets; what was joined by commas is taken apart again; and
    encoded text is split like its characters. -/
theorem split_exact (plain : isOpening sep = false ∧ isClosing sep = false) (bs : List UInt8) :
    (splitOctets sep bs = none ↔ ¬BlankOctets bs ∧ ¬Closes 0 bs) ∧ (BlankOctets bs → splitOctets sep bs = some []) ∧
      (¬BlankOctets bs → ∀ parts, splitOctets sep bs = some parts ↔
        ∃ segs, Segmented sep 0 bs segs ∧ parts = segs.map trimOctets) ∧
      (∀ texts : List (List UInt8), texts ≠ [] →
        (∀ t ∈ texts, ¬BlankOctets t ∧ trimOctets t = t ∧ Segment 0x2c 0 t) →
        splitOctets 0x2c ([0x2c,0x20].intercalate texts) = some texts) ∧
      ∀ (mark : Char) (cs : List Char), mark.toNat < 0x80 →
        splitOctets (UInt8.ofNat mark.toNat) (Octets.ofChars cs).toList =
          (split mark cs).map (·.map fun part => (Octets.ofChars part).toList) := by
  have exact_ := splitBy_exact trimOctets plain bs
  simp only [ne_eq,trimOctets_eq_nil_iff] at exact_
  obtain ⟨fails,blank,segments⟩ := exact_
  refine ⟨fails,blank,segments,fun texts some each => ?_,fun mark cs ascii => splitOctets_encode ascii cs⟩
  refine splitBy_intercalate (by decide) (by decide) (by decide) some (fun empty => ?_) fun t member => ?_
  · rw [trimOctets_eq_nil_iff] at empty
    obtain ⟨first,others,rfl⟩ := exists_cons_of_ne_nil some
    cases others with
    | nil => exact (each first (.head _)).1 (by rwa [intercalate_singleton] at empty)
    | cons second others =>
      refine not_blankOctets ?_ empty
      rw [intercalate_cons_cons]
      simp
  · obtain ⟨-,trimmed,segment⟩ := each t member
    exact ⟨trimmed,(trimOctets_space t).trans trimmed,segment⟩

/-- A stray octet and half of a character stand around a separator that is no character. -/
theorem split_exact_stray : ∃ segs, Segmented 0xa8 0 [0x20,0xff,0x3c,0xa8,0x3e,0xe2,0x80,0xa8,0x20] segs ∧
    [[0xff,0x3c,0xa8,0x3e,0xe2,0x80],[]] = segs.map trimOctets :=
  ((split_exact (by decide) _).2.2.1 (fun blank => absurd (blank (.stray 0xff) (by decide)) (by decide)) _).mp (by decide)

end Brackets
end Loom.Text
