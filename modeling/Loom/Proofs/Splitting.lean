import Loom.Text.Brackets
import Mathlib.Data.List.TakeWhile

/-!
Splitting bracketed text. How deep a place lies is told by the brackets before it: those that open less those that close.
A text splits exactly if its brackets match, and then at the separators outside of them.
-/
namespace Loom.Text

open List

section

variable {α : Type} {blank : α → Bool} {x : α} {xs : List α}

theorem trimBy_cons_of_pos (outer : blank x = true) : trimBy blank (x :: xs) = trimBy blank xs := by
  rw [trimBy,trimBy,dropWhile_cons_of_pos outer]

theorem trimBy_eq_nil_iff : trimBy blank xs = [] ↔ ∀ x ∈ xs, blank x = true := by
  rw [trimBy,reverse_eq_nil_iff,dropWhile_eq_nil_iff]
  constructor
  · intro rest x member
    rw [← takeWhile_append_dropWhile (p := blank) (l := xs)] at member
    rcases mem_append.mp member with before | after
    · exact mem_takeWhile_imp before
    · exact rest x (mem_reverse.mpr after)
  · intro whole x member
    exact whole x ((dropWhile_sublist _).mem (mem_reverse.mp member))

theorem trimBy_map {β : Type} (f : β → α) (ys : List β) : trimBy blank (ys.map f) = (trimBy (blank ∘ f) ys).map f := by
  rw [trimBy,trimBy,dropWhile_map,← map_reverse,dropWhile_map,map_reverse]

end

variable {c : Char} {cs : List Char}

/-- Text that starts and ends with visible characters. -/
structure Trimmed (cs : List Char) : Prop where
  first : ∀ c, cs.head? = some c → isBlank c = false
  last : ∀ c, cs.getLast? = some c → isBlank c = false

theorem trimmed_of_visible (visible : ∀ c ∈ cs, isBlank c = false) : Trimmed cs :=
  ⟨fun c first => visible c (mem_of_head? first),fun c last => visible c (mem_of_getLast? last)⟩

theorem Trimmed.append {a b : List Char} (front : Trimmed a) (back : Trimmed b) (middle : List Char) (starts : a ≠ [])
    (ends : b ≠ []) : Trimmed (a ++ (middle ++ b)) := by
  refine ⟨fun c first => front.first c ?_,fun c last => back.last c ?_⟩
  · obtain ⟨x,rest,rfl⟩ := exists_cons_of_ne_nil starts
    exact first
  · rw [← append_assoc,getLast?_append,getLast?_eq_some_getLast ends,Option.some_or] at last
    rw [getLast?_eq_some_getLast ends,last]

theorem Trimmed.trim_eq (trimmed : Trimmed cs) : trim cs = cs := by
  have start : ∀ ds : List Char, (∀ c, ds.head? = some c → isBlank c = false) → ds.dropWhile isBlank = ds := by
    intro ds visible
    cases ds with
    | nil => rfl
    | cons c rest => exact dropWhile_cons_of_neg (by simp [visible c rfl])
  rw [trim,trimBy,start cs trimmed.first,start cs.reverse (by rw [head?_reverse]; exact trimmed.last),reverse_reverse]

def Blank (cs : List Char) : Prop := ∀ c ∈ cs, isBlank c = true

namespace Brackets

section

variable {α : Type} [Letter α] {c sep : α} {d : Int} {cs s rest : List α} {parts : List (List α)}

@[simp] theorem char_char (c : Char) : Letter.char c = c := rfl

/-- How much deeper a text leads. -/
def depth (cs : List α) : Int := (cs.countP isOpening : Int) - cs.countP isClosing

/-- From a given depth, the text closes every bracket that is open, and none too early. -/
structure Closes (d : Int) (cs : List α) : Prop where
  early : ∀ k, 0 ≤ d + depth (cs.take k)
  whole : d + depth cs = 0

/-- Besides, every separator in the text stands inside of brackets. -/
structure Segment (sep : α) (d : Int) (cs : List α) : Prop extends Closes d cs where
  inside : ∀ k, cs[k]? = some sep → d + depth (cs.take k) ≠ 0

/-- The text is cut into segments at separators outside of brackets. -/
inductive Segmented (sep : α) : Int → List α → List (List α) → Prop
  | last {d : Int} {s : List α} (segment : Segment sep d s) : Segmented sep d s [s]
  | more {d : Int} {s rest : List α} {parts : List (List α)} (segment : Segment sep d s)
      (later : Segmented sep 0 rest parts) : Segmented sep d (s ++ sep :: rest) (s :: parts)

theorem closes_nil : Closes d ([] : List α) ↔ d = 0 := by
  constructor
  · intro closes
    simpa [depth] using closes.whole
  · rintro rfl
    exact ⟨fun k => by simp [depth],rfl⟩

theorem segment_nil : Segment sep 0 [] := ⟨closes_nil.mpr rfl,fun k at_ => by simp at at_⟩

theorem depth_cons (c : α) (cs : List α) : depth (c :: cs) = depth [c] + depth cs := by
  simp only [depth,countP_cons,countP_nil]
  omega

theorem depth_eq_zero (plain : isOpening c = false ∧ isClosing c = false) : depth [c] = 0 := by
  simp [depth,plain]

theorem closes_cons : Closes d (c :: cs) ↔ 0 ≤ d ∧ Closes (d + depth [c]) cs := by
  constructor
  · rintro ⟨early,whole⟩
    rw [depth_cons] at whole
    refine ⟨by simpa [depth] using early 0,fun k => ?_,by omega⟩
    have next := early (k + 1)
    rw [take_succ_cons,depth_cons] at next
    omega
  · rintro ⟨start,early,whole⟩
    refine ⟨fun k => ?_,by rw [depth_cons]; omega⟩
    cases k with
    | zero => simpa [depth] using start
    | succ k =>
      have before := early k
      rw [take_succ_cons,depth_cons]
      omega

theorem segment_cons :
    Segment sep d (c :: cs) ↔ 0 ≤ d ∧ ¬(c = sep ∧ d = 0) ∧ Segment sep (d + depth [c]) cs := by
  constructor
  · rintro ⟨closes,inside⟩
    obtain ⟨start,closes⟩ := closes_cons.mp closes
    refine ⟨start,fun top => inside 0 (by rw [top.1]; rfl) (by simp [depth,top.2]),closes,fun k at_ => ?_⟩
    have deep := inside (k + 1) at_
    rw [take_succ_cons,depth_cons] at deep
    omega
  · rintro ⟨start,lower,closes,inside⟩
    refine ⟨closes_cons.mpr ⟨start,closes⟩,fun k at_ => ?_⟩
    cases k with
    | zero => exact fun top => lower ⟨by simpa using at_,by simpa [depth] using top⟩
    | succ k =>
      have deep := inside k at_
      rw [take_succ_cons,depth_cons]
      omega

theorem Segmented.cons (later : Segmented sep (d + depth [c]) cs parts) (start : 0 ≤ d) (lower : ¬(c = sep ∧ d = 0)) :
    Segmented sep d (c :: cs) (pushFirst c parts) := by
  cases later with
  | last segment => exact .last (segment_cons.mpr ⟨start,lower,segment⟩)
  | more segment later => exact .more (segment_cons.mpr ⟨start,lower,segment⟩) later

omit [Letter α] in
theorem exists_intercalate_eq (glue first : List α) (others : List (List α)) :
    ∃ more, glue.intercalate (first :: others) = first ++ more := by
  cases others with
  | nil => exact ⟨[],by simp⟩
  | cons second others => exact ⟨_,by rw [intercalate_cons_cons,append_assoc]⟩

/-- Texts joined by a separator and a gap are cut at these separators; the gap stays in front of all texts but the first. -/
theorem segmented_intercalate {gap : α} (level : depth [gap] = 0) (other : gap ≠ sep) {first : List α}
    {others : List (List α)} (segment : Segment sep 0 first) (each : ∀ t ∈ others, Segment sep 0 t) :
    Segmented sep 0 ([sep,gap].intercalate (first :: others)) (first :: others.map (gap :: ·)) := by
  induction others generalizing first with
  | nil =>
    rw [intercalate_singleton]
    exact .last segment
  | cons second others ih =>
    obtain ⟨next,each⟩ := forall_mem_cons.mp each
    rw [intercalate_cons_cons,append_assoc]
    have later := ih next each
    rw [show (0 : Int) = 0 + depth [gap] by rw [level]; rfl] at later
    exact .more segment (later.cons (Int.le_refl 0) fun top => other top.1)

variable [DecidableEq α]

theorem segments_top (plain : isOpening sep = false ∧ isClosing sep = false) :
    segments sep (sep :: cs) 0 = (segments sep cs 0).map ([] :: ·) := by
  simp [segments,plain]

theorem segments_cons (start : 0 ≤ d) (lower : ¬(c = sep ∧ d = 0)) :
    segments sep (c :: cs) d.toNat =
      if 0 ≤ d + depth [c] then (segments sep cs (d + depth [c]).toNat).map (pushFirst c) else none := by
  obtain ⟨n,rfl⟩ := Int.eq_ofNat_of_zero_le start
  have lower : ¬(c = sep ∧ n = 0) := by simpa using lower
  rw [segments,Int.toNat_natCast]
  by_cases opens : isOpening c = true
  · have closes : isClosing c = false := by
      simp only [isOpening,Bool.or_eq_true,decide_eq_true_eq] at opens
      rcases opens with same | same <;> simp [isClosing,same]
    have deeper : depth [c] = 1 := by simp [depth,opens,closes]
    rw [if_pos opens,deeper,if_pos (by omega)]
    rfl
  by_cases closes : isClosing c = true
  · have higher : depth [c] = -1 := by simp [depth,opens,closes]
    rw [if_neg opens,if_pos closes,higher]
    cases n with
    | zero => rfl
    | succ n =>
      rw [if_neg (Nat.succ_ne_zero n),if_pos (by omega)]
      congr 2
      omega
  · have level : depth [c] = 0 := depth_eq_zero ⟨by simpa using opens,by simpa using closes⟩
    rw [if_neg opens,if_neg closes,if_neg (by simpa using lower),level,Int.add_zero,if_pos start,Int.toNat_natCast]

theorem segments_ne_none (plain : isOpening sep = false ∧ isClosing sep = false) (start : 0 ≤ d) :
    segments sep cs d.toNat ≠ none ↔ Closes d cs := by
  induction cs generalizing d with
  | nil =>
    rw [segments,closes_nil]
    split
    · simp; omega
    · simp; omega
  | cons c rest ih =>
    rw [closes_cons]
    by_cases top : c = sep ∧ d = 0
    · obtain ⟨rfl,rfl⟩ := top
      have level := depth_eq_zero plain
      rw [Int.toNat_zero,segments_top plain,level,Int.add_zero,← ih (Int.le_refl 0)]
      simp
    · rw [segments_cons start top]
      split
      · next below => simp [start,← ih below]
      · next above => exact ⟨fun some => absurd rfl some,fun closes => absurd (by simpa [depth] using closes.2.early 0) above⟩

theorem segmented_of_segments (plain : isOpening sep = false ∧ isClosing sep = false) (start : 0 ≤ d)
    (found : segments sep cs d.toNat = some parts) : Segmented sep d cs parts := by
  induction cs generalizing d parts with
  | nil =>
    rw [segments] at found
    split at found
    · cases found
      obtain rfl : d = 0 := by omega
      exact .last segment_nil
    · cases found
  | cons c rest ih =>
    by_cases top : c = sep ∧ d = 0
    · obtain ⟨rfl,rfl⟩ := top
      rw [Int.toNat_zero,segments_top plain] at found
      obtain ⟨inner,later,rfl⟩ := Option.map_eq_some_iff.mp found
      exact .more segment_nil (ih (Int.le_refl 0) later)
    · rw [segments_cons start top] at found
      split at found
      · next below =>
        obtain ⟨inner,later,rfl⟩ := Option.map_eq_some_iff.mp found
        exact (ih below later).cons start top
      · cases found

omit [Letter α] [DecidableEq α] in
theorem foldr_pushFirst (a first : List α) (others : List (List α)) :
    a.foldr pushFirst (first :: others) = (a ++ first) :: others := by
  induction a with
  | nil => rfl
  | cons c rest ih => rw [foldr_cons,ih,pushFirst,cons_append]

theorem Segment.segments_append (segment : Segment sep d s) (rest : List α) :
    segments sep (s ++ rest) d.toNat = (segments sep rest 0).map (s.foldr pushFirst) := by
  induction s generalizing d with
  | nil =>
    rw [closes_nil.mp segment.toCloses]
    simp
  | cons c s ih =>
    obtain ⟨start,lower,later⟩ := segment_cons.mp segment
    rw [cons_append,segments_cons start lower,if_pos (by simpa [depth] using later.early 0),ih later,Option.map_map]
    rfl

theorem Segmented.segments_eq (plain : isOpening sep = false ∧ isClosing sep = false) (segmented : Segmented sep d cs parts) :
    segments sep cs d.toNat = some parts := by
  induction segmented with
  | @last d s segment =>
    have whole := segment.segments_append []
    rw [append_nil] at whole
    rw [whole,segments,if_pos rfl,Option.map_some,foldr_pushFirst,append_nil]
  | more segment _ ih =>
    rw [Int.toNat_zero] at ih
    rw [segment.segments_append,segments_top plain,ih,Option.map_some,Option.map_some,foldr_pushFirst,append_nil]

/-- Text that is not trimmed away splits exactly if its brackets match, and then into the trimmed segments between the
    separators outside of brackets. -/
theorem splitBy_exact (trim : List α → List α) (plain : isOpening sep = false ∧ isClosing sep = false) (cs : List α) :
    (splitBy trim sep cs = none ↔ trim cs ≠ [] ∧ ¬Closes 0 cs) ∧ (trim cs = [] → splitBy trim sep cs = some []) ∧
      (trim cs ≠ [] → ∀ parts, splitBy trim sep cs = some parts ↔ ∃ segs, Segmented sep 0 cs segs ∧ parts = segs.map trim) := by
  have closes : segments sep cs 0 ≠ none ↔ Closes 0 cs := segments_ne_none plain (Int.le_refl 0)
  rw [splitBy]
  by_cases blank : trim cs = []
  · simp [blank]
  · rw [if_neg (by simpa using blank),Option.map_eq_none_iff,← closes]
    refine ⟨by simp [blank],fun empty => absurd empty blank,fun _ parts => ?_⟩
    rw [Option.map_eq_some_iff]
    refine exists_congr fun segs => and_congr ⟨fun found => ?_,fun segmented => ?_⟩ eq_comm
    · exact segmented_of_segments plain (Int.le_refl 0) found
    · exact segmented.segments_eq plain

theorem splitBy_intercalate {gap : α} {trim : List α → List α} (plain : isOpening sep = false ∧ isClosing sep = false)
    (level : depth [gap] = 0) (other : gap ≠ sep) {texts : List (List α)} (some : texts ≠ [])
    (visible : trim ([sep,gap].intercalate texts) ≠ [])
    (each : ∀ t ∈ texts, trim t = t ∧ trim (gap :: t) = t ∧ Segment sep 0 t) :
    splitBy trim sep ([sep,gap].intercalate texts) = Option.some texts := by
  obtain ⟨first,others,rfl⟩ := exists_cons_of_ne_nil some
  obtain ⟨⟨trimmed,-,segment⟩,each⟩ := forall_mem_cons.mp each
  refine ((splitBy_exact trim plain _).2.2 visible _).mpr
    ⟨_,segmented_intercalate level other segment fun t member => (each t member).2.2,?_⟩
  rw [map_cons,trimmed,map_map,map_congr_left (f := trim ∘ (gap :: ·)) (g := id) fun t member => (each t member).2.1,map_id]

end

theorem split_intercalate {texts : List (List Char)} (some : texts ≠ [])
    (each : ∀ t ∈ texts, ¬Blank t ∧ Trimmed t ∧ Segment ',' 0 t) :
    split ',' ([',',' '].intercalate texts) = Option.some texts := by
  refine splitBy_intercalate (by decide) (by decide) (by decide) some (fun empty => ?_) fun t member => ?_
  · obtain ⟨first,others,rfl⟩ := exists_cons_of_ne_nil some
    obtain ⟨more,starts⟩ := exists_intercalate_eq [',',' '] first others
    refine (each first (.head _)).1 fun c member => trimBy_eq_nil_iff.mp empty c ?_
    rw [starts]
    exact mem_append_left _ member
  · obtain ⟨-,trimmed,segment⟩ := each t member
    exact ⟨trimmed.trim_eq,(trimBy_cons_of_pos (by decide)).trans trimmed.trim_eq,segment⟩

end Brackets
end Loom.Text
