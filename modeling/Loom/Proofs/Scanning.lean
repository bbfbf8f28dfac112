import Loom.Proofs.Splitting

/-!
Scanning tidy text: its angle brackets match and separators stand inside of them only. Whatever looks for a separator or
for the end of a bracket passes over tidy text as a whole.
-/
namespace Loom.Text

open List

variable {c : Char} {cs : List Char}

/-- A letter, a digit, an underscore or a dot. Beyond ASCII everything that is no blank counts as a letter. -/
def isWordChar (c : Char) : Bool := c.isAlphanum || c = '_' || c = '.' || (128 ≤ c.toNat && !isBlank c)

/-- The text is made of letters, digits, underscores and dots. -/
def isWord (s : String) : Bool := s.toList.all isWordChar

/-- What the text of a type is made of besides brackets and separators. -/
def isNameChar (c : Char) : Bool := isWordChar c || c = '$' || c = '/' || c = '!'

/-- The characters that take texts apart stand in no name. -/
def marks : List Char := ['<','>','(',')',',',' ',':','\x60','"','-','+']

/-- What is said of the characters of a text is decided along the text, not along all characters there are. -/
instance (priority := 2000) decidableForallMem (cs : List Char) (P : Char → Prop) [DecidablePred P] :
    Decidable (∀ c ∈ cs, P c) :=
  List.decidableBAll P cs

theorem ne_of_isNameChar {m : Char} (name : isNameChar c = true) (special : m ∈ marks) : c ≠ m := by
  rintro rfl
  have none : ∀ m ∈ marks, isNameChar m = false := by decide
  rw [none c special] at name
  cases name

theorem isBlank_of_isAlphanum (plain : c.isAlphanum = true) : isBlank c = false := by
  change ((decide (65 ≤ c.val ∧ c.val ≤ 90) || decide (97 ≤ c.val) && decide (c.val ≤ 122)) ||
    (decide (48 ≤ c.val) && decide (c.val ≤ 57))) = true at plain
  simp only [Bool.or_eq_true,Bool.and_eq_true,decide_eq_true_eq,UInt32.le_iff_toNat_le] at plain
  change ((65 ≤ c.toNat ∧ c.toNat ≤ 90) ∨ (97 ≤ c.toNat ∧ c.toNat ≤ 122)) ∨ (48 ≤ c.toNat ∧ c.toNat ≤ 57) at plain
  simp only [isBlank,Bool.or_eq_false_iff,Bool.and_eq_false_iff,decide_eq_false_iff_not]
  omega

theorem isBlank_of_isNameChar (name : isNameChar c = true) : isBlank c = false := by
  simp only [isNameChar,isWordChar,Bool.or_eq_true,Bool.and_eq_true,decide_eq_true_eq,Bool.not_eq_true'] at name
  rcases name with (((((plain | rfl) | rfl) | ⟨-,visible⟩) | rfl) | rfl) | rfl
  · exact isBlank_of_isAlphanum plain
  all_goals first | exact visible | decide

theorem isNameChar_of_isWordChar (word : isWordChar c = true) : isNameChar c = true := by
  simp [isNameChar,word]

open Brackets

/-- From one depth of angle brackets the text leads to another. Separators stand inside of brackets, or anywhere if the
    text is loose. -/
inductive Balances (loose : Bool) : Nat → List Char → Nat → Prop
  | nil (d : Nat) : Balances loose d [] d
  | opening {d e : Nat} {rest : List Char} (later : Balances loose (d + 1) rest e) : Balances loose d ('<' :: rest) e
  | closing {d e : Nat} {rest : List Char} (later : Balances loose d rest e) : Balances loose (d + 1) ('>' :: rest) e
  | separator {c : Char} {d e : Nat} {rest : List Char} (mark : c = ',' ∨ c = ' ') (allowed : 0 < d ∨ loose = true)
      (later : Balances loose d rest e) : Balances loose d (c :: rest) e
  | char {c : Char} {d e : Nat} {rest : List Char} (name : isNameChar c = true) (later : Balances loose d rest e) :
      Balances loose d (c :: rest) e

/-- Brackets match, and separators stand inside of them only. -/
def Tidy (cs : List Char) : Prop := Balances false 0 cs 0

/-- Brackets match. -/
def Loose (cs : List Char) : Prop := Balances true 0 cs 0

variable {anywhere : Bool} {d e f : Nat} {a b rest : List Char}

theorem Balances.append (first : Balances anywhere d a e) (second : Balances anywhere e b f) :
    Balances anywhere d (a ++ b) f := by
  induction first with
  | nil d => exact second
  | opening _ ih => exact .opening (ih second)
  | closing _ ih => exact .closing (ih second)
  | separator mark allowed _ ih => exact .separator mark allowed (ih second)
  | char name _ ih => exact .char name (ih second)

theorem Balances.deepen {other : Bool} {k : Nat} (allowed : 0 < k ∨ other = anywhere ∨ other = true)
    (balanced : Balances anywhere d a e) : Balances other (d + k) a (e + k) := by
  induction balanced with
  | nil d => exact .nil _
  | opening _ ih => exact .opening (by rw [Nat.add_right_comm]; exact ih)
  | closing _ ih =>
    rw [Nat.add_right_comm]
    exact .closing ih
  | separator mark inside _ ih =>
    refine .separator mark ?_ ih
    rcases allowed with deeper | rfl | rfl
    · exact .inl (by omega)
    · exact inside.imp (fun _ => by omega) id
    · exact .inr rfl
  | char name _ ih => exact .char name ih

theorem Tidy.loose (tidy : Tidy a) : Loose a := Balances.deepen (k := 0) (.inr (.inr rfl)) tidy

theorem Tidy.append (first : Tidy a) (second : Tidy b) : Tidy (a ++ b) := Balances.append first second

theorem Loose.append (first : Loose a) (second : Loose b) : Loose (a ++ b) := Balances.append first second

theorem tidy_of_nameChars (names : ∀ c ∈ a, isNameChar c = true) : Tidy a := by
  induction a with
  | nil => exact .nil 0
  | cons c rest ih => exact .char (names c (.head _)) (ih fun c member => names c (.tail _ member))

theorem Loose.bracketed (balanced : Loose a) : Tidy ('<' :: (a ++ ['>'])) :=
  .opening ((balanced.deepen (k := 1) (.inl Nat.one_pos)).append (.closing (.nil 0)))

theorem Tidy.head_visible (tidy : Tidy a) {c : Char} (first : a.head? = some c) : isBlank c = false := by
  cases tidy with
  | nil => cases first
  | opening => cases first; decide
  | separator mark allowed =>
    exact absurd (allowed.resolve_right Bool.false_ne_true) (Nat.lt_irrefl 0)
  | char name => cases first; exact isBlank_of_isNameChar name

theorem Balances.last_visible (balanced : Balances false d a 0) {c : Char} (last : a.getLast? = some c) :
    isBlank c = false := by
  induction a generalizing d with
  | nil => cases last
  | cons x rest ih =>
    cases rest with
    | cons y more =>
      rw [getLast?_cons_cons] at last
      cases balanced with
      | opening later => exact ih later last
      | closing later => exact ih later last
      | separator _ _ later => exact ih later last
      | char _ later => exact ih later last
    | nil =>
      cases last
      cases balanced with
      | opening later => cases later
      | closing => decide
      | separator mark allowed later =>
        cases later
        exact absurd (allowed.resolve_right Bool.false_ne_true) (Nat.lt_irrefl 0)
      | char name => exact isBlank_of_isNameChar name

theorem Tidy.trimmed (tidy : Tidy a) : Trimmed a :=
  ⟨fun _ first => tidy.head_visible first,fun _ last => Balances.last_visible tidy last⟩

theorem not_bracket_of_isNameChar (name : isNameChar c = true) : isOpening c = false ∧ isClosing c = false := by
  simp [isOpening,isClosing,ne_of_isNameChar (m := '<') name (by decide),ne_of_isNameChar (m := '(') name (by decide),
    ne_of_isNameChar (m := '>') name (by decide),ne_of_isNameChar (m := ')') name (by decide)]

theorem not_bracket_of_separator (mark : c = ',' ∨ c = ' ') : isOpening c = false ∧ isClosing c = false := by
  rcases mark with rfl | rfl <;> decide

theorem Balances.segment (balanced : Balances false d a 0) : Segment ',' d a := by
  generalize finish : 0 = e at balanced
  induction balanced with
  | nil d => exact finish ▸ segment_nil
  | opening _ ih => exact segment_cons.mpr ⟨by omega,by simp,ih finish⟩
  | @closing d _ _ _ ih =>
    have higher : depth ['>'] = -1 := rfl
    have level : ((d + 1 : Nat) : Int) + depth ['>'] = d := by omega
    exact segment_cons.mpr ⟨by omega,by simp,level ▸ ih finish⟩
  | separator mark allowed _ ih =>
    have deep := allowed.resolve_right Bool.false_ne_true
    rw [segment_cons,depth_eq_zero (not_bracket_of_separator mark),Int.add_zero]
    exact ⟨by omega,by omega,ih finish⟩
  | char name _ ih =>
    rw [segment_cons,depth_eq_zero (not_bracket_of_isNameChar name),Int.add_zero]
    exact ⟨by omega,fun top => ne_of_isNameChar name (by decide) top.1,ih finish⟩

theorem Balances.cutFrom_append (balanced : Balances false d a e) (rest : List Char) :
    cutFrom ' ' (d : Int) (a ++ rest) = (cutFrom ' ' (e : Int) rest).map fun (x,y) => (a ++ x,y) := by
  induction balanced with
  | nil d => simp
  | opening _ ih =>
    rw [cons_append,cutFrom,if_pos (by decide),← Int.natCast_succ,ih,Option.map_map]
    rfl
  | @closing d e rest' _ ih =>
    have depth : ((d + 1 : Nat) : Int) - 1 = (d : Int) := by omega
    rw [cons_append,cutFrom,if_neg (by decide),if_pos (by decide),depth,ih,Option.map_map]
    rfl
  | @separator c d e rest' mark allowed _ ih =>
    have deep : d ≠ 0 := Nat.ne_of_gt (allowed.resolve_right Bool.false_ne_true)
    obtain ⟨opens,closes⟩ := not_bracket_of_separator mark
    rw [cons_append,cutFrom,if_neg (by simp [opens]),if_neg (by simp [closes]),if_neg (by simp [deep]),ih,
      Option.map_map]
    rfl
  | char name _ ih =>
    obtain ⟨opens,closes⟩ := not_bracket_of_isNameChar name
    have parts := ne_of_isNameChar (m := ' ') name (by decide)
    rw [cons_append,cutFrom,if_neg (by simp [opens]),if_neg (by simp [closes]),if_neg (by simp [parts]),ih,Option.map_map]
    rfl

/-- A bracket that was open before stays open throughout. -/
theorem Balances.beforeClosingFrom_append (balanced : Balances anywhere d a e) (rest : List Char) :
    beforeClosingFrom (d + 1 : Int) (a ++ rest) = (beforeClosingFrom (e + 1 : Int) rest).map (a ++ ·) := by
  induction balanced with
  | nil d => simp
  | @opening d e rest' _ ih =>
    have depth : ((d : Int) + 1 + 1) = ((d + 1 : Nat) : Int) + 1 := by omega
    rw [cons_append,beforeClosingFrom,if_pos rfl,depth,ih,Option.map_map]
    rfl
  | @closing d e rest' _ ih =>
    have depth : (((d + 1 : Nat) : Int) + 1 - 1) = (d : Int) + 1 := by omega
    rw [cons_append,beforeClosingFrom,if_neg (by decide),if_pos rfl,if_neg (by omega),depth,ih,Option.map_map]
    rfl
  | @separator c d e rest' mark allowed _ ih =>
    have plain : c ≠ '<' ∧ c ≠ '>' := by rcases mark with rfl | rfl <;> decide
    rw [cons_append,beforeClosingFrom,if_neg plain.1,if_neg plain.2,ih,Option.map_map]
    rfl
  | char name _ ih =>
    rw [cons_append,beforeClosingFrom,if_neg (ne_of_isNameChar name (by decide)),
      if_neg (ne_of_isNameChar name (by decide)),ih,Option.map_map]
    rfl

theorem Balances.closes_inside {k : Nat} (balanced : Balances anywhere (d + (k + 1)) a 0) (rest : List Char) :
    ∃ before, beforeClosingFrom (k + 1 : Int) (a ++ rest) = some before ∧ before.length < a.length := by
  generalize start : d + (k + 1) = s at balanced
  generalize finish : (0 : Nat) = t at balanced
  induction balanced generalizing k with
  | nil d => omega
  | @opening s t rest' _ ih =>
    obtain ⟨before,found,shorter⟩ := ih (k := k + 1) (by omega) finish
    refine ⟨'<' :: before,?_,by simpa using shorter⟩
    have depth : ((k : Int) + 1 + 1) = ((k + 1 : Nat) : Int) + 1 := by omega
    rw [cons_append,beforeClosingFrom,if_pos rfl,depth,found]
    rfl
  | @closing s t rest' _ ih =>
    rw [cons_append,beforeClosingFrom,if_neg (by decide),if_pos rfl]
    cases k with
    | zero => exact ⟨[],by simp,by simp⟩
    | succ k =>
      obtain ⟨before,found,shorter⟩ := ih (k := k) (by omega) finish
      refine ⟨'>' :: before,?_,by simpa using shorter⟩
      have depth : (((k + 1 : Nat) : Int) + 1 - 1) = (k : Int) + 1 := by omega
      rw [if_neg (by omega),depth,found]
      rfl
  | @separator c s t rest' mark allowed _ ih =>
    obtain ⟨before,found,shorter⟩ := ih (k := k) start finish
    have plain : c ≠ '<' ∧ c ≠ '>' := by rcases mark with rfl | rfl <;> decide
    refine ⟨c :: before,?_,by simpa using shorter⟩
    rw [cons_append,beforeClosingFrom,if_neg plain.1,if_neg plain.2,found]
    rfl
  | @char c s t rest' name _ ih =>
    obtain ⟨before,found,shorter⟩ := ih (k := k) start finish
    refine ⟨c :: before,?_,by simpa using shorter⟩
    rw [cons_append,beforeClosingFrom,if_neg (ne_of_isNameChar name (by decide)),
      if_neg (ne_of_isNameChar name (by decide)),found]
    rfl

/-- No list that ends the text starts inside text whose brackets are closed. -/
theorem Balances.applications_append (balanced : Balances anywhere d a 0) (more : rest ≠ []) :
    applications (a ++ rest) = (applications rest).map fun (head,inner) => (a ++ head,inner) := by
  generalize finish : (0 : Nat) = t at balanced
  have pass : ∀ (c : Char) (cs : List Char), ¬(c = '<' ∧ (beforeClosing (c :: cs)).map length = some cs.length) →
      applications (c :: cs) = (applications cs).map fun (head,inner) => (c :: head,inner) := by
    intro c cs inside
    rw [applications,if_neg (by simpa using inside)]
  induction balanced with
  | nil d => simp
  | @opening s t rest' later ih =>
    rw [cons_append,pass,ih finish,map_map]
    · rfl
    · rintro ⟨-,ends⟩
      obtain ⟨before,found,shorter⟩ := Balances.closes_inside (d := s) (k := 0) (finish ▸ later) rest
      have length : 0 < rest.length := length_pos_iff.mpr more
      rw [beforeClosing,beforeClosingFrom,if_pos rfl] at ends
      have found : beforeClosingFrom (0 + 1) (rest' ++ rest) = some before := found
      rw [found] at ends
      simp only [Option.map_some,length_cons,length_append,Option.some.injEq] at ends
      omega
  | closing _ ih =>
    rw [cons_append,pass _ _ (by simp),ih finish,map_map]
    rfl
  | @separator c _ _ _ mark _ _ ih =>
    have plain : c ≠ '<' := by rcases mark with rfl | rfl <;> decide
    rw [cons_append,pass _ _ (by simp [plain]),ih finish,map_map]
    rfl
  | char name _ ih =>
    rw [cons_append,pass _ _ (by simp [ne_of_isNameChar (m := '<') name (by decide)]),ih finish,map_map]
    rfl

theorem Tidy.applications_eq (head : Tidy a) (inner : Loose b) : applications (a ++ '<' :: (b ++ ['>'])) = [(a,b)] := by
  have inside : applications (b ++ ['>']) = [] := by
    rw [Balances.applications_append inner (by simp)]
    simp [applications]
  have ends : beforeClosing ('<' :: (b ++ ['>'])) = some ('<' :: b) := by
    have step := Balances.beforeClosingFrom_append inner ['>']
    rw [beforeClosing,beforeClosingFrom,if_pos rfl]
    simp only [Int.natCast_zero] at step
    rw [step]
    simp [beforeClosingFrom]
  rw [Balances.applications_append head (by simp),applications,inside,ends]
  simp

theorem split_intercalate {texts : List (List Char)} (each : ∀ t ∈ texts, Tidy t ∧ t ≠ []) :
    split ',' (intercalate [',',' '] texts) = some texts := by
  cases texts with
  | nil => rfl
  | cons first others =>
    refine Brackets.split_intercalate (cons_ne_nil _ _) fun t member => ?_
    obtain ⟨tidy,some⟩ := each t member
    obtain ⟨c,cs,rfl⟩ := exists_cons_of_ne_nil some
    exact ⟨fun blank => absurd (blank c (.head _)) (by simp [tidy.head_visible rfl]),tidy.trimmed,Balances.segment tidy⟩

end Loom.Text
