import Loom.Proofs.Numerals
import Loom.Proofs.Reading
import Loom.Proofs.Scanning

/-!
Type texts read back. The spelling of a reference has names in place of declarations, and positions in place of
parameters. A text is read as a reference of the same spelling wherever its names can be found and no name is mistaken
for an applied type.
-/
namespace Loom

open List TypeRef
open Text (Tidy Loose isNameChar)
open Text.Brackets (split applications)

/-! ### Spellings -/

/-- What the text of a reference says. -/
inductive Spelling where
  | absent
  | name (n : String)
  | param (ofMethod : Bool) (position : Nat)
  | applied (n : String) (args : List Spelling)

namespace Spelling

mutual
def text : Spelling → String
  | .absent => "?"
  | .name n => n
  | .param ofMethod position => (if ofMethod then "!!" else "!") ++ toString position
  | .applied n args => n ++ "<" ++ ", ".intercalate (texts args) ++ ">"
def texts : List Spelling → List String
  | [] => []
  | s :: rest => text s :: texts rest
end

theorem texts_eq (args : List Spelling) : texts args = args.map text := by
  induction args with
  | nil => rfl
  | cons s rest ih => rw [texts,ih,map_cons]

end Spelling

namespace TypeRef

mutual
def spelling (p : Program) : TypeRef → Spelling
  | .absent => .absent
  | .decl t => .name (p.fullName t)
  | .param g => .param g.isMethod g.position
  | .applied t args => .applied (p.fullName t) (spellings p args)
def spellings (p : Program) : List TypeRef → List Spelling
  | [] => []
  | a :: rest => spelling p a :: spellings p rest
end

variable {p q : Program} {t u : TypeRef}

theorem spellings_eq (p : Program) (args : List TypeRef) : spellings p args = args.map (spelling p) := by
  induction args with
  | nil => rfl
  | cons a rest ih => rw [spellings,ih,map_cons]

theorem texts_eq (p : Program) (args : List TypeRef) : texts p args = args.map (text p) := by
  induction args with
  | nil => rfl
  | cons a rest ih => rw [texts,ih,map_cons]

theorem text_eq_spelling (p : Program) (t : TypeRef) : t.text p = (t.spelling p).text := by
  induction t with
  | absent => rfl
  | decl d => rfl
  | param g => rfl
  | applied d args ih =>
    rw [text,spelling,Spelling.text,texts_eq,spellings_eq,Spelling.texts_eq,map_map,
      map_congr_left (g := Spelling.text ∘ spelling p) ih]

theorem fullName_eq_text (closed : ∀ u ∈ t.parts, ∀ g, u ≠ param g) : t.fullName p = t.text p := by
  induction t with
  | absent => rfl
  | decl d => rfl
  | param g => exact absurd rfl (closed _ (mem_parts_self _) g)
  | applied d args ih =>
    have each : ∀ a ∈ args, a.fullName p = a.text p := fun a member =>
      ih a member fun u within => closed u (mem_parts_applied.mpr (.inr ⟨a,member,within⟩))
    rw [fullName,text,texts_eq,Program.fullNames_eq,map_congr_left each]

section

variable (same : t.spelling p = u.spelling q)
include same

theorem text_congr : t.text p = u.text q := by
  rw [text_eq_spelling,same,text_eq_spelling]

theorem isAbsent_congr : t.isAbsent = u.isAbsent := by
  cases t <;> cases u <;> first | rfl | cases same

theorem signatureText_congr : t.signatureText p = u.signatureText q := by
  have texts := text_congr same
  cases t <;> cases u <;> first | rfl | cases same | exact texts

theorem element?_congr {d : TypeId} (element : t.element? = some d) :
    ∃ e, u.element? = some e ∧ q.fullName e = p.fullName d := by
  cases t <;> cases u <;> cases element <;> simp_all [spelling,element?]

end

end TypeRef

namespace Program

variable {p q : Program} {home : ModuleId} {scope : ParamScope} {t u : TypeRef}
variable {d : TypeId} {name : String}

theorem sameSignature_iff_spelling {a b : TypeRef} : p.sameSignature a b = true ↔ a.spelling p = b.spelling p := by
  induction a generalizing b with
  | absent => cases b <;> simp [sameSignature,spelling]
  | decl d => cases b <;> simp [sameSignature,spelling,sameDecl_iff]
  | param g => cases b <;> simp [sameSignature,spelling,and_comm]
  | applied d args ih =>
    cases b with
    | applied e others =>
      rw [sameSignature,Bool.and_eq_true,sameDecl_iff,sameSignatureList_iff_of ih,spelling,
        spelling,Spelling.applied.injEq,spellings_eq,spellings_eq]
    | _ => simp [sameSignature,spelling]

theorem sameSignatureList_iff_spellings {as bs : List TypeRef} :
    p.sameSignatureList as bs = true ↔ as.map (·.spelling p) = bs.map (·.spelling p) :=
  sameSignatureList_iff_of fun _ _ _ => sameSignature_iff_spelling

theorem same_decl_iff_spelling : p.same t (.decl d) = true ↔ t.spelling p = .name (p.fullName d) := by
  cases t <;> simp [same,spelling,sameDecl_iff]

/-! ### Names -/

/-- A text that can stand for a declaration: it is tidy and starts with no parameter mark. -/
structure Title (s : String) : Prop where
  tidy : Tidy s.toList
  starts : ∃ c rest, s.toList = c :: rest ∧ c ≠ '!'

theorem fullName_of_findOwnType? (found : p.findOwnType? home name = some d) : p.fullName d = name := by
  simpa using find?_some found

theorem fullName_of_findType? (found : p.findType? home name = some d) : p.fullName d = name := by
  rcases Option.or_eq_some_iff.mp found with own | ⟨-,other⟩
  · exact fullName_of_findOwnType? own
  · obtain ⟨m,-,found⟩ := exists_of_findSome?_eq_some other
    exact fullName_of_findOwnType? found

theorem loose_intercalate {texts : List (List Char)} (each : ∀ t ∈ texts, Tidy t) :
    Loose (intercalate [',',' '] texts) := by
  induction texts with
  | nil => exact .nil 0
  | cons first rest ih =>
    cases rest with
    | nil =>
      rw [intercalate_singleton]
      exact (each first (.head _)).loose
    | cons second others =>
      rw [intercalate_cons_cons]
      have comma : Loose [',',' '] := .separator (.inl rfl) (.inr rfl) (.separator (.inr rfl) (.inr rfl) (.nil 0))
      exact ((each first (.head _)).loose.append comma).append (ih fun t member => each t (.tail _ member))

/-! ### Types -/

def Offers (scope : ParamScope) (g : GenericParam) : Prop :=
  g.position < 0x8000000000000000 ∧ ∃ h, (if g.isMethod then scope.methodParams else scope.typeParams)[g.position]? = some h ∧
    h.isMethod = g.isMethod ∧ h.position = g.position

/-- A part of a reference, written in one program, can be read in another: names are found, an applied type has as many
    parameters as arguments, and its text is the name of no type. -/
def PartReadable (p q : Program) (home : ModuleId) (scope : ParamScope) : TypeRef → Prop
  | .absent => False
  | .decl d => Title (p.fullName d) ∧ (q.findType? home (p.fullName d)).isSome = true
  | .param g => Offers scope g
  | .applied d args => Title (p.fullName d) ∧ q.findType? home ((applied d args).text p) = none ∧
      ∃ e, q.findType? home (p.fullName d) = some e ∧ (q.typeAt e).generics.length = args.length

/-- A reference of one program that can be read in another. -/
def Readable (p q : Program) (home : ModuleId) (scope : ParamScope) (t : TypeRef) : Prop :=
  ∀ u ∈ t.parts, PartReadable p q home scope u

theorem Readable.arg {args : List TypeRef} (readable : Readable p q home scope (.applied d args)) {a : TypeRef}
    (member : a ∈ args) : Readable p q home scope a :=
  fun u within => readable u (mem_parts_applied.mpr (.inr ⟨a,member,within⟩))

theorem toList_applied (d : TypeId) (args : List TypeRef) : ((applied d args).text p).toList =
      (p.fullName d).toList ++ '<' :: (intercalate [',',' '] (args.map fun a => (a.text p).toList) ++ ['>']) := by
  rw [text,String.toList_append,String.toList_append,String.toList_append,String.toList_intercalate,texts_eq,
    map_map]
  simp
  rfl

theorem toList_param (g : GenericParam) :
    (g.text).toList = (if g.isMethod then ['!','!'] else ['!']) ++ Nat.toDigits 10 g.position := by
  rw [GenericParam.text,String.toList_append,Text.Decimal.toList_toString_nat]
  split <;> rfl

theorem isNameChar_of_digit {c : Char} {n : Nat} (member : c ∈ Nat.toDigits 10 n) : isNameChar c = true := by
  have digit : c.isDigit = true := Nat.isDigit_of_mem_toDigits (by decide) (by decide) member
  simp [isNameChar,Text.isWordChar,Char.isAlphanum,digit]

theorem tidy_text (titles : ∀ u ∈ t.parts, u.isAbsent = false ∧ ∀ d, u.element? = some d → Title (p.fullName d)) :
    Tidy (t.text p).toList ∧ (t.text p).toList ≠ [] := by
  induction t with
  | absent => cases (titles _ (mem_parts_self _)).1
  | decl d =>
    obtain ⟨tidy,c,rest,starts,-⟩ := (titles _ (mem_parts_self _)).2 d rfl
    exact ⟨tidy,by rw [text,starts]; simp⟩
  | param g =>
    rw [text,toList_param]
    refine ⟨Text.tidy_of_nameChars fun c member => ?_,by split <;> simp⟩
    rcases mem_append.mp member with mark | digit
    · have bang : c = '!' := by split at mark <;> simpa using mark
      rw [bang]
      decide
    · exact isNameChar_of_digit digit
  | applied d args ih =>
    obtain ⟨tidy,-⟩ := (titles _ (mem_parts_self _)).2 d rfl
    rw [toList_applied]
    refine ⟨tidy.append (loose_intercalate fun text member => ?_).bracketed,by simp⟩
    obtain ⟨a,among,rfl⟩ := mem_map.mp member
    exact (ih a among fun u within => titles u (mem_parts_applied.mpr (.inr ⟨a,among,within⟩))).1

theorem Readable.titles (readable : Readable p q home scope t) :
    ∀ u ∈ t.parts, u.isAbsent = false ∧ ∀ d, u.element? = some d → Title (p.fullName d) := by
  intro u within
  have part := readable u within
  cases u with
  | absent => exact part.elim
  | decl d => exact ⟨rfl,by rintro e ⟨⟩; exact part.1⟩
  | param g => exact ⟨rfl,nofun⟩
  | applied d args => exact ⟨rfl,by rintro e ⟨⟩; exact part.1⟩

theorem Readable.tidy (readable : Readable p q home scope t) : Tidy (t.text p).toList ∧ (t.text p).toList ≠ [] :=
  tidy_text readable.titles

theorem readTypeWithin_title {n : Nat} {c : Char} {rest : List Char} (tidy : Tidy (c :: rest)) (plain : c ≠ '!') :
    q.readTypeWithin home scope (n + 1) (c :: rest) = match q.findType? home (String.ofList (c :: rest)) with
      | some d => .ok (.decl d)
      | none =>
        match (applications (c :: rest)).findSome? fun (head,inner) =>
          (q.findType? home (String.ofList head)).map (·,inner) with
        | none => (q.readTypeName home (c :: rest)).map .decl
        | some (d,inner) =>
          match split ',' inner with
          | none => .error (.unbalancedArguments (q.fullName d) (String.ofList inner))
          | some parts =>
            (parts.mapM (q.readTypeWithin home scope n)).bind fun args => (q.applyType d args).mapError .count := by
  rw [readTypeWithin,tidy.trimmed.trim_eq]
  split
  · next empty => cases empty
  · next marked => cases marked; exact absurd rfl plain
  · next marked => cases marked; exact absurd rfl plain
  · rfl

theorem readTypeWithin_param (home : ModuleId) {n : Nat} {g : GenericParam} (offered : Offers scope g) :
    ∃ h, q.readTypeWithin home scope (n + 1) g.text.toList = .ok (.param h) ∧
      (if g.isMethod then scope.methodParams else scope.typeParams)[g.position]? = some h := by
  obtain ⟨fits,h,found,-⟩ := offered
  have tidy : Tidy g.text.toList := (tidy_text (p := q) (t := .param g) fun u within => by
    rw [mem_parts_param.mp within]; exact ⟨rfl,nofun⟩).1
  have read : ∀ params : List GenericParam, params[g.position]? = some h →
      paramAt? params (Nat.toDigits 10 g.position) = some (.param h) := by
    intro params at_
    rw [paramAt?,Text.Decimal.parse_toDigits fits]
    simp only
    rw [if_neg (by omega),Int.toNat_natCast,at_,Option.map_some]
  refine ⟨h,?_,found⟩
  rw [readTypeWithin,tidy.trimmed.trim_eq,toList_param]
  cases method : g.isMethod with
  | true =>
    rw [method,if_pos rfl] at found
    simp only [if_true,cons_append,nil_append,read _ found]
  | false =>
    rw [method,if_neg Bool.false_ne_true] at found
    obtain ⟨c,rest,digits,-,-⟩ := Text.Decimal.exists_digit_cons g.position
    have digit : c ≠ '!' := by
      rintro rfl
      have member : '!' ∈ Nat.toDigits 10 g.position := by rw [digits]; exact .head _
      exact absurd (Nat.isDigit_of_mem_toDigits (by decide) (by decide) member) (by decide)
    have found := read _ found
    rw [digits] at found ⊢
    simp only [Bool.false_eq_true,if_false,cons_append,nil_append]
    split
    · next empty => cases empty
    · next marked => cases marked; exact absurd rfl digit
    · next marked => cases marked; rw [found]
    · next other => exact absurd rfl (other _)

/-- The parameter is the one that the scope has at its position. -/
def Binds (scope : ParamScope) (g : GenericParam) : Prop :=
  (if g.isMethod then scope.methodParams else scope.typeParams)[g.position]? = some g

theorem Readable.readTypeWithin_text (readable : Readable p q home scope t) {n : Nat} (enough : (t.text p).toList.length < n) :
    ∃ u, q.readTypeWithin home scope n (t.text p).toList = .ok u ∧ u.spelling q = t.spelling p ∧
      ∀ g, .param g ∈ u.parts → Binds scope g := by
  obtain ⟨n,rfl⟩ : ∃ k, n = k + 1 := ⟨n - 1,by omega⟩
  induction t generalizing n with
  | absent => exact (readable _ (mem_parts_self _)).elim
  | decl d =>
    obtain ⟨⟨tidy,c,rest,starts,plain⟩,found⟩ := readable _ (mem_parts_self _)
    obtain ⟨e,found⟩ := Option.isSome_iff_exists.mp found
    refine ⟨.decl e,?_,by rw [spelling,spelling,fullName_of_findType? found],by simp⟩
    rw [starts] at tidy
    rw [text,starts,readTypeWithin_title tidy plain,← starts,String.ofList_toList,found]
  | param g =>
    have offered : Offers scope g := readable _ (mem_parts_self _)
    obtain ⟨h,read,at_⟩ := readTypeWithin_param (q := q) home (n := n) offered
    obtain ⟨-,h',found,method,position⟩ := offered
    cases at_.symm.trans found
    refine ⟨.param h,read,by rw [spelling,spelling,method,position],fun g within => ?_⟩
    cases mem_parts_param.mp within
    rw [Binds,method,position]
    exact found
  | applied d args ih =>
    obtain ⟨⟨tidy,c,rest,starts,plain⟩,absent,e,found,count⟩ := readable _ (mem_parts_self _)
    have texts : ∀ text ∈ args.map fun a => (a.text p).toList, Tidy text ∧ text ≠ [] := fun text member => by
      obtain ⟨a,among,rfl⟩ := mem_map.mp member
      exact (readable.arg among).tidy
    have loose := loose_intercalate fun text member => (texts text member).1
    have shorter : ∀ a ∈ args, (a.text p).toList.length < n := by
      intro a member
      have within := length_le_intercalate ", " (mem_map_of_mem (f := text p) member)
      rw [text,texts_eq] at enough
      simp only [String.toList_append,length_append,String.length_toList] at enough ⊢
      have angle : "<".length = 1 ∧ ">".length = 1 := ⟨rfl,rfl⟩
      omega
    obtain ⟨read,each⟩ := exists_forall₂ (R := fun (a : TypeRef) (u : TypeRef) =>
        q.readTypeWithin home scope n (a.text p).toList = .ok u ∧ u.spelling q = a.spelling p ∧
          ∀ g, .param g ∈ u.parts → Binds scope g) fun a member => by
      obtain ⟨k,rfl⟩ : ∃ k, n = k + 1 := ⟨n - 1,by have := shorter a member; omega⟩
      exact ih a member (readable.arg member) k (shorter a member)
    have spelled : read.map (spelling q) = args.map (spelling p) :=
      map_eq_of_forall₂ (each.imp fun _ _ both => both.2.1)
    have arguments : (args.map fun a => (a.text p).toList).mapM (q.readTypeWithin home scope n) = .ok read :=
      Except.mapM_eq_ok.mpr (forall₂_map_left_iff.mpr (each.imp fun _ _ both => both.1))
    have heads : ∃ more, ((applied d args).text p).toList = c :: more := by
      rw [toList_applied,starts]
      exact ⟨_,rfl⟩
    obtain ⟨more,heads⟩ := heads
    have whole : Tidy (c :: more) := heads ▸ readable.tidy.1
    refine ⟨.applied e read,?_,?_,fun g within => ?_⟩
    · rw [heads,readTypeWithin_title whole plain,← heads,String.ofList_toList,absent,toList_applied,
        tidy.applications_eq loose]
      simp only [findSome?_cons,String.ofList_toList,found,Option.map_some]
      rw [Text.split_intercalate texts]
      simp only [arguments,Except.bind]
      rw [applyType_eq_ok.mpr ⟨count.trans (each.length_eq),rfl⟩]
      rfl
    · rw [spelling,spelling,spellings_eq,spellings_eq,spelled,
        fullName_of_findType? found]
    · obtain ⟨u,member,inner⟩ := (mem_parts_applied.mp within).resolve_left nofun
      obtain ⟨a,-,both⟩ := left_of_forall₂ each member
      exact both.2.2 g inner

/-- Every declaration in the reference is the one that its full name finds. -/
def Found (q : Program) (home : ModuleId) (t : TypeRef) : Prop :=
  ∀ u ∈ t.parts, ∀ d, u.element? = some d → q.findType? home (q.fullName d) = some d

theorem found_decl (found : q.findType? home name = some d) : q.Found home (.decl d) := by
  intro u within e element
  rw [mem_parts_decl.mp within] at element
  cases element
  rw [fullName_of_findType? found,found]

theorem Found.element (found : q.Found home t) {d : TypeId} (element : t.element? = some d) :
    q.findType? home (q.fullName d) = some d :=
  found t (mem_parts_self t) d element

theorem readTypeWithin_found {n : Nat} {text : List Char} (read : q.readTypeWithin home scope n text = .ok t) :
    q.Found home t := by
  have param : ∀ (params : List GenericParam) (digits : List Char) (t : TypeRef), paramAt? params digits = some t →
      q.Found home t := by
    intro params digits t found
    obtain ⟨g,-,rfl⟩ := paramAt?_mem found
    intro u within d element
    rw [mem_parts_param.mp within] at element
    cases element
  induction n generalizing text t with
  | zero => cases read
  | succ n ih =>
    rw [readTypeWithin] at read
    split at read
    · cases read
    · split at read
      · next found => cases read; exact param _ _ _ found
      · cases read
    · split at read
      · next found => cases read; exact param _ _ _ found
      · cases read
    · split at read
      · next found => cases read; exact found_decl found
      · simp only at read
        split at read
        · simp only [readTypeName] at read
          split at read
          · next found => cases read; exact found_decl found
          · cases read
        · next d inner reading =>
          obtain ⟨⟨head,rest⟩,-,named⟩ := exists_of_findSome?_eq_some reading
          obtain ⟨e,found,⟨⟩⟩ := Option.map_eq_some_iff.mp named
          split at read
          · cases read
          · obtain ⟨args,each,read⟩ := Except.bind_eq_ok.mp read
            obtain ⟨-,rfl⟩ := applyType_eq_ok.mp (Except.mapError_eq_ok.mp read)
            intro u within e element
            rcases mem_parts_applied.mp within with rfl | ⟨a,member,inner⟩
            · cases element
              rw [fullName_of_findType? found,found]
            · obtain ⟨part,-,read⟩ := left_of_forall₂ (Except.mapM_eq_ok.mp each) member
              exact ih read u inner e element

theorem readType_found {text : List Char} (read : q.readType home scope text = .ok t) : q.Found home t :=
  readTypeWithin_found read

theorem Readable.readType_text (readable : Readable p q home scope t) :
    ∃ u, q.readType home scope (t.text p).toList = .ok u ∧ u.spelling q = t.spelling p := by
  obtain ⟨u,read,spelled,-⟩ := readable.readTypeWithin_text (Nat.lt_succ_self _)
  exact ⟨u,read,spelled⟩

end Program

namespace TypeRef

variable {p q : Program}

theorem spelling_of_names (names : q.fullName = p.fullName) (t : TypeRef) : t.spelling q = t.spelling p := by
  induction t with
  | absent => rfl
  | decl d => rw [spelling,spelling,names]
  | param g => rfl
  | applied d args ih =>
    rw [spelling,spelling,spellings_eq,spellings_eq,names,map_congr_left ih]

theorem text_of_names (names : q.fullName = p.fullName) (t : TypeRef) : t.text q = t.text p :=
  text_congr (spelling_of_names names t)

end TypeRef
end Loom
