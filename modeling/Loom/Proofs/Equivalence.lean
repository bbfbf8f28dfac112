import Loom.CoreLibrary
import Loom.Proofs.Spelling

/-!
Sameness as an equivalence. Both kinds of sameness compare forms of references, so they are equivalences that replacing
parameters respects, and the one implies the other. A closed type is told by its full name alone wherever names hold no
bracket and no separator.
-/
namespace Loom

open List TypeRef
open Text (Tidy isNameChar isWordChar)

namespace Program

variable {p : Program} {a b t : TypeRef} {d : TypeId}

theorem spelling_canonical (t : TypeRef) : (p.canonical t).spelling p = t.spelling p := by
  induction t with
  | absent => rfl
  | decl d => exact congrArg Spelling.name (fullName_representative d)
  | param g => rfl
  | applied d args ih =>
    rw [canonical_applied,spelling,spelling,fullName_representative,spellings_eq,
      spellings_eq,map_map]
    exact congrArg _ (map_congr_left ih)

theorem sameSignature_of_same (same : p.same a b = true) : p.sameSignature a b = true := by
  rw [sameSignature_iff_spelling,← spelling_canonical a,same_iff.mp same,spelling_canonical]

theorem same_mapParams {f g : Owner → Nat → TypeRef} (each : ∀ o n, p.same (f o n) (g o n) = true)
    (same : p.same a b = true) :
    p.same (a.mapParams fun x => f x.owner x.position) (b.mapParams fun x => g x.owner x.position) = true := by
  have both (f : Owner → Nat → TypeRef) (t : TypeRef) : p.canonical (t.mapParams fun x => f x.owner x.position) =
      (p.canonical t).mapParams fun x => p.canonical (f x.owner x.position) :=
    relabel_mapParams (k := GenericParam.bare) (fun _ => rfl) t
  rw [same_iff,both,both,same_iff.mp same]
  congr 1
  exact funext fun x => same_iff.mp (each x.owner x.position)

theorem isMethod_positional (x : GenericParam) : x.positional.isMethod = x.isMethod := by
  rw [GenericParam.positional]
  cases x.isMethod <;> rfl

theorem sameSignature_mapParams {f g : Bool → Nat → TypeRef} (each : ∀ k n, p.sameSignature (f k n) (g k n) = true)
    (same : p.sameSignature a b = true) :
    p.sameSignature (a.mapParams fun x => f x.isMethod x.position) (b.mapParams fun x => g x.isMethod x.position) = true := by
  have both (f : Bool → Nat → TypeRef) (t : TypeRef) : p.signatureForm (t.mapParams fun x => f x.isMethod x.position) =
      (p.signatureForm t).mapParams fun x => p.signatureForm (f x.isMethod x.position) :=
    relabel_mapParams (fun x => by rw [isMethod_positional]; rfl) t
  rw [sameSignature_iff,both,both,sameSignature_iff.mp same]
  congr 1
  exact funext fun x => sameSignature_iff.mp (each x.isMethod x.position)

/-- Names are made of letters, digits and the marks `_`, `.` and `$`. -/
def isLettered (s : String) : Bool := s.toList.all fun c => isWordChar c || c = '$'

/-- Every type has a name, and the names and namespaces hold no bracket and no separator. -/
def Lettered (p : Program) : Prop :=
  ∀ d ∈ p.types, d.name ≠ "" ∧ isLettered d.name = true ∧ isLettered d.space = true

/-- A type over the declarations of a program in which no parameter stands. -/
def Closed (p : Program) (t : TypeRef) : Prop := ∀ u ∈ t.parts, ∃ d ∈ u.element?, d.index < p.types.size

/-- The characters of full names over such names. -/
def isTitleChar (c : Char) : Bool := isWordChar c || c = '$' || c = '/'

theorem isTitleChar_of_isLettered {s : String} (lettered : isLettered s = true) : ∀ c ∈ s.toList, isTitleChar c = true := by
  intro c member
  rw [isTitleChar,all_eq_true.mp lettered c member,Bool.true_or]

theorem Lettered.isTitleChar (lettered : p.Lettered) (n : Nat) (d : TypeId) :
    ∀ c ∈ (p.fullNameWithin n d).toList, isTitleChar c = true := by
  have names (d : TypeId) : isLettered (p.typeAt d).name = true ∧ isLettered (p.typeAt d).space = true := by
    rw [typeAt]
    cases found : p.types[d.index]? with
    | none => exact ⟨rfl,rfl⟩
    | some x => exact (lettered x (Array.mem_of_getElem? found)).2
  have own (d : TypeId) := isTitleChar_of_isLettered (names d).1
  induction n generalizing d with
  | zero => exact forall_mem_nil _
  | succ n ih =>
    rw [fullNameWithin]
    split
    · next outer _ =>
      simp only [String.toList_append,forall_mem_append]
      exact ⟨⟨ih outer,by decide⟩,own d⟩
    · split
      · exact own d
      · simp only [String.toList_append,forall_mem_append]
        exact ⟨⟨isTitleChar_of_isLettered (names d).2,by decide⟩,own d⟩

theorem Lettered.title (lettered : p.Lettered) (inside : d.index < p.types.size) : Title (p.fullName d) := by
  have chars := lettered.isTitleChar (p.types.size + 1) d
  refine ⟨Text.tidy_of_nameChars fun c member => ?_,?_⟩
  · have title := chars c member
    rw [Program.isTitleChar] at title
    rw [isNameChar,title,Bool.true_or]
  · cases starts : (p.fullName d).toList with
    | nil =>
      have named := (lettered _ (Array.getElem_mem inside)).1
      have short := length_name_le_fullName p (t := d)
      rw [← String.length_toList,← String.length_toList,starts,typeAt,Array.getElem?_eq_getElem inside] at short
      exact absurd (String.ext (eq_nil_of_length_eq_zero (Nat.le_zero.mp short))) named
    | cons c rest =>
      refine ⟨c,rest,rfl,?_⟩
      rintro rfl
      exact absurd (chars '!' (by rw [← fullName,starts]; exact .head _)) (by decide)

theorem Closed.titles (closed : p.Closed t) (lettered : p.Lettered) :
    ∀ u ∈ t.parts, u.isAbsent = false ∧ ∀ d, u.element? = some d → Title (p.fullName d) := by
  intro u within
  obtain ⟨d,element,inside⟩ := closed u within
  refine ⟨?_,fun e other => ?_⟩
  · cases u <;> first | rfl | cases element
  · cases element.symm.trans other
    exact lettered.title inside

theorem Closed.arg {args : List TypeRef} (closed : p.Closed (applied d args)) (member : t ∈ args) : p.Closed t :=
  fun u within => closed u (mem_parts_applied.mpr (.inr ⟨t,member,within⟩))

theorem Closed.signatureForm_eq (closed : p.Closed t) : p.signatureForm t = p.canonical t := by
  induction t with
  | absent => rfl
  | decl d => rfl
  | param g => obtain ⟨_,⟨⟩,-⟩ := closed _ (mem_parts_self _)
  | applied d args ih =>
    rw [signatureForm,relabel_applied,canonical_applied]
    exact congrArg _ (map_congr_left fun a member => ih a member (closed.arg member))

theorem Closed.same_iff_spelling (first : p.Closed a) (second : p.Closed b) :
    p.same a b = true ↔ a.spelling p = b.spelling p := by
  rw [same_iff,← first.signatureForm_eq,← second.signatureForm_eq,← sameSignature_iff,sameSignature_iff_spelling]

theorem Closed.fullName_eq_text (closed : p.Closed t) : t.fullName p = t.text p := by
  refine TypeRef.fullName_eq_text fun u within g => ?_
  rintro rfl
  obtain ⟨_,⟨⟩,-⟩ := closed _ within

theorem Lettered.fullName_ne_text (lettered : p.Lettered) (d e : TypeId) (args : List TypeRef) :
    p.fullName d ≠ (applied e args).text p := by
  intro same
  have bracket : '<' ∈ (p.fullName d).toList := by rw [same,toList_applied]; simp
  exact absurd (lettered.isTitleChar _ d '<' bracket) (by decide)

/-- A text is read in one way only: its head ends at the first bracket, and its arguments between commas outside of
    brackets. -/
theorem Closed.spelling_eq_of_text (lettered : p.Lettered) (first : p.Closed a) (second : p.Closed b)
    (same : a.text p = b.text p) : a.spelling p = b.spelling p := by
  induction a generalizing b with
  | absent => obtain ⟨_,⟨⟩,-⟩ := first _ (mem_parts_self _)
  | param g => obtain ⟨_,⟨⟩,-⟩ := first _ (mem_parts_self _)
  | decl d =>
    cases b with
    | absent => obtain ⟨_,⟨⟩,-⟩ := second _ (mem_parts_self _)
    | param g => obtain ⟨_,⟨⟩,-⟩ := second _ (mem_parts_self _)
    | decl e => exact congrArg Spelling.name same
    | applied e others => exact absurd same (lettered.fullName_ne_text d e others)
  | applied d args ih =>
    cases b with
    | absent => obtain ⟨_,⟨⟩,-⟩ := second _ (mem_parts_self _)
    | param g => obtain ⟨_,⟨⟩,-⟩ := second _ (mem_parts_self _)
    | decl e => exact absurd same.symm (lettered.fullName_ne_text e d args)
    | applied e others =>
      have tidy {c : TypeId} {as : List TypeRef} (closed : p.Closed (applied c as)) :
          ∀ text ∈ as.map fun a => (a.text p).toList, Tidy text ∧ text ≠ [] := by
        intro text member
        obtain ⟨a,among,rfl⟩ := mem_map.mp member
        exact tidy_text ((closed.arg among).titles lettered)
      have reads {c : TypeId} {as : List TypeRef} (closed : p.Closed (applied c as)) :=
        ((closed.titles lettered _ (mem_parts_self _)).2 c rfl).tidy.applications_eq
          (loose_intercalate fun text member => (tidy closed text member).1)
      have lists := congrArg (fun s => Text.Brackets.applications s.toList) same
      simp only [toList_applied,reads first,reads second,cons.injEq,Prod.mk.injEq,and_true] at lists
      have texts := congrArg (Text.Brackets.split ',') lists.2
      rw [Text.split_intercalate (tidy first),Text.split_intercalate (tidy second)] at texts
      have each : args.map (·.spelling p) = others.map (·.spelling p) :=
        map_eq_map_of (fun a member b among same =>
          ih a member (first.arg member) (second.arg among) (String.toList_inj.mp same)) (Option.some.inj texts)
      rw [spelling,spelling,String.toList_inj.mp lists.1,spellings_eq,spellings_eq,each]

/-- Sameness and sameness in signatures are equivalences, the first finer than the second. Replacing parameters by their
    owner and position keeps the first, replacing them by their kind and position the second. Closed types over names
    without brackets and separators are the same exactly when they have one full name. -/
theorem sameness_equivalences (p : Program) :
    Equivalence (fun a b => p.same a b = true) ∧ Equivalence (fun a b => p.sameSignature a b = true) ∧
      (∀ a b, p.same a b = true → p.sameSignature a b = true) ∧
      (∀ (f g : Owner → Nat → TypeRef), (∀ o n, p.same (f o n) (g o n) = true) → ∀ a b, p.same a b = true →
        p.same (a.mapParams fun x => f x.owner x.position) (b.mapParams fun x => g x.owner x.position) = true) ∧
      (∀ (f g : Bool → Nat → TypeRef), (∀ k n, p.sameSignature (f k n) (g k n) = true) →
        ∀ a b, p.sameSignature a b = true →
          p.sameSignature (a.mapParams fun x => f x.isMethod x.position) (b.mapParams fun x => g x.isMethod x.position) = true) ∧
      (p.Lettered → ∀ a b, p.Closed a → p.Closed b → (p.same a b = true ↔ a.fullName p = b.fullName p)) := by
  refine ⟨⟨fun a => ?_,fun {a b} same => ?_,fun {a b c} first second => ?_⟩,
    ⟨fun a => ?_,fun {a b} same => ?_,fun {a b c} first second => ?_⟩,fun a b => sameSignature_of_same,
    fun f g each a b => same_mapParams each,fun f g each a b => sameSignature_mapParams each,
    fun lettered a b first second => ?_⟩
  · exact same_iff.mpr rfl
  · exact same_iff.mpr (same_iff.mp same).symm
  · exact same_iff.mpr ((same_iff.mp first).trans (same_iff.mp second))
  · exact sameSignature_iff.mpr rfl
  · exact sameSignature_iff.mpr (sameSignature_iff.mp same).symm
  · exact sameSignature_iff.mpr ((sameSignature_iff.mp first).trans (sameSignature_iff.mp second))
  · rw [first.same_iff_spelling second,first.fullName_eq_text,second.fullName_eq_text]
    exact ⟨TypeRef.text_congr,first.spelling_eq_of_text lettered second⟩

open CoreLibrary in
/-- Two types that differ in a bracket alone. -/
theorem sameness_equivalences_lists :
    core.Lettered ∧ core.same (applied list [applied list [.decl int32],.decl string])
        (applied list [applied list [.decl int32,.decl string]]) = false ∧
      (applied list [applied list [.decl int32],.decl string]).fullName core ≠
        (applied list [applied list [.decl int32,.decl string]]).fullName core := by
  have lettered : core.Lettered := by unfold Lettered; decide +kernel
  have differ : core.same (applied list [applied list [.decl int32],.decl string])
      (applied list [applied list [.decl int32,.decl string]]) = false := by decide +kernel
  refine ⟨lettered,differ,fun same => Bool.false_ne_true (differ.symm.trans ?_)⟩
  exact ((sameness_equivalences core).2.2.2.2.2 lettered _ _ (by unfold Closed; decide +kernel)
    (by unfold Closed; decide +kernel)).mpr same

end Program
end Loom
