import Loom.Proofs.Linking
import Loom.Proofs.Spelling

/-!
Type references that are read back as themselves. A text can be cut at one place only into a name and the list that ends it,
so where names differ from each other and from the texts of applied types, a text stands for one reference.
-/
namespace Loom.Program

open List TypeRef
open Document (Offered offered_of_findType?)

variable {p : Program} {home : ModuleId} {scope : ParamScope} {t u : TypeRef} {d : TypeId}

/-- A part of a reference over a module: a type that the module can name, with as many arguments as it has parameters, or a
    parameter in scope. -/
def PartOver (p : Program) (home : ModuleId) (scope : ParamScope) : TypeRef → Prop
  | .absent => False
  | .decl d => Offered home p d
  | .param g => Binds scope g
  | .applied d args => Offered home p d ∧ (p.typeAt d).generics.length = args.length

def Over (p : Program) (home : ModuleId) (scope : ParamScope) (t : TypeRef) : Prop :=
  ∀ u ∈ t.parts, p.PartOver home scope u

/-- The types that a module can name have titles that differ from each other, and from the texts of applied types. -/
structure Unequivocal (p : Program) (home : ModuleId) (scope : ParamScope) : Prop where
  distinct : ∀ d e, Offered home p d → Offered home p e → p.fullName d = p.fullName e → d = e
  titled : ∀ d, Offered home p d → Title (p.fullName d)
  apart : ∀ d e args, Offered home p d → p.Over home scope (.applied e args) → p.fullName d ≠ (TypeRef.applied e args).text p

theorem isSome_findType? (offered : Offered home p d) : (p.findType? home (p.fullName d)).isSome = true := by
  have own {h : ModuleId} (member : d ∈ p.allTypes h) : (p.findOwnType? h (p.fullName d)).isSome = true :=
    find?_isSome.mpr ⟨d,member,beq_self_eq_true _⟩
  rw [findType?,Option.isSome_or,Bool.or_eq_true]
  rcases offered with member | ⟨h,among,member⟩
  · exact .inl (own member)
  · exact .inr (findSome?_isSome_iff.mpr ⟨h,among,own member⟩)

namespace Unequivocal

variable (names : p.Unequivocal home scope)
include names

theorem findType?_fullName (offered : Offered home p d) : p.findType? home (p.fullName d) = some d := by
  obtain ⟨e,found⟩ := Option.isSome_iff_exists.mp (isSome_findType? offered)
  rw [found,names.distinct e d (offered_of_findType? found) offered (fullName_of_findType? found)]

theorem found (formed : p.Over home scope t) : p.Found home t := by
  intro u within d element
  have part := formed u within
  cases u <;> cases element
  · exact names.findType?_fullName part
  · exact names.findType?_fullName part.1

theorem readable (sized : scope.typeParams.length ≤ 0x8000000000000000 ∧ scope.methodParams.length ≤ 0x8000000000000000)
    (formed : p.Over home scope t) : Readable p p home scope t := by
  intro u within
  have part := formed u within
  cases u with
  | absent => exact part
  | decl d => exact ⟨names.titled d part,isSome_findType? part⟩
  | param g =>
    obtain ⟨inside,-⟩ := List.getElem?_eq_some_iff.mp part
    exact ⟨by split at inside <;> omega,g,part,rfl,rfl⟩
  | applied d args =>
    refine ⟨names.titled d part.1,?_,d,names.findType?_fullName part.1,part.2⟩
    by_contra found
    obtain ⟨e,found⟩ := Option.ne_none_iff_exists'.mp found
    refine names.apart e d args (offered_of_findType? found) (fun v inner => ?_) (fullName_of_findType? found)
    exact formed v (mem_parts_trans inner within)

end Unequivocal

theorem eq_of_spelling (same : u.spelling p = t.spelling p) (found : p.Found home u) (found' : p.Found home t)
    (bound : ∀ g, .param g ∈ u.parts → Binds scope g) (bound' : ∀ g, .param g ∈ t.parts → Binds scope g) : u = t := by
  have decls {d e : TypeId} {v w : TypeRef} (element : v.element? = some d) (element' : w.element? = some e)
      (found : p.Found home v) (found' : p.Found home w) (same : p.fullName d = p.fullName e) : d = e := by
    have first := found.element element
    rw [same,found'.element element'] at first
    exact (Option.some.inj first).symm
  induction t generalizing u with
  | absent => cases u <;> first | rfl | cases same
  | decl d =>
    cases u with
    | decl e => rw [decls rfl rfl found found' (Spelling.name.inj same)]
    | _ => cases same
  | param g =>
    cases u with
    | param h =>
      obtain ⟨method,position⟩ := Spelling.param.inj same
      have first := bound h (mem_parts_self _)
      rw [Binds,method,position,bound' g (mem_parts_self _)] at first
      rw [Option.some.inj first]
    | _ => cases same
  | applied d args ih =>
    cases u with
    | applied e others =>
      rw [spelling,spelling,spellings_eq,spellings_eq] at same
      obtain ⟨name,spelled⟩ := Spelling.applied.inj same
      have up {as : List TypeRef} {a v : TypeRef} {c : TypeId} (member : a ∈ as) (within : v ∈ a.parts) :
          v ∈ (applied c as).parts := mem_parts_applied.mpr (.inr ⟨a,member,within⟩)
      have each : others = args := by
        refine ext_getElem (by simpa using congrArg length spelled) fun i first second => ?_
        have alike : others[i].spelling p = args[i].spelling p := by simpa [first,second] using congrArg (·[i]?) spelled
        have here := getElem_mem first
        have there := getElem_mem second
        exact ih _ there alike (fun v within => found v (up here within)) (fun v within => found' v (up there within))
          (fun g within => bound g (up here within)) fun g within => bound' g (up there within)
      rw [decls rfl rfl found found' name,each]
    | _ => cases same

/-- Where names are unequivocal, the text of a reference over a module is read as that reference. A scope has no more
    parameters than there are numbers to write. -/
theorem readType_over (names : p.Unequivocal home scope)
    (sized : scope.typeParams.length ≤ 0x8000000000000000 ∧ scope.methodParams.length ≤ 0x8000000000000000)
    (formed : p.Over home scope t) : p.readType home scope (t.text p).toList = .ok t := by
  obtain ⟨u,read,spelled,bound⟩ := (names.readable sized formed).readTypeWithin_text (Nat.lt_succ_self _)
  rw [readType,read,eq_of_spelling spelled (readTypeWithin_found read) (names.found formed) bound fun g => formed (.param g)]

/-- The text is tidy from the given depth on. -/
def tidyFrom : Nat → List Char → Bool
  | depth, [] => depth = 0
  | depth, '<' :: rest => tidyFrom (depth + 1) rest
  | depth + 1, '>' :: rest => tidyFrom depth rest
  | depth, c :: rest => (Text.isNameChar c || (0 < depth && (c = ',' || c = ' '))) && tidyFrom depth rest

theorem balances_of_tidyFrom {depth : Nat} {cs : List Char} (passed : tidyFrom depth cs = true) :
    Text.Balances false depth cs 0 := by
  fun_induction tidyFrom depth cs with
  | case1 depth =>
    rw [of_decide_eq_true passed]
    exact .nil 0
  | case2 depth rest ih => exact .opening (ih passed)
  | case3 rest depth ih => exact .closing (ih passed)
  | case4 depth c rest _ _ ih =>
    simp only [Bool.and_eq_true,Bool.or_eq_true,decide_eq_true_eq] at passed
    obtain ⟨name | ⟨inside,mark⟩,later⟩ := passed
    · exact .char name (ih later)
    · exact .separator mark (.inl inside) (ih later)

theorem unequivocal_of_names {types : List TypeId} (offered : ∀ d, Offered home p d ↔ d ∈ types)
    (distinct : (types.map p.fullName).Nodup)
    (titled : ∀ d ∈ types, tidyFrom 0 (p.fullName d).toList = true ∧ (p.fullName d).toList.head?.any (· ≠ '!') = true)
    (apart : ∀ d ∈ types, ∀ e ∈ types, ¬(p.fullName e).toList ++ ['<'] <+: (p.fullName d).toList) (scope : ParamScope) :
    p.Unequivocal home scope where
  distinct d e here there := inj_on_of_nodup_map distinct ((offered d).mp here) ((offered e).mp there)
  titled d here := by
    obtain ⟨tidy,starts⟩ := titled d ((offered d).mp here)
    obtain ⟨c,head,plain⟩ := (Option.any_eq_true _ _).mp starts
    obtain ⟨rest,starts⟩ := head?_eq_some_iff.mp head
    exact ⟨balances_of_tidyFrom tidy,c,rest,starts,of_decide_eq_true plain⟩
  apart d e args here formed same := by
    refine apart d ((offered d).mp here) e ((offered e).mp (formed _ (mem_parts_self _)).1) ?_
    rw [same,toList_applied]
    exact (prefix_append_right_inj _).mpr (prefix_append ['<'] _)

/-- A module with a type whose name holds an argument list. -/
def shelf : Document :=
  { moduleName := "Shelf"
    types :=
      [some { name := "Pair", generics := ["A","B"] },some { space := "Shelf", name := "Key" },
       some { name := "Box$Pair<Shelf.Key, System.Int32>" }] }

theorem readType_over_shelf : ∃ home p, shelf.link core [CoreLibrary.home] = .ok (home,p) ∧
    p.readType home ⟨p.typeParams ⟨13⟩,[]⟩ "Pair<Box$Pair<Shelf.Key, System.Int32>, Pair<!1, Shelf.Key>>".toList =
      .ok (.applied ⟨13⟩ [.decl ⟨15⟩,.applied ⟨13⟩ [.param ⟨.type ⟨13⟩,1,"B"⟩,.decl ⟨14⟩]]) := by
  obtain ⟨home,p,linked,evaluated⟩ := shelf.link_passes (f := fun home p =>
    let types := p.allTypes home ++ (p.moduleAt home).references.flatMap p.allTypes
    decide (p.typeParams ⟨13⟩ = [⟨.type ⟨13⟩,0,"A"⟩,⟨.type ⟨13⟩,1,"B"⟩] ∧ (p.typeAt ⟨13⟩).generics.length = 2 ∧
      p.allTypes home = [⟨13⟩,⟨14⟩,⟨15⟩] ∧
      [⟨13⟩,⟨14⟩,⟨15⟩].map p.fullName = ["Pair","Shelf.Key","Box$Pair<Shelf.Key, System.Int32>"] ∧
      (types.map p.fullName).Nodup ∧
      (∀ d ∈ types, tidyFrom 0 (p.fullName d).toList = true ∧ (p.fullName d).toList.head?.any (· ≠ '!') = true) ∧
      ∀ d ∈ types, ∀ e ∈ types, ¬(p.fullName e).toList ++ ['<'] <+: (p.fullName d).toList)) (by decide +kernel)
  obtain ⟨scope,count,own,names,distinct,titled,apart⟩ := of_decide_eq_true evaluated
  have read : p.readType home ⟨p.typeParams ⟨13⟩,[]⟩ _ = _ :=
    readType_over (t := .applied ⟨13⟩ [.decl ⟨15⟩,.applied ⟨13⟩ [.param ⟨.type ⟨13⟩,1,"B"⟩,.decl ⟨14⟩]])
      (unequivocal_of_names (fun d => by simp [Offered]) distinct titled apart _) (by rw [scope]; decide)
      (by simp [Over,PartOver,Offered,Binds,own,scope,count,GenericParam.isMethod,Owner.isMethod])
  simp only [List.map_cons,List.cons.injEq] at names
  simp only [TypeRef.text,TypeRef.texts,names] at read
  exact ⟨home,p,linked,read⟩

end Loom.Program
