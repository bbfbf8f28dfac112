import Loom.Proofs.Drafting
import Loom.Proofs.Legibility

/-!
The members of a written type, read back. A member is read where the copies of all types stand already, so each type in
it is read as a reference of the same spelling, and the copy of the type has members that are written as the originals.
-/
namespace Loom

open List Program TypeRef MethodDecl
open GenericParam (declare getElem?_declare isMethod mem_declare)
open Loom.Except (bind_eq_ok mapError_eq_ok mapM_eq_ok)
open TypeDecl (header isInterface isValueType)

variable {d d' : MethodDecl} {q : Program} {doc : TypeDoc} {v : TypeRef}

theorem AttributeArg.written_of_names {p : Program} (names : q.fullName = p.fullName) (a : AttributeArg) :
    a.written q = a.written p := by
  cases a with
  | type t => rw [written,written,text_of_names names]
  | _ => rfl

namespace Program

variable {p q s : Program} {home target : ModuleId} {t u : TypeId}

/-- Methods that are written alike, apart from their bodies. -/
structure MethodAlike (p s : Program) (d d' : MethodDecl) : Prop where
  name : d'.name = d.name
  flags : ∀ f, d'.flags.has f = d.flags.has f
  generics : d'.generics = d.generics
  native : d'.native = d.native
  void : d'.returns.isVoid s = d.returns.isVoid p
  returns : d.returns.isVoid p = false → d'.returns.spelling s = d.returns.spelling p
  params : d'.params.map (fun x => (x.name,x.type.spelling s)) = d.params.map fun x => (x.name,x.type.spelling p)

theorem MethodAlike.of_names (alike : MethodAlike p s d d') (names : q.fullName = s.fullName) : MethodAlike p q d d' where
  name := alike.name
  flags := alike.flags
  generics := alike.generics
  native := alike.native
  void := by rw [isVoid_of_names names]; exact alike.void
  returns filled := by rw [spelling_of_names names]; exact alike.returns filled
  params := by
    simp only [spelling_of_names names]
    exact alike.params

theorem MethodAlike.signature_iff : MethodAlike p s d d'.signature ↔ MethodAlike p s d d' :=
  ⟨fun ⟨a,b,c,e,f,g,h⟩ => ⟨a,b,c,e,f,g,h⟩,fun ⟨a,b,c,e,f,g,h⟩ => ⟨a,b,c,e,f,g,h⟩⟩

theorem MethodAlike.paramTypes (alike : MethodAlike p s d d') :
    d'.paramTypes.map (·.spelling s) = d.paramTypes.map (·.spelling p) := by
  have types := congrArg (map Prod.snd) alike.params
  simpa [MethodDecl.paramTypes,Function.comp_def] using types

theorem methods_eq (p : Program) (t : TypeId) : (p.methodsOf t).map p.methodAt = (p.typeAt t).methods := by
  refine ext_getElem (by simp [methodsOf]) fun i first second => ?_
  rw [getElem_map]
  refine methodAt_eq_of_getElem? ?_
  simp [methodsOf,getElem?_eq_getElem second]

theorem methodsOf_zipIdx {α : Type} (p : Program) (t : TypeId) (f : MethodId → Nat → α) :
    ((p.methodsOf t).zipIdx.map fun x => f x.1 x.2) = (p.methodsOf t).map fun m => f m m.position := by
  refine ext_getElem (by simp) fun i first second => ?_
  simp [methodsOf]

theorem Entered.zipIdx_methods (entered : p.Entered home t doc) :
    doc.methods.zipIdx = (p.methodsOf t).map fun m => (p.buildMethod (p.methodAt m),m.position) := by
  rw [entered.methods,← p.methods_eq t,map_map,zipIdx_map,← p.methodsOf_zipIdx t]
  rfl

theorem Readable.readType_param {t : TypeRef} {scope : ParamScope} (readable : Readable p q home scope t) :
    ∃ u, q.readType home scope (t.text p).toList = .ok u ∧ u.spelling q = t.spelling p ∧ ∀ g h, t = .param g → u = .param h →
      (if g.isMethod then scope.methodParams else scope.typeParams)[g.position]? = some h := by
  obtain ⟨u,read,spelled⟩ := readable.readType_text
  refine ⟨u,read,spelled,?_⟩
  rintro g h rfl rfl
  obtain ⟨k,again,at_⟩ := readTypeWithin_param (q := q) home (n := (g.text.toList).length)
    (show Offers scope g from readable _ (mem_parts_self _))
  have same := read.symm.trans again
  cases same
  exact at_

end Program

namespace Document

variable {p s : Program} {home target : ModuleId} {t : TypeId}

def copyScope (p : Program) (home : ModuleId) (m : MethodId) (id : MethodId) : ParamScope :=
  ⟨declare (.type (p.copy home m.owner)) (p.typeAt m.owner).generics,
    declare (.method id) (p.methodAt m).generics⟩

section

variable (legible : Legible p home) (mirrors : Mirrors p home target s) {m : MethodId}
include legible mirrors

theorem readable_in_method (id : MethodId) (formed : p.Formed (p.scopeOf m) v) (clear : p.Clear home v) :
    Readable p s target (copyScope p home m id) v :=
  mirrors.readable legible.orderly.formed.listed formed clear fun _ among =>
    offers_declare _ _ _ _ _ rfl rfl rfl (legible.generics _) (legible.methodGenerics _) among

theorem readType_in_method (id : MethodId) (formed : p.Formed (p.scopeOf m) v) (clear : p.Clear home v) :
    ∃ w, s.readType target (copyScope p home m id) (v.text p).toList = .ok w ∧ w.spelling s = v.spelling p ∧
      w.isVoid s = v.isVoid p := by
  obtain ⟨w,read,spelled,place⟩ := (readable_in_method legible mirrors id formed clear).readType_param
  refine ⟨w,read,spelled,isVoid_congr spelled ?_⟩
  rintro g h rfl rfl
  have at_ := place g h rfl rfl
  rcases mem_append.mp (formed _ (mem_parts_self _)) with ofType | ofMethod
  · obtain ⟨owner,name⟩ := mem_declare.mp ofType
    have method : g.isMethod = false := by rw [isMethod,owner]; rfl
    rw [method,if_neg Bool.false_ne_true,copyScope,getElem?_declare,name] at at_
    cases at_
    rfl
  · obtain ⟨owner,name⟩ := mem_declare.mp ofMethod
    have method : g.isMethod = true := by rw [isMethod,owner]; rfl
    rw [method,if_pos rfl,copyScope,getElem?_declare,name] at at_
    cases at_
    rfl

end

section

variable (legible : Legible p home) (mirrors : Mirrors p home target s) {m : MethodId} (member : m.owner ∈ p.allTypes home)
include legible mirrors member

theorem returns_restored (id : MethodId) (clear : p.Clear home (p.methodAt m).returns) :
    ∃ returns, Returns s target (copyScope p home m id) (p.buildMethod (p.methodAt m)).returns returns ∧
      returns.isVoid s = (p.methodAt m).returns.isVoid p ∧
      ((p.methodAt m).returns.isVoid p = false → returns.spelling s = (p.methodAt m).returns.spelling p) := by
  have text : (p.buildMethod (p.methodAt m)).returns =
      if (p.methodAt m).returns.isVoid p then "" else (p.methodAt m).returns.text p := by
    rw [buildMethod]
    cases (p.methodAt m).body <;> rfl
  rw [text]
  cases void : (p.methodAt m).returns.isVoid p with
  | true => exact ⟨.absent,.inl ⟨rfl,rfl⟩,rfl,fun filled => by cases filled⟩
  | false =>
    have formed : p.Formed (p.scopeOf m) (p.methodAt m).returns := by
      rcases ((legible.orderly.formed.types m.owner (legible.orderly.inside member)).members.methods m rfl).returns with
        absent | formed
      · rw [absent] at void
        cases void
      · exact formed
    obtain ⟨w,read,spelled,same⟩ := readType_in_method legible mirrors id formed clear
    have filled : (p.methodAt m).returns.text p ≠ "" := by
      have some := (readable_in_method legible mirrors id formed clear).tidy.2
      intro empty
      rw [empty] at some
      exact some rfl
    rw [void] at same
    refine ⟨w,.inr ⟨filled,w,read,?_⟩,same,fun _ => spelled⟩
    rw [same,if_neg Bool.false_ne_true]

theorem params_restored (id : MethodId) (clear : ∀ x ∈ (p.methodAt m).params, p.Clear home x.type) :
    ∃ params, Takes s target (copyScope p home m id) ((p.methodAt m).params.map fun x => ⟨x.name,x.type.text p⟩) params ∧
      params.map (fun x => (x.name,x.type.spelling s)) = (p.methodAt m).params.map fun x => (x.name,x.type.spelling p) := by
  have formed := ((legible.orderly.formed.types m.owner (legible.orderly.inside member)).members.methods m rfl).params
  obtain ⟨params,each⟩ := exists_forall₂ (R := fun (x y : Param) => (y.name = x.name ∧
      s.readType target (copyScope p home m id) (x.type.text p).toList = .ok y.type) ∧ y.type.spelling s = x.type.spelling p)
    fun x among => by
      obtain ⟨w,read,spelled,-⟩ := readType_in_method legible mirrors id (formed _ (mem_map_of_mem among)) (clear x among)
      exact ⟨⟨x.name,w⟩,⟨rfl,read⟩,spelled⟩
  exact ⟨params,forall₂_map_left_iff.mpr (each.imp fun _ _ both => both.1),
    map_eq_of_forall₂ (each.imp fun _ _ both => by rw [both.1.1,both.2])⟩

theorem signs_restored (clear : ∀ v ∈ p.methodRefs (p.methodAt m), p.Clear home v) :
    ∃ d, Signs s target ⟨p.copy home m.owner,m.position⟩ (p.buildMethod (p.methodAt m)) d ∧
      MethodAlike p s (p.methodAt m) d := by
  have parts : (p.buildMethod (p.methodAt m)).name = (p.methodAt m).name ∧
      (p.buildMethod (p.methodAt m)).flags = (p.methodAt m).flags.names ∧
      (p.buildMethod (p.methodAt m)).generics = (p.methodAt m).generics ∧
      (p.buildMethod (p.methodAt m)).native = (p.methodAt m).native ∧
      (p.buildMethod (p.methodAt m)).params = (p.methodAt m).params.map fun x => ⟨x.name,x.type.text p⟩ := by
    rw [buildMethod]
    cases (p.methodAt m).body <;> exact ⟨rfl,rfl,rfl,rfl,rfl⟩
  obtain ⟨name,flagNames,generics,native,params⟩ := parts
  obtain ⟨flags,flagsRead,flagsSame⟩ := MethodFlags.read_names "" (p.methodAt m).flags
  let full : MethodFlags := if (p.methodAt m).name = ".ctor" then flags.insert .isSpecialName else flags
  have fullSame : ∀ f, full.has f = (p.methodAt m).flags.has f := by
    intro f
    by_cases named : (p.methodAt m).name = ".ctor"
    · have special := legible.constructors m member named
      simp only [full,if_pos named,MethodFlags.has_insert,flagsSame]
      by_cases same : MethodFlag.isSpecialName = f
      · rw [← same,special]
        rfl
      · simp [same]
    · simp only [full,if_neg named,flagsSame]
  let id : MethodId := ⟨p.copy home m.owner,m.position⟩
  have scope : methodScope s id (p.methodAt m).generics = copyScope p home m id := by
    rw [methodScope,copyScope,typeParams,mirrors.generics _ member]
  obtain ⟨returns,returnsRead,void,spelled⟩ := returns_restored legible mirrors member id (clear _ (.head _))
  obtain ⟨ps,paramsRead,same⟩ := params_restored legible mirrors member id
    fun x among => clear _ (.tail _ (mem_append_left _ (mem_map_of_mem among)))
  rw [← scope] at returnsRead paramsRead
  let d : MethodDecl :=
    { name := (p.methodAt m).name, flags := full, native := (p.methodAt m).native, generics := (p.methodAt m).generics,
      returns := returns, params := ps }
  refine ⟨d,⟨name.symm,⟨flags,by rw [flagNames]; exact flagsRead,by rw [name]⟩,native.symm,generics.symm,?_,?_,rfl⟩,
    rfl,fullSame,rfl,rfl,void,spelled,same⟩
  · rw [generics]
    exact returnsRead
  · rw [generics,params]
    exact paramsRead

end

section

variable (legible : Legible p home) (mirrors : Mirrors p home target s) (member : t ∈ p.allTypes home)
include legible mirrors member

theorem defaultBase_cases : (p.defaultBase home t = .absent ∧ s.defaultBase target (p.copy home t) = .absent) ∨
    ∃ d e, p.defaultBase home t = .decl d ∧ s.defaultBase target (p.copy home t) = .decl e ∧ s.fullName e = p.fullName d := by
  have interface : (s.typeAt (p.copy home t)).isInterface = (p.typeAt t).isInterface := mirrors.flags t member _
  have valueType : (s.typeAt (p.copy home t)).isValueType = (p.typeAt t).isValueType := mirrors.flags t member _
  rw [defaultBase,defaultBase]
  simp only [interface,valueType,mirrors.names t member,mirrors.findType?_eq legible.orderly.formed.listed]
  split
  · exact .inl ⟨rfl,rfl⟩
  · cases found : p.findType? home (if (p.typeAt t).isValueType then "System.ValueType" else "System.Object") with
    | none => exact .inl ⟨rfl,rfl⟩
    | some d => exact .inr ⟨d,p.place home d,rfl,rfl,mirrors.fullName_place (legible.orderly.formed.listed.findType? found)⟩

theorem readType_in_type (formed : p.Formed (p.typeParams t) v) (clear : p.Clear home v) :
    Readable p s target ⟨s.typeParams (p.copy home t),[]⟩ v := by
  refine mirrors.readable legible.orderly.formed.listed formed clear fun g among => ?_
  have offers := offers_declare (p.copy home t) (.reference default) (.reference default) [] [] rfl
    rfl rfl (legible.generics t) (by decide) (mem_append_left _ among)
  rwa [← mirrors.generics t member] at offers

theorem readMemberType_restores (formed : p.Formed (p.typeParams t) v) (clear : p.Clear home v)
    (fault : ReadFault → LinkFault) :
    ∃ w, readMemberType s target (p.copy home t) fault (v.text p) = .ok w ∧ w.spelling s = v.spelling p := by
  obtain ⟨w,read,spelled⟩ := (readType_in_type legible mirrors member formed clear).readType_text
  exact ⟨w,mapError_eq_ok.mpr read,spelled⟩

theorem readBase_restores (clear : p.Clear home (p.typeAt t).base) :
    ∃ base, readBase s target (p.copy home t) (p.baseText home t) = .ok base ∧
      (if base.isAbsent || s.same base (s.defaultBase target (p.copy home t)) then "" else base.text s) =
        p.baseText home t := by
  have cases := defaultBase_cases legible mirrors member
  by_cases omitted : ((p.typeAt t).base.isAbsent || p.same (p.typeAt t).base (p.defaultBase home t)) = true
  · rw [baseText,if_pos omitted]
    refine ⟨s.defaultBase target (p.copy home t),by rw [readBase,if_pos (by decide)],if_pos ?_⟩
    rcases cases with ⟨-,absent⟩ | ⟨d,e,-,copy,-⟩
    · rw [absent]
      rfl
    · rw [copy,same_decl_iff_spelling.mpr rfl,Bool.or_true]
  · have text : p.baseText home t = (p.typeAt t).base.text p := by rw [baseText,if_neg omitted]
    simp only [Bool.or_eq_true,not_or,Bool.not_eq_true] at omitted
    obtain ⟨present,different⟩ := omitted
    have formed : p.Formed (p.typeParams t) (p.typeAt t).base := by
      rcases (legible.orderly.formed.types t (legible.orderly.inside member)).members.base with absent | formed
      · rw [absent] at present
        cases present
      · exact formed
    have filled : (p.typeAt t).base.text p ≠ "" := by
      have some := (readType_in_type legible mirrors member formed clear).tidy.2
      intro empty
      rw [empty] at some
      exact some rfl
    obtain ⟨w,read,spelled⟩ := readMemberType_restores legible mirrors member formed clear .base
    refine ⟨w,by rw [text,readBase,if_neg (by simpa using filled),read],?_⟩
    rw [text,if_neg,text_congr spelled]
    rw [isAbsent_congr spelled,present,Bool.false_or]
    rcases cases with ⟨-,absent⟩ | ⟨d,e,original,copy,names⟩
    · rw [absent]
      have shown : w.isAbsent = false := (isAbsent_congr spelled).trans present
      cases w with
      | absent => cases shown
      | _ => simp [same]
    · rw [copy,same_decl_iff_spelling,spelled,names,← same_decl_iff_spelling,← original,different]
      exact Bool.false_ne_true

theorem readAttribute_restores {a : Attribute} (among : a ∈ (p.typeAt t).attributes)
    (clear : p.Clear home (.decl a.type)) (argsClear : ∀ v, .type v ∈ a.args → p.Clear home v) (site : String) :
    ∃ b, readAttribute s target site ⟨p.fullName a.type,a.args.map (·.written p)⟩ = .ok b ∧
      (⟨s.fullName b.type,b.args.map (·.written s)⟩ : AttributeDoc) = ⟨p.fullName a.type,a.args.map (·.written p)⟩ := by
  obtain ⟨inside,formed⟩ :=
    (legible.orderly.formed.types t (legible.orderly.inside member)).members.attributes a among
  have named : s.readTypeName target (p.fullName a.type).toList = .ok (p.place home a.type) := by
    have title := clear.titled _ (mem_parts_self _) a.type rfl
    rw [readTypeName,title.tidy.trimmed.trim_eq,String.ofList_toList,
      mirrors.findType?_eq legible.orderly.formed.listed,clear.found.element rfl]
    rfl
  obtain ⟨args,each⟩ := exists_forall₂ (R := fun (a b : AttributeArg) =>
      s.readAttributeArg target (a.written p) = .ok b ∧ b.written s = a.written p) fun x present => by
    have readable : ArgReadable p s target x := by
      cases x with
      | type v => exact mirrors.readable legible.orderly.formed.listed (formed v present) (argsClear v present) (forall_mem_nil _)
      | int n => exact legible.numbers t member a among n present
      | _ => trivial
    exact readable.readAttributeArg_written
  refine ⟨⟨p.place home a.type,args⟩,?_,?_⟩
  · rw [readAttribute]
    refine bind_eq_ok.mpr ⟨_,mapError_eq_ok.mpr named,bind_eq_ok.mpr ⟨args,?_,rfl⟩⟩
    exact mapM_eq_ok.mpr (forall₂_map_left_iff.mpr (each.imp fun _ _ both => mapError_eq_ok.mpr both.1))
  · rw [mirrors.fullName_place inside,map_eq_of_forall₂ (each.imp fun _ _ both => both.2)]

end

structure TypeMembers.Written (members : TypeMembers) (p : Program) (home target : ModuleId) (s : Program) (t : TypeId) :
    Prop where
  base : (if members.base.isAbsent || s.same members.base (s.defaultBase target (p.copy home t)) then ""
    else members.base.text s) = p.baseText home t
  interfaces : members.interfaces.map (·.spelling s) = (p.typeAt t).interfaces.map (·.spelling p)
  attributes : (members.attributes.map fun a => (⟨s.fullName a.type,a.args.map (·.written s)⟩ : AttributeDoc)) =
    (p.typeAt t).attributes.map fun a => ⟨p.fullName a.type,a.args.map (·.written p)⟩
  fields : (members.fields.map fun f => (f.name,f.type.spelling s,f.isStatic)) =
    (p.typeAt t).fields.map fun f => (f.name,f.type.spelling p,f.isStatic)

/-- The members of a copy are written as those of its original, apart from the bodies of its methods. -/
structure Restored (p : Program) (home target : ModuleId) (s : Program) (t : TypeId) : Prop where
  base : s.baseText target (p.copy home t) = p.baseText home t
  interfaces : (s.typeAt (p.copy home t)).interfaces.map (·.spelling s) = (p.typeAt t).interfaces.map (·.spelling p)
  attributes : ((s.typeAt (p.copy home t)).attributes.map fun a =>
    (⟨s.fullName a.type,a.args.map (·.written s)⟩ : AttributeDoc)) =
      (p.typeAt t).attributes.map fun a => ⟨p.fullName a.type,a.args.map (·.written p)⟩
  fields : ((s.typeAt (p.copy home t)).fields.map fun f => (f.name,f.type.spelling s,f.isStatic)) =
    (p.typeAt t).fields.map fun f => (f.name,f.type.spelling p,f.isStatic)
  methods : List.Forall₂ (MethodAlike p s) (p.typeAt t).methods (s.typeAt (p.copy home t)).methods

theorem baseText_of_agree {u : TypeId} (agree : Agree header s q) (modules : q.modules = s.modules) :
    q.baseText target u = if (q.typeAt u).base.isAbsent || s.same (q.typeAt u).base (s.defaultBase target u) then ""
      else (q.typeAt u).base.text s := by
  have default : q.defaultBase target u = s.defaultBase target u := by
    have flags : (q.typeAt u).flags = (s.typeAt u).flags := (agree.map TypeDecl.flags).view_eq u
    rw [defaultBase,defaultBase,isInterface,isInterface,isValueType,isValueType,flags,agree.fullName_eq]
    simp only [agree.findType?_eq modules]
  rw [baseText,default,agree.same_eq,text_of_names agree.fullName_eq]

theorem Restored.keep (restored : Restored p home target s t) (agree : Agree header s q) (modules : q.modules = s.modules)
    (same : (q.typeAt (p.copy home t)).signature = (s.typeAt (p.copy home t)).signature) : Restored p home target q t where
  base := by
    have same : (q.typeAt (p.copy home t)).base = (s.typeAt (p.copy home t)).base := congrArg (fun d => d.base) same
    rw [baseText_of_agree agree modules,same]
    exact restored.base
  interfaces := by
    have same : (q.typeAt (p.copy home t)).interfaces = (s.typeAt (p.copy home t)).interfaces :=
      congrArg (fun d => d.interfaces) same
    rw [same]
    simp only [spelling_of_names agree.fullName_eq]
    exact restored.interfaces
  attributes := by
    have same : (q.typeAt (p.copy home t)).attributes = (s.typeAt (p.copy home t)).attributes :=
      congrArg (fun d => d.attributes) same
    rw [same,agree.fullName_eq]
    simp only [AttributeArg.written_of_names agree.fullName_eq]
    exact restored.attributes
  fields := by
    have same : (q.typeAt (p.copy home t)).fields = (s.typeAt (p.copy home t)).fields := congrArg (fun d => d.fields) same
    rw [same]
    simp only [spelling_of_names agree.fullName_eq]
    exact restored.fields
  methods := by
    have methods : (q.typeAt (p.copy home t)).methods.map signature =
        (s.typeAt (p.copy home t)).methods.map signature := congrArg (fun d => d.methods) same
    have before : Forall₂ (MethodAlike p q) (p.typeAt t).methods
        ((s.typeAt (p.copy home t)).methods.map signature) :=
      forall₂_map_right_iff.mpr (restored.methods.imp fun _ _ alike =>
        MethodAlike.signature_iff.mpr (alike.of_names agree.fullName_eq))
    rw [← methods] at before
    exact (forall₂_map_right_iff.mp before).imp fun _ _ alike => MethodAlike.signature_iff.mp alike

section

variable (legible : Legible p home) (mirrors : Mirrors p home target s) (member : t ∈ p.allTypes home)
include legible mirrors member

theorem readMembers_restores (entered : p.Entered home t doc) :
    ∃ members, readMembers s target (p.copy home t) doc = .ok members ∧ members.Written p home target s t := by
  have clear := legible.clear t member
  have formed := (legible.orderly.formed.types t (legible.orderly.inside member)).members
  obtain ⟨base,baseRead,baseSame⟩ := readBase_restores legible mirrors member (clear _ (by simp [typeRefs]))
  obtain ⟨interfaces,interfacesRead⟩ := exists_forall₂ fun i among =>
    readMemberType_restores legible mirrors member (formed.interfaces i among)
      (clear i (by simp [typeRefs,among])) .interface
  obtain ⟨attributes,attributesRead⟩ := exists_forall₂ fun a among =>
    readAttribute_restores legible mirrors member among
      (clear _ (by simp only [typeRefs,mem_append,mem_flatMap]; exact .inl (.inr ⟨a,among,.head _⟩)))
      (fun v present => clear v (by
        simp only [typeRefs,mem_append,mem_flatMap]
        refine .inl (.inr ⟨a,among,.tail _ (mem_filterMap.mpr ⟨_,present,rfl⟩)⟩)))
      (s.fullName (p.copy home t))
  obtain ⟨fields,fieldsRead⟩ := exists_forall₂ (R := fun (f g : FieldDecl) =>
      (readMemberType s target (p.copy home t) (.field f.name) (f.type.text p) = .ok g.type ∧ g.name = f.name ∧
        g.isStatic = f.isStatic) ∧ g.type.spelling s = f.type.spelling p) fun f among => by
    obtain ⟨w,read,spelled⟩ := readMemberType_restores legible mirrors member (formed.fields f among)
      (clear f.type (by simp only [typeRefs,mem_append]; exact .inl (.inl (.inr (mem_map_of_mem among)))))
      (.field f.name)
    exact ⟨⟨f.name,w,f.isStatic⟩,⟨read,rfl,rfl⟩,spelled⟩
  refine ⟨⟨base,interfaces,attributes,fields⟩,?_,baseSame,map_eq_of_forall₂ (interfacesRead.imp fun _ _ both => both.2),
    map_eq_of_forall₂ (attributesRead.imp fun _ _ both => both.2),map_eq_of_forall₂ (fieldsRead.imp fun _ _ both => ?_)⟩
  · rw [readMembers,entered.base,entered.interfaces,entered.attributes,entered.fields]
    refine bind_eq_ok.mpr ⟨base,baseRead,?_⟩
    refine bind_eq_ok.mpr ⟨interfaces,mapM_eq_ok.mpr (forall₂_map_left_iff.mpr
      (interfacesRead.imp fun _ _ both => both.1)),?_⟩
    refine bind_eq_ok.mpr ⟨attributes,mapM_eq_ok.mpr (forall₂_map_left_iff.mpr
      (attributesRead.imp fun _ _ both => both.1)),?_⟩
    refine bind_eq_ok.mpr ⟨fields,mapM_eq_ok.mpr (forall₂_map_left_iff.mpr (fieldsRead.imp fun f g both => ?_)),rfl⟩
    obtain ⟨⟨read,name,static⟩,-⟩ := both
    refine bind_eq_ok.mpr ⟨g.type,read,?_⟩
    cases g
    cases name
    cases static
    rfl
  · obtain ⟨⟨-,name,static⟩,spelled⟩ := both
    rw [name,static,spelled]

omit mirrors member in
theorem clear_method (member : t ∈ p.allTypes home) {m : MethodId} (among : m ∈ p.methodsOf t) :
    ∀ v ∈ p.methodRefs (p.methodAt m), p.Clear home v := by
  intro v present
  refine legible.clear t member v ?_
  obtain ⟨rfl,within⟩ := mem_methodsOf.mp among
  have method : p.methodAt m ∈ (p.typeAt m.owner).methods :=
    mem_of_getElem? (getElem?_methodAt within)
  simp only [typeRefs,mem_append,mem_flatMap]
  exact .inr ⟨_,method,present⟩

end

theorem restored_of_members {members : TypeMembers} {ds : List MethodDecl} (agree : Agree header s q)
    (modules : q.modules = s.modules)
    (here : q.typeAt (p.copy home t) = { members.onto (s.typeAt (p.copy home t)) with methods := ds })
    (written : members.Written p home target s t)
    (methods : Forall₂ (fun m d => MethodAlike p s (p.methodAt m) d) (p.methodsOf t) ds) :
    Restored p home target q t := by
  have names := agree.fullName_eq
  constructor
  · rw [baseText_of_agree agree modules,here]
    exact written.base
  · rw [here]
    simp only [spelling_of_names names]
    exact written.interfaces
  · rw [here]
    simp only [AttributeArg.written_of_names names,names]
    exact written.attributes
  · rw [here]
    simp only [spelling_of_names names]
    exact written.fields
  · rw [here,← p.methods_eq t]
    exact forall₂_map_left_iff.mpr (methods.imp fun _ _ alike => alike.of_names names)

theorem tells_restored (legible : Legible p home) (mirrors : Mirrors p home target s) (member : t ∈ p.allTypes home)
    {pd : PendingType} (id : pd.id = p.copy home t) (entered : p.Entered home t pd.doc) :
    ∃ (members : TypeMembers) (ds : List MethodDecl),
      Tells s target pd { members.onto (s.typeAt (p.copy home t)) with methods := ds } ∧
      members.Written p home target s t ∧ Forall₂ (fun m d => MethodAlike p s (p.methodAt m) d) (p.methodsOf t) ds := by
  obtain ⟨members,read,written⟩ := readMembers_restores legible mirrors member entered
  obtain ⟨ds,each⟩ := exists_forall₂ (R := fun m d =>
      Signs s target ⟨p.copy home t,m.position⟩ (p.buildMethod (p.methodAt m)) d ∧ MethodAlike p s (p.methodAt m) d)
    fun m (among : m ∈ p.methodsOf t) => by
    obtain ⟨rfl,-⟩ := mem_methodsOf.mp among
    exact signs_restored legible mirrors member (clear_method legible member among)
  refine ⟨members,ds,⟨⟨members,by rw [id]; exact read,by rw [id]⟩,?_⟩,written,each.imp fun _ _ both => both.2⟩
  rw [entered.zipIdx_methods,id]
  exact forall₂_map_left_iff.mpr (each.imp fun _ _ both => both.1)

/-- The copies of all types have their members back. -/
structure Revived (p : Program) (home target : ModuleId) (s : Program) : Prop where
  mirrors : Mirrors p home target s
  restored : ∀ t ∈ p.allTypes home, Restored p home target s t

theorem members_read {b r : Program} {pending : List PendingType} (legible : Legible p home) (mirrors : Mirrors p home target r)
    (sketched : Sketched target b r pending)
    (each : Forall₂ (fun t pd => pd.id = p.copy home t ∧ p.Entered home t pd.doc) (p.allTypes home) pending) :
    ∃ s, (pending.mapM (declareMembers target)).run r = .ok (pending.map PendingType.methods,s) ∧
      Populated r target pending s ∧ Revived p home target s := by
  obtain ⟨s,ran⟩ := exists_populated sketched.blank_methods sketched.nodup_ids fun pd among => by
    obtain ⟨t,member,id,entered⟩ := left_of_forall₂ each among
    obtain ⟨members,ds,tells,-⟩ := tells_restored legible mirrors member id entered
    exact ⟨_,tells⟩
  obtain ⟨-,populated⟩ := populated_of_run sketched.blank_methods sketched.nodup_ids ran
  refine ⟨s,ran,populated,mirrors.keep populated.agree populated.modules_eq fun t old => ?_,fun t member => ?_⟩
  · refine populated.others t fun among => ?_
    obtain ⟨pd,member,rfl⟩ := mem_map.mp among
    obtain ⟨u,-,id,-⟩ := left_of_forall₂ each member
    rw [id] at old
    exact absurd old (Nat.not_lt_of_le (Nat.le_add_right _ _))
  · obtain ⟨pd,among,id,entered⟩ := right_of_forall₂ each member
    obtain ⟨members,ds,tells,written,methods⟩ := tells_restored legible mirrors member id entered
    have same := (populated.told pd among).unique tells
    rw [id] at same
    exact restored_of_members populated.agree populated.modules_eq same written methods

end Document
end Loom
