import Loom.Proofs.Skeleton

/-!
What a document says about the members of its types. They are read in a skeleton that does not change any more, so the
members of each type can be told from the skeleton alone, whatever has been declared before.
-/
namespace Loom

open Linkage List Program
open Loom.Except (bind_eq_ok mapError_eq_ok mapM_eq_ok)

variable {doc : MethodDoc} {pending : PendingType} {d : TypeDecl}

namespace TypeRef

variable {p q : Program}

theorem isVoid_of_names (names : q.fullName = p.fullName) (t : TypeRef) : t.isVoid q = t.isVoid p := by
  cases t <;> first | rfl | (rw [isVoid,isVoid,fullName_ref_congr fun _ _ d _ => congrFun names d] <;> rintro ⟨⟩)

end TypeRef

theorem Program.Agree.findType?_eq {p q : Program} (agree : Agree TypeDecl.header p q) (modules : q.modules = p.modules)
    (home : ModuleId) (name : String) : q.findType? home name = p.findType? home name := by
  have own : ∀ h, q.findOwnType? h name = p.findOwnType? h name := fun h => by
    rw [findOwnType?,findOwnType?,agree.allTypes_eq modules,agree.fullName_eq]
  rw [findType?,findType?,own,funext own,moduleAt,modules]
  rfl

namespace Program

variable {p q : Program} (agree : Agree TypeDecl.header p q) (modules : q.modules = p.modules) (home : ModuleId)
include agree

theorem Agree.applyType_eq (t : TypeId) (args : List TypeRef) : q.applyType t args = p.applyType t args := by
  rw [applyType,applyType,agree.generics_eq,agree.fullName_eq]

theorem Agree.typeParams_eq (t : TypeId) : q.typeParams t = p.typeParams t := typeParams_congr (agree.generics_eq t)

include modules

theorem Agree.readTypeName_eq (text : List Char) : q.readTypeName home text = p.readTypeName home text := by
  rw [readTypeName,readTypeName,agree.findType?_eq modules]

theorem Agree.readTypeWithin_eq (scope : ParamScope) (n : Nat) (text : List Char) :
    q.readTypeWithin home scope n text = p.readTypeWithin home scope n text := by
  induction n generalizing text with
  | zero => rfl
  | succ n ih =>
    simp only [readTypeWithin,agree.findType?_eq modules,agree.readTypeName_eq modules,agree.fullName_eq,
      agree.applyType_eq,funext ih]

theorem Agree.readType_eq (scope : ParamScope) (text : List Char) : q.readType home scope text = p.readType home scope text :=
  agree.readTypeWithin_eq modules home scope _ text

theorem Agree.readAttributeArg_eq (s : String) : q.readAttributeArg home s = p.readAttributeArg home s := by
  simp only [readAttributeArg,agree.readType_eq modules]

theorem Agree.defaultBase_eq (t : TypeId) : q.defaultBase home t = p.defaultBase home t := by
  have flags : (q.typeAt t).flags = (p.typeAt t).flags := (agree.map TypeDecl.flags).view_eq t
  rw [defaultBase,defaultBase,TypeDecl.isInterface,TypeDecl.isInterface,TypeDecl.isValueType,TypeDecl.isValueType,
    flags,agree.fullName_eq]
  simp only [agree.findType?_eq modules]

theorem Agree.readMembers_eq (t : TypeId) (doc : TypeDoc) :
    Document.readMembers q home t doc = Document.readMembers p home t doc := by
  have attributes : Document.readAttribute q home = Document.readAttribute p home := by
    funext site doc
    simp only [Document.readAttribute,agree.readTypeName_eq modules,agree.readAttributeArg_eq modules]
  have types : Document.readMemberType q home t = Document.readMemberType p home t := by
    funext fault text
    rw [Document.readMemberType,Document.readMemberType,agree.readType_eq modules,agree.typeParams_eq,agree.fullName_eq]
  simp only [Document.readMembers,Document.readBase,agree.defaultBase_eq modules,types,agree.fullName_eq,attributes]

end Program

namespace Program

variable {s : Program} {u : TypeId}

theorem modifyMethod_addMethod (d : MethodDecl) (f : MethodDecl → MethodDecl) :
    (s.addMethod u d).2.modifyMethod (s.addMethod u d).1 f = (s.addMethod u (f d)).2 := by
  rw [modifyMethod]
  show ((s.modifyType u _).modifyType u _) = s.modifyType u _
  rw [modifyType_modifyType]
  refine modifyType_congr ?_
  show { s.typeAt u with methods := ((s.typeAt u).methods ++ [d]).modify (s.typeAt u).methods.length f } = _
  rw [modify_concat]

theorem agree_addMethod (d : MethodDecl) : Agree TypeDecl.header s (s.addMethod u d).2 := .modifyType fun _ => rfl

end Program

namespace Document

variable {p q b s : Program} {home : ModuleId} {t : TypeId}

theorem foldlM_eq_ok_congr {ε α σ : Type} {f g : σ → α → Except ε σ} {r : σ}
    (alike : ∀ s a s', f s a = .ok s' ↔ g s a = .ok s') {xs : List α} {s : σ} :
    xs.foldlM f s = .ok r ↔ xs.foldlM g s = .ok r := by
  induction xs generalizing s with
  | nil => exact .rfl
  | cons a rest ih =>
    rw [foldlM_cons,foldlM_cons,bind_eq_ok,bind_eq_ok]
    simp only [alike,ih]

theorem readMethodFlags_site (site other : String) {names : List String} {flags : MethodFlags} :
    readMethodFlags site names = .ok flags ↔ readMethodFlags other names = .ok flags := by
  refine foldlM_eq_ok_congr fun flags name flags' => ?_
  cases MethodFlag.ofName? name with
  | none => simp
  | some f => exact .rfl

def methodScope (p : Program) (id : MethodId) (generics : List String) : ParamScope :=
  ⟨p.typeParams id.owner,GenericParam.declare (.method id) generics⟩

def Returns (p : Program) (home : ModuleId) (scope : ParamScope) (text : String) (t : TypeRef) : Prop :=
  (text = "" ∧ t = .absent) ∨
    (text ≠ "" ∧ ∃ u, p.readType home scope text.toList = .ok u ∧ t = if u.isVoid p then .absent else u)

def Takes (p : Program) (home : ModuleId) (scope : ParamScope) (docs : List ParamDoc) (params : List Param) : Prop :=
  List.Forall₂ (fun x y => y.name = x.name ∧ p.readType home scope x.type.toList = .ok y.type) docs params

/-- The declaration that a document gives a method, as it is read in a program. -/
structure Signs (p : Program) (home : ModuleId) (id : MethodId) (doc : MethodDoc) (d : MethodDecl) : Prop where
  name : d.name = doc.name
  flags : ∃ flags, readMethodFlags "" doc.flags = .ok flags ∧
    d.flags = if doc.name = ".ctor" then flags.insert .isSpecialName else flags
  native : d.native = doc.native
  generics : d.generics = doc.generics
  returns : Returns p home (methodScope p id doc.generics) doc.returns d.returns
  params : Takes p home (methodScope p id doc.generics) doc.params d.params
  body : d.body = none

theorem Signs.unique {id : MethodId} {d e : MethodDecl} (first : Signs p home id doc d)
    (second : Signs p home id doc e) : d = e := by
  have flags : d.flags = e.flags := by
    obtain ⟨fs,read,same⟩ := first.flags
    obtain ⟨gs,again,same'⟩ := second.flags
    rw [read] at again
    cases again
    rw [same,same']
  have returns : d.returns = e.returns := by
    rcases first.returns with ⟨blank,same⟩ | ⟨filled,u,read,same⟩
    · rcases second.returns with ⟨-,same'⟩ | ⟨filled,-⟩
      · rw [same,same']
      · exact absurd blank filled
    · rcases second.returns with ⟨blank,-⟩ | ⟨-,v,again,same'⟩
      · exact absurd blank filled
      · rw [read] at again
        cases again
        rw [same,same']
  have params : d.params = e.params := by
    refine right_unique_forall₂' ?_ first.params second.params
    rintro x ⟨name,type⟩ ⟨name',type'⟩ ⟨named,read⟩ ⟨named',read'⟩
    rw [read] at read'
    cases read'
    cases named
    cases named'
    rfl
  obtain ⟨name,-,native,generics,-,-,body⟩ := first
  obtain ⟨name',-,native',generics',-,-,body'⟩ := second
  cases d
  cases e
  simp_all

section

variable (agree : Agree TypeDecl.header b s) (modules : s.modules = b.modules) {scope : ParamScope} {d : MethodDecl}
include agree modules

theorem declareReturns_iff {text : String} (empty : d.returns = .absent) :
    (declareReturns home ⟨t,(s.typeAt t).methods.length⟩ scope text).run (s.addMethod t d).2 = .ok (⟨⟩,q) ↔
      ∃ returns, Returns b home scope text returns ∧ q = (s.addMethod t { d with returns }).2 := by
  have agree := agree.trans (agree_addMethod (u := t) d)
  have same : { d with returns := .absent } = d := by cases d; cases empty; rfl
  rw [declareReturns]
  by_cases blank : text = ""
  · rw [if_pos (by simpa using blank),run_pure_eq_ok]
    simpa [Returns,blank,same] using eq_comm
  · have chosen : (∃ returns, Returns b home scope text returns ∧ q = (s.addMethod t { d with returns }).2) ↔
        ∃ u, b.readType home scope text.toList = .ok u ∧
          q = (s.addMethod t { d with returns := if u.isVoid b then .absent else u }).2 := by
      simp [Returns,blank]
    rw [if_neg (by simpa using blank),run_get_bind,run_lift_bind_eq_ok,chosen]
    refine exists_congr fun u => ?_
    rw [mapError_eq_ok,agree.readType_eq modules,TypeRef.isVoid_of_names agree.fullName_eq]
    refine and_congr_right fun _ => ?_
    split
    · rw [run_pure_eq_ok,same]
      simp [eq_comm]
    · exact run_modify_eq_ok.trans ((Eq.congr_left (modifyMethod_addMethod d _)).trans eq_comm)

theorem declareParams_iff {docs : List ParamDoc} :
    (docs.forM (declareParam home ⟨t,(s.typeAt t).methods.length⟩ scope)).run (s.addMethod t d).2 = .ok (⟨⟩,q) ↔
      ∃ params, Takes b home scope docs params ∧ q = (s.addMethod t { d with params := d.params ++ params }).2 := by
  induction docs generalizing d with
  | nil =>
    refine run_pure_eq_ok.trans ?_
    simp [Takes,eq_comm]
  | cons x rest ih =>
    have agree := agree.trans (agree_addMethod (u := t) d)
    have first : ∀ {q'}, (declareParam home ⟨t,(s.typeAt t).methods.length⟩ scope x).run (s.addMethod t d).2 = .ok (⟨⟩,q') ↔
        ∃ type, b.readType home scope x.type.toList = .ok type ∧
          q' = (s.addMethod t { d with params := d.params ++ [⟨x.name,type⟩] }).2 := by
      intro q'
      rw [declareParam,run_get_bind,run_lift_bind_eq_ok]
      refine exists_congr fun type => ?_
      rw [mapError_eq_ok,agree.readType_eq modules]
      exact and_congr_right fun _ => run_modify_eq_ok.trans ((Eq.congr_left (modifyMethod_addMethod d _)).trans eq_comm)
    rw [run_forM_cons_eq_ok]
    simp only [first]
    constructor
    · rintro ⟨_,⟨type,read,rfl⟩,restRun⟩
      obtain ⟨params,takes,rfl⟩ := ih.mp restRun
      exact ⟨⟨x.name,type⟩ :: params,.cons ⟨rfl,read⟩ takes,by simp⟩
    · rintro ⟨params,takes,rfl⟩
      obtain ⟨⟨_,type⟩,others,⟨rfl,read⟩,later,rfl⟩ := forall₂_cons_left_iff.mp takes
      exact ⟨_,⟨type,read,rfl⟩,ih.mpr ⟨others,later,by simp⟩⟩

theorem declareMethod_iff (inside : t.index < s.types.size) {pending : PendingMethod} :
    (declareMethod home t doc).run s = .ok (pending,q) ↔
      ∃ d, Signs b home ⟨t,(s.typeAt t).methods.length⟩ doc d ∧ pending = ⟨doc,⟨t,(s.typeAt t).methods.length⟩⟩ ∧
        q = (s.addMethod t d).2 := by
  have scope (d : MethodDecl) (generics : d.generics = doc.generics) :
      (⟨(s.addMethod t d).2.typeParams t,(s.addMethod t d).2.methodParams (s.addMethod t d).1⟩ : ParamScope) =
        methodScope b ⟨t,(s.typeAt t).methods.length⟩ doc.generics := by
    rw [methodParams,methodAt_addMethod_new d inside,generics,
      (agree.trans (agree_addMethod d)).typeParams_eq]
    rfl
  let draft (flags : MethodFlags) : MethodDecl :=
    { name := doc.name, flags := if doc.name = ".ctor" then flags.insert .isSpecialName else flags, native := doc.native,
      generics := doc.generics }
  rw [declareMethod,run_get_bind]
  constructor
  · intro done
    obtain ⟨flags,flagsRead,done⟩ := run_lift_bind_eq_ok.mp done
    obtain ⟨id,s1,added,done⟩ := run_bind_eq_ok.mp done
    have pair := run_modifyGet_eq_ok.mp added
    obtain rfl : (s.addMethod t (draft flags)).1 = id := congrArg Prod.fst pair
    obtain rfl : (s.addMethod t (draft flags)).2 = s1 := congrArg Prod.snd pair
    rw [run_get_bind] at done
    obtain ⟨_,s2,returnsRun,done⟩ := run_bind_eq_ok.mp done
    obtain ⟨_,s3,paramsRun,done⟩ := run_bind_eq_ok.mp done
    obtain ⟨rfl,rfl⟩ := run_pure_eq_ok.mp done
    rw [scope (draft flags) rfl] at returnsRun paramsRun
    obtain ⟨returns,returned,rfl⟩ := (declareReturns_iff agree modules (d := draft flags) rfl).mp returnsRun
    obtain ⟨params,taken,rfl⟩ := (declareParams_iff agree modules (d := { draft flags with returns })).mp paramsRun
    exact ⟨_,⟨rfl,⟨flags,(readMethodFlags_site _ _).mp flagsRead,rfl⟩,rfl,rfl,returned,taken,rfl⟩,rfl,rfl⟩
  · rintro ⟨⟨_,_,returns,_,_,_,_⟩,⟨rfl,⟨flags,read,rfl⟩,rfl,rfl,returned,taken,rfl⟩,rfl,rfl⟩
    refine run_lift_bind_eq_ok.mpr ⟨flags,(readMethodFlags_site _ _).mp read,?_⟩
    refine run_bind_eq_ok.mpr ⟨(s.addMethod t (draft flags)).1,(s.addMethod t (draft flags)).2,run_modifyGet_eq_ok.mpr rfl,?_⟩
    rw [run_get_bind]
    simp only [scope (draft flags) rfl]
    refine run_bind_eq_ok.mpr ⟨⟨⟩,_,(declareReturns_iff agree modules (d := draft flags) rfl).mpr ⟨_,returned,rfl⟩,?_⟩
    exact run_bind_eq_ok.mpr ⟨⟨⟩,_,
      (declareParams_iff agree modules (d := { draft flags with returns })).mpr ⟨_,taken,rfl⟩,run_pure_eq_ok.mpr ⟨rfl,rfl⟩⟩

theorem declareMethods_iff (inside : t.index < s.types.size) {docs : List MethodDoc} {pending : List PendingMethod} :
    (docs.mapM (declareMethod home t)).run s = .ok (pending,q) ↔
      ∃ ds, Forall₂ (fun x d => Signs b home ⟨t,x.2⟩ x.1 d) (docs.zipIdx (s.typeAt t).methods.length) ds ∧
        pending = (docs.zipIdx (s.typeAt t).methods.length).map (fun x => ⟨x.1,⟨t,x.2⟩⟩) ∧
        q = s.modifyType t fun d => { d with methods := d.methods ++ ds } := by
  induction docs generalizing s pending with
  | nil =>
    have same : (s.modifyType t fun d => { d with methods := d.methods ++ [] }) = s :=
      modifyType_eq_self (by rw [append_nil])
    rw [mapM_nil,run_pure_eq_ok]
    simp only [zipIdx_nil,forall₂_nil_left_iff,exists_eq_left,map_nil,same]
    exact and_congr eq_comm eq_comm
  | cons doc rest ih =>
    have length (d : MethodDecl) : ((s.addMethod t d).2.typeAt t).methods.length = (s.typeAt t).methods.length + 1 := by
      rw [addMethod,typeAt_modifyType_self inside,length_append,length_singleton]
    have state (d : MethodDecl) (ds : List MethodDecl) :
        ((s.addMethod t d).2.modifyType t fun e => { e with methods := e.methods ++ ds }) =
          s.modifyType t fun e => { e with methods := e.methods ++ d :: ds } := by
      rw [addMethod,modifyType_modifyType]
      simp only [append_assoc,singleton_append]
    have later (d : MethodDecl) {others : List PendingMethod} :
        (rest.mapM (declareMethod home t)).run (s.addMethod t d).2 = .ok (others,q) ↔ _ :=
      ih (agree.trans (agree_addMethod d)) modules (by rw [addMethod]; simpa using inside)
    simp only [length,state] at later
    rw [zipIdx_cons]
    constructor
    · intro done
      obtain ⟨m,s',others,first,rest,rfl⟩ := run_mapM_cons_eq_ok.mp done
      obtain ⟨d,signs,rfl,rfl⟩ := (declareMethod_iff agree modules inside).mp first
      obtain ⟨ds,each,rfl,rfl⟩ := (later d).mp rest
      exact ⟨d :: ds,.cons signs each,rfl,rfl⟩
    · rintro ⟨ds,each,rfl,rfl⟩
      obtain ⟨d,ds,signs,others,rfl⟩ := forall₂_cons_left_iff.mp each
      exact run_mapM_cons_eq_ok.mpr ⟨_,_,_,(declareMethod_iff agree modules inside).mpr ⟨d,signs,rfl,rfl⟩,
        (later d).mpr ⟨ds,others,rfl,rfl⟩,rfl⟩

end

def TypeMembers.onto (members : TypeMembers) (d : TypeDecl) : TypeDecl :=
  { d with
    base := members.base
    interfaces := members.interfaces
    attributes := members.attributes
    fields := members.fields }

theorem readMembers_eq_ok {doc : TypeDoc} {members : TypeMembers} : readMembers p home t doc = .ok members ↔
    readBase p home t doc.base = .ok members.base ∧
    Forall₂ (fun text u => p.readType home ⟨p.typeParams t,[]⟩ text.toList = .ok u) doc.interfaces members.interfaces ∧
    Forall₂ (fun x a => readAttribute p home (p.fullName t) x = .ok a) doc.attributes members.attributes ∧
    Forall₂ (fun x f => f.name = x.name ∧ p.readType home ⟨p.typeParams t,[]⟩ x.type.toList = .ok f.type ∧
      f.isStatic = x.isStatic) doc.fields members.fields := by
  have field (x : FieldDoc) (f : FieldDecl) : (∃ u, p.readType home ⟨p.typeParams t,[]⟩ x.type.toList = .ok u ∧
      (pure { name := x.name, type := u, isStatic := x.isStatic } : Except Failure FieldDecl) = .ok f) ↔
      f.name = x.name ∧ p.readType home ⟨p.typeParams t,[]⟩ x.type.toList = .ok f.type ∧ f.isStatic = x.isStatic := by
    constructor
    · rintro ⟨type,read,⟨⟩⟩
      exact ⟨rfl,read,rfl⟩
    · obtain ⟨name,type,static⟩ := f
      rintro ⟨rfl,read,rfl⟩
      exact ⟨type,read,rfl⟩
  simp only [readMembers,bind_eq_ok,mapM_eq_ok,readMemberType,mapError_eq_ok,field]
  constructor
  · rintro ⟨_,base,_,interfaces,_,attributes,_,fields,⟨⟩⟩
    exact ⟨base,interfaces,attributes,fields⟩
  · rintro ⟨base,interfaces,attributes,fields⟩
    exact ⟨_,base,_,interfaces,_,attributes,_,fields,rfl⟩

/-- The declaration that a document gives a type of the skeleton. -/
structure Tells (p : Program) (home : ModuleId) (pending : PendingType) (d : TypeDecl) : Prop where
  members : ∃ members, readMembers p home pending.id pending.doc = .ok members ∧
    d = { members.onto (p.typeAt pending.id) with methods := d.methods }
  methods : List.Forall₂ (fun x m => Signs p home ⟨pending.id,x.2⟩ x.1 m) pending.doc.methods.zipIdx d.methods

/-- The methods that a document gives a type, which wait for their bodies. -/
def PendingType.methods (pending : PendingType) : List PendingMethod :=
  pending.doc.methods.zipIdx.map fun x => ⟨x.1,⟨pending.id,x.2⟩⟩

theorem Tells.unique {e : TypeDecl} (first : Tells p home pending d) (second : Tells p home pending e) : d = e := by
  obtain ⟨members,read,same⟩ := first.members
  obtain ⟨others,again,same'⟩ := second.members
  rw [read] at again
  cases again
  have methods : d.methods = e.methods :=
    right_unique_forall₂' (fun _ _ _ signs signs' => signs.unique signs') first.methods second.methods
  rw [same,same',methods]

theorem Tells.header (tells : Tells p home pending d) : d.header = (p.typeAt pending.id).header := by
  obtain ⟨members,-,same⟩ := tells.members
  rw [same]
  rfl

theorem declareMembers_iff (agree : Agree TypeDecl.header b s) (modules : s.modules = b.modules)
    (inside : pending.id.index < s.types.size) (same : s.typeAt pending.id = b.typeAt pending.id)
    (blank : (b.typeAt pending.id).methods = []) {methods : List PendingMethod} :
    (declareMembers home pending).run s = .ok (methods,q) ↔
      ∃ d, Tells b home pending d ∧ methods = pending.methods ∧ q = s.modifyType pending.id fun _ => d := by
  have change (members : TypeMembers) : Agree TypeDecl.header s (s.modifyType pending.id members.onto) :=
    .modifyType fun _ => rfl
  have written (members : TypeMembers) {ms : List PendingMethod} :
      (pending.doc.methods.mapM (declareMethod home pending.id)).run (s.modifyType pending.id members.onto) = .ok (ms,q) ↔ _ :=
    declareMethods_iff (agree.trans (change members)) modules (by rw [(change members).size_eq]; exact inside)
  have first (members : TypeMembers) : ((s.modifyType pending.id members.onto).typeAt pending.id).methods = [] := by
    rw [typeAt_modifyType_self inside,same]
    exact blank
  simp only [first,length_nil] at written
  have state (members : TypeMembers) (ds : List MethodDecl) :
      ((s.modifyType pending.id members.onto).modifyType pending.id fun d => { d with methods := d.methods ++ ds }) =
        s.modifyType pending.id fun _ => { members.onto (b.typeAt pending.id) with methods := ds } := by
    rw [modifyType_modifyType]
    refine modifyType_congr ?_
    rw [same]
    simp [TypeMembers.onto,blank]
  simp only [state] at written
  rw [declareMembers,run_get_bind,run_lift_bind_eq_ok]
  simp only [agree.readMembers_eq modules,run_modify_bind]
  constructor
  · rintro ⟨members,read,done⟩
    obtain ⟨ds,each,rfl,rfl⟩ := (written members).mp done
    exact ⟨_,⟨⟨members,read,rfl⟩,each⟩,rfl,rfl⟩
  · rintro ⟨d,⟨⟨members,read,whole⟩,each⟩,rfl,rfl⟩
    exact ⟨members,read,(written members).mpr ⟨d.methods,each,rfl,by rw [← whole]⟩⟩

/-- The types in front have the members that their documents give them; all else is as in the skeleton. -/
structure Populated (b : Program) (home : ModuleId) (front : List PendingType) (s : Program) : Prop where
  agree : Agree TypeDecl.header b s
  code_eq : s.code = b.code
  modules_eq : s.modules = b.modules
  told : ∀ pending ∈ front, Tells b home pending (s.typeAt pending.id)
  others : ∀ t, t ∉ front.map PendingType.id → s.typeAt t = b.typeAt t

theorem Populated.start (b : Program) (home : ModuleId) : Populated b home [] b :=
  ⟨.refl _ b,rfl,rfl,by simp,fun _ _ => rfl⟩

section

variable {front back : List PendingType} {pending : PendingType}
  (blank : ∀ x ∈ front ++ pending :: back, x.id.index < b.types.size ∧ (b.typeAt x.id).methods = [])
  (distinct : ((front ++ pending :: back).map PendingType.id).Nodup)
include blank distinct

theorem Populated.step_iff (populated : Populated b home front s) {methods : List PendingMethod} :
    (declareMembers home pending).run s = .ok (methods,q) ↔
      ∃ d, Tells b home pending d ∧ methods = pending.methods ∧ q = s.modifyType pending.id fun _ => d := by
  obtain ⟨inside,empty⟩ := blank pending (by simp)
  have new : pending.id ∉ front.map PendingType.id := by
    rw [map_append,map_cons] at distinct
    exact fun early => (disjoint_of_nodup_append distinct) early (.head _)
  exact declareMembers_iff populated.agree populated.modules_eq (by rw [populated.agree.size_eq]; exact inside)
    (populated.others _ new) empty

theorem Populated.add (populated : Populated b home front s) (tells : Tells b home pending d) :
    Populated b home (front ++ [pending]) (s.modifyType pending.id fun _ => d) := by
  have inside : pending.id.index < s.types.size := by
    rw [populated.agree.size_eq]
    exact (blank pending (by simp)).1
  have new : pending.id ∉ front.map PendingType.id := by
    rw [map_append,map_cons] at distinct
    exact fun early => (disjoint_of_nodup_append distinct) early (.head _)
  have here := typeAt_modifyType_self inside fun _ => d
  have elsewhere {t : TypeId} (different : t ≠ pending.id) := typeAt_modifyType_of_ne (p := s) different fun _ => d
  refine ⟨⟨?_,fun t => ?_⟩,populated.code_eq,populated.modules_eq,fun x among => ?_,fun t absent => ?_⟩
  · rw [← populated.agree.size_eq]
    simp
  · by_cases same : t = pending.id
    · rw [same,here]
      exact tells.header
    · rw [elsewhere same]
      exact populated.agree.view_eq t
  · rcases mem_append.mp among with early | last
    · rw [elsewhere fun same => new (same ▸ mem_map_of_mem early)]
      exact populated.told x early
    · rw [mem_singleton.mp last,here]
      exact tells
  · rw [map_append,mem_append,not_or] at absent
    rw [elsewhere (by simpa using absent.2)]
    exact populated.others t absent.1

end

variable {types : List PendingType}

theorem populated_of_run {methods : List (List PendingMethod)}
    (blank : ∀ x ∈ types, x.id.index < b.types.size ∧ (b.typeAt x.id).methods = [])
    (distinct : (types.map PendingType.id).Nodup) (done : (types.mapM (declareMembers home)).run b = .ok (methods,q)) :
    methods = types.map PendingType.methods ∧ Populated b home types q := by
  have later : ∀ (back front : List PendingType) (s : Program) (methods : List (List PendingMethod)),
      types = front ++ back → Populated b home front s → (back.mapM (declareMembers home)).run s = .ok (methods,q) →
      methods = back.map PendingType.methods ∧ Populated b home types q := by
    intro back
    induction back with
    | nil =>
      rintro front s methods rfl populated done
      obtain ⟨rfl,rfl⟩ := Linkage.run_pure_eq_ok.mp done
      rw [append_nil]
      exact ⟨rfl,populated⟩
    | cons pending back ih =>
      rintro front s methods rfl populated done
      obtain ⟨ms,s',others,first,rest,rfl⟩ := Linkage.run_mapM_cons_eq_ok.mp done
      obtain ⟨d,tells,rfl,rfl⟩ := (populated.step_iff blank distinct).mp first
      obtain ⟨rfl,whole⟩ := ih (front ++ [pending]) _ others (by simp) (populated.add blank distinct tells) rest
      exact ⟨rfl,whole⟩
  exact later types [] b methods rfl (.start b home) done

theorem exists_populated (blank : ∀ x ∈ types, x.id.index < b.types.size ∧ (b.typeAt x.id).methods = [])
    (distinct : (types.map PendingType.id).Nodup) (each : ∀ x ∈ types, ∃ d, Tells b home x d) :
    ∃ q, (types.mapM (declareMembers home)).run b = .ok (types.map PendingType.methods,q) := by
  obtain ⟨methods,q,run,-⟩ := Linkage.mapM_runs (f := declareMembers home) (s := b)
    (I := fun front _ s => Populated b home front s) types
    (fun front pending back ms s split populated => by
      subst split
      obtain ⟨d,tells⟩ := each pending (by simp)
      exact ⟨_,_,(populated.step_iff blank distinct).mpr ⟨d,tells,rfl,rfl⟩,populated.add blank distinct tells⟩)
    (.start b home)
  obtain ⟨rfl,-⟩ := populated_of_run blank distinct run
  exact ⟨q,run⟩

end Document
end Loom
