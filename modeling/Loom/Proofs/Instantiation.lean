import Loom.Proofs.Linking
import Loom.Proofs.Specialization

/-!
Specialization is substitution. At each place of a clone stands what stands at that place of its original, with the
argument for the first parameter of the type, and with clones for the applications they stand for.
-/
namespace Loom

open List Program
open Scope (Corresponds)
open Loom.Except (bind_eq_ok)

namespace Scope

variable (p : Program) (family : List Scope) (s : Scope)

/-- An operand in the body of a clone and the one at that place of the original. -/
def OperandCorresponds (b b' : Body) : Operand → Operand → Prop
  | .type t, .type t' => Corresponds p family s t t'
  | .method o, .method o' => Corresponds p family s o.ref.declaring o'.ref.declaring ∧ o'.ref.name = o.ref.name ∧
      List.Forall₂ (Corresponds p family s) o.arguments o'.arguments
  | .field f, .field f' => Corresponds p family s f.declaring f'.declaring ∧ f'.name = f.name
  | .branch i, .branch i' => ∃ k : Nat, b.code[k]? = some i ∧ b'.code[k]? = some i'
  | .none, .none => True
  | .int n, .int n' => n' = n
  | .text t, .text t' => t' = t
  | _, _ => False

structure BodyCorresponds (b b' : Body) : Prop where
  locals : List.Forall₂ (Corresponds p family s) b.locals b'.locals
  initLocals : b'.initLocals = b.initLocals
  code : List.Forall₂ (fun i i' => (p.instructionAt i').opcode = (p.instructionAt i).opcode ∧
    OperandCorresponds p family s b b' (p.instructionAt i).operand (p.instructionAt i').operand) b.code b'.code

structure MethodCorresponds (d d' : MethodDecl) : Prop where
  name : d'.name = d.name
  flags : d'.flags = d.flags
  native : d'.native = d.native
  generics : d'.generics = d.generics
  returns : Corresponds p family s d.returns d'.returns
  params : List.Forall₂ (fun a a' : Param => a'.name = a.name ∧ Corresponds p family s a.type a'.type) d.params d'.params
  bodiless : d.body = none → d'.body = none
  body : ∀ b, d.body = some b → ∃ b', d'.body = some b' ∧ BodyCorresponds p family s b b'

structure TypeCorresponds (d d' : TypeDecl) : Prop where
  flags : d'.flags = d.flags
  generics : d'.generics = d.generics.tail
  base : Corresponds p family s d.base d'.base
  interfaces : List.Forall₂ (Corresponds p family s) d.interfaces d'.interfaces
  fields : List.Forall₂ (fun f f' : FieldDecl =>
    f'.name = f.name ∧ f'.isStatic = f.isStatic ∧ Corresponds p family s f.type f'.type) d.fields d'.fields
  methods : List.Forall₂ (MethodCorresponds p family s) d.methods d'.methods

end Scope

def Entry.family (e : Entry) : List Scope := e.flatten.map fun c => ⟨c.generic,c.argument,c.specialized⟩

namespace Cloning

variable {style : CloneStyle} {home : ModuleId} {argument : TypeRef} {source : TypeId} {p q : Program} {entry : Entry}
  {shells : List Shell} {s : Shell} {m : MethodId} {t t' : TypeRef}

theorem Specialized.entry_family (specialized : Specialized style home source argument p q entry shells) :
    entry.family = familyOf argument shells := by
  have records := specialized.records
  rw [Entry.family,familyOf]
  refine forall₂_eq_eq_eq ▸ forall₂_map_left_iff.mpr (forall₂_map_right_iff.mpr ?_)
  refine records.imp fun e s record => ?_
  rw [record.generic,record.argument_eq,record.specialized]
  rfl

section

variable (specialized : Specialized style home source argument p q entry shells)
include specialized

theorem Specialized.typeSite_stands (member : s ∈ shells) :
    (typeSite (familyOf argument shells) s).Stands q p.types.size (s.scope argument) where
  chain := (specialized.each s member).chain
  old := (specialized.each s member).old
  new := (specialized.each s member).new.1
  generics := by
    have clone := specialized.each s member
    show (q.typeAt s.clone).generics = (q.typeAt s.source).generics.tail
    rw [specialized.grown.typeAt_eq clone.old]
    exact clone.generics
  method _ _ inside := by cases inside

theorem Specialized.methodSite_stands (member : s ∈ shells) (method : m ∈ p.methodsOf s.source) :
    (methodSite (familyOf argument shells) s m).Stands q p.types.size (s.scope argument) where
  chain := (specialized.each s member).chain
  old := (specialized.each s member).old
  new := (specialized.each s member).new.1
  generics := (specialized.typeSite_stands member).generics
  method _ _ inside := by
    cases inside
    have clone := specialized.each s member
    have owner := (mem_methodsOf.mp method).1
    refine ⟨owner,rfl,?_⟩
    rw [(clone.signatures m method).generics,specialized.grown.methodAt_eq (by rw [owner]; exact clone.old)]

theorem Specialized.typeSite_sourceScope (member : s ∈ shells) :
    (typeSite (familyOf argument shells) s).sourceScope q (s.scope argument) = p.typeParams s.source := by
  rw [← specialized.grown.headers.typeParams_eq (specialized.each s member).old]
  exact append_nil _

theorem Specialized.methodSite_sourceScope (member : s ∈ shells) (method : m ∈ p.methodsOf s.source) :
    (methodSite (familyOf argument shells) s m).sourceScope q (s.scope argument) = p.scopeOf m := by
  have owner := (mem_methodsOf.mp method).1
  have inside : m.owner.index < p.types.size := by rw [owner]; exact (specialized.each s member).old
  rw [← specialized.grown.signatures.scopeOf_eq inside,scopeOf,owner]
  rfl

end

theorem Specialized.scope_mem (member : s ∈ shells) : s.scope argument ∈ familyOf argument shells :=
  mem_map_of_mem member

section

variable (specialized : Specialized style home source argument p q entry shells) (member : s ∈ shells)
include specialized member

theorem Specialized.typeSite_corresponds (formed : p.MaybeFormed (p.typeParams s.source) t)
    (done : (typeSite (familyOf argument shells) s).type q t = .ok t') :
    Corresponds q (familyOf argument shells) (s.scope argument) t t' := by
  refine (specialized.typeSite_stands member).type_corresponds specialized.family (scope_mem member) ?_ formed.declares done
  rw [specialized.typeSite_sourceScope member]
  exact formed.mono specialized.grown.headers

theorem Specialized.methodSite_corresponds (method : m ∈ p.methodsOf s.source) (formed : p.MaybeFormed (p.scopeOf m) t)
    (done : (methodSite (familyOf argument shells) s m).type q t = .ok t') :
    Corresponds q (familyOf argument shells) (s.scope argument) t t' := by
  refine (specialized.methodSite_stands member method).type_corresponds specialized.family (scope_mem member) ?_
    formed.declares done
  rw [specialized.methodSite_sourceScope member method]
  exact formed.mono specialized.grown.headers

end

theorem clone?_eq_some {site : CloneSite} (family : site.family = familyOf argument shells) {c : MethodId}
    (found : site.clone? m = some c) : ∃ s ∈ shells, s.source = m.owner ∧ c = ⟨s.clone,m.position⟩ := by
  obtain ⟨scope,first,rfl⟩ := Option.map_eq_some_iff.mp found
  rw [family] at first
  obtain ⟨s,member,rfl⟩ := mem_map.mp (mem_of_find?_eq_some first)
  have owner : (s.source == m.owner) = true := find?_some (p := fun c : Scope => c.owner == m.owner) first
  exact ⟨s,member,eq_of_beq owner,rfl⟩

section

variable (specialized : Specialized style home source argument p q entry shells)
include specialized

theorem Specialized.clone_of_found {site : CloneSite} (family : site.family = familyOf argument shells) {r : MethodRef}
    {d : TypeId} {n c : MethodId} (found : q.findMethod? d r = some n) (cloned : site.clone? n = some c) :
    ∃ s ∈ shells, n ∈ p.methodsOf s.source ∧ c = ⟨s.clone,n.position⟩ ∧ q.methodAt n = p.methodAt n := by
  obtain ⟨owner,position⟩ := mem_methodsOf.mp (findMethod?_eq_some found).1
  obtain ⟨s,member,source,rfl⟩ := clone?_eq_some family cloned
  have old : n.owner.index < p.types.size := by rw [← source]; exact (specialized.each s member).old
  refine ⟨s,member,mem_methodsOf.mpr ⟨source.symm,?_⟩,rfl,specialized.grown.methodAt_eq old⟩
  rw [source,← specialized.grown.typeAt_eq old,owner]
  exact position

section

variable (member : s ∈ shells) (method : m ∈ p.methodsOf s.source)
include member method

theorem Specialized.methodRef_corresponds {r r' : MethodRef} {d : TypeId} (formed : p.MethodRefFormed (p.scopeOf m) r d)
    (done : (methodSite (familyOf argument shells) s m).methodRef q r = .ok r') :
    Corresponds q (familyOf argument shells) (s.scope argument) r.declaring r'.declaring ∧ r'.name = r.name := by
  obtain ⟨declaring,brought,result⟩ := CloneSite.methodRef_eq_ok.mp done
  have corresponds := specialized.methodSite_corresponds member method (.inr formed.declaring) brought
  rcases result with ⟨element,n,c,-,found,cloned,rfl⟩ | ⟨-,rfl⟩
  · refine ⟨corresponds,?_⟩
    obtain ⟨s',member',within,rfl,same⟩ := specialized.clone_of_found rfl found cloned
    show (q.methodAt ⟨s'.clone,n.position⟩).name = r.name
    rw [((specialized.each s' member').signatures n within).name,← same]
    exact (findMethod?_eq_some found).2.1
  · exact ⟨corresponds,rfl⟩

theorem Specialized.operand_corresponds {b b' : Body} {o o' : Operand} (formed : p.OperandFormed (p.scopeOf m) b o)
    (cloned : (methodSite (familyOf argument shells) s m).OperandCloned q b b' o o') :
    Scope.OperandCorresponds q (familyOf argument shells) (s.scope argument) b b' o o' := by
  have types {t u : TypeRef} (formed : p.Formed (p.scopeOf m) t)
      (brought : (methodSite (familyOf argument shells) s m).type q t = .ok u) :=
    specialized.methodSite_corresponds member method (.inr formed) brought
  cases o with
  | type t =>
    obtain ⟨t',brought,⟨⟩⟩ := bind_eq_ok.mp cloned
    exact types formed brought
  | method o =>
    obtain ⟨o',brought,⟨⟩⟩ := bind_eq_ok.mp cloned
    cases o with
    | plain r =>
      obtain ⟨r',moved,⟨⟩⟩ := bind_eq_ok.mp brought
      obtain ⟨d,formed⟩ := formed
      obtain ⟨declaring,name⟩ := specialized.methodRef_corresponds member method formed moved
      exact ⟨declaring,name,.nil⟩
    | applied r args =>
      obtain ⟨r',moved,applied⟩ := bind_eq_ok.mp brought
      obtain ⟨args',all,applied⟩ := bind_eq_ok.mp applied
      obtain ⟨⟨d,formed⟩,-,args_formed⟩ := formed
      obtain ⟨declaring,name⟩ := specialized.methodRef_corresponds member method formed moved
      obtain ⟨-,rfl⟩ := MethodRef.apply_eq_ok.mp (Except.mapError_eq_ok.mp applied)
      refine ⟨declaring,name,forall₂_imp_of_mem (Except.mapM_eq_ok.mp all) fun t among t' brought => ?_⟩
      exact types (args_formed t among) brought
  | field f =>
    obtain ⟨f',brought,⟨⟩⟩ := bind_eq_ok.mp cloned
    obtain ⟨d,formed⟩ := formed
    obtain ⟨declaring,moved,result⟩ := CloneSite.field_eq_ok.mp brought
    rcases result with ⟨_,_,_,_,_,rfl⟩ | ⟨_,rfl⟩
    · exact ⟨types formed.declaring moved,rfl⟩
    · exact ⟨types formed.declaring moved,rfl⟩
  | branch target =>
    obtain ⟨k,i,found,place,rfl⟩ := cloned
    exact ⟨k,Body.getElem?_of_lastIndexOf? found,place⟩
  | none => cases cloned; exact trivial
  | int n => cases cloned; rfl
  | text t => cases cloned; rfl

theorem Specialized.body_corresponds {b b' : Body} (formed : p.BodyFormed m b)
    (cloned : (methodSite (familyOf argument shells) s m).BodyCloned q b b') :
    Scope.BodyCorresponds q (familyOf argument shells) (s.scope argument) b b' where
  locals := forall₂_imp_of_mem cloned.locals fun t among t' brought =>
    specialized.methodSite_corresponds member method (.inr (formed.locals t among)) brought
  initLocals := cloned.initLocals
  code := forall₂_imp_of_mem cloned.code fun i among i' both => by
    have kept : q.instructionAt i = p.instructionAt i :=
      specialized.grown.code.instruction_eq i (formed.inside i among)
    refine ⟨both.1,specialized.operand_corresponds member method ?_ both.2⟩
    rw [kept]
    exact formed.operands i among

end

theorem Specialized.method_corresponds (formed : p.WellFormed) (member : s ∈ shells) (method : m ∈ p.methodsOf s.source) :
    Scope.MethodCorresponds q (familyOf argument shells) (s.scope argument) (p.methodAt m)
      (q.methodAt ⟨s.clone,m.position⟩) := by
  have clone := specialized.each s member
  have signature := clone.signatures m method
  have owner := (mem_methodsOf.mp method).1
  have inside : m.owner.index < p.types.size := by rw [owner]; exact clone.old
  have kept : q.methodAt m = p.methodAt m := specialized.grown.methodAt_eq inside
  have declared := (formed.types m.owner inside).members.methods m rfl
  have bodies := (formed.types m.owner inside).bodies m rfl
  exact {
    name := signature.name
    flags := signature.flags
    native := signature.native
    generics := signature.generics
    returns := specialized.methodSite_corresponds member method declared.returns signature.returns
    params := forall₂_imp_of_mem signature.params fun a among a' both =>
      ⟨both.1,specialized.methodSite_corresponds member method (.inr (declared.params a.type (mem_map_of_mem among))) both.2⟩
    bodiless := fun none => by
      cases clone.bodies m method with
      | bodiless _ same => exact same
      | bodied _ body _ _ => rw [kept,none] at body; cases body
    body := fun b body => by
      cases clone.bodies m method with
      | bodiless bare _ =>
        rw [kept,body,(bodies b body).concrete] at bare
        rcases bare with bare | bare <;> cases bare
      | bodied _ body' clone cloned =>
        rw [kept,body] at body'
        cases body'
        exact ⟨_,clone,specialized.body_corresponds member method (bodies b body) cloned⟩ }

theorem Specialized.type_corresponds (formed : p.WellFormed) (member : s ∈ shells) :
    Scope.TypeCorresponds q (familyOf argument shells) (s.scope argument) (p.typeAt s.source) (q.typeAt s.clone) := by
  have clone := specialized.each s member
  have members := (formed.types s.source clone.old).members
  exact {
    flags := clone.flags
    generics := clone.generics
    base := specialized.typeSite_corresponds member members.base clone.base
    interfaces := forall₂_imp_of_mem clone.interfaces fun t among t' brought =>
      specialized.typeSite_corresponds member (.inr (members.interfaces t among)) brought
    fields := forall₂_imp_of_mem clone.fields fun f among f' both =>
      ⟨both.1,both.2.1,specialized.typeSite_corresponds member (.inr (members.fields f among)) both.2.2⟩
    methods := by
      refine forall₂_iff_get.mpr ⟨clone.count.symm,fun k before after => ?_⟩
      have corresponds := specialized.method_corresponds formed member (m := ⟨s.source,k⟩)
        (mem_methodsOf.mpr ⟨rfl,before⟩)
      have original : p.methodAt ⟨s.source,k⟩ = (p.typeAt s.source).methods.get ⟨k,before⟩ :=
        methodAt_eq_of_getElem? (getElem?_eq_getElem before)
      have copy : q.methodAt ⟨s.clone,k⟩ = (q.typeAt s.clone).methods.get ⟨k,after⟩ :=
        methodAt_eq_of_getElem? (getElem?_eq_getElem after)
      rwa [original,copy] at corresponds }

theorem Specialized.root_eq : entry.generic = source ∧ entry.argument = argument := by
  obtain ⟨first,rest,rfl,rooted⟩ := specialized.rooted
  have records := specialized.records
  obtain ⟨generic,a,c,methods,nested⟩ := entry
  rw [Entry.flatten] at records
  cases records with
  | cons record _ => exact ⟨record.generic.trans rooted.source_eq,record.argument_eq⟩

theorem Specialized.methods_eq (member : s ∈ shells) {e : Entry} (record : Records argument p e s) :
    e.methods = (p.methodsOf s.source).zip (q.methodsOf s.clone) := by
  rw [record.methods,methodsOf,methodsOf,(specialized.each s member).count,zip_map',map_map]
  rfl

end

/-- Specialization is substitution: every entry of a specialization that succeeds names a clone that corresponds to its
    original, and pairs their methods. -/
theorem specialize_substitutes (linked : Linked p) (declared : p.Declares argument)
    (done : (specialize style home source argument).run p = (.ok entry,q)) :
    entry.generic = source ∧ ∀ e ∈ entry.flatten, e.argument = argument ∧
      e.methods = (p.methodsOf e.generic).zip (q.methodsOf e.specialized) ∧
      Scope.TypeCorresponds q entry.family ⟨e.generic,argument,e.specialized⟩ (p.typeAt e.generic)
        (q.typeAt e.specialized) := by
  obtain ⟨shells,specialized⟩ := specialize_specialized linked.wellFormed declared done
  refine ⟨specialized.root_eq.1,fun e member => ?_⟩
  obtain ⟨s,among,record⟩ := right_of_forall₂ specialized.records member
  rw [record.generic,record.specialized,specialized.entry_family]
  exact ⟨record.argument_eq,specialized.methods_eq among record,specialized.type_corresponds linked.wellFormed among⟩

/-- A box with a node type nested in it that refers to itself, to the box and to a parameter of its own. -/
def boxes : Document :=
  { moduleName := "Boxes"
    types := [some
      { name := "Box"
        generics := ["T"]
        fields := [{ name := "value", type := "!0" }]
        methods :=
          [{ name := "Get"
             returns := "!0"
             locals := ["Box/Node<!0,System.Int32>"]
             body := [".label start","ldarg 0","ldfld !0 Box<!0>::value","br start","ret"] }]
        nested := [some
          { name := "Node"
            generics := ["T","U"]
            fields := [{ name := "next", type := "Box/Node<!0,!1>" },{ name := "owner", type := "Box<!0>" }] }] }] }

theorem boxes_specialized : ∃ home p entry q, boxes.link core [CoreLibrary.home] = .ok (home,p) ∧
    (specialize ⟨"$specialized$",[]⟩ home ⟨13⟩ (.decl CoreLibrary.int32)).run p = (.ok entry,q) ∧
    entry.flatten.length = 2 := by
  obtain ⟨home,p,linked,evaluated⟩ := boxes.link_passes (f := fun home p =>
    Runs.passes ((specialize ⟨"$specialized$",[]⟩ home ⟨13⟩ (.decl CoreLibrary.int32)).run p) fun entry _ =>
      decide (entry.flatten.length = 2)) (by decide +kernel)
  obtain ⟨entry,q,done,two⟩ := Runs.exists_of_passes evaluated
  exact ⟨home,p,entry,q,linked,done,of_decide_eq_true two⟩

theorem specialize_substitutes_boxes : ∃ home p entry q, boxes.link Program.core [CoreLibrary.home] = .ok (home,p) ∧
    (specialize ⟨"$specialized$",[]⟩ home ⟨13⟩ (.decl CoreLibrary.int32)).run p = (.ok entry,q) ∧
    entry.flatten.length = 2 ∧ entry.generic = ⟨13⟩ ∧ ∀ e ∈ entry.flatten, e.argument = .decl CoreLibrary.int32 ∧
      e.methods = (p.methodsOf e.generic).zip (q.methodsOf e.specialized) ∧
      Scope.TypeCorresponds q entry.family ⟨e.generic,.decl CoreLibrary.int32,e.specialized⟩ (p.typeAt e.generic)
        (q.typeAt e.specialized) := by
  obtain ⟨home,p,entry,q,linked,done,two⟩ := boxes_specialized
  have reached : Linked p := .link .core linked
  exact ⟨home,p,entry,q,linked,done,two,specialize_substitutes reached (reached.declares_core (by decide)) done⟩

end Cloning
end Loom
