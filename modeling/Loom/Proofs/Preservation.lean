import Loom.Proofs.Instantiation
import Loom.Proofs.Overloads

/-!
Specialization keeps a program well-formed: what is declared in a clone is in order because it is in order in the
original, and a member that a clone refers to exists.
-/
namespace Loom

open List Program CloneSite
open Loom.Except (bind_eq_ok)

namespace Cloning

variable {style : CloneStyle} {home : ModuleId} {argument : TypeRef} {source : TypeId} {p q : Program} {entry : Entry}
  {shells : List Shell} {s : Shell} {m : MethodId} {t t' : TypeRef}

section

variable (specialized : Specialized style home source argument p q entry shells) (closed : p.Formed [] argument)
  (member : s ∈ shells)
include specialized closed member

theorem Specialized.typeSite_formed (formed : p.Formed (p.typeParams s.source) t)
    (done : (typeSite (familyOf argument shells) s).type q t = .ok t') : q.Formed (q.typeParams s.clone) t' := by
  have after := (specialized.typeSite_stands member).type_formed specialized.family (closed.mono specialized.grown.headers)
    (by rw [specialized.typeSite_sourceScope member]; exact formed.mono specialized.grown.headers) done
  rwa [cloneScope,show (typeSite (familyOf argument shells) s).method = none from rfl,Option.map_none,
    Option.getD_none,append_nil] at after

theorem Specialized.methodSite_formed (method : m ∈ p.methodsOf s.source)
    (formed : p.Formed (p.scopeOf m) t) (done : (methodSite (familyOf argument shells) s m).type q t = .ok t') :
    q.Formed (q.scopeOf ⟨s.clone,m.position⟩) t' :=
  (specialized.methodSite_stands member method).type_formed specialized.family (closed.mono specialized.grown.headers)
    (by rw [specialized.methodSite_sourceScope member method]; exact formed.mono specialized.grown.headers) done

theorem Specialized.signature_formed (method : m ∈ p.methodsOf s.source)
    (formed : p.SignatureFormed m) : q.SignatureFormed ⟨s.clone,m.position⟩ := by
  have cloned := (specialized.each s member).signatures m method
  constructor
  · rcases formed.returns with absent | returns
    · have brought := cloned.returns
      rw [absent] at brought
      exact .inl (type_absent brought)
    · exact .inr (specialized.methodSite_formed closed member method returns cloned.returns)
  · intro u among
    obtain ⟨b,member',rfl⟩ := mem_map.mp among
    obtain ⟨a,from_,-,brought⟩ := left_of_forall₂ cloned.params member'
    exact specialized.methodSite_formed closed member method (formed.params a.type (mem_map_of_mem from_)) brought

theorem Specialized.members_formed (formed : p.MembersFormed s.source) :
    q.MembersFormed s.clone := by
  have clone := specialized.each s member
  constructor
  · rcases formed.base with absent | base
    · have brought := clone.base
      rw [absent] at brought
      exact .inl (type_absent brought)
    · exact .inr (specialized.typeSite_formed closed member base clone.base)
  · intro i among
    obtain ⟨a,from_,brought⟩ := left_of_forall₂ clone.interfaces among
    exact specialized.typeSite_formed closed member (formed.interfaces a from_) brought
  · intro f among
    obtain ⟨a,from_,-,-,brought⟩ := left_of_forall₂ clone.fields among
    exact specialized.typeSite_formed closed member (formed.fields a from_) brought
  · intro a among
    rw [clone.attributes] at among
    obtain ⟨inside,types⟩ := formed.attributes a (mem_filter.mp among).1
    exact ⟨Nat.lt_of_lt_of_le inside specialized.grown.types.size_le,
      fun u arg => (types u arg).mono specialized.grown.headers⟩
  · rintro ⟨o,k⟩ rfl
    by_cases within : k < (p.typeAt s.source).methods.length
    · have method : (⟨s.source,k⟩ : MethodId) ∈ p.methodsOf s.source := mem_methodsOf.mpr ⟨rfl,within⟩
      exact specialized.signature_formed closed member method (formed.methods _ rfl)
    · have absent : (q.typeAt s.clone).methods.length ≤ k := by rw [clone.count]; exact Nat.le_of_not_lt within
      exact signatureFormed_of_default (methodAt_of_le absent)

end

section

variable (specialized : Specialized style home source argument p q entry shells) (formed : p.WellFormed)
  (closed : p.Formed [] argument) (member : s ∈ shells) (method : m ∈ p.methodsOf s.source)
include specialized formed closed member method

theorem Specialized.methodRef_formed {r r' : MethodRef} {d : TypeId} (ref : p.MethodRefFormed (p.scopeOf m) r d)
    (done : (methodSite (familyOf argument shells) s m).methodRef q r = .ok r') :
    (∃ e, q.MethodRefFormed (q.scopeOf ⟨s.clone,m.position⟩) r' e) ∧ r'.generics.length = r.generics.length := by
  obtain ⟨declaring,brought,result⟩ := methodRef_eq_ok.mp done
  have through := specialized.methodSite_formed closed member method ref.declaring brought
  have old : d.index < p.types.size := ref.declaring.declares _ (TypeRef.mem_parts_self _) d ref.element
  rcases result with ⟨e,n,c,redeclared,found,cloned,rfl⟩ | ⟨plain,rfl⟩
  · obtain rfl : d = e := Option.some.inj (ref.element.symm.trans redeclared.1)
    have owner := (mem_methodsOf.mp (findMethod?_eq_some found).1).1
    have element := redeclared.element_eq specialized.family old brought owner cloned
    obtain ⟨s',member',within,rfl,same⟩ := specialized.clone_of_found rfl found cloned
    have clone := specialized.each s' member'
    have signature := specialized.signature_formed closed member' within ((formed.types _ clone.old).members.methods n
      (mem_methodsOf.mp within).1)
    obtain ⟨returns,params⟩ := signature.refOn declaring ((methodSite (familyOf argument shells) s m).refId r.id)
    refine ⟨⟨s'.clone,element,through,returns,params,findMethod?_refOn_isSome ?_⟩,?_⟩
    · exact mem_methodsOf.mpr ⟨rfl,by rw [clone.count]; exact (mem_methodsOf.mp within).2⟩
    · show (q.methodAt ⟨s'.clone,n.position⟩).generics.length = r.generics.length
      rw [(clone.signatures n within).generics,← same]
      exact (findMethod?_eq_some found).2.2.1
  · have element := element_of_not_redeclared specialized.family brought ref.element plain
    exact ⟨⟨d,(ref.mono specialized.grown.signatures formed.signed).withDeclaring element through _⟩,rfl⟩

theorem Specialized.fieldRef_formed {f f' : FieldRef} {d : TypeId} (ref : p.FieldRefFormed (p.scopeOf m) f d)
    (done : (methodSite (familyOf argument shells) s m).field q f = .ok f') :
    ∃ e, q.FieldRefFormed (q.scopeOf ⟨s.clone,m.position⟩) f' e := by
  obtain ⟨declaring,brought,result⟩ := field_eq_ok.mp done
  have through := specialized.methodSite_formed closed member method ref.declaring brought
  rcases result with ⟨e,field,element,produced,found,rfl⟩ | ⟨plain,rfl⟩
  · obtain ⟨scope,among,same⟩ := any_eq_true.mp produced
    obtain ⟨s',member',rfl⟩ := mem_map.mp among
    obtain rfl : s'.clone = e := eq_of_beq same
    have members := specialized.members_formed closed member' (formed.types _ (specialized.each s' member').old).members
    exact ⟨s'.clone,element,through,members.fields field (mem_of_find?_eq_some found),by rw [found]; rfl⟩
  · have kept := ref.mono specialized.grown.signatures
    refine ⟨d,?_,through,kept.fieldType,kept.found⟩
    refine element_of_not_redeclared specialized.family brought ref.element ?_
    rintro source ⟨-,u,after,produced⟩
    rw [plain u after] at produced
    cases produced

theorem Specialized.operand_formed {b b' : Body} {o o' : Operand} (operand : p.OperandFormed (p.scopeOf m) b o)
    (cloned : (methodSite (familyOf argument shells) s m).OperandCloned q b b' o o') :
    q.OperandFormed (q.scopeOf ⟨s.clone,m.position⟩) b' o' ∧ o'.kind = o.kind := by
  cases o with
  | type t =>
    refine ⟨?_,kind_operand cloned⟩
    obtain ⟨t',brought,⟨⟩⟩ := bind_eq_ok.mp cloned
    exact specialized.methodSite_formed closed member method operand brought
  | method o =>
    refine ⟨?_,kind_operand cloned⟩
    obtain ⟨o',brought,⟨⟩⟩ := bind_eq_ok.mp cloned
    cases o with
    | plain r =>
      obtain ⟨r',moved,⟨⟩⟩ := bind_eq_ok.mp brought
      obtain ⟨d,ref⟩ := operand
      exact (specialized.methodRef_formed formed closed member method ref moved).1
    | applied r args =>
      obtain ⟨⟨d,ref⟩,-,each⟩ := operand
      obtain ⟨r',moved,applied⟩ := bind_eq_ok.mp brought
      obtain ⟨args',all,applied⟩ := bind_eq_ok.mp applied
      obtain ⟨count,rfl⟩ := MethodRef.apply_eq_ok.mp (Except.mapError_eq_ok.mp applied)
      refine ⟨(specialized.methodRef_formed formed closed member method ref moved).1,count,fun t among => ?_⟩
      obtain ⟨a,from_,brought⟩ := left_of_forall₂ (Except.mapM_eq_ok.mp all) among
      exact specialized.methodSite_formed closed member method (each a from_) brought
  | field f =>
    refine ⟨?_,kind_operand cloned⟩
    obtain ⟨f',brought,⟨⟩⟩ := bind_eq_ok.mp cloned
    obtain ⟨d,ref⟩ := operand
    exact specialized.fieldRef_formed formed closed member method ref brought
  | branch target =>
    obtain ⟨j,i,-,at_,rfl⟩ := cloned
    exact ⟨mem_of_getElem? at_,rfl⟩
  | none => cases cloned; exact ⟨trivial,rfl⟩
  | int n => cases cloned; exact ⟨trivial,rfl⟩
  | text t => cases cloned; exact ⟨trivial,rfl⟩

theorem Specialized.body_formed {b' : Body} (body : (q.methodAt ⟨s.clone,m.position⟩).body = some b') :
    q.BodyFormed ⟨s.clone,m.position⟩ b' := by
  have clone := specialized.each s member
  obtain ⟨owner,position⟩ := mem_methodsOf.mp method
  have old : m.owner.index < p.types.size := owner ▸ clone.old
  have signature := clone.signatures m method
  have same : q.methodAt m = p.methodAt m := specialized.grown.methodAt_eq old
  obtain ⟨distinct,inside⟩ := specialized.new _ clone.new.1 b' body
  cases clone.bodies m method with
  | bodiless bare none => rw [none] at body; cases body
  | @bodied b e concrete original clone_body cloned =>
    obtain rfl : b' = e := Option.some.inj (body.symm.trans clone_body)
    rw [same] at original concrete
    have whole := (formed.types m.owner old).bodies m rfl b original
    have brought : ∀ i' ∈ b'.code, ∃ i ∈ b.code, (q.instructionAt i').opcode = (p.instructionAt i).opcode ∧
        (methodSite (familyOf argument shells) s m).OperandCloned q b b' (p.instructionAt i).operand
          (q.instructionAt i').operand := by
      intro i' among
      obtain ⟨i,from_,pair⟩ := left_of_forall₂ cloned.code among
      rw [specialized.grown.code.instruction_eq i (whole.inside i from_)] at pair
      exact ⟨i,from_,pair⟩
    have held : ∀ i' ∈ b'.code, ∀ r ∈ (q.instructionAt i').operand.reference?,
        ∃ (k : Nat) (i : InstructionId), ∃ u ∈ (p.instructionAt i).operand.reference?,
        b.code[k]? = some i ∧ b'.code[k]? = some i' ∧ r = { u with method := ⟨s.clone,m.position⟩ } := by
      intro i' among r held
      obtain ⟨k,at_⟩ := mem_iff_getElem?.mp among
      obtain ⟨i,there⟩ : ∃ i, b.code[k]? = some i :=
        ⟨_,getElem?_eq_getElem (cloned.code.length_eq ▸ (List.getElem?_eq_some_iff.mp at_).1)⟩
      have pair := (getElem?_of_forall₂ cloned.code there at_).2.reference?_eq
      rw [specialized.grown.code.instruction_eq i (whole.inside i (mem_of_getElem? there)),held] at pair
      obtain ⟨u,holds,same⟩ := Option.map_eq_some_iff.mp pair.symm
      exact ⟨k,i,u,holds,there,at_,same.symm⟩
    exact {
      concrete := by
        rw [MethodDecl.isAbstract,signature.flags]
        exact concrete
      managed := signature.native.trans whole.managed
      locals := fun t among => by
        obtain ⟨a,from_,done⟩ := left_of_forall₂ cloned.locals among
        exact specialized.methodSite_formed closed member method (whole.locals a from_) done
      distinct := distinct
      inside := fun i among => (inside i among).2
      kinds := fun i' among => by
        obtain ⟨i,from_,opcode,operand⟩ := brought i' among
        rw [opcode,(specialized.operand_formed formed closed member method (whole.operands i from_) operand).2]
        exact whole.kinds i from_
      operands := fun i' among => by
        obtain ⟨i,from_,-,operand⟩ := brought i' among
        exact (specialized.operand_formed formed closed member method (whole.operands i from_) operand).1
      references := by
        constructor
        · intro i' among r holds
          obtain ⟨_,_,_,-,-,-,rfl⟩ := held i' among r holds
          rfl
        · intro i' among j' also r holds t holds' same
          obtain ⟨k,i,u,first,there,at_,rfl⟩ := held i' among r holds
          obtain ⟨l,j,v,second,there',at_',rfl⟩ := held j' also t holds'
          obtain rfl := whole.references.place i (mem_of_getElem? there) j (mem_of_getElem? there') u first v second same
          obtain rfl : k = l :=
            (getElem?_inj (List.getElem?_eq_some_iff.mp there).1 whole.distinct).mp (there.trans there'.symm)
          exact Option.some.inj (at_.symm.trans at_') }

end

section

variable (specialized : Specialized style home source argument p q entry shells)
include specialized

theorem Specialized.exists_clone {d : TypeId} (beyond : p.types.size ≤ d.index) (inside : d.index < q.types.size) :
    ∃ s ∈ shells, s.clone = d :=
  exists_clone_of_clones specialized.clones beyond (specialized.size_eq ▸ inside)

theorem Specialized.type_formed (formed : p.WellFormed) (closed : p.Formed [] argument) (member : s ∈ shells) :
    q.TypeFormed s.clone := by
  have clone := specialized.each s member
  have original := formed.types s.source clone.old
  refine ⟨clone.named,?_,?_,specialized.members_formed closed member original.members,?_⟩
  · rw [clone.leaf]
    exact nofun
  · rw [clone.leaf]
    exact nodup_nil
  · rintro ⟨o,k⟩ rfl b body
    have within : k < (p.typeAt s.source).methods.length := by
      rw [← clone.count]
      exact position_lt_of_body body
    have method : (⟨s.source,k⟩ : MethodId) ∈ p.methodsOf s.source := mem_methodsOf.mpr ⟨rfl,within⟩
    exact specialized.body_formed formed closed member method body

theorem Specialized.listed_types (formed : p.WellFormed) (place : home.index < p.modules.size) : q.Listed where
  top h t member := by
    have listed := specialized.listed place
    by_cases here : h = home
    · rw [here,listed.here] at member
      rcases mem_append.mp member with old | new
      · exact Nat.lt_of_lt_of_le (formed.listed.top home t old) specialized.grown.types.size_le
      · obtain ⟨s,among,rfl⟩ := mem_map.mp new
        exact (specialized.each s among).new.2
    · rw [listed.elsewhere h here] at member
      exact Nat.lt_of_lt_of_le (formed.listed.top h t member) specialized.grown.types.size_le
  distinct h := by
    have clones : (shells.map Shell.clone).Nodup := by
      rw [specialized.clones]
      exact Nodup.map (fun _ _ same => congrArg TypeId.index same) nodup_range'
    refine (specialized.listed place).distinct formed.listed clones (fun t member => ?_) h
    obtain ⟨s,among,rfl⟩ := mem_map.mp member
    exact (specialized.each s among).new.1
  nested t inside n member := by
    by_cases old : t.index < p.types.size
    · rw [specialized.grown.typeAt_eq old] at member
      exact Nat.lt_of_lt_of_le (formed.listed.nested t old n member) specialized.grown.types.size_le
    · obtain ⟨s,among,rfl⟩ := specialized.exists_clone (Nat.le_of_not_lt old) inside
      rw [(specialized.each s among).leaf] at member
      cases member

theorem Specialized.separated (formed : p.WellFormed) : q.Separate := by
  -- instructions of old bodies stand before those of new ones
  have before (m : MethodId) (old : m.owner.index < p.types.size) (b : Body) (body : (q.methodAt m).body = some b) :
      (p.methodAt m).body = some b ∧ ∀ i ∈ b.code, i.index < p.code.size := by
    rw [specialized.grown.methodAt_eq old] at body
    exact ⟨body,((formed.types m.owner old).bodies m rfl b body).inside⟩
  intro m n b c first second i inFirst inSecond
  by_cases oldFirst : m.owner.index < p.types.size
  · obtain ⟨body,early⟩ := before m oldFirst b first
    by_cases oldSecond : n.owner.index < p.types.size
    · exact formed.separate m n b c body (before n oldSecond c second).1 i inFirst inSecond
    · have late := ((specialized.new n (Nat.le_of_not_lt oldSecond) c second).2 i inSecond).1
      have early := early i inFirst
      omega
  · have late := ((specialized.new m (Nat.le_of_not_lt oldFirst) b first).2 i inFirst).1
    by_cases oldSecond : n.owner.index < p.types.size
    · have early := (before n oldSecond c second).2 i inSecond
      omega
    · exact specialized.separate m n (Nat.le_of_not_lt oldFirst) (Nat.le_of_not_lt oldSecond) b c first second i inFirst
        inSecond

theorem Specialized.wellFormed (formed : p.WellFormed) (closed : p.Formed [] argument)
    (place : home.index < p.modules.size) : q.WellFormed where
  grounded := specialized.grounded
  listed := specialized.listed_types formed place
  types t inside := by
    by_cases old : t.index < p.types.size
    · exact .mono specialized.grown formed old
    · obtain ⟨s,among,rfl⟩ := specialized.exists_clone (Nat.le_of_not_lt old) inside
      exact specialized.type_formed formed closed among
  separate := specialized.separated formed

end

end Cloning
end Loom
