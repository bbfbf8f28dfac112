import Loom.Proofs.Declarations

/-!
The members of a document are formed. They are read in a skeleton that has every type already, so each type that they
mention is declared and each parameter is one of the type or method it stands in. No method has a body yet.
-/
namespace Loom

open List Program
namespace Document

variable {home : ModuleId} {n : Nat} {p q s : Program} {t : TypeId}
variable {types : List PendingType}

/-- The types from the given place on have members that are formed, and no bodies yet. -/
structure Drafted (n : Nat) (p s : Program) : Prop where
  agree : Agree TypeDecl.header p s
  old : ∀ t : TypeId, t.index < n → s.typeAt t = p.typeAt t
  code_eq : s.code = p.code
  modules_eq : s.modules = p.modules
  members : ∀ t : TypeId, n ≤ t.index → s.MembersFormed t
  bodiless : ∀ m : MethodId, n ≤ m.owner.index → (s.methodAt m).body = none

theorem membersFormed_of_blank (blank : (p.typeAt t).header = p.typeAt t) : p.MembersFormed t := by
  constructor
  · rw [← blank]; exact .inl rfl
  · rw [← blank]; exact fun _ member => by cases member
  · rw [← blank]; exact fun _ member => by cases member
  · rw [← blank]; exact fun _ member => by cases member
  · rintro m rfl
    exact signatureFormed_of_default (by rw [methodAt,← blank]; rfl)

theorem Drafted.listed (drafted : Drafted n p s) (listed : p.Listed) : s.Listed :=
  listed.of_agree drafted.agree drafted.modules_eq

theorem readAttribute_formed {site : String} {doc : AttributeDoc} {a : Attribute} (listed : p.Listed)
    (read : readAttribute p home site doc = .ok a) :
    a.type.index < p.types.size ∧ ∀ u, .type u ∈ a.args → p.Formed [] u := by
  rw [readAttribute] at read
  obtain ⟨type,typeRead,read⟩ := Except.bind_eq_ok.mp read
  obtain ⟨args,argsRead,⟨⟩⟩ := Except.bind_eq_ok.mp read
  constructor
  · have found := Except.mapError_eq_ok.mp typeRead
    rw [readTypeName] at found
    split at found
    · next lookup =>
      cases found
      exact listed.findType? lookup
    · cases found
  · intro u member
    obtain ⟨text,-,read⟩ := left_of_forall₂ (Except.mapM_eq_ok.mp argsRead) member
    exact listed.readAttributeArg_formed (Except.mapError_eq_ok.mp read)

theorem defaultBase_formed (listed : p.Listed) {scope : List GenericParam} (t : TypeId) :
    p.MaybeFormed scope (p.defaultBase home t) := by
  rw [defaultBase]
  split
  · exact .inl rfl
  · split
    · next found => exact .inr (formed_decl (listed.findType? found))
    · exact .inl rfl

structure TypeMembers.Formed (members : TypeMembers) (p : Program) (t : TypeId) : Prop where
  base : p.MaybeFormed (p.typeParams t) members.base
  interfaces : ∀ i ∈ members.interfaces, p.Formed (p.typeParams t) i
  fields : ∀ d ∈ members.fields, p.Formed (p.typeParams t) d.type
  attributes : ∀ a ∈ members.attributes, a.type.index < p.types.size ∧ ∀ u, .type u ∈ a.args → p.Formed [] u

theorem readMembers_formed {doc : TypeDoc} {members : TypeMembers} (listed : p.Listed)
    (read : readMembers p home t doc = .ok members) : members.Formed p t := by
  obtain ⟨baseRead,interfaces,attributes,fields⟩ := readMembers_eq_ok.mp read
  have formed {text : String} {u : TypeRef} (read : p.readType home ⟨p.typeParams t,[]⟩ text.toList = .ok u) :
      p.Formed (p.typeParams t) u := by
    have formed := listed.readType_formed read
    rwa [ParamScope.all,append_nil] at formed
  refine ⟨?_,fun i member => ?_,fun d member => ?_,fun a member => ?_⟩
  · rw [readBase] at baseRead
    split at baseRead
    · rw [← Except.ok.inj baseRead]
      exact defaultBase_formed listed t
    · exact .inr (formed (Except.mapError_eq_ok.mp baseRead))
  · obtain ⟨text,-,read⟩ := left_of_forall₂ interfaces member
    exact formed read
  · obtain ⟨x,-,-,read,-⟩ := left_of_forall₂ fields member
    exact formed read
  · obtain ⟨doc,-,read⟩ := left_of_forall₂ attributes member
    exact readAttribute_formed listed read

theorem Signs.signatureFormed {m : MethodId} {doc : MethodDoc} (listed : p.Listed) (agree : Agree TypeDecl.header p s)
    (signs : Signs p home m doc (s.methodAt m)) : s.SignatureFormed m := by
  have scope : s.scopeOf m = (methodScope p m doc.generics).all := by
    rw [scopeOf,agree.typeParams_eq,methodParams,signs.generics]
    rfl
  constructor
  · rw [scope]
    rcases signs.returns with ⟨-,absent⟩ | ⟨-,u,read,same⟩
    · exact .inl absent
    · rw [same]
      split
      · exact .inl rfl
      · exact .inr ((listed.readType_formed read).mono agree.keeps)
  · rw [scope]
    intro u member
    obtain ⟨x,among,rfl⟩ := mem_map.mp member
    obtain ⟨text,-,-,read⟩ := left_of_forall₂ signs.params among
    exact (listed.readType_formed read).mono agree.keeps

theorem Tells.signs {pending : PendingType} {m : MethodId} (tells : Tells p home pending (s.typeAt pending.id))
    (owner : m.owner = pending.id) : s.methodAt m = default ∨ ∃ doc ∈ pending.doc.methods, Signs p home m doc (s.methodAt m) := by
  by_cases within : m.position < (s.typeAt m.owner).methods.length
  · rw [← owner] at tells
    have here : m.position < pending.doc.methods.zipIdx.length := by rw [tells.methods.length_eq]; exact within
    have signs := tells.methods.get here within
    rw [methodAt_eq_of_getElem? (getElem?_eq_getElem within)]
    rw [length_zipIdx] at here
    refine .inr ⟨_,getElem_mem here,?_⟩
    simpa [← owner] using signs
  · exact .inl (methodAt_of_le (Nat.le_of_not_lt within))

theorem Tells.membersFormed (listed : p.Listed) (agree : Agree TypeDecl.header p s) {pending : PendingType}
    (tells : Tells p home pending (s.typeAt pending.id)) : s.MembersFormed pending.id := by
  obtain ⟨members,read,whole⟩ := tells.members
  have formed := readMembers_formed listed read
  constructor
  · rw [whole,agree.typeParams_eq]
    exact formed.base.mono agree.keeps
  · rw [whole,agree.typeParams_eq]
    exact fun i member => (formed.interfaces i member).mono agree.keeps
  · rw [whole,agree.typeParams_eq]
    exact fun d member => (formed.fields d member).mono agree.keeps
  · rw [whole]
    exact fun a member => ⟨by rw [agree.size_eq]; exact (formed.attributes a member).1,
      fun u among => ((formed.attributes a member).2 u among).mono agree.keeps⟩
  · intro m owner
    rcases tells.signs owner with absent | ⟨doc,-,signs⟩
    · exact signatureFormed_of_default absent
    · exact signs.signatureFormed listed agree

theorem Sketched.blank_methods (sketched : Sketched home p s types) :
    ∀ x ∈ types, x.id.index < s.types.size ∧ (s.typeAt x.id).methods = [] := fun x among =>
  ⟨(sketched.id_new among).2,by rw [← (sketched.blank x among).blank]; rfl⟩

theorem Sketched.nodup_ids (sketched : Sketched home p s types) : (types.map PendingType.id).Nodup := by
  rw [← sketched.walk]
  exact sketched.names.of_map

theorem Tells.method {x : PendingType} {d : TypeDecl} (tells : Tells p home x d) {k : Nat} {doc : MethodDoc}
    (at_ : x.doc.methods[k]? = some doc) : ∃ m, d.methods[k]? = some m ∧ Signs p home ⟨x.id,k⟩ doc m := by
  obtain ⟨inside,rfl⟩ := List.getElem?_eq_some_iff.mp at_
  have here : k < x.doc.methods.zipIdx.length := by rw [List.length_zipIdx]; exact inside
  have there : k < d.methods.length := by rw [← tells.methods.length_eq]; exact here
  have signs := tells.methods.get here there
  refine ⟨_,List.getElem?_eq_getElem there,?_⟩
  simpa using signs

theorem mem_methods {m : PendingMethod} : m ∈ (types.map PendingType.methods).flatten ↔
    ∃ x ∈ types, ∃ k doc, x.doc.methods[k]? = some doc ∧ m = ⟨doc,⟨x.id,k⟩⟩ := by
  rw [mem_flatten]
  constructor
  · rintro ⟨ms,listed,among⟩
    obtain ⟨x,member,rfl⟩ := mem_map.mp listed
    obtain ⟨⟨doc,k⟩,at_,rfl⟩ := mem_map.mp among
    exact ⟨x,member,k,doc,mem_zipIdx_iff_getElem?.mp at_,rfl⟩
  · rintro ⟨x,member,k,doc,at_,rfl⟩
    exact ⟨x.methods,mem_map_of_mem member,mem_map.mpr ⟨(doc,k),mem_zipIdx_iff_getElem?.mpr at_,rfl⟩⟩

theorem Sketched.drafted (sketched : Sketched home p s types) (populated : Populated s home types q) :
    Drafted p.types.size s q where
  agree := populated.agree
  old t below := populated.others t fun among => by
    obtain ⟨x,member,rfl⟩ := mem_map.mp among
    exact absurd below (Nat.not_lt_of_le (sketched.id_new member).1)
  code_eq := populated.code_eq
  modules_eq := populated.modules_eq
  members t above := by
    by_cases inside : t.index < s.types.size
    · obtain ⟨x,member,rfl⟩ := sketched.mem_ids above inside
      exact (populated.told x member).membersFormed sketched.listed populated.agree
    · rw [← populated.agree.size_eq] at inside
      exact membersFormed_of_blank (by rw [typeAt_of_le (Nat.le_of_not_lt inside)]; rfl)
  bodiless m above := by
    by_cases inside : m.owner.index < s.types.size
    · obtain ⟨x,member,same⟩ := sketched.mem_ids above inside
      rcases (populated.told x member).signs same.symm with absent | ⟨doc,-,signs⟩
      · rw [absent]; rfl
      · exact signs.body
    · rw [← populated.agree.size_eq] at inside
      rw [methodAt,typeAt_of_le (Nat.le_of_not_lt inside)]
      rfl

end Document
end Loom
