import Loom.Proofs.Sites

/-!
Overloads. A reference to a declared method is looked up by name, number of generic parameters and signature, and the
first method that answers is taken: it finds the method it was made from exactly when no earlier method overlaps with it.
-/
namespace Loom

open List TypeRef GenericParam

theorem TypeRef.element?_mapParams {t : TypeRef} {d : TypeId} (element : t.element? = some d)
    (f : GenericParam → TypeRef) : (t.mapParams f).element? = some d := by
  cases t with
  | decl e => exact element
  | applied e args => rw [mapParams_applied]; exact element
  | absent => cases element
  | param g => cases element

namespace Program

variable {p : Program} {m c : MethodId} {t : TypeRef} {id : RefId}

/-- Two methods that no reference tells apart. -/
structure Overlaps (p : Program) (m c : MethodId) : Prop where
  name : (p.methodAt m).name = (p.methodAt c).name
  generics : (p.methodAt m).generics.length = (p.methodAt c).generics.length
  params : p.sameSignatureList (p.methodAt m).paramTypes (p.methodAt c).paramTypes = true

/-- No method that stands before it in its type overlaps with it. -/
def Foremost (p : Program) (c : MethodId) : Prop := ∀ k < c.position, ¬p.Overlaps ⟨c.owner,k⟩ c

/-- In signatures a parameter that was moved counts like the one it was. -/
theorem signatureForm_rebindParams {source target : Owner} (alike : target.isMethod = source.isMethod) (names : List String)
    (t : TypeRef) : p.signatureForm (t.rebindParams source (declare target names)) = p.signatureForm t := by
  have same (g : GenericParam) :
      (if g.owner = source then (declare target names)[g.position]?.getD g else g).positional = g.positional := by
    split
    · next owner =>
      rw [getElem?_declare]
      cases names[g.position]? with
      | none => rfl
      | some name => exact positional_eq_iff.mpr ⟨rfl,by rw [isMethod,isMethod,owner]; exact alike⟩
    · rfl
  rw [rebindParams]
  induction t with
  | absent => rfl
  | decl d => rfl
  | param g => exact congrArg param (same g)
  | applied d args ih =>
    rw [mapParams_applied,signatureForm,signatureForm,relabel_applied,relabel_applied,
      map_map]
    congr 1
    exact map_congr_left ih

theorem map_signatureForm_rebindParams (source target : Owner) (alike : target.isMethod = source.isMethod)
    (names : List String) (ts : List TypeRef) :
    (ts.map (rebindParams source (declare target names))).map p.signatureForm = ts.map p.signatureForm := by
  rw [map_map]
  exact map_congr_left fun t _ => signatureForm_rebindParams alike names t

theorem answers_refOn : p.Answers (p.refOn c t id) m ↔ p.Overlaps m c := by
  have forms : ((p.refOn c t id).params).map p.signatureForm = (p.methodAt c).paramTypes.map p.signatureForm :=
    map_signatureForm_rebindParams (.method c) (.reference id) rfl _ _
  rw [Answers,sameSignatureList_iff,forms,← sameSignatureList_iff]
  exact ⟨fun same => ⟨same.1,same.2.1,same.2.2⟩,fun same => ⟨same.name,same.generics,same.params⟩⟩

/-- Where a reference is looked up does not depend on the type it is through. -/
theorem findMethod?_withDeclaring (d : TypeId) (r : MethodRef) (t : TypeRef) (id : RefId) :
    p.findMethod? d (r.withDeclaring t id) = p.findMethod? d r := by
  have forms (ts : List TypeRef) : p.sameSignatureList ts (r.withDeclaring t id).params = p.sameSignatureList ts r.params := by
    rw [Bool.eq_iff_iff,sameSignatureList_iff,sameSignatureList_iff,MethodRef.withDeclaring,
      map_signatureForm_rebindParams (.reference r.id) (.reference id) rfl]
  simp only [findMethod?,forms]
  rfl

theorem SignatureFormed.refOn (formed : p.SignatureFormed c) (t : TypeRef) (id : RefId) :
    p.MaybeFormed (p.typeParams c.owner ++ (p.refOn c t id).genericParams) (p.refOn c t id).returns ∧
      ∀ u ∈ (p.refOn c t id).params, p.Formed (p.typeParams c.owner ++ (p.refOn c t id).genericParams) u := by
  have other (g : GenericParam) (type : g ∈ p.typeParams c.owner) : g.owner ≠ .method c := by
    rw [(mem_typeParams.mp type).1]
    exact nofun
  refine ⟨formed.returns.rebindParams other,fun u member => ?_⟩
  obtain ⟨v,among,rfl⟩ := mem_map.mp member
  exact (formed.params v among).rebindParams other

/-- A reference through another type is formed like the first, with its own parameters in their place. -/
theorem MethodRefFormed.withDeclaring {scope scope' : List GenericParam} {r : MethodRef} {d : TypeId}
    (formed : p.MethodRefFormed scope r d) (element : t.element? = some d) (declaring : p.Formed scope' t) (id : RefId) :
    p.MethodRefFormed scope' (r.withDeclaring t id) d := by
  have other (g : GenericParam) (type : g ∈ p.typeParams d) : g.owner ≠ .reference r.id := by
    rw [(mem_typeParams.mp type).1]
    exact nofun
  refine ⟨element,declaring,formed.returns.rebindParams other,fun u member => ?_,?_⟩
  · obtain ⟨v,among,rfl⟩ := mem_map.mp member
    exact (formed.params v among).rebindParams other
  · rw [findMethod?_withDeclaring]
    exact formed.found

theorem Overlaps.refl (c : MethodId) : p.Overlaps c c := ⟨rfl,rfl,sameSignatureList_iff.mpr rfl⟩

theorem findMethod?_refOn_isSome (within : c ∈ p.methodsOf c.owner) :
    (p.findMethod? c.owner (p.refOn c t id)).isSome = true := by
  obtain ⟨name,generics,params⟩ : p.Answers (p.refOn c t id) c := answers_refOn.mpr (Overlaps.refl c)
  refine find?_isSome.mpr ⟨c,within,?_⟩
  simp only [name,generics,params,beq_self_eq_true,Bool.and_self]

/-- A reference to a method finds the first method that overlaps with it. -/
theorem findMethod?_refOn_eq_some : p.findMethod? c.owner (p.refOn c t id) = some m ↔
    m ∈ p.methodsOf c.owner ∧ p.Overlaps m c ∧ ∀ k < m.position, ¬p.Overlaps ⟨c.owner,k⟩ c := by
  have answers (k : MethodId) : ((p.methodAt k).name == (p.refOn c t id).name &&
      (p.methodAt k).generics.length == (p.refOn c t id).generics.length &&
      p.sameSignatureList (p.methodAt k).paramTypes (p.refOn c t id).params) = true ↔ p.Overlaps k c := by
    rw [Bool.and_eq_true,Bool.and_eq_true,beq_iff_eq,beq_iff_eq,and_assoc]
    exact answers_refOn
  obtain ⟨o,n⟩ := m
  rw [findMethod?,find?_eq_some_iff_getElem,mem_methodsOf,answers]
  simp only [methodsOf,length_map,length_range,getElem_map,getElem_range,MethodId.mk.injEq,
    Bool.not_eq_true',Bool.eq_false_iff,ne_eq,answers]
  constructor
  · rintro ⟨overlaps,i,inside,⟨rfl,rfl⟩,earlier⟩
    exact ⟨⟨rfl,inside⟩,overlaps,earlier⟩
  · rintro ⟨⟨rfl,inside⟩,overlaps,earlier⟩
    exact ⟨overlaps,n,inside,⟨rfl,rfl⟩,earlier⟩

theorem findMethod?_refOn (within : c ∈ p.methodsOf c.owner) :
    p.findMethod? c.owner (p.refOn c t id) = some c ↔ p.Foremost c := by
  rw [findMethod?_refOn_eq_some]
  exact ⟨fun found => found.2.2,fun foremost => ⟨within,.refl c,foremost⟩⟩

theorem mem_parts_rebindParams {source : Owner} {params : List GenericParam} {g : GenericParam} :
    .param g ∈ (t.rebindParams source params).parts ↔
      ∃ h, .param h ∈ t.parts ∧ g = if h.owner = source then params[h.position]?.getD h else h := by
  rw [rebindParams]
  induction t with
  | absent => simp
  | decl d => simp
  | param h => simp
  | applied d args ih =>
    rw [mapParams_applied]
    simp only [mem_parts_applied,reduceCtorEq,false_or,mem_map,exists_exists_and_eq_and]
    constructor
    · rintro ⟨a,member,within⟩
      obtain ⟨h,inner,same⟩ := (ih a member).mp within
      exact ⟨h,⟨a,member,inner⟩,same⟩
    · rintro ⟨h,⟨a,member,inner⟩,same⟩
      exact ⟨a,member,(ih a member).mpr ⟨h,inner,same⟩⟩

/-- A reference to a method: made on a type, and moved to other types any number of times. -/
inductive Refers (p : Program) (m : MethodId) : MethodRef → Prop
  | made (d : TypeRef) (id : RefId) : Refers p m (p.refOn m d id)
  | moved {r : MethodRef} (refers : Refers p m r) (d : TypeRef) (id : RefId) : Refers p m (r.withDeclaring d id)

def Shows (ts : List TypeRef) (g : GenericParam) : Prop := ∃ u ∈ ts, .param g ∈ u.parts

theorem shows_rebindParams {source : Owner} {params : List GenericParam} {g : GenericParam} (ts : List TypeRef) :
    Shows (ts.map (rebindParams source params)) g ↔
      ∃ h, Shows ts h ∧ g = if h.owner = source then params[h.position]?.getD h else h := by
  simp only [Shows,mem_map,exists_exists_and_eq_and,mem_parts_rebindParams]
  constructor
  · rintro ⟨u,member,h,within,same⟩
    exact ⟨h,⟨u,member,within⟩,same⟩
  · rintro ⟨h,⟨u,member,within⟩,same⟩
    exact ⟨u,member,h,within,same⟩

theorem shows_refOn {g : GenericParam} : Shows ((p.refOn m t id).returns :: (p.refOn m t id).params) g ↔
    ∃ h, Shows ((p.methodAt m).returns :: (p.methodAt m).paramTypes) h ∧
      g = if h.owner = .method m then (declare (.reference id) (p.methodAt m).generics)[h.position]?.getD h else h :=
  shows_rebindParams (_ :: _)

theorem shows_withDeclaring {r : MethodRef} {g : GenericParam} :
    Shows ((r.withDeclaring t id).returns :: (r.withDeclaring t id).params) g ↔ ∃ h, Shows (r.returns :: r.params) h ∧
      g = if h.owner = .reference r.id then (declare (.reference id) r.generics)[h.position]?.getD h else h :=
  shows_rebindParams (_ :: _)

/-- The parameters of a method that stand in its signature are among those it declares. -/
def DeclaresOwn (p : Program) (m : MethodId) : Prop := ∀ g, Shows ((p.methodAt m).returns :: (p.methodAt m).paramTypes) g →
  g.owner = .method m → g.position < (p.methodAt m).generics.length

theorem SignatureFormed.declaresOwn (formed : p.SignatureFormed m) : p.DeclaresOwn m := by
  rintro g ⟨u,member,within⟩ owner
  have formed : p.MaybeFormed (p.scopeOf m) u := by
    rcases mem_cons.mp member with rfl | among
    · exact formed.returns
    · exact .inr (formed.params u among)
  rcases formed with rfl | formed
  · cases mem_parts_absent.mp within
  · rcases mem_append.mp (formed _ within) with type | method
    · rw [(mem_typeParams.mp type).1] at owner
      cases owner
    · exact (List.getElem?_eq_some_iff.mp (mem_methodParams.mp method).2).1

namespace Refers

variable {r : MethodRef} {g : GenericParam}

theorem findMethod?_eq_some (refers : p.Refers m r) : p.findMethod? m.owner r = some c ↔
    c ∈ p.methodsOf m.owner ∧ p.Overlaps c m ∧ ∀ k < c.position, ¬p.Overlaps ⟨m.owner,k⟩ m := by
  induction refers with
  | made d id => exact findMethod?_refOn_eq_some
  | moved _ d id ih => rw [findMethod?_withDeclaring,ih]

theorem findMethod?_isSome (refers : p.Refers m r) (within : m ∈ p.methodsOf m.owner) :
    (p.findMethod? m.owner r).isSome = true := by
  induction refers with
  | made d id => exact findMethod?_refOn_isSome within
  | moved _ d id ih => rwa [findMethod?_withDeclaring]

theorem shows_undeclared (refers : p.Refers m r) (shown : Shows ((p.methodAt m).returns :: (p.methodAt m).paramTypes) g)
    (owner : g.owner = .method m) (beyond : (p.methodAt m).generics.length ≤ g.position) : Shows (r.returns :: r.params) g := by
  induction refers with
  | made d id =>
    refine shows_refOn.mpr ⟨g,shown,?_⟩
    rw [if_pos owner,getElem?_declare,getElem?_eq_none beyond]
    rfl
  | moved _ d id ih =>
    refine shows_withDeclaring.mpr ⟨g,ih,?_⟩
    rw [if_neg (by rw [owner]; exact nofun)]

theorem shows_cases (refers : p.Refers m r) (own : p.DeclaresOwn m) (shown : Shows (r.returns :: r.params) g) :
    g ∈ r.genericParams ∨ Shows ((p.methodAt m).returns :: (p.methodAt m).paramTypes) g ∧ g.owner ≠ .method m := by
  have moved {names : List String} {o : Owner} {h : GenericParam} (inside : h.position < names.length) :
      (declare o names)[h.position]?.getD h ∈ declare o names := by
    rw [getElem?_declare,getElem?_eq_getElem inside]
    exact mem_declare.mpr ⟨rfl,getElem?_eq_getElem inside⟩
  induction refers generalizing g with
  | made d id =>
    obtain ⟨h,before,rfl⟩ := shows_refOn.mp shown
    split
    · next owner => exact .inl (moved (own h before owner))
    · next owner => exact .inr ⟨before,owner⟩
  | @moved r _ d id ih =>
    obtain ⟨h,before,rfl⟩ := shows_withDeclaring.mp shown
    split
    · next owner =>
      rcases Nat.lt_or_ge h.position r.generics.length with inside | beyond
      · exact .inl (moved inside)
      · rcases ih before with declared | outer
        · have inside := (List.getElem?_eq_some_iff.mp (mem_declare.mp declared).2).1
          omega
        · rw [getElem?_declare,getElem?_eq_none beyond]
          exact .inr outer
    · next owner =>
      rcases ih before with declared | outer
      · exact absurd (mem_declare.mp declared).1 owner
      · exact .inr outer

end Refers

/-- A reference to a method leads back to it: to the first method of its type that has its name, number of generic
    parameters and parameter types, which is the method itself if no earlier one has them too. In the signature of the
    reference there are no parameters of the method, exactly if the method declares those in its own signature; then the
    parameters that are not taken over are those of the reference itself. -/
theorem reference_leads_back {r : MethodRef} (within : m ∈ p.methodsOf m.owner) (refers : p.Refers m r) :
    (∃ k ∈ p.methodsOf m.owner, p.findMethod? m.owner r = some k ∧ p.Overlaps k m ∧
        ∀ j < k.position, ¬p.Overlaps ⟨m.owner,j⟩ m) ∧
      (p.Foremost m → p.findMethod? m.owner r = some m) ∧
      ((∀ g, Shows (r.returns :: r.params) g → g.owner ≠ .method m) ↔ p.DeclaresOwn m) ∧
      (p.DeclaresOwn m → ∀ g, Shows (r.returns :: r.params) g →
        g ∈ r.genericParams ∨ Shows ((p.methodAt m).returns :: (p.methodAt m).paramTypes) g) := by
  refine ⟨?_,fun foremost => refers.findMethod?_eq_some.mpr ⟨within,.refl m,foremost⟩,⟨fun none g shown owner => ?_,
    fun own g shown => ?_⟩,fun own g shown => (refers.shows_cases own shown).imp_right And.left⟩
  · obtain ⟨k,found⟩ := Option.isSome_iff_exists.mp (refers.findMethod?_isSome within)
    obtain ⟨inside,overlaps,first⟩ := refers.findMethod?_eq_some.mp found
    exact ⟨k,inside,found,overlaps,first⟩
  · by_contra beyond
    exact none g (refers.shows_undeclared shown owner (Nat.le_of_not_lt beyond)) owner
  · rcases refers.shows_cases own shown with declared | outer
    · rw [(mem_declare.mp declared).1]
      exact nofun
    · exact outer.2

/-- A generic type with two overloads of a generic method. -/
def rack : Program :=
  { types := #[{ name := "Rack", generics := ["T"], home := ⟨0⟩
                 methods := [{ name := "Put", generics := ["U"], params := [⟨"x",.param ⟨.type ⟨0⟩,0,"T"⟩⟩] },
                   { name := "Put", generics := ["U"], returns := .param ⟨.method ⟨⟨0⟩,1⟩,0,"U"⟩
                     params := [⟨"x",.applied ⟨0⟩ [.param ⟨.method ⟨⟨0⟩,1⟩,0,"U"⟩]⟩] }] }] }

/-- The reference to the second overload, moved twice. -/
def rackRef : MethodRef := ((rack.ref ⟨⟨0⟩,1⟩).withDeclaring (.decl ⟨0⟩)).withDeclaring (.applied ⟨0⟩ [.decl ⟨0⟩])

theorem reference_leads_back_rack : rack.Foremost ⟨⟨0⟩,1⟩ ∧ rack.DeclaresOwn ⟨⟨0⟩,1⟩ ∧
    rack.findMethod? ⟨0⟩ rackRef = some ⟨⟨0⟩,1⟩ ∧
    (rackRef.returns == .param ⟨.reference ⟨default,0,2⟩,0,"U"⟩) = true ∧
    ∀ g, Shows (rackRef.returns :: rackRef.params) g → g.owner ≠ .method ⟨⟨0⟩,1⟩ := by
  have foremost : rack.Foremost ⟨⟨0⟩,1⟩ := fun k before overlaps => by
    obtain rfl : k = 0 := Nat.lt_one_iff.mp before
    exact absurd overlaps.params (by decide)
  have own : rack.DeclaresOwn ⟨⟨0⟩,1⟩ := SignatureFormed.declaresOwn ⟨.inr (by decide),by decide⟩
  obtain ⟨-,found,none,-⟩ := reference_leads_back (mem_methodsOf.mpr ⟨rfl,by decide⟩)
    (.moved (.moved (.made (p := rack) (m := ⟨⟨0⟩,1⟩) _ _) _ _) _ _)
  exact ⟨foremost,own,found foremost,by decide,none.mpr own⟩

/-- With one argument for all, the first clone of a declaration stands for its applications. -/
theorem redirectApplied_element {family : List Scope} {argument r : TypeRef} {element : TypeId} {args : List TypeRef}
    (targets : ∀ s ∈ family, s.target = argument) (done : p.redirectApplied element args family = .ok r) :
    r.element? = some element ∨ ∃ s, family.find? (·.owner == element) = some s ∧ r.element? = some s.produced := by
  induction family with
  | nil =>
    cases done
    exact .inl rfl
  | cons s rest ih =>
    obtain ⟨target,targets⟩ := forall_mem_cons.mp targets
    by_cases owner : s.owner = element
    · cases args with
      | nil => rw [redirectApplied,if_pos owner] at done; cases done
      | cons first trailing =>
        cases same : p.same first s.target with
        | true =>
          refine .inr ⟨s,find?_cons_of_pos (beq_iff_eq.mpr owner),?_⟩
          rw [redirectApplied,if_pos owner,if_pos same] at done
          split at done
          · cases done
            rfl
          · obtain ⟨-,rfl⟩ := applyType_eq_ok.mp (Except.mapError_eq_ok.mp done)
            rfl
        | false =>
          -- the clones that follow are for the same argument, so none of them stands for the application either
          rw [redirectApplied,if_pos owner,if_neg (Bool.eq_false_iff.mp same)] at done
          rcases redirectApplied_eq_ok done with ⟨rfl,-⟩ | ⟨c,member,-,replaced⟩
          · exact .inl rfl
          · obtain ⟨_,head,alike⟩ := replaced.same
            cases head
            rw [targets c member,← target,same] at alike
            cases alike
    · have later : p.redirectApplied element args rest = .ok r := by
        cases args with
        | nil => rwa [redirectApplied,if_neg owner] at done
        | cons first trailing => rwa [redirectApplied,if_neg owner] at done
      rcases ih targets later with same | ⟨c,first,produced⟩
      · exact .inl same
      · refine .inr ⟨c,?_,produced⟩
        rw [find?_cons_of_neg (by rwa [beq_iff_eq])]
        exact first

end Program

namespace CloneSite

theorem type_absent {p : Program} {site : CloneSite} {t : TypeRef} (done : site.type p .absent = .ok t) : t = .absent := by
  obtain ⟨r,redirected,rfl⟩ := type_eq_ok.mp done
  cases redirected
  rfl

variable {p : Program} {site : CloneSite} {n : Nat} {argument t t' : TypeRef} {d : TypeId}

theorem element_type (grown : p.Family n argument site.family) (done : site.type p t = .ok t')
    (element : t.element? = some d) :
    t'.element? = some d ∨ ∃ s, site.family.find? (·.owner == d) = some s ∧ t'.element? = some s.produced := by
  obtain ⟨r,redirected,rfl⟩ := type_eq_ok.mp done
  suffices leads : r.element? = some d ∨ ∃ s, site.family.find? (·.owner == d) = some s ∧ r.element? = some s.produced by
    rcases leads with same | ⟨s,first,produced⟩
    · exact .inl (element?_mapParams same _)
    · exact .inr ⟨s,first,element?_mapParams produced _⟩
  cases t with
  | decl e =>
    cases redirected
    exact .inl element
  | applied e args =>
    cases element
    rw [Scope.resolve,mapParams_applied,Program.redirect] at redirected
    obtain ⟨rs,-,outer⟩ := Except.bind_eq_ok.mp redirected
    exact Program.redirectApplied_element grown.target outer
  | absent => cases element
  | param g => cases element

theorem Redeclared.element_eq {c m : MethodId} {source : TypeId} (redeclared : site.Redeclared t t' source)
    (grown : p.Family n argument site.family) (old : source.index < n) (done : site.type p t = .ok t')
    (owner : m.owner = source) (cloned : site.clone? m = some c) : t'.element? = some c.owner := by
  obtain ⟨before,u,after,produced⟩ := redeclared
  obtain ⟨s,first,rfl⟩ := Option.map_eq_some_iff.mp cloned
  rw [owner] at first
  rcases element_type grown done before with same | ⟨c,found,became⟩
  · obtain ⟨s,member,beyond⟩ := any_eq_true.mp produced
    obtain rfl : source = u := Option.some.inj (same.symm.trans after)
    have new := (grown.new s member).1
    rw [eq_of_beq beyond] at new
    omega
  · obtain rfl := Option.some.inj (found.symm.trans first)
    exact became

theorem element_of_not_redeclared (grown : p.Family n argument site.family) (done : site.type p t = .ok t')
    (element : t.element? = some d) (plain : ∀ source, ¬site.Redeclared t t' source) : t'.element? = some d := by
  rcases element_type grown done element with same | ⟨s,first,became⟩
  · exact same
  · refine absurd ⟨element,_,became,?_⟩ (plain d)
    exact any_eq_true.mpr ⟨s,mem_of_find?_eq_some first,beq_self_eq_true _⟩

end CloneSite
end Loom
