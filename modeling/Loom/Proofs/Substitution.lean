import Loom.Proofs.Redirection
import Loom.Specialization.Clone

/-!
What bringing a reference over to a clone comes to. Substitution, redirection and the moves of the parameters left over
are together one substitution of parameters, up to the clones that stand for applications.
-/
namespace Loom

open List Program TypeRef Scope
open GenericParam (bare declare getElem?_declare mem_declare)

variable {g h : GenericParam} {t : TypeId} {chain : List Scope} {name : String}

/-- What a clone has for a parameter of its original: the argument for the first parameter of the type, its own
    parameters for those that follow, and the parameters of its method for those of the method. -/
def Scope.instantiate (s : Scope) (g : GenericParam) : TypeRef :=
  match g.owner, g.position with
  | .type t, 0 => if t = s.owner then s.target else .param g
  | .type t, k + 1 => if t = s.owner then .param ⟨.type s.produced,k,g.name⟩ else .param g
  | .method m, k => if m.owner = s.owner then .param ⟨.method ⟨s.produced,m.position⟩,k,g.name⟩ else .param g
  | .reference _, _ => .param g

namespace Program

variable {p : Program}

theorem mem_typeParams : g ∈ p.typeParams t ↔ g.owner = .type t ∧ (p.typeAt t).generics[g.position]? = some g.name :=
  mem_declare

theorem mem_methodParams {m : MethodId} :
    g ∈ p.methodParams m ↔ g.owner = .method m ∧ (p.methodAt m).generics[g.position]? = some g.name :=
  mem_declare

/-- A move goes by owner and position, and ends at a parameter. -/
theorem rebindParam_bare (source target : Owner) (skip : Int) (same : g.bare = h.bare) :
    ∃ g' h', p.rebindParam source target skip g = .param g' ∧ p.rebindParam source target skip h = .param h' ∧
      g'.bare = h'.bare := by
  obtain ⟨owner,position⟩ : g.owner = h.owner ∧ g.position = h.position := by
    simpa [bare] using same
  have stays : ∃ g' h' : GenericParam, param g = .param g' ∧ param h = .param h' ∧ g'.bare = h'.bare :=
    ⟨g,h,rfl,rfl,same⟩
  simp only [rebindParam,owner,position]
  split
  · split
    · exact stays
    · cases found : (p.paramsOf target)[((h.position : Int) - skip).toNat]? with
      | none => exact stays
      | some r => exact ⟨r,r,rfl,rfl,rfl⟩
  · exact stays

theorem rebindScoped_eq (chain : List Scope) (t : TypeRef) :
    p.rebindScoped chain t = t.mapParams fun g => p.rebindScoped chain (.param g) := by
  induction chain generalizing t with
  | nil => exact (mapParams_id t).symm
  | cons s rest ih =>
    show p.rebindScoped rest (p.rebind _ _ 1 t) = t.mapParams fun g => p.rebindScoped rest (p.rebind _ _ 1 (.param g))
    rw [ih,rebind,mapParams_mapParams]
    congr 1
    funext g
    exact (ih _).symm

theorem rebindScoped_bare (chain : List Scope) (same : g.bare = h.bare) :
    ∃ g' h', p.rebindScoped chain (.param g) = .param g' ∧ p.rebindScoped chain (.param h) = .param h' ∧
      g'.bare = h'.bare := by
  induction chain generalizing g h with
  | nil => exact ⟨g,h,rfl,rfl,same⟩
  | cons s rest ih =>
    obtain ⟨g',h',first,second,same⟩ := p.rebindParam_bare (.type s.owner) (.type s.produced) 1 same
    obtain ⟨g'',h'',first',second',same⟩ := ih same
    exact ⟨g'',h'',by rw [← first',← first]; rfl,by rw [← second',← second]; rfl,same⟩

theorem rebindScoped_param_of_ne (other : ∀ s ∈ chain, g.owner ≠ .type s.owner) :
    p.rebindScoped chain (.param g) = .param g := by
  induction chain with
  | nil => rfl
  | cons s rest ih =>
    have stays : p.rebindParam (.type s.owner) (.type s.produced) 1 g = .param g := if_neg (other s (.head _))
    show p.rebindScoped rest (p.rebindParam (.type s.owner) (.type s.produced) 1 g) = _
    rw [stays]
    exact ih fun c member => other c (.tail _ member)

end Program

namespace CloneSite

variable {p : Program} {site : CloneSite}

/-- Where a parameter left over by substitution goes. -/
def move (site : CloneSite) (p : Program) (g : GenericParam) : TypeRef :=
  match site.method with
  | some (source,clone) => p.rebind (.method source) (.method clone) 0 (p.rebindScoped site.chain (.param g))
  | none => p.rebindScoped site.chain (.param g)

theorem move_of_none (plain : site.method = none) : site.move p = fun g => p.rebindScoped site.chain (.param g) := by
  funext g
  simp only [move,plain]

theorem move_of_some {source clone : MethodId} (inside : site.method = some (source,clone)) :
    site.move p = fun g => p.rebind (.method source) (.method clone) 0 (p.rebindScoped site.chain (.param g)) := by
  funext g
  simp only [move,inside]

theorem type_eq_ok {t t' : TypeRef} : site.type p t = .ok t' ↔
      ∃ r, p.redirect site.family (resolve site.chain t) = .ok r ∧ t' = r.mapParams (site.move p) := by
  rw [type,Except.bind_eq_ok]
  refine exists_congr fun r => and_congr_right fun _ => ?_
  rcases found : site.method with _ | ⟨source,clone⟩
  · have moved : r.mapParams (site.move p) = p.rebindScoped site.chain r := by
      rw [move_of_none found,← p.rebindScoped_eq]
    rw [moved]
    exact ⟨fun same => (Except.ok.inj same).symm,fun same => congrArg _ same.symm⟩
  · have moved : r.mapParams (site.move p) = p.rebind (.method source) (.method clone) 0 (p.rebindScoped site.chain r) := by
      rw [move_of_some found,p.rebindScoped_eq site.chain r,rebind,mapParams_mapParams]
      rfl
    rw [moved]
    exact ⟨fun same => (Except.ok.inj same).symm,fun same => congrArg _ same.symm⟩

theorem move_bare (site : CloneSite) (p : Program) (same : g.bare = h.bare) :
    ∃ g' h', site.move p g = .param g' ∧ site.move p h = .param h' ∧ g'.bare = h'.bare := by
  obtain ⟨g',h',first,second,same⟩ := p.rebindScoped_bare site.chain same
  rcases found : site.method with _ | ⟨source,clone⟩
  · rw [move_of_none found]
    exact ⟨g',h',first,second,same⟩
  · rw [move_of_some found]
    simp only [first,second]
    exact p.rebindParam_bare (.method source) (.method clone) 0 same

/-- The site stands in the clone that a scope names, beyond the first `n` types. -/
structure Stands (site : CloneSite) (p : Program) (n : Nat) (s : Scope) : Prop where
  chain : ∃ rest, site.chain = s :: rest ∧ ∀ c ∈ rest, c.owner.index < n
  old : s.owner.index < n
  new : n ≤ s.produced.index
  generics : (p.typeAt s.produced).generics = (p.typeAt s.owner).generics.tail
  method : ∀ m c, site.method = some (m,c) →
    m.owner = s.owner ∧ c = ⟨s.produced,m.position⟩ ∧ (p.methodAt c).generics = (p.methodAt m).generics

def sourceScope (site : CloneSite) (p : Program) (s : Scope) : List GenericParam :=
  p.typeParams s.owner ++ (site.method.map fun m => p.methodParams m.1).getD []

def cloneScope (site : CloneSite) (p : Program) (s : Scope) : List GenericParam :=
  p.typeParams s.produced ++ (site.method.map fun m => p.methodParams m.2).getD []

variable {n : Nat} {s : Scope} {g : GenericParam}

theorem Stands.owner_ne (stands : site.Stands p n s) : ∀ c ∈ site.chain, s.produced ≠ c.owner := by
  obtain ⟨rest,chain,olds⟩ := stands.chain
  intro c member same
  have old : c.owner.index < n := by
    rw [chain] at member
    rcases mem_cons.mp member with rfl | later
    · exact stands.old
    · exact olds c later
  have new := stands.new
  rw [same] at new
  omega

theorem resolveParam_of_not_binds (free : ∀ s ∈ chain, s.binds g = false) : resolveParam chain g = .param g := by
  have none : chain.find? (·.binds g) = none :=
    find?_eq_none.mpr fun s member => Bool.eq_false_iff.mp (free s member)
  rw [resolveParam,none]

theorem move_of_type (chained : p.rebindScoped site.chain (.param g) = .param h)
    (type : h.owner = .type t) : site.move p g = .param h := by
  rcases found : site.method with _ | ⟨source,clone⟩
  · rw [move_of_none found]
    exact chained
  · rw [move_of_some found]
    simp only [chained]
    exact if_neg (by rw [type]; exact nofun)

theorem Stands.move_trailing (stands : site.Stands p n s) {k : Nat}
    (at_ : (p.typeAt s.owner).generics[k + 1]? = some name) :
    site.move p ⟨.type s.owner,k + 1,name⟩ = .param ⟨.type s.produced,k,name⟩ := by
  obtain ⟨rest,chain,-⟩ := stands.chain
  have below : (p.paramsOf (.type s.produced))[(((k + 1 : Nat) : Int) - 1).toNat]? = some ⟨.type s.produced,k,name⟩ := by
    have index : (((k + 1 : Nat) : Int) - 1).toNat = k := by omega
    rw [index]
    show (declare _ _)[k]? = _
    rw [getElem?_declare,stands.generics,getElem?_tail,at_]
    rfl
  have first : p.rebindParam (.type s.owner) (.type s.produced) 1 ⟨.type s.owner,k + 1,name⟩ =
      .param ⟨.type s.produced,k,name⟩ := by
    simp only [rebindParam,below]
    rw [if_pos trivial,if_neg (by omega)]
    rfl
  refine move_of_type ?_ rfl
  rw [chain]
  show p.rebindScoped rest (p.rebindParam (.type s.owner) (.type s.produced) 1 _) = _
  rw [first]
  refine rebindScoped_param_of_ne fun c member same => ?_
  exact stands.owner_ne c (by rw [chain]; exact .tail _ member) (Owner.type.inj same)

theorem Stands.move_method (stands : site.Stands p n s) {m c : MethodId} (inside : site.method = some (m,c)) {k : Nat}
    (at_ : (p.methodAt m).generics[k]? = some name) : site.move p ⟨.method m,k,name⟩ = .param ⟨.method c,k,name⟩ := by
  obtain ⟨-,-,generics⟩ := stands.method m c inside
  have chained : p.rebindScoped site.chain (.param ⟨.method m,k,name⟩) = .param ⟨.method m,k,name⟩ :=
    rebindScoped_param_of_ne fun _ _ => nofun
  rw [move_of_some inside]
  simp only [chained]
  have counterpart : (p.paramsOf (.method c))[((k : Int) - 0).toNat]? = some ⟨.method c,k,name⟩ := by
    have index : ((k : Int) - 0).toNat = k := by omega
    rw [index]
    show (declare _ _)[k]? = _
    rw [getElem?_declare,generics,at_]
    rfl
  show p.rebindParam (.method m) (.method c) 0 ⟨.method m,k,name⟩ = _
  simp only [rebindParam,counterpart]
  rw [if_pos trivial,if_neg (by omega)]
  rfl

theorem mem_sourceScope (member : g ∈ site.sourceScope p s) : (∃ name, g = ⟨.type s.owner,0,name⟩) ∨
      (∃ k name, g = ⟨.type s.owner,k + 1,name⟩ ∧ (p.typeAt s.owner).generics[k + 1]? = some name) ∨
      ∃ m c k name, site.method = some (m,c) ∧ g = ⟨.method m,k,name⟩ ∧ (p.methodAt m).generics[k]? = some name := by
  obtain ⟨o,position,name⟩ := g
  rcases mem_append.mp member with type | method
  · obtain ⟨rfl,at_⟩ : o = .type s.owner ∧ _ := mem_typeParams.mp type
    cases position with
    | zero => exact .inl ⟨name,rfl⟩
    | succ k => exact .inr (.inl ⟨k,name,rfl,at_⟩)
  · rcases found : site.method with _ | ⟨m,c⟩
    · simp [found] at method
    · rw [found] at method
      obtain ⟨rfl,at_⟩ : o = .method m ∧ _ := mem_methodParams.mp method
      exact .inr (.inr ⟨m,c,position,name,rfl,rfl,at_⟩)

theorem Stands.resolve_first (stands : site.Stands p n s) (name : String) :
    resolveParam site.chain ⟨.type s.owner,0,name⟩ = s.target := by
  obtain ⟨rest,chain,-⟩ := stands.chain
  rw [resolveParam,chain,find?_cons_of_pos (by simp [binds])]

theorem resolve_trailing (chain : List Scope) (t : TypeId) (k : Nat) (name : String) :
    resolveParam chain ⟨.type t,k + 1,name⟩ = .param ⟨.type t,k + 1,name⟩ :=
  resolveParam_of_not_binds (by simp [binds])

theorem resolve_method (chain : List Scope) (m : MethodId) (k : Nat) (name : String) :
    resolveParam chain ⟨.method m,k,name⟩ = .param ⟨.method m,k,name⟩ :=
  resolveParam_of_not_binds (by simp [binds])

theorem Stands.instantiate_eq (stands : site.Stands p n s) (closed : s.target.isOpen = false)
    (member : g ∈ site.sourceScope p s) :
    (resolveParam site.chain g).mapParams (site.move p) = s.instantiate g := by
  rcases mem_sourceScope member with ⟨name,rfl⟩ | ⟨k,name,rfl,at_⟩ | ⟨m,c,k,name,found,rfl,at_⟩
  · rw [stands.resolve_first,mapParams_of_closed closed]
    simp [instantiate]
  · rw [resolve_trailing,mapParams_param,stands.move_trailing at_]
    simp [instantiate]
  · obtain ⟨owner,rfl,-⟩ := stands.method m c found
    rw [resolve_method,mapParams_param,stands.move_method found at_]
    simp [instantiate,owner]

theorem Stands.formed_resolveParam (stands : site.Stands p n s) (formed : p.Formed [] s.target)
    (member : g ∈ site.sourceScope p s) :
    p.Formed ((site.sourceScope p s).filter fun g => !s.binds g) (resolveParam site.chain g) := by
  have stays (free : s.binds g = false) : p.Formed ((site.sourceScope p s).filter fun g => !s.binds g) (.param g) :=
    formed_param (mem_filter.mpr ⟨member,by rw [free]; rfl⟩)
  rcases mem_sourceScope member with ⟨name,rfl⟩ | ⟨k,name,rfl,at_⟩ | ⟨m,c,k,name,found,rfl,at_⟩
  · rw [stands.resolve_first]
    exact formed.weaken nofun
  · rw [resolve_trailing]
    exact stays (by simp [binds])
  · rw [resolve_method]
    exact stays (by simp [binds])

theorem Stands.formed_move (stands : site.Stands p n s)
    (member : g ∈ (site.sourceScope p s).filter fun g => !s.binds g) : p.Formed (site.cloneScope p s) (site.move p g) := by
  obtain ⟨member,free⟩ := mem_filter.mp member
  rcases mem_sourceScope member with ⟨name,rfl⟩ | ⟨k,name,rfl,at_⟩ | ⟨m,c,k,name,found,rfl,at_⟩
  · simp [binds] at free
  · rw [stands.move_trailing at_]
    refine formed_param (mem_append_left _ (mem_typeParams.mpr ⟨rfl,?_⟩))
    rw [stands.generics,getElem?_tail]
    exact at_
  · rw [stands.move_method found at_]
    refine formed_param (mem_append_right _ ?_)
    rw [found]
    refine mem_methodParams.mpr ⟨rfl,?_⟩
    rw [(stands.method m c found).2.2]
    exact at_

end CloneSite

/-- A reference in a clone and the one at the same place of the original: with the clones taken back it is the original
    instantiated, and nothing that a clone stands for is left in it. -/
structure Scope.Corresponds (p : Program) (family : List Scope) (s : Scope) (t t' : TypeRef) : Prop where
  same : p.same (Scope.erase family t') (t.mapParams s.instantiate) = true
  redirected : p.Redirected family t'

namespace CloneSite

variable {p : Program} {site : CloneSite} {n : Nat} {s : Scope} {argument t t' : TypeRef}

section

variable (stands : site.Stands p n s) (grown : p.Family n argument site.family) (member : s ∈ site.family)
  (formed : p.MaybeFormed (site.sourceScope p s) t) (old : ∀ u ∈ t.parts, ∀ d, u.element? = some d → d.index < n)
include stands grown member formed old

theorem Stands.avoids_resolve :
    Avoids site.family (resolve site.chain t) := by
  intro u within d element
  rcases mem_parts_mapParams within with ⟨v,inner,shape,rfl⟩ | ⟨g,inner,deep⟩
  · have same : (v.mapParams (resolveParam site.chain)).element? = v.element? := by
      cases v with
      | param g => exact absurd rfl (shape g)
      | applied e args => rw [mapParams_applied]; rfl
      | absent => rfl
      | decl e => rfl
    rw [same] at element
    exact grown.avoids_of_old old v inner d element
  · rcases mem_sourceScope (formed.param_mem inner) with ⟨name,rfl⟩ | ⟨k,name,rfl,-⟩ | ⟨m,c,k,name,-,rfl,-⟩
    · rw [stands.resolve_first,grown.target s member] at deep
      exact grown.avoids_of_same (same_iff.mpr rfl) u deep d element
    · rw [resolve_trailing,mem_parts_param] at deep
      rw [deep] at element
      cases element
    · rw [resolve_method,mem_parts_param] at deep
      rw [deep] at element
      cases element

theorem Stands.type_corresponds (done : site.type p t = .ok t') :
    Corresponds p site.family s t t' := by
  obtain ⟨r,redirected,rfl⟩ := type_eq_ok.mp done
  have moves (g : GenericParam) : ∃ h, site.move p g = .param h := by
    obtain ⟨h,-,moved,-⟩ := move_bare site p (rfl : g.bare = g.bare)
    exact ⟨h,moved⟩
  refine ⟨same_iff.mpr ?_,grown.redirected_mapParams moves (grown.redirected redirected)⟩
  calc p.canonical (erase site.family (r.mapParams (site.move p)))
      = p.canonical ((erase site.family r).mapParams (site.move p)) := by
        rw [erase_mapParams grown.closed_target fun g => ?_]
        obtain ⟨h,moved⟩ := moves g
        rw [moved,erase_param]
    _ = p.canonical ((resolve site.chain t).mapParams (site.move p)) := by
        refine canonical_mapParams_congr (fun g => ?_)
          (grown.canonical_erase_redirect (stands.avoids_resolve grown member formed old) redirected)
        obtain ⟨h,h',first,second,same⟩ := move_bare site p (show g.bare.bare = g.bare from rfl)
        rw [first,second]
        exact congrArg param same
    _ = p.canonical (t.mapParams s.instantiate) := by
        rw [resolve,mapParams_mapParams]
        refine congrArg p.canonical (mapParams_congr fun g within => ?_)
        exact stands.instantiate_eq (grown.closed_target s member) (formed.param_mem within)

end

theorem Stands.type_formed (stands : site.Stands p n s) (grown : p.Family n argument site.family)
    (closed : p.Formed [] s.target) (formed : p.Formed (site.sourceScope p s) t) (done : site.type p t = .ok t') :
    p.Formed (site.cloneScope p s) t' := by
  obtain ⟨r,redirected,rfl⟩ := type_eq_ok.mp done
  have resolved := formed.mapParams fun g member => stands.formed_resolveParam closed member
  exact (grown.formed_redirect resolved redirected).mapParams fun g member => stands.formed_move member

end CloneSite
end Loom
