import Loom.Proofs.Substitution

/-!
Bringing over at a site. What it makes of a method, a field or an operand, case by case; and that it looks at declarations
only, so the bodies that are filled in later do not change it.
-/
namespace Loom

open Program
open TypeDecl (header isGeneric signature)
open Loom.Except (bind_eq_ok)

namespace Program

variable {p q : Program}

theorem redirectApplied_congr (agree : Agree header p q) (element : TypeId) (args : List TypeRef)
    (family : List Scope) : q.redirectApplied element args family = p.redirectApplied element args family := by
  induction family with
  | nil => rfl
  | cons s rest ih =>
    cases args with
    | nil => rw [redirectApplied,redirectApplied,ih]
    | cons first trailing =>
      rw [redirectApplied,redirectApplied,ih,agree.same_eq,isGeneric,isGeneric,agree.generics_eq,
        applyType,applyType,agree.generics_eq,agree.fullName_eq]

theorem redirect_congr (agree : Agree header p q) (family : List Scope) (t : TypeRef) :
    q.redirect family t = p.redirect family t := by
  induction t with
  | absent => rfl
  | decl d => rfl
  | param g => rfl
  | applied d args ih =>
    have lists : q.redirectList family args = p.redirectList family args := by
      induction args with
      | nil => rfl
      | cons a rest lists =>
        rw [redirectList,redirectList,ih a (.head _),lists fun b member => ih b (.tail _ member)]
    simp only [redirect,lists,redirectApplied_congr agree]

theorem rebindParam_congr {source target : Owner} (params : q.paramsOf target = p.paramsOf target) (skip : Int)
    (g : GenericParam) : q.rebindParam source target skip g = p.rebindParam source target skip g := by
  rw [rebindParam,rebindParam,params]

theorem rebindScoped_congr (agree : Agree header p q) (chain : List Scope) (t : TypeRef) :
    q.rebindScoped chain t = p.rebindScoped chain t := by
  induction chain generalizing t with
  | nil => rfl
  | cons s rest ih =>
    have params : q.paramsOf (.type s.produced) = p.paramsOf (.type s.produced) := typeParams_congr (agree.generics_eq _)
    show q.rebindScoped rest (q.rebind _ _ 1 t) = p.rebindScoped rest (p.rebind _ _ 1 t)
    rw [ih,rebind,rebind]
    congr 2
    funext g
    exact rebindParam_congr params 1 g

end Program

theorem CloneSite.type_congr {p q : Program} {site : CloneSite} (agree : Agree header p q)
    (methods : ∀ m c, site.method = some (m,c) → (q.methodAt c).generics = (p.methodAt c).generics) (t : TypeRef) :
    site.type q t = site.type p t := by
  rcases found : site.method with _ | ⟨m,c⟩
  · simp only [type,found,redirect_congr agree,rebindScoped_congr agree]
  · have params : q.paramsOf (.method c) = p.paramsOf (.method c) :=
      congrArg (GenericParam.declare (.method c)) (methods m c found)
    have moves (u : TypeRef) : q.rebind (.method m) (.method c) 0 u = p.rebind (.method m) (.method c) 0 u := by
      rw [rebind,rebind]
      congr 1
      funext g
      exact rebindParam_congr params 0 g
    simp only [type,found,redirect_congr agree,rebindScoped_congr agree,moves]

namespace CloneSite

variable {p q : Program} {site : CloneSite}

theorem type_mono (agree : Agree signature p q) (t : TypeRef) : site.type q t = site.type p t :=
  type_congr agree.header (fun _ c _ => agree.method_eq c MethodDecl.generics fun _ => rfl) t

def Redeclared (site : CloneSite) (before after : TypeRef) (source : TypeId) : Prop :=
  before.element? = some source ∧ ∃ t, after.element? = some t ∧ site.isProduced t = true

theorem methodRef_eq_ok {r r' : MethodRef} :
    site.methodRef p r = .ok r' ↔ ∃ declaring, site.type p r.declaring = .ok declaring ∧
      ((∃ source m c, site.Redeclared r.declaring declaring source ∧ p.findMethod? source r = some m ∧
          site.clone? m = some c ∧ r' = p.refOn c declaring (site.refId r.id)) ∨
        (∀ source, ¬site.Redeclared r.declaring declaring source) ∧ r' = r.withDeclaring declaring (site.refId r.id)) := by
  rw [methodRef,bind_eq_ok]
  refine exists_congr fun declaring => and_congr_right fun _ => ?_
  by_cases here : ∃ source, site.Redeclared r.declaring declaring source
  · obtain ⟨source,before,t,after,produced⟩ := here
    have only (other : TypeId) : site.Redeclared r.declaring declaring other ↔ other = source :=
      ⟨fun also => Option.some.inj (also.1.symm.trans before),fun same => ⟨same ▸ before,t,after,produced⟩⟩
    simp only [before,after,produced,if_true,only]
    cases found : p.findMethod? source r with
    | none => simp [found,throw,throwThe,MonadExceptOf.throw]
    | some m =>
      cases cloned : site.clone? m with
      | none => simp [found,cloned,throw,throwThe,MonadExceptOf.throw]
      | some c => simp [found,cloned,pure,Except.pure,eq_comm]
  · have plain : r.withDeclaring declaring (site.refId r.id) = r' ↔
        (∃ source m c, site.Redeclared r.declaring declaring source ∧ p.findMethod? source r = some m ∧
          site.clone? m = some c ∧ r' = p.refOn c declaring (site.refId r.id)) ∨
        (∀ source, ¬site.Redeclared r.declaring declaring source) ∧ r' = r.withDeclaring declaring (site.refId r.id) := by
      constructor
      · rintro rfl
        exact .inr ⟨fun source there => here ⟨source,there⟩,rfl⟩
      · rintro (⟨source,_,_,there,-⟩ | ⟨-,rfl⟩)
        · exact absurd ⟨source,there⟩ here
        · rfl
    rw [← plain]
    split
    · next t source after before =>
      rw [if_neg fun produced => here ⟨source,before,t,after,produced⟩]
      simp [pure,Except.pure]
    · simp [pure,Except.pure]

theorem methodRef_mono (agree : Agree signature p q) {r r' : MethodRef} (done : site.methodRef p r = .ok r') :
    site.methodRef q r = .ok r' := by
  rw [methodRef_eq_ok] at done ⊢
  simp only [type_mono agree,agree.findMethod?_eq,agree.refOn_eq]
  exact done

theorem methodRef_id {r r' : MethodRef} (done : site.methodRef p r = .ok r') : r'.id = site.refId r.id := by
  obtain ⟨declaring,-,⟨_,_,_,-,-,-,rfl⟩ | ⟨-,rfl⟩⟩ := methodRef_eq_ok.mp done
  · rfl
  · rfl

theorem field_eq_ok {f f' : FieldRef} : site.field p f = .ok f' ↔ ∃ declaring, site.type p f.declaring = .ok declaring ∧
      ((∃ t d, declaring.element? = some t ∧ site.isProduced t = true ∧ (p.typeAt t).field? f.name = some d ∧
          f' = ⟨f.name,d.type,declaring⟩) ∨
        (∀ t, declaring.element? = some t → site.isProduced t = false) ∧ f' = { f with declaring }) := by
  rw [field,bind_eq_ok]
  refine exists_congr fun declaring => and_congr_right fun _ => ?_
  cases after : declaring.element? with
  | none => simp [pure,Except.pure,@eq_comm _ f']
  | some t =>
    cases produced : site.isProduced t with
    | false => simp [produced,pure,Except.pure,@eq_comm _ f']
    | true =>
      cases found : (p.typeAt t).field? f.name with
      | none => simp [produced,found,throw,throwThe,MonadExceptOf.throw]
      | some d => simp [produced,found,pure,Except.pure,@eq_comm _ f']

theorem field_mono (agree : Agree signature p q) {f f' : FieldRef} (done : site.field p f = .ok f') :
    site.field q f = .ok f' := by
  rw [field_eq_ok] at done ⊢
  simp only [type_mono agree,agree.field?_eq]
  exact done

theorem methodOperand_mono (agree : Agree signature p q) {o o' : MethodOperand}
    (done : site.methodOperand p o = .ok o') : site.methodOperand q o = .ok o' := by
  cases o with
  | plain r =>
    rw [methodOperand,bind_eq_ok] at done ⊢
    obtain ⟨r',brought,same⟩ := done
    exact ⟨r',methodRef_mono agree brought,same⟩
  | applied r args =>
    rw [methodOperand,bind_eq_ok] at done ⊢
    obtain ⟨r',brought,done⟩ := done
    refine ⟨r',methodRef_mono agree brought,?_⟩
    rw [bind_eq_ok] at done ⊢
    obtain ⟨args',all,done⟩ := done
    have types : site.type q = site.type p := funext (type_mono agree)
    exact ⟨args',by rw [types]; exact all,Except.mapError_eq_ok.mpr (Except.mapError_eq_ok.mp done)⟩

theorem operand_mono (agree : Agree signature p q) {o o' : Operand} (done : site.operand p o = .ok o') :
    site.operand q o = .ok o' := by
  cases o with
  | type t =>
    rw [operand,type_mono agree]
    exact done
  | method m =>
    rw [operand,bind_eq_ok] at done ⊢
    obtain ⟨m',brought,same⟩ := done
    exact ⟨m',methodOperand_mono agree brought,same⟩
  | field f =>
    rw [operand,bind_eq_ok] at done ⊢
    obtain ⟨f',brought,same⟩ := done
    exact ⟨f',field_mono agree brought,same⟩
  | none => exact done
  | int n => exact done
  | text t => exact done
  | branch i => exact done

theorem kind_operand {o o' : Operand} (done : site.operand p o = .ok o') : o'.kind = o.kind := by
  cases o with
  | type t => obtain ⟨t',-,same⟩ := bind_eq_ok.mp done; cases same; rfl
  | method m => obtain ⟨m',-,same⟩ := bind_eq_ok.mp done; cases same; rfl
  | field f => obtain ⟨f',-,same⟩ := bind_eq_ok.mp done; cases same; rfl
  | none => cases done; rfl
  | int n => cases done; rfl
  | text t => cases done; rfl
  | branch i => cases done; rfl

theorem reference?_operand {o o' : Operand} (done : site.operand p o = .ok o') :
    o'.reference? = o.reference?.map site.refId := by
  cases o with
  | method o =>
    obtain ⟨o',brought,⟨⟩⟩ := bind_eq_ok.mp done
    cases o with
    | plain r =>
      obtain ⟨r',moved,⟨⟩⟩ := bind_eq_ok.mp brought
      exact congrArg some (methodRef_id moved)
    | applied r args =>
      obtain ⟨r',moved,applied⟩ := bind_eq_ok.mp brought
      obtain ⟨args',-,applied⟩ := bind_eq_ok.mp applied
      obtain ⟨-,rfl⟩ := MethodRef.apply_eq_ok.mp (Except.mapError_eq_ok.mp applied)
      exact congrArg some (methodRef_id moved)
  | type t => obtain ⟨t',-,⟨⟩⟩ := bind_eq_ok.mp done; rfl
  | field f => obtain ⟨f',-,⟨⟩⟩ := bind_eq_ok.mp done; rfl
  | none => cases done; rfl
  | int n => cases done; rfl
  | text t => cases done; rfl
  | branch i => cases done; rfl

end CloneSite
end Loom
