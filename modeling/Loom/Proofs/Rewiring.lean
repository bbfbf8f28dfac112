import Loom.Proofs.Editing
import Loom.Proofs.Targets

/-!
Injection keeps a program well-formed: a registry answers with clones that are declared, and a recorded method is one of
its clone, so a rewired operand names what exists.
-/
namespace Loom

open Runs Program
open TypeDecl (signature)

/-- The clone of an entry is declared, with the methods that the entry records. -/
structure Entry.Stands (p : Program) (e : Entry) : Prop where
  declared : e.specialized.index < p.types.size
  methods : ∀ m c, e.method? m = some c → c ∈ p.methodsOf e.specialized

theorem Entry.Stands.mono {p q : Program} {e : Entry} (kept : Keeps signature p q) (stands : e.Stands p) : e.Stands q where
  declared := Nat.lt_of_lt_of_le stands.declared kept.size_le
  methods m c recorded := by
    rw [kept.methodsOf_eq stands.declared]
    exact stands.methods m c recorded

theorem Entry.mem_flatten_self (e : Entry) : e ∈ e.flatten := by
  cases e
  exact .head _

theorem Cloning.Specialized.stands {style : CloneStyle} {home : ModuleId} {source : TypeId} {argument : TypeRef}
    {p q : Program} {entry e : Entry} {shells : List Shell}
    (specialized : Specialized style home source argument p q entry shells) (member : e ∈ entry.flatten) : e.Stands q := by
  obtain ⟨s,among,record⟩ := right_of_forall₂ specialized.records member
  constructor
  · rw [record.specialized]
    exact (specialized.each s among).new.2
  · intro m c recorded
    obtain ⟨method,rfl⟩ := record.method?_eq_some.mp recorded
    rw [record.specialized]
    exact specialized.mem_methodsOf_clone among method

namespace SealedRegistry

variable {s : SealedRegistry} {p q : Program} {scope : List GenericParam} {t t' : TypeRef}

def Fits (s : SealedRegistry) (p : Program) : Prop := ∀ e ∈ s.flat, e.Stands p

theorem Fits.mono (kept : Keeps signature p q) (fits : s.Fits p) : s.Fits q :=
  fun e member => (fits e member).mono kept

theorem TypeRewired.formed (fits : s.Fits p) (formed : p.Formed scope t) (rewired : TypeRewired s p t t') :
    p.Formed scope t' := by
  obtain ⟨r,injected,rfl⟩ := rewired
  cases injected with
  | plain => exact formed
  | kept => exact formed
  | replaced shape answer => exact formed_decl (fits _ (lookup_eq_some answer).1).declared

theorem Carries.formed {c : TypeId} {trailing : List TypeRef} (carries : Carries p c trailing t)
    (declared : c.index < p.types.size) (each : ∀ a ∈ trailing, p.Formed scope a) : p.Formed scope t := by
  cases carries with
  | plain => exact formed_decl declared
  | applied some_ count => exact formed_applied declared count each

theorem MethodInjected.formed {r r' : MethodRef} {d : TypeId} (signed : p.Signed) (fits : s.Fits p)
    (formed : p.MethodRefFormed scope r d) (injected : MethodInjected s p r (some r')) :
    ∃ e, p.MethodRefFormed scope r' e := by
  cases injected with
  | @replaced d first trailing m c e t declaring found answer carries =>
    obtain ⟨flat,-,recorded⟩ := lookupMethod_eq_some answer
    obtain ⟨declared,methods⟩ := fits e flat
    have clone := methods m c recorded
    have owner := (mem_methodsOf.mp clone).1
    have signature := (signed.members e.specialized declared).methods c owner
    obtain ⟨returns,params⟩ := signature.refOn t r.id.next
    have each : ∀ a ∈ trailing, p.Formed scope a := by
      intro a among
      have outer := formed.declaring
      rw [declaring] at outer
      exact outer.part (TypeRef.mem_parts_applied.mpr (.inr ⟨a,.tail _ among,TypeRef.mem_parts_self a⟩))
    refine ⟨c.owner,?_,?_,returns,params,?_⟩
    · rw [owner]
      exact carries.element
    · exact carries.formed declared each
    · exact findMethod?_refOn_isSome (by rw [owner]; exact clone)

theorem MethodRewired.formed {o o' : MethodOperand} (signed : p.Signed) (fits : s.Fits p)
    (formed : p.MethodOperandFormed scope o) (rewired : MethodRewired s p o o') : p.MethodOperandFormed scope o' := by
  cases rewired with
  | kept => exact formed
  | plain injected =>
    obtain ⟨d,ref⟩ := formed
    exact injected.formed signed fits ref
  | applied injected each count =>
    obtain ⟨⟨d,ref⟩,-,args⟩ := formed
    refine ⟨injected.formed signed fits ref,count,fun t among => ?_⟩
    obtain ⟨a,from_,rewired⟩ := left_of_forall₂ each among
    exact rewired.formed fits (args a from_)

theorem FieldRewired.formed {f f' : FieldRef} (signed : p.Signed) (fits : s.Fits p)
    (formed : ∃ d, p.FieldRefFormed scope f d) (rewired : FieldRewired s p f f') : ∃ d, p.FieldRefFormed scope f' d := by
  cases rewired with
  | kept => exact formed
  | @replaced c d injected found =>
    have declared : c.index < p.types.size := by
      cases injected with
      | replaced shape answer => exact (fits _ (lookup_eq_some answer).1).declared
    have member := List.mem_of_find?_eq_some found
    exact ⟨c,rfl,formed_decl declared,(signed.members c declared).fields d member,by rw [found]; rfl⟩

theorem OperandRewired.formed {b : Body} {o o' : Operand} (signed : p.Signed) (fits : s.Fits p)
    (formed : p.OperandFormed scope b o) (rewired : OperandRewired s p o o') :
    p.OperandFormed scope b o' ∧ o'.kind = o.kind := by
  cases o with
  | type t =>
    obtain ⟨t',rfl,rewired⟩ := rewired
    exact ⟨rewired.formed fits formed,rfl⟩
  | method m =>
    obtain ⟨m',rfl,rewired⟩ := rewired
    exact ⟨rewired.formed signed fits formed,rfl⟩
  | field f =>
    obtain ⟨f',rfl,rewired⟩ := rewired
    exact ⟨rewired.formed signed fits formed,rfl⟩
  | _ =>
    obtain rfl := rewired
    exact ⟨formed,rfl⟩

theorem OperandRewired.reference {o o' : Operand} (rewired : OperandRewired s p o o') :
    ∀ r ∈ o'.reference?, ∃ u ∈ o.reference?, r.method = u.method ∧ r.place = u.place := by
  cases o with
  | type t =>
    obtain ⟨t',rfl,-⟩ := rewired
    exact nofun
  | field f =>
    obtain ⟨f',rfl,-⟩ := rewired
    exact nofun
  | method m =>
    obtain ⟨m',rfl,rewired⟩ := rewired
    rintro r ⟨⟩
    cases rewired with
    | kept => exact ⟨_,rfl,rfl,rfl⟩
    | plain injected => cases injected; exact ⟨_,rfl,rfl,rfl⟩
    | applied injected => cases injected; exact ⟨_,rfl,rfl,rfl⟩
  | _ =>
    obtain rfl := rewired
    exact fun r held => ⟨r,held,rfl,rfl⟩

end SealedRegistry

namespace Injection

variable {s : SealedRegistry} {p q : Program} {ms : List MethodId} {w w' : Workspace Unit}

theorem Injected.body_formed (injected : Injected s ms p q) (formed : p.WellFormed) (fits : s.Fits p) {m : MethodId}
    {b' : Body} (body : (q.methodAt m).body = some b') : q.BodyFormed m b' := by
  have kept := injected.agree.keeps
  cases before : (p.methodAt m).body with
  | none =>
    rw [injected.bodiless m before] at body
    cases body
  | some b =>
    have inside := owner_lt_of_body before
    have old := formed.body before
    by_cases member : m ∈ ms
    · obtain ⟨locals,after,each⟩ := injected.body m member b before
      obtain rfl := Option.some.inj (body.symm.trans after)
      have operand (i : InstructionId) (among : i ∈ b.code) :=
        (injected.rewired i ⟨m,member,b,before,among⟩).formed formed.signed fits (old.operands i among)
      exact {
        concrete := by rw [kept.method_eq inside MethodDecl.isAbstract fun _ => rfl]; exact old.concrete
        managed := by rw [kept.method_eq inside MethodDecl.native fun _ => rfl]; exact old.managed
        locals := fun t among => by
          obtain ⟨a,from_,rewired⟩ := left_of_forall₂ each among
          rw [kept.scopeOf_eq inside]
          exact (rewired.formed fits (old.locals a from_)).mono kept.header
        distinct := old.distinct
        inside := fun i among => by rw [injected.size_eq]; exact old.inside i among
        kinds := fun i among => by
          rw [injected.opcode_eq,(operand i among).2]
          exact old.kinds i among
        operands := fun i among => by
          rw [kept.scopeOf_eq inside]
          exact ((operand i among).1.mono kept formed.signed).weaken_code fun _ => id
        references := by
          have held (i : InstructionId) (among : i ∈ b.code) := (injected.rewired i ⟨m,member,b,before,among⟩).reference
          refine ⟨fun i among r holds => ?_,fun i among j also r holds u holds' same => ?_⟩
          · obtain ⟨v,there,method,-⟩ := held i among r holds
            exact method.trans (old.references.method i among v there)
          · obtain ⟨v,there,-,place⟩ := held i among r holds
            obtain ⟨w,there',-,place'⟩ := held j also u holds'
            exact old.references.place i among j also v there w there' (place.symm.trans (same.trans place')) }
    · rw [injected.others m member,before] at body
      obtain rfl := Option.some.inj body
      refine old.congr kept formed.signed inside (Nat.le_of_eq injected.size_eq.symm) fun i among => ?_
      refine injected.untouched i ?_
      rintro ⟨n,other,c,found,here⟩
      exact member (formed.separate m n b c before found i among here ▸ other)

theorem Injected.wellFormed (injected : Injected s ms p q) (formed : p.WellFormed) (fits : s.Fits p) : q.WellFormed :=
  formed.of_bodies injected.agree injected.modules_eq (fun _ _ body => injected.body_formed formed fits body)
    (injected.unshared (unshared_of_wellFormed formed)).separate

section Keeps

variable {I : Program → Prop} (formed : ∀ p, I p → p.WellFormed) (round : ∀ m p q, I p → Injected s [m] p q → I q)
include formed round

/-- Methods can be rewired one after the other, also one of them twice. What each rewiring keeps of well-formed programs,
    all of them keep. -/
theorem rewireMethods_keeps {reports : List MethodInjection} (start : I w.program)
    (done : (ms.mapM (rewireMethod s)).run w = (.ok reports,w')) : I w'.program := by
  induction ms generalizing w reports with
  | nil =>
    rw [List.mapM_nil] at done
    obtain ⟨-,rfl⟩ := run_pure_eq_ok.mp done
    exact start
  | cons m rest ih =>
    obtain ⟨_,x,_,first,later,-⟩ := run_mapM_cons_eq_ok.mp done
    obtain ⟨early,-⟩ := rewireMethod_injected ((unshared_of_wellFormed (formed _ start)).bodies m) first
    exact ih (round m _ _ start early) later

theorem rewire_keeps {types : List TypeId} {report : Injection} (start : I w.program)
    (done : (rewire s types).run w = (.ok report,w')) : I w'.program := by
  rw [rewire,Weaving.run_program_bind] at done
  obtain ⟨_,_,loop,done⟩ := run_bind_eq_ok.mp done
  obtain ⟨-,rfl⟩ := run_pure_eq_ok.mp done
  exact rewireMethods_keeps formed round start loop

end Keeps

theorem rewire_wellFormed {types : List TypeId} {report : Injection} (formed : w.program.WellFormed)
    (fits : s.Fits w.program) (done : (rewire s types).run w = (.ok report,w')) :
    w'.program.WellFormed ∧ Agree signature w.program w'.program ∧ w'.program.modules = w.program.modules := by
  refine rewire_keeps (I := fun q => q.WellFormed ∧ Agree signature w.program q ∧ q.modules = w.program.modules)
    (fun _ holds => holds.1) (fun m p q holds early => ?_) ⟨formed,.refl _ _,rfl⟩ done
  obtain ⟨before,agree,modules⟩ := holds
  exact ⟨early.wellFormed before (fits.mono agree.keeps),agree.trans early.agree,early.modules_eq.trans modules⟩

end Injection
end Loom
