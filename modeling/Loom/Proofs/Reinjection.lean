import Loom.Proofs.Naming
import Loom.Proofs.Targets

/-!
What an injection leaves as it is. It changes nothing but the locals and the operands of consumers. No clone is itself a
generic type of the registry, so a second injection does nothing. A member is left on a type that has an entry only
where it is a field and the type has further arguments.
-/
namespace Loom

open Runs List Program Injection
open SealedRegistry (TypeInjected MethodInjected TypeRewired MethodRewired FieldRewired OperandRewired)
open TypeDecl (signature)

variable {log : List String} {t : TypeRef} {r' : MethodRef} {o' : Operand} {d : TypeId} {scope : List GenericParam}
  {ms : List MethodId}

/-! ### Registries of a generation -/

namespace Specializer

variable {p : Program} {home : ModuleId}

/-- The registry of a generation: it has the methods of each type that it has an entry for, and no entry for a clone. -/
structure Recorded (s : SealedRegistry) (p : Program) : Prop where
  methods : ∀ e ∈ s.flat, ∀ m, (e.method? m).isSome ↔ m ∈ p.methodsOf e.generic
  apart : ∀ e ∈ s.flat, ∀ f ∈ s.flat, f.generic ≠ e.specialized

theorem Recorded.of_agree {s : SealedRegistry} {q : Program} (recorded : Recorded s p)
    (agree : Agree signature p q) : Recorded s q where
  methods e flat m := by rw [agree.methodsOf_eq,recorded.methods e flat m]
  apart := recorded.apart

theorem recorded_of_run {config : Config} {view : SealedRegistry} {w : Workspace Specializer}
    (formed : p.WellFormed) (place : home.index < p.modules.size)
    (done : run.run ⟨p,start home config,log⟩ = (.ok view,w)) : w.program.WellFormed ∧ Recorded view w.program := by
  obtain ⟨v,naming,program,entries,-⟩ := run_naming formed place done
  have flat_eq : view.flat = Entry.flattenAll v.own.registry.entries := by rw [← entries]; rfl
  rw [program]
  refine ⟨naming.generated.formed,fun e flat m => ?_,fun e flat f other same => ?_⟩
  · obtain ⟨root,member,within⟩ := Entry.mem_flattenAll.mp flat
    obtain ⟨-,-,-,-,specialized,after⟩ := naming.generated.entries root (entries ▸ member)
    obtain ⟨s,among,record⟩ := right_of_forall₂ specialized.records within
    have kept := (specialized.grown.trans after).signatures.methodsOf_eq (specialized.each s among).old
    rw [Option.isSome_iff_exists,record.generic,kept]
    simp only [record.method?_eq_some,exists_and_left,exists_eq,and_true]
  · rw [flat_eq] at flat other
    obtain ⟨root,-,-,titled,within,-⟩ := naming.exists_root other
    have old := within.declared formed.arranged.nests (formed.listed.top home _ titled.listed)
    rw [same] at old
    exact absurd old (Nat.not_lt_of_le (naming.new e flat).1)

end Specializer

open Specializer (Recorded run start)

/-! ### What stays -/

namespace SealedRegistry

variable {s : SealedRegistry} {p q : Program} {site : String}
variable {r : MethodRef} {o : Operand}

theorem TypeInjected.injectType?_eq (injected : TypeInjected s p t none) : s.injectType? p site t = .ok none := by
  cases injected with
  | plain other =>
    rw [injectType?.eq_def]
    split
    · exact absurd rfl (other _ _)
    · rfl
  | kept shape answer =>
    rw [shape,injectType?,answer]
    rfl

theorem MethodInjected.injectMethodRef?_eq (injected : MethodInjected s p r none) :
    s.injectMethodRef? p site r = .ok none := by
  cases injected with
  | plain other =>
    rw [injectMethodRef?.eq_def]
    split
    · next shape => exact absurd shape (other _ _)
    · rfl
  | unknown declaring missing =>
    rw [injectMethodRef?,declaring]
    simp only [missing]
  | kept declaring found answer =>
    rw [injectMethodRef?,declaring]
    simp only [found,answer]
    rfl

/-- Nothing is put in the place of the operand. -/
def Inert (s : SealedRegistry) (p : Program) : Operand → Prop
  | .type t => TypeInjected s p t none
  | .method m => MethodInjected s p m.ref none
  | .field f => TypeInjected s p f.declaring none
  | _ => True

theorem Inert.injectOperand?_eq (inert : Inert s p o) : s.injectOperand? p site o = .ok none := by
  cases o with
  | type t =>
    rw [injectOperand?,TypeInjected.injectType?_eq inert]
    rfl
  | method m =>
    rw [injectOperand?,injectMethod?,MethodInjected.injectMethodRef?_eq inert]
    rfl
  | field f =>
    rw [injectOperand?,injectField?,TypeInjected.injectType?_eq inert]
    rfl
  | _ => rfl

theorem TypeRewired.inert {t' : TypeRef} (rewired : TypeRewired s p t t') : TypeInjected s p t' none := by
  obtain ⟨_ | c,injected,rfl⟩ := rewired
  · exact injected
  · exact .plain (by rintro d a ⟨⟩)

/-- A method of a clone is not moved: a clone has no entry. -/
theorem MethodInjected.inert (recorded : Recorded s p) (injected : MethodInjected s p r (some r')) :
    MethodInjected s p r' none := by
  cases injected with
  | @replaced d first trailing m c e t declaring found answer carries =>
    cases carries with
    | plain => exact .plain (by rintro d a ⟨⟩)
    | applied some_ count =>
      obtain ⟨a,rest,rfl⟩ := exists_cons_of_ne_nil some_
      cases again : p.findMethod? e.specialized (p.refOn c (.applied e.specialized (a :: rest)) r.id.next) with
      | none => exact .unknown rfl again
      | some n =>
        refine .kept rfl again ?_
        rw [lookupMethod,only?_eq_ok]
        refine filterMap_eq_nil_iff.mpr fun f among => ?_
        have flat := (mem_filter.mp among).1
        rw [Option.map_eq_none_iff,← Option.not_isSome_iff_eq_none,recorded.methods f flat]
        intro own
        have owner := (mem_methodsOf.mp (findMethod?_eq_some again).1).1
        exact recorded.apart e (lookupMethod_eq_some answer).1 f flat ((mem_methodsOf.mp own).1.symm.trans owner)

theorem OperandRewired.inert (recorded : Recorded s p) (rewired : OperandRewired s p o o') : Inert s p o' := by
  cases o with
  | type t =>
    obtain ⟨t',rfl,rewired⟩ := rewired
    exact rewired.inert
  | method m =>
    obtain ⟨m',rfl,rewired⟩ := rewired
    cases rewired with
    | kept injected => exact injected
    | plain injected => exact injected.inert recorded
    | applied injected => exact injected.inert recorded
  | field f =>
    obtain ⟨f',rfl,rewired⟩ := rewired
    cases rewired with
    | kept injected => exact injected
    | replaced => exact .plain (by rintro d a ⟨⟩)
  | _ =>
    obtain rfl := rewired
    trivial

theorem OperandRewired.branch_iff (rewired : OperandRewired s p o o') (target : InstructionId) :
    o' = .branch target ↔ o = .branch target := by
  cases o with
  | type t => obtain ⟨_,rfl,-⟩ := rewired; simp
  | method m => obtain ⟨_,rfl,-⟩ := rewired; simp
  | field f => obtain ⟨_,rfl,-⟩ := rewired; simp
  | _ => rw [show o' = _ from rewired]

/-- The registry has an entry for the type at its first argument. -/
def covers (s : SealedRegistry) (p : Program) : TypeRef → Bool
  | .applied d (first :: _) => s.flat.any fun e => p.isEntryFor e d first
  | _ => false

/-- A member is named on a type that the registry has an entry for. -/
def reaches (s : SealedRegistry) (p : Program) : Operand → Bool
  | .method o => s.covers p o.ref.declaring
  | .field f => s.covers p f.declaring
  | _ => false

/-- A field is named on a type that the registry has an entry for, and that has further arguments. -/
def overlooks (s : SealedRegistry) (p : Program) : Operand → Bool
  | .field f => s.covers p f.declaring && decide (1 < f.declaring.arguments.length)
  | _ => false

theorem covers_iff : s.covers p t = true ↔
    ∃ d first trailing, t = .applied d (first :: trailing) ∧ ∃ e ∈ s.flat, p.isEntryFor e d first = true := by
  constructor
  · intro covered
    rw [covers.eq_def] at covered
    split at covered
    · exact ⟨_,_,_,rfl,any_eq_true.mp covered⟩
    · cases covered
  · rintro ⟨d,first,trailing,rfl,entry⟩
    exact any_eq_true.mpr entry

theorem reaches_congr (agree : Agree TypeDecl.header p q) (o : Operand) : s.reaches q o = s.reaches p o := by
  have same (t : TypeRef) : s.covers q t = s.covers p t := by
    rw [Bool.eq_iff_iff,covers_iff,covers_iff]
    simp only [isEntryFor,agree.same_eq]
  cases o with
  | method o => exact same _
  | field f => exact same _
  | _ => rfl

/-- A type at whose place nothing is put has no entry, unless it has further arguments. -/
theorem TypeInjected.not_covers {first : TypeRef} (injected : TypeInjected s p (.applied d [first]) none) :
    ¬s.covers p (.applied d [first]) = true := by
  rw [covers_iff]
  rintro ⟨_,_,_,⟨⟩,e,flat,entry⟩
  cases injected with
  | plain other => exact other d first rfl
  | kept shape answer =>
    cases shape
    have none_ := only?_eq_ok.mp answer
    rw [Option.toList_none,filter_eq_nil_iff] at none_
    exact none_ e flat entry

theorem MethodInjected.not_covers (recorded : Recorded s p)
    (formed : p.MethodRefFormed scope r d) (injected : MethodInjected s p r none) : ¬s.covers p r.declaring = true := by
  rw [covers_iff]
  rintro ⟨d',first,trailing,shape,e,flat,entry⟩
  have element := formed.element
  rw [shape] at element
  cases element
  obtain ⟨generic,argument⟩ := Bool.and_eq_true_iff.mp entry
  cases injected with
  | plain other => exact other _ _ shape
  | unknown declaring missing =>
    rw [shape] at declaring
    cases declaring
    have found := formed.found
    rw [missing] at found
    cases found
  | @kept _ _ _ m declaring found answer =>
    rw [shape] at declaring
    cases declaring
    have none_ := only?_eq_ok.mp answer
    rw [Option.toList_none,filterMap_eq_nil_iff] at none_
    have missing := Option.map_eq_none_iff.mp (none_ e (mem_filter.mpr ⟨flat,argument⟩))
    have owner := findMethod?_eq_some found |>.1
    rw [← eq_of_beq generic,← recorded.methods e flat,missing] at owner
    cases owner

theorem MethodInjected.not_covers_of_some (recorded : Recorded s p)
    (injected : MethodInjected s p r (some r')) : ¬s.covers p r'.declaring = true := by
  rw [covers_iff]
  rintro ⟨d',first,trailing,shape,f,flat,entry⟩
  cases injected with
  | @replaced d _ _ m c e t declaring found answer carries =>
    have shape : t = .applied d' (first :: trailing) := shape
    cases carries with
    | plain => cases shape
    | applied =>
      cases shape
      have generic := eq_of_beq (Bool.and_eq_true_iff.mp entry).1
      exact recorded.apart e (lookupMethod_eq_some answer).1 f flat generic

theorem OperandRewired.reaches_iff {b : Body} (recorded : Recorded s p)
    (formed : p.OperandFormed scope b o) (rewired : OperandRewired s p o o') :
    s.reaches p o' = true ↔ s.overlooks p o = true ∧ o' = o := by
  cases o with
  | type t =>
    obtain ⟨t',rfl,-⟩ := rewired
    simp [reaches,overlooks]
  | method m =>
    obtain ⟨m',rfl,rewired⟩ := rewired
    suffices ¬s.covers p m'.ref.declaring = true by simpa [reaches,overlooks] using this
    cases rewired with
    | kept injected =>
      obtain ⟨d,formed⟩ := MethodOperandFormed.ref formed
      exact injected.not_covers recorded formed
    | plain injected => exact injected.not_covers_of_some recorded
    | applied injected => exact injected.not_covers_of_some recorded
  | field f =>
    obtain ⟨f',rfl,rewired⟩ := rewired
    rw [reaches,overlooks,Bool.and_eq_true,decide_eq_true_eq]
    cases rewired with
    | kept injected =>
      refine ⟨fun covered => ⟨⟨covered,?_⟩,rfl⟩,fun left => left.1.1⟩
      obtain ⟨d,first,trailing,shape,-⟩ := covers_iff.mp covered
      rw [shape] at injected covered ⊢
      cases trailing with
      | nil => exact absurd covered injected.not_covers
      | cons => exact Nat.succ_lt_succ (Nat.succ_pos _)
    | replaced injected =>
      cases injected with
      | replaced shape => simp [covers,shape,TypeRef.arguments]
  | _ =>
    obtain rfl := rewired
    simp [reaches,overlooks]

end SealedRegistry

/-! ### Runs -/

namespace Injection

open SealedRegistry (Inert)

variable {s : SealedRegistry} {w w' : Workspace Unit} {p q : Program} {m : MethodId} {site : String}
variable {home : ModuleId} {config : Config}

theorem rewireLocals_inert {k n : Nat} {ts : List TypeRef} (inert : ∀ t ∈ ts, TypeInjected s w.program t none) :
    (rewireLocals s m site k n ts).run w = (.ok n,w) := by
  induction ts generalizing k with
  | nil => rfl
  | cons t rest ih =>
    obtain ⟨first,later⟩ := forall_mem_cons.mp inert
    rw [rewireLocals,Weaving.run_program_bind,first.injectType?_eq]
    exact ih later

theorem rewireOperands_inert {n : Nat} {is : List InstructionId}
    (inert : ∀ i ∈ is, Inert s w.program (w.program.instructionAt i).operand) :
    (rewireOperands s site n is).run w = (.ok n,w) := by
  induction is with
  | nil => rfl
  | cons i rest ih =>
    obtain ⟨first,later⟩ := forall_mem_cons.mp inert
    rw [rewireOperands,Weaving.run_program_bind,first.injectOperand?_eq]
    exact ih later

/-- Nothing in the body of the method is replaced. -/
def InertIn (s : SealedRegistry) (p : Program) (m : MethodId) : Prop :=
  ∀ b, (p.methodAt m).body = some b → (∀ t ∈ b.locals, TypeInjected s p t none) ∧
    ∀ i ∈ b.code, Inert s p (p.instructionAt i).operand

theorem rewireMethod_inert (inert : InertIn s w.program m) :
    (rewireMethod s m).run w = (.ok { method := w.program.methodFullName m },w) := by
  rw [rewireMethod,Weaving.run_program_bind]
  cases body : (w.program.methodAt m).body with
  | none => rfl
  | some b =>
    obtain ⟨locals,operands⟩ := inert b body
    dsimp only
    rw [run_bind_of_ok (rewireLocals_inert locals),run_bind_of_ok (rewireOperands_inert operands)]
    rfl

theorem rewireMethods_inert (inert : ∀ m ∈ ms, InertIn s w.program m) : (ms.mapM (rewireMethod s)).run w =
      (.ok (ms.map fun m => { method := w.program.methodFullName m }),w) := by
  induction ms with
  | nil => rfl
  | cons m rest ih =>
    obtain ⟨first,later⟩ := forall_mem_cons.mp inert
    exact run_mapM_cons_eq_ok.mpr ⟨_,w,_,rewireMethod_inert first,ih later,rfl⟩

/-- What an injection puts in place is not replaced by another. -/
theorem Injected.settledIn (injected : Injected s ms p q) (recorded : Recorded s q) (member : m ∈ ms) : InertIn s q m := by
  intro b' body
  obtain ⟨b,before,code⟩ := injected.exists_body body
  obtain ⟨locals,after,each⟩ := injected.body m member b before
  rw [body] at after
  cases after
  refine ⟨fun t among => ?_,fun i among => ?_⟩
  · obtain ⟨t',-,rewired⟩ := left_of_forall₂ each among
    exact (rewired.mono injected.agree.header).inert
  · exact ((injected.rewired i ⟨m,member,b,before,among⟩).mono injected.agree).inert recorded

def marked (p : Program) (home : ModuleId) (config : Config) : List TypeId :=
  (p.moduleAt home).types.filter fun t => p.hasAttribute t config.injectMarker

theorem run_eq : (run s home config).run w = ((consumers w.program home config).mapM (rewireMethod s) >>= fun reports =>
      pure ⟨(marked w.program home config).length,reports⟩ : Weaving Unit Injection).run w := rfl

theorem marked_eq (agree : Agree signature p q) (modules : q.modules = p.modules) (home : ModuleId)
    (config : Config) : marked q home config = marked p home config := by
  have attributes (t : TypeId) : (q.typeAt t).attributes = (p.typeAt t).attributes :=
    (agree.map TypeDecl.attributes).view_eq t
  have types : (q.moduleAt home).types = (p.moduleAt home).types := by rw [moduleAt,modules]; rfl
  simp only [marked,hasAttribute,attributesOf,types,attributes,agree.header.fullName_eq]

theorem consumers_eq (agree : Agree signature p q) (modules : q.modules = p.modules) (home : ModuleId)
    (config : Config) : consumers q home config = consumers p home config := by
  show (marked q home config).flatMap q.methodsOf = (marked p home config).flatMap p.methodsOf
  rw [marked_eq agree modules,funext agree.methodsOf_eq]

theorem Injected.run_again {report : Injection}
    (injected : Injected s (consumers p home config) p w'.program) (recorded : Recorded s w'.program)
    (first : (run s home config).run ⟨p,(),log⟩ = (.ok report,w'))
    (reports : report.methods = (consumers p home config).map (tally p w'.program)) (log' : List String) :
    (run s home config).run ⟨w'.program,(),log'⟩ =
      (.ok ⟨report.types,report.methods.map fun r => { method := r.method }⟩,⟨w'.program,(),log'⟩) := by
  have types : report.types = (marked p home config).length := by
    rw [run_eq] at first
    obtain ⟨_,_,-,done⟩ := run_bind_eq_ok.mp first
    obtain ⟨rfl,-⟩ := run_pure_eq_ok.mp done
    rfl
  have inert : ∀ m ∈ consumers p home config, InertIn s w'.program m :=
    fun m member => injected.settledIn recorded member
  have names (m : MethodId) : w'.program.methodFullName m = (tally p w'.program m).method :=
    injected.agree.methodFullName_eq m
  rw [run_eq,consumers_eq injected.agree injected.modules_eq,marked_eq injected.agree injected.modules_eq,
    run_bind_of_ok (rewireMethods_inert (w := ⟨w'.program,(),log'⟩) inert),types,reports,map_map]
  simp only [names]
  rfl

/-- What may differ after an injection: locals and operands in types with the marker, the number of locals and the
    branches excepted. -/
structure Framed (config : Config) (p q : Program) : Prop where
  agree : Agree signature p q
  modules_eq : q.modules = p.modules
  unmarked : ∀ m, p.hasAttribute m.owner config.injectMarker = false → q.methodAt m = p.methodAt m ∧
    ∀ b, (p.methodAt m).body = some b → ∀ i ∈ b.code, q.instructionAt i = p.instructionAt i
  bodiless : ∀ m, (p.methodAt m).body = none → (q.methodAt m).body = none
  body : ∀ m b, (p.methodAt m).body = some b →
    ∃ locals, (q.methodAt m).body = some { b with locals } ∧ locals.length = b.locals.length
  opcode_eq : ∀ i, (q.instructionAt i).opcode = (p.instructionAt i).opcode
  branch_iff : ∀ i target, (q.instructionAt i).operand = .branch target ↔ (p.instructionAt i).operand = .branch target

theorem Injected.framed (injected : Injected s (consumers p home config) p q) (separate : p.Separate) :
    Framed config p q where
  agree := injected.agree
  modules_eq := injected.modules_eq
  unmarked m without := by
    have outside : m ∉ consumers p home config := by
      intro member
      obtain ⟨t,marked,own⟩ := mem_flatMap.mp member
      have marker := (mem_filter.mp marked).2
      rw [← (mem_methodsOf.mp own).1,without] at marker
      cases marker
    refine ⟨injected.others m outside,fun b body i among => injected.untouched i ?_⟩
    have within : Within p [m] i := ⟨m,.head _,b,body,among⟩
    exact within.disjoint separate (singleton_disjoint.mpr outside)
  bodiless := injected.bodiless
  body m b body := by
    by_cases member : m ∈ consumers p home config
    · obtain ⟨locals,after,each⟩ := injected.body m member b body
      exact ⟨locals,after,each.length_eq.symm⟩
    · exact ⟨b.locals,by rw [injected.others m member]; exact body,rfl⟩
  opcode_eq := injected.opcode_eq
  branch_iff i target := by
    by_cases within : Within p (consumers p home config) i
    · exact (injected.rewired i within).branch_iff target
    · rw [injected.untouched i within]

end Injection

section Run

variable {p : Program} {home : ModuleId} {config : Config} {log : List String} {view : SealedRegistry}
  {w : Workspace Specializer} {report : Injection} {w' : Workspace Unit}

/-- An injection with the registry of a generation keeps to locals and operands of consumers and counts those that differ;
    with the same registry there is nothing left to inject. -/
theorem injection_framed_idempotent (linked : Linked p) (place : home.index < p.modules.size)
    (generation : Specializer.run.run ⟨p,Specializer.start home config,log⟩ = (.ok view,w))
    (injection : (Injection.run view home config).run ⟨w.program,(),w.log⟩ = (.ok report,w')) :
    Injection.Framed config w.program w'.program ∧
    report.methods = (Injection.consumers w.program home config).map (Injection.tally w.program w'.program) ∧
    ∀ log', (Injection.run view home config).run ⟨w'.program,(),log'⟩ =
      (.ok ⟨report.types,report.methods.map fun r => { method := r.method }⟩,⟨w'.program,(),log'⟩) := by
  obtain ⟨formed,recorded⟩ := Specializer.recorded_of_run linked.wellFormed place generation
  obtain ⟨injected,reports⟩ := Injection.run_injected formed injection
  exact ⟨injected.framed formed.separate,reports,
    injected.run_again (recorded.of_agree injected.agree) injection reports⟩

/-- A type with a nested one of two parameters, and a consumer that goes to its members. -/
def nesting : Document :=
  { moduleName := "Nesting"
    types :=
      [some { name := "G", generics := ["T"], attributes := [.generate "System.Int32"]
              nested :=
                [some { name := "N", generics := ["T","U"], fields := [{ name := "f", type := "!1" }]
                        methods :=
                          [{ name := "Get", returns := "!1", body := ["ldarg 0","ldfld !1 G/N<!0, !1>::f","ret"] }] }] },
       some { name := "Main", attributes := [.inject]
              methods :=
                [{ name := "Run", flags := ["static"], returns := "System.String"
                   params := [{ name := "n", type := "G/N<System.Int32, System.String>" }]
                   locals := ["G<System.Int32>"]
                   body :=
                     ["ldarg 0","call !1 G/N<System.Int32, System.String>::Get()","pop","ldarg 0",
                      "ldfld !1 G/N<System.Int32, System.String>::f","ret"] }] }] }

/-- A local and a call of the consumer are moved to clones, and a field is not. -/
theorem nesting_injected : ∃ home p view w report w', nesting.link core [CoreLibrary.home] = .ok (home,p) ∧
    Specializer.run.run ⟨p,Specializer.start home {},[]⟩ = (.ok view,w) ∧
    (Injection.run view home {}).run ⟨w.program,(),w.log⟩ = (.ok report,w') ∧ home.index < p.modules.size ∧
    (report.methods.map fun r => (r.locals,r.operands)) = [(1,1)] ∧
    ∃ m ∈ consumers w.program home {}, ∃ b, (w.program.methodAt m).body = some b ∧
      (b.code.map fun i => view.reaches w'.program (w'.program.instructionAt i).operand) =
        [false,false,false,false,true,false] := by
  obtain ⟨⟨home,p⟩,linked,evaluated⟩ := Except.exists_of_passes (r := nesting.link core [CoreLibrary.home])
    (f := fun r => passes (Specializer.run.run ⟨r.2,Specializer.start r.1 {},[]⟩) fun view w =>
      passes ((Injection.run view r.1 {}).run ⟨w.program,(),w.log⟩) fun report w' =>
        decide (r.1.index < r.2.modules.size) &&
        decide ((report.methods.map fun r => (r.locals,r.operands)) = [(1,1)]) &&
        (consumers w.program r.1 {}).any fun m => (w.program.methodAt m).body.any fun b =>
          (b.code.map fun i => view.reaches w'.program (w'.program.instructionAt i).operand) ==
            [false,false,false,false,true,false]) (by decide +kernel)
  obtain ⟨view,w,generation,evaluated⟩ := exists_of_passes evaluated
  obtain ⟨report,w',injection,evaluated⟩ := exists_of_passes evaluated
  simp only [Bool.and_eq_true,decide_eq_true_eq,any_eq_true,Option.any_eq_true,beq_iff_eq] at evaluated
  obtain ⟨⟨place,counts⟩,m,consumer,b,body,left⟩ := evaluated
  exact ⟨home,p,view,w,report,w',linked,generation,injection,place,counts,m,consumer,b,body,left⟩

/-- At nested types two places are counted, and there are none the second time. -/
theorem injection_framed_idempotent_nesting : ∃ (home : ModuleId) (view : SealedRegistry) (w : Workspace Specializer)
    (report : Injection) (w' : Workspace Unit),
    (Injection.run view home {}).run ⟨w.program,(),w.log⟩ = (.ok report,w') ∧ report.total = 2 ∧
    Injection.Framed {} w.program w'.program ∧
    ∃ again, (Injection.run view home {}).run ⟨w'.program,(),[]⟩ = (.ok again,⟨w'.program,(),[]⟩) ∧
      again.total = 0 := by
  obtain ⟨home,p,view,w,report,w',linked,generation,injection,place,counts,-⟩ := nesting_injected
  obtain ⟨framed,-,second⟩ := injection_framed_idempotent (Linked.core.link linked) place generation injection
  obtain ⟨r,one,count⟩ := List.map_eq_singleton_iff.mp counts
  obtain ⟨locals,operands⟩ := Prod.mk.inj count
  refine ⟨home,view,w,report,w',injection,?_,framed,_,second [],?_⟩
  · simp [Injection.total,one,locals,operands]
  · simp [Injection.total,one]

/-- A member of a consumer that is still named on a type with an entry, is a field that was named so before, and the type
    has further arguments. -/
theorem access_left_iff (linked : Linked p) (place : home.index < p.modules.size)
    (generation : Specializer.run.run ⟨p,Specializer.start home config,log⟩ = (.ok view,w))
    (injection : (Injection.run view home config).run ⟨w.program,(),w.log⟩ = (.ok report,w')) {m : MethodId} {b : Body}
    (consumer : m ∈ Injection.consumers w.program home config) (body : (w.program.methodAt m).body = some b)
    {i : InstructionId} (among : i ∈ b.code) : view.reaches w'.program (w'.program.instructionAt i).operand = true ↔
      view.overlooks w.program (w.program.instructionAt i).operand = true ∧
        (w'.program.instructionAt i).operand = (w.program.instructionAt i).operand := by
  obtain ⟨formed,recorded⟩ := Specializer.recorded_of_run linked.wellFormed place generation
  obtain ⟨injected,-⟩ := Injection.run_injected formed injection
  have whole := (formed.types m.owner (Program.owner_lt_of_body body)).bodies m rfl b body
  rw [SealedRegistry.reaches_congr injected.agree.header]
  exact (injected.rewired i ⟨m,consumer,b,body,among⟩).reaches_iff recorded (whole.operands i among)

/-- At nested types the field is left, as it was named before. -/
theorem access_left_iff_nesting : ∃ (view : SealedRegistry) (w : Workspace Specializer) (w' : Workspace Unit)
    (i : InstructionId), view.reaches w'.program (w'.program.instructionAt i).operand = true ∧
    view.overlooks w.program (w.program.instructionAt i).operand = true ∧
    (w'.program.instructionAt i).operand = (w.program.instructionAt i).operand := by
  obtain ⟨home,p,view,w,report,w',linked,generation,injection,place,-,m,consumer,b,body,left⟩ :=
    nesting_injected
  have some_ : true ∈ b.code.map fun i => view.reaches w'.program (w'.program.instructionAt i).operand := by
    rw [left]
    decide
  obtain ⟨i,among,reaches⟩ := List.mem_map.mp some_
  have access := access_left_iff (Linked.core.link linked) place generation injection consumer body among
  exact ⟨view,w,w',i,reaches,access.mp reaches⟩

end Run

end Loom
