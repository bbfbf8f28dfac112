import Loom.Proofs.Injecting

/-!
The targets of rewritten calls. A call that is moved to a clone names the clone recorded for the method that it named
before. A lookup finds that clone exactly when no earlier method of its type overlaps with it: overloads that differ
only in the bound parameter can become alike.
-/
namespace Loom

open Runs List Program
open Cloning (Specialized Records familyOf methodSite)
open SealedRegistry (MethodInjected MethodRewired)
open Specializer (Registered run start)

variable {o o' : MethodOperand} {p : Program}

/-- The operand `o'` of `q` stands for `o` of `p` at the clone that an entry records: it names the clone of the method
    that `o` finds, and finds it exactly when no earlier method overlaps with it. -/
def Entry.Retargets (e : Entry) (p q : Program) (o o' : MethodOperand) : Prop :=
  ∃ target clone, p.resolveMethod? o = some target ∧ target.owner = e.generic ∧ e.method? target = some clone ∧
    o'.ref.declaring.element? = some e.specialized ∧
    (q.findMethod? e.specialized o'.ref = some clone ↔ q.Foremost clone)

theorem Cloning.Records.method?_eq_some {argument : TypeRef} {e : Entry} {s : Shell} {m c : MethodId}
    (record : Records argument p e s) : e.method? m = some c ↔ m ∈ p.methodsOf s.source ∧ c = ⟨s.clone,m.position⟩ := by
  rw [Entry.method?,record.methods]
  induction p.methodsOf s.source with
  | nil => simp
  | cons n rest ih =>
    rw [map_cons,lookup_cons]
    by_cases same : m = n
    · subst same
      simp [eq_comm]
    · simp only [beq_eq_false_iff_ne.mpr same,ih,mem_cons,same,false_or]

theorem Program.MethodOperandFormed.ref {scope : List GenericParam}
    (formed : p.MethodOperandFormed scope o) : ∃ d, p.MethodRefFormed scope o.ref d := by
  cases o with
  | plain r => exact formed
  | applied r args => exact formed.1

theorem CloneSite.methodOperand_ref {site : CloneSite}
    (done : site.methodOperand p o = .ok o') : site.methodRef p o.ref = .ok o'.ref := by
  cases o with
  | plain r =>
    obtain ⟨r',brought,⟨⟩⟩ := Except.bind_eq_ok.mp done
    exact brought
  | applied r args =>
    obtain ⟨r',brought,done⟩ := Except.bind_eq_ok.mp done
    obtain ⟨args',-,done⟩ := Except.bind_eq_ok.mp done
    obtain ⟨-,rfl⟩ := MethodRef.apply_eq_ok.mp (Except.mapError_eq_ok.mp done)
    exact brought

namespace Cloning

variable {style : CloneStyle} {home : ModuleId} {argument : TypeRef} {source : TypeId} {p q : Program} {entry e : Entry}
  {shells : List Shell} {s : Shell} {m : MethodId}

section

variable (specialized : Specialized style home source argument p q entry shells)
include specialized

theorem Specialized.mem_methodsOf_clone (member : s ∈ shells) (method : m ∈ p.methodsOf s.source) :
    ⟨s.clone,m.position⟩ ∈ q.methodsOf s.clone := by
  rw [mem_methodsOf,(specialized.each s member).count]
  exact ⟨rfl,(mem_methodsOf.mp method).2⟩

theorem Specialized.methodRef_retargets (formed : p.WellFormed) {d : TypeId} (ref : p.MethodRefFormed (p.scopeOf m) o.ref d)
    (done : (methodSite (familyOf argument shells) s m).methodRef q o.ref = .ok o'.ref)
    (produced : ∃ f ∈ entry.flatten, o'.ref.declaring.element? = some f.specialized) :
    ∃ f ∈ entry.flatten, f.Retargets p q o o' := by
  obtain ⟨declaring,brought,result⟩ := CloneSite.methodRef_eq_ok.mp done
  have old : d.index < p.types.size := ref.declaring.declares _ (TypeRef.mem_parts_self _) d ref.element
  rcases result with ⟨element,n,c,redeclared,found,cloned,same⟩ | ⟨plain,same⟩
  · obtain rfl : d = element := Option.some.inj (ref.element.symm.trans redeclared.1)
    have owner := (mem_methodsOf.mp (findMethod?_eq_some found).1).1
    have after := redeclared.element_eq specialized.family old brought owner cloned
    obtain ⟨s',member',within,rfl,-⟩ := specialized.clone_of_found rfl found cloned
    obtain ⟨f,flat,record⟩ := left_of_forall₂ specialized.records member'
    rw [specialized.grown.signatures.findMethod?_eq formed.grounded old (formed.types d old).members
      fun t among => (ref.params t among).declares] at found
    refine ⟨f,flat,n,⟨s'.clone,n.position⟩,?_,?_,?_,?_,?_⟩
    · rw [resolveMethod?,ref.element]
      exact found
    · rw [record.generic]
      exact (mem_methodsOf.mp within).1
    · exact record.method?_eq_some.mpr ⟨within,rfl⟩
    · rw [same,record.specialized]
      exact after
    · rw [same,record.specialized]
      exact findMethod?_refOn (specialized.mem_methodsOf_clone member' within)
  · -- the declaring type is still the old one, so it is no clone
    have stays := CloneSite.element_of_not_redeclared specialized.family brought ref.element plain
    obtain ⟨f,flat,became⟩ := produced
    obtain ⟨s',member',record⟩ := right_of_forall₂ specialized.records flat
    rw [same,record.specialized] at became
    obtain rfl : s'.clone = d := Option.some.inj (became.symm.trans stays)
    exact absurd old (Nat.not_lt_of_le (specialized.each s' member').new.1)

theorem Specialized.retargets (formed : p.WellFormed) (flat : e ∈ entry.flatten) {c : MethodId}
    (recorded : e.method? m = some c) {b b' : Body}
    (body : (p.methodAt m).body = some b) (clone : (q.methodAt c).body = some b') {k : Nat} {i i' : InstructionId}
    (at_ : b.code[k]? = some i) (at' : b'.code[k]? = some i')
    (operand : (p.instructionAt i).operand = .method o) (operand' : (q.instructionAt i').operand = .method o')
    (produced : ∃ f ∈ entry.flatten, o'.ref.declaring.element? = some f.specialized) :
    ∃ f ∈ entry.flatten, f.Retargets p q o o' := by
  obtain ⟨s,member,record⟩ := right_of_forall₂ specialized.records flat
  obtain ⟨method,rfl⟩ := record.method?_eq_some.mp recorded
  have old : m.owner.index < p.types.size := owner_lt_of_body body
  have whole := (formed.types m.owner old).bodies m rfl b body
  cases (specialized.each s member).bodies m method with
  | bodiless _ none => rw [none] at clone; cases clone
  | bodied _ original filled cloned =>
    rw [specialized.grown.methodAt_eq old] at original
    obtain rfl := Option.some.inj (original.symm.trans body)
    obtain rfl := Option.some.inj (filled.symm.trans clone)
    have among := mem_of_getElem? at_
    obtain ⟨-,brought⟩ := getElem?_of_forall₂ cloned.code at_ at'
    rw [specialized.grown.code.instruction_eq i (whole.inside i among),operand,operand'] at brought
    have named := whole.operands i among
    rw [operand] at named
    obtain ⟨moved,done,⟨⟩⟩ := Except.bind_eq_ok.mp brought
    obtain ⟨d,ref⟩ := MethodOperandFormed.ref named
    exact specialized.methodRef_retargets formed ref (CloneSite.methodOperand_ref done) produced

end

end Cloning

namespace Injection

variable {style : CloneStyle} {home : ModuleId} {p q x : Program} {view : SealedRegistry} {ms : List MethodId}

theorem exists_records (entries : ∀ e ∈ view.entries, Registered style home p x e) {e : Entry}
    (flat : e ∈ view.flat) : ∃ (argument : TypeRef) (y z : Program) (s : Shell), Records argument y e s ∧
      z.Extends x ∧ s.clone.index < z.types.size ∧ ∀ m ∈ y.methodsOf s.source, ⟨s.clone,m.position⟩ ∈ z.methodsOf s.clone := by
  obtain ⟨root,member,within⟩ := Entry.mem_flattenAll.mp flat
  obtain ⟨-,-,-,-,specialized,after⟩ := entries root member
  obtain ⟨s,among,record⟩ := right_of_forall₂ specialized.records within
  exact ⟨_,_,_,s,record,after,(specialized.each s among).new.2,
    fun m method => specialized.mem_methodsOf_clone among method⟩

theorem Injected.retargets (injected : Injected view ms x q) (entries : ∀ e ∈ view.entries, Registered style home p x e)
    (rewired : MethodRewired view x o o') (changed : o' ≠ o) :
    ∃ e ∈ view.flat, (∃ first trailing, o.ref.declaring = .applied e.generic (first :: trailing) ∧
      x.same e.argument first = true) ∧ e.Retargets x q o o' := by
  have replaced : ∃ r', MethodInjected view x o.ref (some r') ∧ o'.ref = r' := by
    cases rewired with
    | kept => exact absurd rfl changed
    | plain injected => exact ⟨_,injected,rfl⟩
    | applied injected => exact ⟨_,injected,rfl⟩
  obtain ⟨r',replaced,same⟩ := replaced
  cases replaced with
  | @replaced d first trailing m c e t declaring found answer carries =>
    obtain ⟨flat,argument,recorded⟩ := SealedRegistry.lookupMethod_eq_some answer
    obtain ⟨_,y,z,s,record,after,inside,methods⟩ := exists_records entries flat
    obtain ⟨method,rfl⟩ := record.method?_eq_some.mp recorded
    have owner := (mem_methodsOf.mp (findMethod?_eq_some found).1).1
    have generic : e.generic = d := by rw [record.generic,← owner,(mem_methodsOf.mp method).1]
    refine ⟨e,flat,⟨first,trailing,by rw [generic]; exact declaring,argument⟩,m,_,?_,owner.trans generic.symm,
      recorded,?_,?_⟩
    · rw [resolveMethod?,declaring]
      exact found
    · rw [same]
      exact carries.element
    · rw [same,record.specialized,← injected.agree.refOn_eq]
      refine findMethod?_refOn ?_
      rw [injected.agree.methodsOf_eq,after.signatures.methodsOf_eq inside]
      exact methods m method

end Injection

/-- Calls in clones, and calls of consumers after an injection, name the clones recorded for the methods they named before;
    they find them exactly when no earlier overload of the clone is alike. -/
theorem rewritten_call_finds_clone_iff {p : Program} (linked : Linked p) :
    (∀ style home source argument entry q, p.Declares argument →
      (Cloning.specialize style home source argument).run p = (.ok entry,q) →
      ∀ e ∈ entry.flatten, ∀ m c, e.method? m = some c →
      ∀ b b', (p.methodAt m).body = some b → (q.methodAt c).body = some b' →
      ∀ (k : Nat) i i', b.code[k]? = some i → b'.code[k]? = some i' →
      ∀ o o', (p.instructionAt i).operand = .method o → (q.instructionAt i').operand = .method o' →
      (∃ f ∈ entry.flatten, o'.ref.declaring.element? = some f.specialized) → ∃ f ∈ entry.flatten, f.Retargets p q o o') ∧
    ∀ home config log view w, home.index < p.modules.size →
      Specializer.run.run ⟨p,Specializer.start home config,log⟩ = (.ok view,w) →
      ∀ report w', (Injection.run view home config).run ⟨w.program,(),w.log⟩ = (.ok report,w') →
      ∀ m ∈ Injection.consumers w.program home config, ∀ b, (w.program.methodAt m).body = some b →
      ∀ i ∈ b.code, ∀ o o', (w.program.instructionAt i).operand = .method o →
      (w'.program.instructionAt i).operand = .method o' → o' ≠ o →
      ∃ e ∈ view.flat, (∃ first trailing, o.ref.declaring = .applied e.generic (first :: trailing) ∧
        w.program.same e.argument first = true) ∧ e.Retargets w.program w'.program o o' := by
  have formed := linked.wellFormed
  constructor
  · intro style home source argument entry q declared done e flat m c recorded b b' body clone k i i' at_ at' o o'
      operand operand' produced
    obtain ⟨shells,specialized⟩ := Cloning.specialize_specialized formed declared done
    exact specialized.retargets formed flat recorded body clone at_ at' operand operand' produced
  · intro home config log view w place generation report w' injection m consumer b body i among o o' operand operand'
      changed
    obtain ⟨v,generated,program,entries⟩ := Specializer.run_generated formed place generation
    have registered := generated.entries
    rw [← program,← entries] at registered
    obtain ⟨injected,-⟩ := Injection.run_injected (by rw [program]; exact generated.formed) injection
    have rewired := injected.rewired i ⟨m,consumer,b,body,among⟩
    rw [operand,operand'] at rewired
    obtain ⟨_,same,rewired⟩ := rewired
    cases same
    exact injected.retargets registered rewired changed

def Operand.method? : Operand → Option MethodOperand
  | .method o => some o
  | _ => Option.none

theorem Operand.method?_eq_some {operand : Operand} : operand.method? = some o ↔ operand = .method o := by
  cases operand <;> simp [method?]

/-- Two overloads that become alike for numbers, called from inside and from a consumer. -/
def overloads : Document :=
  { moduleName := "Overloads"
    types :=
      [some { name := "G", generics := ["T"], attributes := [.generate "System.Int32"]
              methods :=
                [{ name := "Pick", flags := ["static"], returns := "System.Int32"
                   params := [{ name := "x", type := "System.Int32" }], body := ["ldc.i4 1","ret"] },
                 { name := "Pick", flags := ["static"], returns := "System.Int32"
                   params := [{ name := "x", type := "!0" }], body := ["ldc.i4 2","ret"] },
                 { name := "Use", flags := ["static"], returns := "System.Int32"
                   params := [{ name := "x", type := "!0" }]
                   body := ["ldarg 0","call System.Int32 G<!0>::Pick(!0)","ret"] }] },
       some { name := "Main", attributes := [.inject]
              methods :=
                [.static "Run" "System.Int32" ["ldc.i4 5","call System.Int32 G<System.Int32>::Pick(!0)","ret"]] }] }

/-- The call inside the clone finds the first overload, and not the clone of the second, which it was made for. -/
theorem overloads_specialized : ∃ home p entry q, overloads.link core [CoreLibrary.home] = .ok (home,p) ∧
    (Cloning.specialize ⟨"$specialized$",[]⟩ home ⟨13⟩ (.decl CoreLibrary.int32)).run p = (.ok entry,q) ∧
    ∃ e ∈ entry.flatten, e.specialized = ⟨15⟩ ∧ e.method? ⟨⟨13⟩,2⟩ = some ⟨⟨15⟩,2⟩ ∧
      ∃ b b' i i' o o', (p.methodAt ⟨⟨13⟩,2⟩).body = some b ∧ (q.methodAt ⟨⟨15⟩,2⟩).body = some b' ∧
        b.code[1]? = some i ∧ b'.code[1]? = some i' ∧ (p.instructionAt i).operand = .method o ∧
        (q.instructionAt i').operand = .method o' ∧ o'.ref.declaring.element? = some ⟨15⟩ ∧
        p.resolveMethod? o = some ⟨⟨13⟩,1⟩ ∧ q.resolveMethod? o' = some ⟨⟨15⟩,0⟩ := by
  obtain ⟨home,p,linked,evaluated⟩ := overloads.link_passes (f := fun home p =>
    passes ((Cloning.specialize ⟨"$specialized$",[]⟩ home ⟨13⟩ (.decl CoreLibrary.int32)).run p) fun entry q =>
      entry.flatten.any fun e => decide (e.specialized = ⟨15⟩) && decide (e.method? ⟨⟨13⟩,2⟩ = some ⟨⟨15⟩,2⟩) &&
        (p.methodAt ⟨⟨13⟩,2⟩).body.any fun (b : Body) => (q.methodAt ⟨⟨15⟩,2⟩).body.any fun (b' : Body) =>
        b.code[1]?.any fun i => b'.code[1]?.any fun i' =>
        (p.instructionAt i).operand.method?.any fun o => (q.instructionAt i').operand.method?.any fun (o' : MethodOperand) =>
          decide (o'.ref.declaring.element? = some ⟨15⟩) && decide (p.resolveMethod? o = some ⟨⟨13⟩,1⟩) &&
          decide (q.resolveMethod? o' = some ⟨⟨15⟩,0⟩)) (by decide +kernel)
  obtain ⟨entry,q,done,evaluated⟩ := exists_of_passes evaluated
  simp only [any_eq_true,Option.any_eq_true,Bool.and_eq_true,decide_eq_true_eq,Operand.method?_eq_some] at evaluated
  obtain ⟨e,flat,⟨clone,recorded⟩,b,body,b',body',i,at_,i',at',o,operand,o',operand',⟨element,before⟩,after⟩ :=
    evaluated
  exact ⟨home,p,entry,q,linked,done,e,flat,clone,recorded,b,b',i,i',o,o',body,body',at_,at',operand,
    operand',element,before,after⟩

theorem overloads_injected : ∃ home p view w report w', overloads.link core [CoreLibrary.home] = .ok (home,p) ∧
    home.index < p.modules.size ∧ run.run ⟨p,start home {},[]⟩ = (.ok view,w) ∧
    (Injection.run view home {}).run ⟨w.program,(),w.log⟩ = (.ok report,w') ∧
    ⟨⟨14⟩,0⟩ ∈ Injection.consumers w.program home {} ∧
    ∃ b, (w.program.methodAt ⟨⟨14⟩,0⟩).body = some b ∧ ∃ i ∈ b.code, ∃ o o',
      (w.program.instructionAt i).operand = .method o ∧ (w'.program.instructionAt i).operand = .method o' ∧
      o' ≠ o ∧ w.program.resolveMethod? o = some ⟨⟨13⟩,1⟩ ∧ w'.program.resolveMethod? o' = some ⟨⟨15⟩,0⟩ := by
  obtain ⟨home,p,linked,evaluated⟩ := overloads.link_passes (f := fun home p =>
    passes (run.run ⟨p,start home {},[]⟩) fun view w =>
      passes ((Injection.run view home {}).run ⟨w.program,(),w.log⟩) fun _ w' =>
        decide (home.index < p.modules.size) && decide (⟨⟨14⟩,0⟩ ∈ Injection.consumers w.program home {}) &&
        (w.program.methodAt ⟨⟨14⟩,0⟩).body.any fun (b : Body) => b.code.any fun i =>
        (w.program.instructionAt i).operand.method?.any fun (o : MethodOperand) =>
        (w'.program.instructionAt i).operand.method?.any fun (o' : MethodOperand) =>
          decide (o'.ref.declaring.element? ≠ o.ref.declaring.element?) &&
          decide (w.program.resolveMethod? o = some ⟨⟨13⟩,1⟩) && decide (w'.program.resolveMethod? o' = some ⟨⟨15⟩,0⟩))
    (by decide +kernel)
  obtain ⟨view,w,generation,evaluated⟩ := exists_of_passes evaluated
  obtain ⟨report,w',injection,evaluated⟩ := exists_of_passes evaluated
  simp only [any_eq_true,Option.any_eq_true,Bool.and_eq_true,decide_eq_true_eq,Operand.method?_eq_some] at evaluated
  obtain ⟨⟨place,consumer⟩,b,body,i,among,o,operand,o',operand',⟨moved,before⟩,after⟩ := evaluated
  exact ⟨home,p,view,w,report,w',linked,place,generation,injection,consumer,b,body,i,among,o,o',operand,
    operand',fun same => moved (by rw [same]),before,after⟩

/-- At overloads that become alike both calls are rewritten, and neither finds the clone it was made for. -/
theorem rewritten_call_finds_clone_iff_overloads :
    (∃ (home : ModuleId) (p q : Program) (entry f : Entry) (o o' : MethodOperand), Linked p ∧
      (Cloning.specialize ⟨"$specialized$",[]⟩ home ⟨13⟩ (.decl CoreLibrary.int32)).run p = (.ok entry,q) ∧
      f ∈ entry.flatten ∧ f.Retargets p q o o' ∧ p.resolveMethod? o = some ⟨⟨13⟩,1⟩ ∧ q.resolveMethod? o' = some ⟨⟨15⟩,0⟩) ∧
    ∃ (home : ModuleId) (p : Program) (view : SealedRegistry) (w : Workspace Specializer) (report : Injection)
      (w' : Workspace Unit) (e : Entry) (o o' : MethodOperand), Linked p ∧
      Specializer.run.run ⟨p,Specializer.start home {},[]⟩ = (.ok view,w) ∧
      (Injection.run view home {}).run ⟨w.program,(),w.log⟩ = (.ok report,w') ∧ e ∈ view.flat ∧
      e.Retargets w.program w'.program o o' ∧ w.program.resolveMethod? o = some ⟨⟨13⟩,1⟩ ∧
      w'.program.resolveMethod? o' = some ⟨⟨15⟩,0⟩ := by
  constructor
  · obtain ⟨home,p,entry,q,linked,done,e,flat,clone,recorded,b,b',i,i',o,o',body,body',at_,at',operand,
      operand',element,before,after⟩ := overloads_specialized
    have reached : Linked p := .link .core linked
    obtain ⟨f,among,retargets⟩ := (rewritten_call_finds_clone_iff reached).1 _ home _ _ entry q
      (reached.declares_core (by decide)) done e flat _ _ recorded b b' body body' 1 i i' at_ at' o o' operand operand'
      ⟨e,flat,by rw [clone]; exact element⟩
    exact ⟨home,p,q,entry,f,o,o',reached,done,among,retargets,before,after⟩
  · obtain ⟨home,p,view,w,report,w',linked,place,generation,injection,consumer,b,body,i,among,o,o',operand,
      operand',changed,before,after⟩ := overloads_injected
    have reached : Linked p := .link .core linked
    obtain ⟨e,flat,-,retargets⟩ := (rewritten_call_finds_clone_iff reached).2 home {} [] view w place generation report w'
      injection _ consumer b body i among o o' operand operand' changed
    exact ⟨home,p,view,w,report,w',e,o,o',reached,generation,injection,flat,retargets,before,after⟩

end Loom
