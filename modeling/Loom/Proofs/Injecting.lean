import Loom.Injection
import Loom.Proofs.Generation

/-!
Injecting specializations. What is put in place of an operand depends on declarations only, so a run rewires each operand
of the consumers as it would be rewired in the program at the start; everything else stays as it is.
-/
namespace Loom

open Runs List Program Weaving
open TypeDecl (header signature)
open Loom.Except (bind_eq_ok mapError_eq_ok)

variable {c d : TypeId} {m n : MethodId} {b b' : Body} {α : Type} {t' : TypeRef} {trailing : List TypeRef}
  {o : Option MethodRef} {ns : List MethodId}

/-! ### Answers of a registry -/

namespace SealedRegistry

variable {s : SealedRegistry} {p q : Program} {site : String} {t : TypeRef}
variable {r : MethodRef}

theorem only?_eq_ok {tooMany : Failure} {xs : List α} {r : Option α} : only? tooMany xs = .ok r ↔ xs = r.toList := by
  match xs with
  | [] => cases r <;> simp [only?]
  | [a] => cases r <;> simp [only?]
  | a :: b :: rest => cases r <;> simp [only?]

theorem atSite_eq_ok {x : Except Failure α} {a : α} : atSite site x = .ok a ↔ x = .ok a := by
  rcases x with (_ | _ | _) | _ <;> simp [atSite]

theorem lookup_mono {r : Option Entry} (agree : Agree header p q)
    (done : s.lookup p d t = .ok r) : s.lookup q d t = .ok r := by
  rw [lookup,only?_eq_ok] at done ⊢
  simp only [isEntryFor,agree.same_eq]
  exact done

theorem lookupMethod_mono {r : Option (MethodId × Entry)} (agree : Agree header p q)
    (done : s.lookupMethod p m t = .ok r) : s.lookupMethod q m t = .ok r := by
  rw [lookupMethod,only?_eq_ok] at done ⊢
  simp only [agree.same_eq]
  exact done

theorem lookup_eq_some {e : Entry} (done : s.lookup p d t = .ok (some e)) :
    e ∈ s.flat ∧ e.generic = d ∧ p.same e.argument t = true := by
  have only := only?_eq_ok.mp done
  have member : e ∈ s.flat.filter fun e => p.isEntryFor e d t := by
    rw [only]
    exact .head _
  obtain ⟨flat,answers⟩ := mem_filter.mp member
  obtain ⟨generic,same⟩ := Bool.and_eq_true_iff.mp answers
  exact ⟨flat,eq_of_beq generic,same⟩

theorem lookupMethod_eq_some {c : MethodId} {e : Entry} (done : s.lookupMethod p m t = .ok (some (c,e))) :
    e ∈ s.flat ∧ p.same e.argument t = true ∧ e.method? m = some c := by
  have only := only?_eq_ok.mp done
  have member : (c,e) ∈ (s.flat.filter fun e => p.same e.argument t).filterMap fun e => (e.method? m).map (·,e) := by
    rw [only]
    exact .head _
  obtain ⟨f,among,found⟩ := mem_filterMap.mp member
  obtain ⟨flat,same⟩ := mem_filter.mp among
  obtain ⟨d,recorded,⟨⟩⟩ := Option.map_eq_some_iff.mp found
  exact ⟨flat,same,recorded⟩

/-! ### References -/

/-- What takes the place of a type, if anything does. -/
inductive TypeInjected (s : SealedRegistry) (p : Program) (t : TypeRef) : Option TypeId → Prop
  | plain (other : ∀ d a, t ≠ .applied d [a]) : TypeInjected s p t none
  | kept {d : TypeId} {a : TypeRef} (shape : t = .applied d [a]) (answer : s.lookup p d a = .ok none) :
      TypeInjected s p t none
  | replaced {d : TypeId} {a : TypeRef} {e : Entry} (shape : t = .applied d [a])
      (answer : s.lookup p d a = .ok (some e)) : TypeInjected s p t (some e.specialized)

theorem TypeInjected.mono {r : Option TypeId} (agree : Agree header p q) (injected : TypeInjected s p t r) :
    TypeInjected s q t r := by
  cases injected with
  | plain other => exact .plain other
  | kept shape answer => exact .kept shape (lookup_mono agree answer)
  | replaced shape answer => exact .replaced shape (lookup_mono agree answer)

theorem injectType?_eq_ok {r : Option TypeId} (done : s.injectType? p site t = .ok r) : TypeInjected s p t r := by
  rw [injectType?.eq_def] at done
  split at done
  · obtain ⟨answer,found,same⟩ := bind_eq_ok.mp done
    cases answer with
    | none => cases same; exact .kept rfl (atSite_eq_ok.mp found)
    | some e => cases same; exact .replaced rfl (atSite_eq_ok.mp found)
  · next other =>
    cases done
    exact .plain fun d a shape => other d a shape

/-- A reference and what stands in its place after an injection. -/
def TypeRewired (s : SealedRegistry) (p : Program) (t t' : TypeRef) : Prop :=
  ∃ r, TypeInjected s p t r ∧ t' = (r.map .decl).getD t

theorem TypeRewired.mono (agree : Agree header p q) (rewired : TypeRewired s p t t') : TypeRewired s q t t' := by
  obtain ⟨r,injected,same⟩ := rewired
  exact ⟨r,injected.mono agree,same⟩

theorem injectType_eq_ok (done : s.injectType p site t = .ok t') : TypeRewired s p t t' := by
  obtain ⟨r,found,same⟩ := bind_eq_ok.mp done
  exact ⟨r,injectType?_eq_ok found,(Except.ok.inj same).symm⟩

/-- A clone with the arguments that its original had after the first. -/
inductive Carries (p : Program) (c : TypeId) : List TypeRef → TypeRef → Prop
  | plain : Carries p c [] (.decl c)
  | applied {trailing : List TypeRef} (some_ : trailing ≠ []) (count : (p.typeAt c).generics.length = trailing.length) :
      Carries p c trailing (.applied c trailing)

theorem Carries.element {t : TypeRef} (carries : Carries p c trailing t) : t.element? = some c := by
  cases carries <;> rfl

theorem Carries.mono {t : TypeRef} (agree : Agree header p q)
    (carries : Carries p c trailing t) : Carries q c trailing t := by
  cases carries with
  | plain => exact .plain
  | applied some_ count => exact .applied some_ (by rw [agree.generics_eq]; exact count)

/-- What takes the place of a method reference, if anything does. -/
inductive MethodInjected (s : SealedRegistry) (p : Program) (r : MethodRef) : Option MethodRef → Prop
  | plain (other : ∀ d args, r.declaring ≠ .applied d args) : MethodInjected s p r none
  | unknown {d : TypeId} {args : List TypeRef} (declaring : r.declaring = .applied d args)
      (missing : p.findMethod? d r = none) : MethodInjected s p r none
  | kept {d : TypeId} {first : TypeRef} {trailing : List TypeRef} {m : MethodId}
      (declaring : r.declaring = .applied d (first :: trailing)) (found : p.findMethod? d r = some m)
      (answer : s.lookupMethod p m first = .ok none) : MethodInjected s p r none
  | replaced {d : TypeId} {first : TypeRef} {trailing : List TypeRef} {m c : MethodId} {e : Entry} {t : TypeRef}
      (declaring : r.declaring = .applied d (first :: trailing)) (found : p.findMethod? d r = some m)
      (answer : s.lookupMethod p m first = .ok (some (c,e))) (carries : Carries p e.specialized trailing t) :
      MethodInjected s p r (some (p.refOn c t r.id.next))

theorem MethodInjected.mono (agree : Agree signature p q) (injected : MethodInjected s p r o) : MethodInjected s q r o := by
  cases injected with
  | plain other => exact .plain other
  | unknown declaring missing => exact .unknown declaring (by rw [agree.findMethod?_eq]; exact missing)
  | kept declaring found answer =>
    exact .kept declaring (by rw [agree.findMethod?_eq]; exact found) (lookupMethod_mono agree.header answer)
  | replaced declaring found answer carries =>
    rw [← agree.refOn_eq]
    exact .replaced declaring (by rw [agree.findMethod?_eq]; exact found) (lookupMethod_mono agree.header answer)
      (carries.mono agree.header)

theorem injectMethodRef?_eq_ok (done : s.injectMethodRef? p site r = .ok o) : MethodInjected s p r o := by
  rw [injectMethodRef?.eq_def] at done
  split at done
  · next d args declaring =>
    split at done
    · next missing =>
      cases done
      exact .unknown declaring missing
    · cases done
    · next m first trailing found =>
      obtain ⟨answer,looked,done⟩ := bind_eq_ok.mp done
      have looked := atSite_eq_ok.mp looked
      cases answer with
      | none =>
        cases done
        exact .kept declaring found looked
      | some pair =>
        obtain ⟨c,e⟩ := pair
        dsimp only at done
        split at done
        · next none =>
          cases done
          obtain rfl := isEmpty_iff.mp none
          exact .replaced declaring found looked .plain
        · next some_ =>
          obtain ⟨t,applied,⟨⟩⟩ := bind_eq_ok.mp done
          obtain ⟨count,rfl⟩ := applyType_eq_ok.mp (mapError_eq_ok.mp applied)
          exact .replaced declaring found looked (.applied (fun none => some_ (by rw [none]; rfl)) count)
  · next other =>
    cases done
    exact .plain other

/-- A method operand and what stands in its place after an injection. -/
inductive MethodRewired (s : SealedRegistry) (p : Program) : MethodOperand → MethodOperand → Prop
  | kept {o : MethodOperand} (injected : MethodInjected s p o.ref none) : MethodRewired s p o o
  | plain {r r' : MethodRef} (injected : MethodInjected s p r (some r')) : MethodRewired s p (.plain r) (.plain r')
  | applied {r r' : MethodRef} {args args' : List TypeRef} (injected : MethodInjected s p r (some r'))
      (each : List.Forall₂ (TypeRewired s p) args args') (count : r'.generics.length = args'.length) :
      MethodRewired s p (.applied r args) (.applied r' args')

theorem MethodRewired.mono {o o' : MethodOperand} (agree : Agree signature p q)
    (rewired : MethodRewired s p o o') : MethodRewired s q o o' := by
  cases rewired with
  | kept injected => exact .kept (injected.mono agree)
  | plain injected => exact .plain (injected.mono agree)
  | applied injected each count =>
    exact .applied (injected.mono agree) (each.imp fun _ _ rewired => rewired.mono agree.header) count

theorem injectMethod?_eq_ok {o : MethodOperand} {r : Option MethodOperand} (done : s.injectMethod? p site o = .ok r) :
    MethodRewired s p o (r.getD o) := by
  obtain ⟨found,answer,done⟩ := bind_eq_ok.mp done
  have injected := injectMethodRef?_eq_ok answer
  cases found with
  | none =>
    cases done
    exact .kept injected
  | some r' =>
    cases o with
    | plain r =>
      cases done
      exact .plain injected
    | applied r args =>
      obtain ⟨args',each,done⟩ := bind_eq_ok.mp done
      obtain ⟨o',applied,⟨⟩⟩ := bind_eq_ok.mp done
      obtain ⟨count,rfl⟩ := MethodRef.apply_eq_ok.mp (mapError_eq_ok.mp applied)
      exact .applied injected ((Except.mapM_eq_ok.mp each).imp fun _ _ => injectType_eq_ok) count

/-- A field operand and what stands in its place after an injection. -/
inductive FieldRewired (s : SealedRegistry) (p : Program) (f : FieldRef) : FieldRef → Prop
  | kept (injected : TypeInjected s p f.declaring none) : FieldRewired s p f f
  | replaced {c : TypeId} {d : FieldDecl} (injected : TypeInjected s p f.declaring (some c))
      (found : (p.typeAt c).field? f.name = some d) : FieldRewired s p f ⟨f.name,d.type,.decl c⟩

theorem FieldRewired.mono {f f' : FieldRef} (agree : Agree signature p q) (rewired : FieldRewired s p f f') :
    FieldRewired s q f f' := by
  cases rewired with
  | kept injected => exact .kept (injected.mono agree.header)
  | replaced injected found => exact .replaced (injected.mono agree.header) (by rw [agree.field?_eq]; exact found)

theorem injectField?_eq_ok {f : FieldRef} {r : Option FieldRef} (done : s.injectField? p site f = .ok r) :
    FieldRewired s p f (r.getD f) := by
  obtain ⟨c,answer,done⟩ := bind_eq_ok.mp done
  have injected := injectType?_eq_ok answer
  cases c with
  | none =>
    cases done
    exact .kept injected
  | some c =>
    dsimp only at done
    split at done
    · cases done
    · next d found =>
      cases done
      exact .replaced injected found

/-- An operand and what stands in its place after an injection. -/
def OperandRewired (s : SealedRegistry) (p : Program) : Operand → Operand → Prop
  | .type t, o => ∃ t', o = .type t' ∧ TypeRewired s p t t'
  | .method m, o => ∃ m', o = .method m' ∧ MethodRewired s p m m'
  | .field f, o => ∃ f', o = .field f' ∧ FieldRewired s p f f'
  | o, o' => o' = o

theorem OperandRewired.mono {o o' : Operand} (agree : Agree signature p q) (rewired : OperandRewired s p o o') :
    OperandRewired s q o o' := by
  cases o with
  | type t => obtain ⟨t',same,rewired⟩ := rewired; exact ⟨t',same,rewired.mono agree.header⟩
  | method m => obtain ⟨m',same,rewired⟩ := rewired; exact ⟨m',same,rewired.mono agree⟩
  | field f => obtain ⟨f',same,rewired⟩ := rewired; exact ⟨f',same,rewired.mono agree⟩
  | none => exact rewired
  | int n => exact rewired
  | text t => exact rewired
  | branch i => exact rewired

theorem injectOperand?_eq_ok {o : Operand} {r : Option Operand} (done : s.injectOperand? p site o = .ok r) :
    OperandRewired s p o (r.getD o) := by
  cases o with
  | type t =>
    obtain ⟨c,found,same⟩ := bind_eq_ok.mp done
    obtain rfl := Except.ok.inj same
    exact ⟨(c.map .decl).getD t,by cases c <;> rfl,c,injectType?_eq_ok found,rfl⟩
  | method m =>
    obtain ⟨m',found,same⟩ := bind_eq_ok.mp done
    obtain rfl := Except.ok.inj same
    exact ⟨m'.getD m,by cases m' <;> rfl,injectMethod?_eq_ok found⟩
  | field f =>
    obtain ⟨f',found,same⟩ := bind_eq_ok.mp done
    obtain rfl := Except.ok.inj same
    exact ⟨f'.getD f,by cases f' <;> rfl,injectField?_eq_ok found⟩
  | none => cases done; rfl
  | int n => cases done; rfl
  | text t => cases done; rfl
  | branch i => cases done; rfl

theorem MethodInjected.declaring_ne {r' : MethodRef} (injected : MethodInjected s p r (some r')) :
    r'.declaring ≠ r.declaring := by
  cases injected with
  | @replaced d first trailing m c e t declaring found answer carries =>
    rw [declaring]
    show t ≠ _
    cases carries with
    | plain => rintro ⟨⟩
    | applied => exact fun same => cons_ne_self first trailing (TypeRef.applied.inj same).2.symm

theorem injectOperand?_ne {o o' : Operand} (done : s.injectOperand? p site o = .ok (some o')) : o' ≠ o := by
  cases o with
  | type t =>
    obtain ⟨_ | c,found,same⟩ := bind_eq_ok.mp done
    · cases same
    · cases same
      cases injectType?_eq_ok found with
      | replaced shape => simp [shape]
  | method m =>
    obtain ⟨_ | m',found,same⟩ := bind_eq_ok.mp done
    · cases same
    · cases same
      obtain ⟨_ | r',answer,done⟩ := bind_eq_ok.mp found
      · cases done
      · have ref : m'.ref = r' := by
          cases m with
          | plain r => cases done; rfl
          | applied r args =>
            obtain ⟨args',-,done⟩ := bind_eq_ok.mp done
            obtain ⟨o',applied,⟨⟩⟩ := bind_eq_ok.mp done
            obtain ⟨-,rfl⟩ := MethodRef.apply_eq_ok.mp (mapError_eq_ok.mp applied)
            rfl
        rintro ⟨⟩
        exact (injectMethodRef?_eq_ok answer).declaring_ne (by rw [ref])
  | field f =>
    obtain ⟨_ | f',found,same⟩ := bind_eq_ok.mp done
    · cases same
    · cases same
      obtain ⟨_ | c,answer,done⟩ := bind_eq_ok.mp found
      · cases done
      · cases injectType?_eq_ok answer with
        | replaced shape =>
          rintro ⟨⟩
          dsimp only at done
          split at done
          · cases done
          · have declaring := congrArg FieldRef.declaring (Option.some.inj (Except.ok.inj done))
            rw [shape] at declaring
            cases declaring
  | none => cases done
  | int n => cases done
  | text t => cases done
  | branch i => cases done

end SealedRegistry

/-! ### Loops -/

namespace Injection

open SealedRegistry (TypeRewired OperandRewired)

variable {ms : List MethodId}

open Classical in
/-- At how many places two lists differ. -/
noncomputable def differences {α : Type} (before after : List α) : Nat :=
  (before.zip after).countP fun pair => pair.1 ≠ pair.2

theorem differences_cons_self (a : α) (before after : List α) :
    differences (a :: before) (a :: after) = differences before after := by
  simp [differences]

theorem differences_cons_of_ne {a b : α} (different : b ≠ a) (before after : List α) :
    differences (a :: before) (b :: after) = differences before after + 1 := by
  simp [differences,different.symm]

def operandsOf (p : Program) (is : List InstructionId) : List Operand := is.map fun i => (p.instructionAt i).operand

theorem operandsOf_cons (p : Program) (i : InstructionId) (is : List InstructionId) :
    operandsOf p (i :: is) = (p.instructionAt i).operand :: operandsOf p is := rfl

variable {s : SealedRegistry} {site : String} {m : MethodId} {w w' : Workspace Unit} {p q x : Program}

/-- The operands of the given instructions were rewired, and nothing else was done. -/
structure OperandsInjected (s : SealedRegistry) (is : List InstructionId) (p q : Program) : Prop where
  types_eq : q.types = p.types
  modules_eq : q.modules = p.modules
  size_eq : q.code.size = p.code.size
  opcode_eq : ∀ i, (q.instructionAt i).opcode = (p.instructionAt i).opcode
  rewired : ∀ i ∈ is, OperandRewired s p (p.instructionAt i).operand (q.instructionAt i).operand
  others : ∀ i, i ∉ is → q.instructionAt i = p.instructionAt i

theorem rewireOperands_eq_ok {is : List InstructionId} {n k : Nat} (distinct : is.Nodup)
    (inside : ∀ i ∈ is, i.index < w.program.code.size) (done : (rewireOperands s site n is).run w = (.ok k,w')) :
    OperandsInjected s is w.program w'.program ∧
      k = n + differences (operandsOf w.program is) (operandsOf w'.program is) := by
  induction is generalizing w n with
  | nil =>
    obtain ⟨rfl,rfl⟩ := run_pure_eq_ok.mp done
    exact ⟨⟨rfl,rfl,rfl,fun _ => rfl,nofun,fun _ _ => rfl⟩,rfl⟩
  | cons i rest ih =>
    obtain ⟨fresh,distinct⟩ := nodup_cons.mp distinct
    obtain ⟨here,inside⟩ := forall_mem_cons.mp inside
    rw [rewireOperands,run_program_bind] at done
    obtain ⟨r,injected,done⟩ := run_ofExcept_bind_eq_ok.mp done
    have first := SealedRegistry.injectOperand?_eq_ok injected
    cases r with
    | none =>
      obtain ⟨later,count⟩ := ih distinct inside done
      refine ⟨{ later with rewired := forall_mem_cons.mpr ⟨?_,later.rewired⟩, others := fun j other => ?_ },?_⟩
      · rw [later.others i fresh]
        exact first
      · exact later.others j fun among => other (.tail _ among)
      · rw [count,operandsOf_cons,operandsOf_cons,later.others i fresh,differences_cons_self]
    | some operand =>
      rw [run_setProgram_bind] at done
      obtain ⟨later,count⟩ := ih distinct (by simpa using inside) done
      have agree : Agree signature
          (w.program.modifyInstruction i fun ins => { ins with operand }) w.program := .of_types_eq rfl
      have self := instructionAt_modify_self here fun ins => { ins with operand }
      have apart {j : InstructionId} (different : j ≠ i) :=
        instructionAt_modify_of_ne different (p := w.program) fun ins => { ins with operand }
      refine ⟨?_,?_⟩
      rotate_left
      · have rest : operandsOf (w.program.modifyInstruction i fun ins => { ins with operand }) rest =
            operandsOf w.program rest :=
          map_congr_left fun j among => by rw [apart fun same => fresh (same ▸ among)]
        have changed := SealedRegistry.injectOperand?_ne injected
        rw [count,rest,operandsOf_cons,operandsOf_cons,later.others i fresh,self,differences_cons_of_ne changed]
        omega
      exact {
        types_eq := later.types_eq
        modules_eq := later.modules_eq
        size_eq := later.size_eq.trans (size_modifyInstruction i _)
        opcode_eq := fun j => by
          rw [later.opcode_eq j]
          by_cases same : j = i
          · rw [same,self]
          · rw [apart same]
        rewired := by
          refine forall_mem_cons.mpr ⟨?_,fun j among => ?_⟩
          · rw [later.others i fresh,self]
            exact first
          · have different : j ≠ i := fun same => fresh (same ▸ among)
            have rewired := (later.rewired j among).mono agree
            rwa [apart different] at rewired
        others := fun j other => by
          rw [later.others j fun among => other (.tail _ among),apart fun same => other (same ▸ .head _)] }

/-- The body of one method was put in the place of another, and nothing else was done. -/
structure Rebodied (m : MethodId) (b' : Body) (p q : Program) : Prop where
  agree : Agree signature p q
  modules_eq : q.modules = p.modules
  code_eq : q.code = p.code
  body : (q.methodAt m).body = some b'
  others : ∀ n, n ≠ m → q.methodAt n = p.methodAt n

theorem Rebodied.trans (early : Rebodied m b p x) (late : Rebodied m b' x q) : Rebodied m b' p q where
  agree := early.agree.trans late.agree
  modules_eq := late.modules_eq.trans early.modules_eq
  code_eq := late.code_eq.trans early.code_eq
  body := late.body
  others n other := (late.others n other).trans (early.others n other)

theorem rebodied_modifyMethod {f : MethodDecl → MethodDecl} (body : (p.methodAt m).body = some b)
    (agree : Agree signature p (p.modifyMethod m f)) (made : (f (p.methodAt m)).body = some b') :
    Rebodied m b' p (p.modifyMethod m f) where
  agree := agree
  modules_eq := rfl
  code_eq := rfl
  body := by
    rw [methodAt_modifyMethod_self (owner_lt_of_body body) (position_lt_of_body body)]
    exact made
  others n other := methodAt_modifyMethod_of_ne other _

theorem rebodied_modifyBody (body : (p.methodAt m).body = some b) (f : Body → Body) :
    Rebodied m (f b) p (p.modifyBody m f) := by
  refine rebodied_modifyMethod body (.modifyMethod fun _ => rfl) ?_
  show (p.methodAt m).body.map f = some (f b)
  rw [body]
  rfl

theorem rewireLocals_eq_ok {pre rest : List TypeRef} {n k : Nat} (body : (w.program.methodAt m).body = some b)
    (locals : b.locals = pre ++ rest) (done : (rewireLocals s m site pre.length n rest).run w = (.ok k,w')) :
    ∃ rest', Forall₂ (TypeRewired s w.program) rest rest' ∧
      Rebodied m { b with locals := pre ++ rest' } w.program w'.program ∧ k = n + differences rest rest' := by
  induction rest generalizing w n pre b with
  | nil =>
    obtain ⟨rfl,rfl⟩ := run_pure_eq_ok.mp done
    exact ⟨[],.nil,⟨.refl _ _,rfl,rfl,by rw [body,← locals],fun _ _ => rfl⟩,rfl⟩
  | cons t rest ih =>
    rw [rewireLocals,run_program_bind] at done
    obtain ⟨r,injected,done⟩ := run_ofExcept_bind_eq_ok.mp done
    have first := SealedRegistry.injectType?_eq_ok injected
    cases r with
    | none =>
      have split : b.locals = (pre ++ [t]) ++ rest := by rw [locals,append_assoc]; rfl
      have length : pre.length + 1 = (pre ++ [t]).length := by simp
      dsimp only at done
      rw [length] at done
      obtain ⟨rest',each,rebodied,count⟩ := ih body split done
      refine ⟨t :: rest',.cons ⟨none,first,rfl⟩ each,?_,by rw [count,differences_cons_self]⟩
      rwa [append_assoc] at rebodied
    | some c =>
      rw [run_setProgram_bind] at done
      have set : b.locals.set pre.length (.decl c) = (pre ++ [.decl c]) ++ rest := by
        rw [locals,set_append_right _ _ (Nat.le_refl _),Nat.sub_self,append_assoc]
        rfl
      have length : pre.length + 1 = (pre ++ [TypeRef.decl c]).length := by simp
      rw [length] at done
      have one : Rebodied m { b with locals := b.locals.set pre.length (.decl c) } w.program _ :=
        rebodied_modifyBody body fun b => { b with locals := b.locals.set pre.length (.decl c) }
      generalize w.program.modifyBody m _ = x at one done
      obtain ⟨rest',each,rebodied,count⟩ := ih (w := { w with program := x }) one.body set done
      refine ⟨.decl c :: rest',.cons ⟨some c,first,rfl⟩ (each.imp fun _ _ r => r.mono one.agree.symm.header),?_,?_⟩
      · rw [append_assoc] at rebodied
        exact one.trans rebodied
      · have changed : .decl c ≠ t := by
          cases first with
          | replaced shape => simp [shape]
        rw [count,differences_cons_of_ne changed]
        omega

/-! ### Runs -/

def Within (p : Program) (ms : List MethodId) (i : InstructionId) : Prop :=
  ∃ m ∈ ms, ∃ b, (p.methodAt m).body = some b ∧ i ∈ b.code

/-- The bodies of the given methods were rewired, and nothing else was done. -/
structure Injected (s : SealedRegistry) (ms : List MethodId) (p q : Program) : Prop where
  agree : Agree signature p q
  modules_eq : q.modules = p.modules
  size_eq : q.code.size = p.code.size
  opcode_eq : ∀ i, (q.instructionAt i).opcode = (p.instructionAt i).opcode
  bodiless : ∀ m, (p.methodAt m).body = none → (q.methodAt m).body = none
  body : ∀ m ∈ ms, ∀ b, (p.methodAt m).body = some b → ∃ locals, (q.methodAt m).body = some { b with locals } ∧
    List.Forall₂ (TypeRewired s p) b.locals locals
  others : ∀ m, m ∉ ms → q.methodAt m = p.methodAt m
  rewired : ∀ i, Within p ms i → OperandRewired s p (p.instructionAt i).operand (q.instructionAt i).operand
  untouched : ∀ i, ¬Within p ms i → q.instructionAt i = p.instructionAt i

theorem Injected.nil (s : SealedRegistry) (p : Program) : Injected s [] p p where
  agree := .refl _ p
  modules_eq := rfl
  size_eq := rfl
  opcode_eq _ := rfl
  bodiless _ bare := bare
  body := nofun
  others _ _ := rfl
  rewired := by
    rintro i ⟨m,member,-⟩
    cases member
  untouched _ _ := rfl

theorem Injected.exists_body (injected : Injected s ms p q)
    (body : (q.methodAt n).body = some b') : ∃ b, (p.methodAt n).body = some b ∧ b'.code = b.code := by
  cases before : (p.methodAt n).body with
  | none =>
    rw [injected.bodiless n before] at body
    cases body
  | some b =>
    refine ⟨b,rfl,?_⟩
    by_cases member : n ∈ ms
    · obtain ⟨locals,after,-⟩ := injected.body n member b before
      rw [body] at after
      rw [Option.some.inj after]
    · rw [injected.others n member,before] at body
      rw [Option.some.inj body]

theorem Injected.body_code (injected : Injected s ms p q)
    (body : (p.methodAt n).body = some b) : ∃ b', (q.methodAt n).body = some b' ∧ b'.code = b.code := by
  by_cases member : n ∈ ms
  · obtain ⟨locals,after,-⟩ := injected.body n member b body
    exact ⟨_,after,rfl⟩
  · exact ⟨b,by rw [injected.others n member]; exact body,rfl⟩

theorem Injected.within_iff (injected : Injected s ms p q) (i : InstructionId) : Within q ns i ↔ Within p ns i := by
  constructor
  · rintro ⟨n,member,b',body,among⟩
    obtain ⟨b,before,code⟩ := injected.exists_body body
    exact ⟨n,member,b,before,code ▸ among⟩
  · rintro ⟨n,member,b,body,among⟩
    obtain ⟨b',after,code⟩ := injected.body_code body
    exact ⟨n,member,b',after,code ▸ among⟩

theorem Within.disjoint {i : InstructionId} (separate : p.Separate) (apart : ms.Disjoint ns)
    (first : Within p ms i) : ¬Within p ns i := by
  obtain ⟨m,member,b,body,here⟩ := first
  rintro ⟨n,other,c,found,there⟩
  exact apart member (separate m n b c body found i here there ▸ other)

/-- Methods are rewired one after the other; as they share no instructions, one does not disturb another. -/
theorem Injected.cons (separate : p.Separate) (fresh : m ∉ ms) (early : Injected s [m] p x) (late : Injected s ms x q) :
    Injected s (m :: ms) p q := by
  have agree := early.agree.symm
  have apart (i : InstructionId) (first : Within p [m] i) : ¬Within x ms i := by
    rw [early.within_iff]
    exact first.disjoint separate (singleton_disjoint.mpr fresh)
  have split (i : InstructionId) : Within p (m :: ms) i ↔ Within p [m] i ∨ Within p ms i := by
    simp [Within]
  exact {
    agree := early.agree.trans late.agree
    modules_eq := late.modules_eq.trans early.modules_eq
    size_eq := late.size_eq.trans early.size_eq
    opcode_eq := fun i => (late.opcode_eq i).trans (early.opcode_eq i)
    bodiless := fun n bare => late.bodiless n (early.bodiless n bare)
    body := fun n member b body => by
      rcases mem_cons.mp member with rfl | later
      · rw [late.others n fresh]
        exact early.body n (.head _) b body
      · have same := early.others n fun one => fresh (mem_singleton.mp one ▸ later)
        obtain ⟨locals,after,each⟩ := late.body n later b (by rw [same]; exact body)
        exact ⟨locals,after,each.imp fun _ _ rewired => rewired.mono agree.header⟩
    others := fun n other => by
      rw [late.others n fun among => other (.tail _ among),
        early.others n fun one => other (mem_singleton.mp one ▸ .head _)]
    rewired := fun i within => by
      by_cases first : Within p [m] i
      · rw [late.untouched i (apart i first)]
        exact early.rewired i first
      · have later := ((split i).mp within).resolve_left first
        have rewired := (late.rewired i ((early.within_iff i).mpr later)).mono agree
        rwa [early.untouched i first] at rewired
    untouched := fun i outside => by
      rw [split,not_or] at outside
      rw [late.untouched i fun within => outside.2 ((early.within_iff i).mp within),early.untouched i outside.1] }

theorem Injected.of_bodiless (bare : (p.methodAt m).body = none) : Injected s [m] p p := by
  have nowhere (i : InstructionId) : ¬Within p [m] i := by
    rintro ⟨n,one,b,body,-⟩
    rw [mem_singleton.mp one,bare] at body
    cases body
  exact { Injected.nil s p with
    body := fun n one b body => by
      rw [mem_singleton.mp one,bare] at body
      cases body
    others := fun _ _ => rfl
    rewired := fun i within => absurd within (nowhere i)
    untouched := fun _ _ => rfl }

theorem Injected.of_rebodied {locals : List TypeRef} (body : (p.methodAt m).body = some b)
    (each : Forall₂ (TypeRewired s p) b.locals locals) (rebodied : Rebodied m { b with locals } p x)
    (operands : OperandsInjected s b.code x q) : Injected s [m] p q := by
  have method (n : MethodId) : q.methodAt n = x.methodAt n :=
    methodAt_congr (by rw [typeAt,operands.types_eq]; rfl)
  have instruction (i : InstructionId) : x.instructionAt i = p.instructionAt i := by
    rw [instructionAt,rebodied.code_eq]
    rfl
  have within (i : InstructionId) : Within p [m] i ↔ i ∈ b.code := by
    constructor
    · rintro ⟨n,one,c,found,among⟩
      rw [mem_singleton.mp one,body] at found
      rw [Option.some.inj found]
      exact among
    · exact fun among => ⟨m,.head _,b,body,among⟩
  exact {
    agree := rebodied.agree.trans (.of_types_eq operands.types_eq)
    modules_eq := operands.modules_eq.trans rebodied.modules_eq
    size_eq := by rw [operands.size_eq,rebodied.code_eq]
    opcode_eq := fun i => by rw [operands.opcode_eq,instruction]
    bodiless := fun n bare => by
      have other : n ≠ m := fun same => by rw [same,body] at bare; cases bare
      rw [method,rebodied.others n other]
      exact bare
    body := fun n one c found => by
      obtain rfl := mem_singleton.mp one
      obtain rfl := Option.some.inj (body.symm.trans found)
      exact ⟨locals,by rw [method]; exact rebodied.body,each⟩
    others := fun n other => by rw [method,rebodied.others n fun same => other (same ▸ .head _)]
    rewired := fun i inside => by
      have rewired := (operands.rewired i ((within i).mp inside)).mono rebodied.agree.symm
      rwa [instruction] at rewired
    untouched := fun i outside => by rw [operands.others i fun among => outside ((within i).mpr among),instruction] }

/-- What is reported of a method: at how many places its locals and its operands differ. -/
noncomputable def tally (p q : Program) (m : MethodId) : MethodInjection :=
  let b := (p.methodAt m).body.getD {}
  { method := p.methodFullName m
    locals := differences b.locals ((q.methodAt m).body.getD {}).locals
    operands := differences (operandsOf p b.code) (operandsOf q b.code) }

theorem tally_congr {p' q' : Program} (name : p'.methodFullName m = p.methodFullName m)
    (before : p'.methodAt m = p.methodAt m) (after : q'.methodAt m = q.methodAt m)
    (code : ∀ i, Within p [m] i → p'.instructionAt i = p.instructionAt i ∧ q'.instructionAt i = q.instructionAt i) :
    tally p' q' m = tally p q m := by
  have within (i : InstructionId) (among : i ∈ ((p.methodAt m).body.getD {}).code) : Within p [m] i := by
    cases body : (p.methodAt m).body with
    | none => simp [body] at among
    | some b => exact ⟨m,.head _,b,body,by simpa [body] using among⟩
  have first : operandsOf p' ((p.methodAt m).body.getD {}).code = operandsOf p ((p.methodAt m).body.getD {}).code :=
    map_congr_left fun i among => by rw [(code i (within i among)).1]
  have second : operandsOf q' ((p.methodAt m).body.getD {}).code = operandsOf q ((p.methodAt m).body.getD {}).code :=
    map_congr_left fun i among => by rw [(code i (within i among)).2]
  simp only [tally,name,before,after,first,second]

theorem rewireMethod_injected {report : MethodInjection} (formed : ∀ b, (w.program.methodAt m).body = some b →
      b.code.Nodup ∧ ∀ i ∈ b.code, i.index < w.program.code.size)
    (done : (rewireMethod s m).run w = (.ok report,w')) :
    Injected s [m] w.program w'.program ∧ report = tally w.program w'.program m := by
  rw [rewireMethod,run_program_bind] at done
  cases body : (w.program.methodAt m).body with
  | none =>
    simp only [body] at done
    obtain ⟨rfl,rfl⟩ := run_pure_eq_ok.mp done
    exact ⟨.of_bodiless body,by simp [tally,body,differences,operandsOf]⟩
  | some b =>
    simp only [body] at done
    obtain ⟨distinct,inside⟩ := formed b body
    obtain ⟨j,x,locals,done⟩ := run_bind_eq_ok.mp done
    obtain ⟨k,y,operands,done⟩ := run_bind_eq_ok.mp done
    have same : w'.program = y.program ∧ report = ⟨w.program.methodFullName m,j,k⟩ := by
      split at done
      · obtain ⟨rfl,rfl⟩ := run_pure_eq_ok.mp done
        exact ⟨rfl,rfl⟩
      · rw [run_report_bind] at done
        obtain ⟨rfl,rfl⟩ := run_pure_eq_ok.mp done
        exact ⟨rfl,rfl⟩
    obtain ⟨rest,each,rebodied,many⟩ := rewireLocals_eq_ok body (nil_append b.locals).symm locals
    obtain ⟨rewired,often⟩ := rewireOperands_eq_ok distinct (by rw [rebodied.code_eq]; exact inside) operands
    have injected := Injected.of_rebodied body each rebodied rewired
    rw [same.1]
    refine ⟨injected,?_⟩
    have after : (y.program.methodAt m).body = some { b with locals := rest } := by
      rw [methodAt_congr (q := y.program) (p := x.program) (by rw [typeAt,rewired.types_eq]; rfl)]
      exact rebodied.body
    have before : operandsOf x.program b.code = operandsOf w.program b.code :=
      map_congr_left fun i _ => by rw [instructionAt,rebodied.code_eq]; rfl
    rw [same.2,many,often,before,Nat.zero_add,Nat.zero_add,tally,body,after]
    rfl

/-- The bodies that injection goes through: no instruction twice in one, and none in two. -/
structure Unshared (p : Program) : Prop where
  bodies : ∀ m b, (p.methodAt m).body = some b → b.code.Nodup ∧ ∀ i ∈ b.code, i.index < p.code.size
  separate : p.Separate

theorem unshared_of_wellFormed (formed : p.WellFormed) : Unshared p where
  bodies m b body := by
    have whole := (formed.types m.owner (owner_lt_of_body body)).bodies m rfl b body
    exact ⟨whole.distinct,whole.inside⟩
  separate := formed.separate

theorem Injected.unshared (injected : Injected s ms p q) (unshared : Unshared p) : Unshared q where
  bodies m b' body := by
    obtain ⟨b,before,code⟩ := injected.exists_body body
    rw [code,injected.size_eq]
    exact unshared.bodies m b before
  separate m n b' c' first second i inFirst inSecond := by
    obtain ⟨b,early,code⟩ := injected.exists_body first
    obtain ⟨c,late,code'⟩ := injected.exists_body second
    rw [code] at inFirst
    rw [code'] at inSecond
    exact unshared.separate m n b c early late i inFirst inSecond

theorem rewireMethods_injected {reports : List MethodInjection} (distinct : ms.Nodup) (unshared : Unshared w.program)
    (done : (ms.mapM (rewireMethod s)).run w = (.ok reports,w')) :
    Injected s ms w.program w'.program ∧ reports = ms.map (tally w.program w'.program) := by
  induction ms generalizing w reports with
  | nil =>
    rw [mapM_nil] at done
    obtain ⟨rfl,rfl⟩ := run_pure_eq_ok.mp done
    exact ⟨.nil s _,rfl⟩
  | cons m rest ih =>
    obtain ⟨fresh,distinct⟩ := nodup_cons.mp distinct
    obtain ⟨_,x,_,first,later,rfl⟩ := run_mapM_cons_eq_ok.mp done
    obtain ⟨early,rfl⟩ := rewireMethod_injected (unshared.bodies m) first
    obtain ⟨late,rfl⟩ := ih distinct (early.unshared unshared) later
    refine ⟨early.cons unshared.separate fresh late,?_⟩
    rw [map_cons]
    congr 1
    · refine tally_congr rfl rfl (late.others m fresh).symm fun i within => ⟨rfl,(late.untouched i ?_).symm⟩
      rw [early.within_iff]
      exact within.disjoint unshared.separate (singleton_disjoint.mpr fresh)
    · refine map_congr_left fun n among => ?_
      have other : n ∉ [m] := fun one => fresh (mem_singleton.mp one ▸ among)
      exact tally_congr (early.agree.methodFullName_eq n) (early.others n other) rfl fun i within =>
        ⟨early.untouched i (within.disjoint unshared.separate (singleton_disjoint.mpr other)),rfl⟩

/-- The methods of the top-level types of a module that carry the marker. -/
def consumers (p : Program) (home : ModuleId) (config : Config) : List MethodId :=
  ((p.moduleAt home).types.filter fun t => p.hasAttribute t config.injectMarker).flatMap p.methodsOf

theorem nodup_consumers (listed : p.Listed) (home : ModuleId) (config : Config) : (consumers p home config).Nodup := by
  refine nodup_flatMap.mpr ⟨fun t _ => ?_,?_⟩
  · exact Nodup.map (fun _ _ same => congrArg MethodId.position same) nodup_range
  · refine ((listed.distinct home).filter _).imp fun {t u} different m inFirst inSecond => different ?_
    rw [← (mem_methodsOf.mp inFirst).1,(mem_methodsOf.mp inSecond).1]

theorem run_injected {home : ModuleId} {config : Config} {report : Injection} (formed : w.program.WellFormed)
    (done : (run s home config).run w = (.ok report,w')) :
    Injected s (consumers w.program home config) w.program w'.program ∧
      report.methods = (consumers w.program home config).map (tally w.program w'.program) := by
  rw [run,run_program_bind] at done
  rw [rewire,run_program_bind] at done
  obtain ⟨_,_,loop,done⟩ := run_bind_eq_ok.mp done
  obtain ⟨rfl,rfl⟩ := run_pure_eq_ok.mp done
  exact rewireMethods_injected (nodup_consumers formed.listed home config) (unshared_of_wellFormed formed) loop

end Injection
end Loom
