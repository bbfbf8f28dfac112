import Loom.Proofs.Crashes

/-!
Where weaving can crash. Linking crashes on a line that calls a method with an impossible number of generic arguments, and
injection crashes on a method of a type that is applied to no arguments. Nothing else crashes, and neither comes through.
-/
namespace Loom

open Linkage FailsOnly List Program TypeDoc
open Text (trim)

variable {α β σ : Type} {P : Failure → Prop}
variable {line member : List Char} {o : Operand} {r : MethodRef} {scope : List GenericParam} {home : ModuleId}
  {config : Config} {arity : Int} {names : List String} {docs : List (Option TypeDoc)} {t : TypeId} {body : PendingBody}

/-! ### Injection -/

/-- The operand names a method of a type that is applied to no arguments. -/
def Operand.onEmptyApplication : Operand → Bool
  | .method o => match o.ref.declaring with
    | .applied _ [] => true
    | _ => false
  | _ => false

theorem Operand.onEmptyApplication_iff :
    o.onEmptyApplication = true ↔ ∃ m d, o = .method m ∧ m.ref.declaring = .applied d [] := by
  constructor
  · intro isEmpty
    cases o with
    | method m =>
      simp only [onEmptyApplication] at isEmpty
      split at isEmpty
      · next d declaring => exact ⟨m,d,rfl,declaring⟩
      · cases isEmpty
    | _ => cases isEmpty
  · rintro ⟨m,d,rfl,declaring⟩
    rw [onEmptyApplication,declaring]

namespace SealedRegistry

variable {s : SealedRegistry} {p q : Program} {site : String} {scope : List GenericParam} {t argument : TypeRef}

theorem only?_failsOnly {tooMany : Failure} {xs : List α} (reports : ∃ e, tooMany = .error e) :
    FailsOnly P (only? tooMany xs) := by
  obtain ⟨e,rfl⟩ := reports
  rw [only?.eq_def]
  split
  · exact .ok _
  · exact .ok _
  · exact .refused e

theorem atSite_failsOnly {x : Except Failure α} (only : FailsOnly P x) : FailsOnly P (atSite site x) := by
  rw [atSite.eq_def]
  split
  · exact .refused _
  · exact only

theorem injectType?_failsOnly (formed : q.Formed scope t) : FailsOnly P (s.injectType? p site t) := by
  rw [injectType?.eq_def]
  split
  · next element argument =>
    have present : argument ≠ .absent :=
      (formed.part (TypeRef.mem_parts_applied.mpr (.inr ⟨argument,.head _,TypeRef.mem_parts_self _⟩))).ne_absent
    exact (atSite_failsOnly (only?_failsOnly (p.specializationFailure_reports present))).bind fun _ _ => .ok _
  · exact .ok _

theorem injectMethodRef?_failsOnly (formed : q.Formed scope r.declaring)
    (empty : ∀ d, r.declaring = .applied d [] → P (.crash .noElement)) : FailsOnly P (s.injectMethodRef? p site r) := by
  rw [injectMethodRef?.eq_def]
  split
  · next element args declaring =>
    split
    · exact .ok _
    · exact .failed (empty element declaring)
    · next m first trailing _ =>
      rw [declaring] at formed
      have present : first ≠ .absent :=
        (formed.part (TypeRef.mem_parts_applied.mpr (.inr ⟨first,.head _,TypeRef.mem_parts_self _⟩))).ne_absent
      refine (atSite_failsOnly (only?_failsOnly (p.specializationFailure_reports present))).bind fun answer _ => ?_
      split
      · exact .ok _
      · dsimp only
        split
        · exact .ok _
        · exact bind (.mapError _ fun e => ⟨_,rfl⟩) fun _ _ => .ok _
  · exact .ok _

theorem injectOperand?_failsOnly {b : Body} (formed : q.OperandFormed scope b o)
    (empty : o.onEmptyApplication = true → P (.crash .noElement)) : FailsOnly P (s.injectOperand? p site o) := by
  cases o with
  | type t => exact (injectType?_failsOnly formed).bind fun _ _ => .ok _
  | method m =>
    obtain ⟨_,ref⟩ := MethodOperandFormed.ref formed
    have bare : ∀ d, m.ref.declaring = .applied d [] → P (.crash .noElement) := fun d same =>
      empty (Operand.onEmptyApplication_iff.mpr ⟨m,d,rfl,same⟩)
    refine bind (bind (injectMethodRef?_failsOnly ref.declaring bare) fun found _ => ?_)
      fun _ _ => .ok _
    · cases found with
      | none => exact .ok _
      | some r =>
        cases m with
        | plain _ => exact .ok _
        | applied _ args =>
          refine bind (.mapM fun t member => (injectType?_failsOnly (formed.2.2 t member)).bind fun _ _ => .ok _) fun _ _ => ?_
          exact bind (.mapError _ fun e => ⟨_,rfl⟩) fun _ _ => .ok _
  | field f =>
    obtain ⟨d,formed⟩ := formed
    refine bind (bind (injectType?_failsOnly formed.declaring) fun found _ => ?_) fun _ _ => .ok _
    split
    · exact .ok _
    · split
      · exact .refused _
      · exact .ok _
  | _ => exact .ok _

theorem MethodInjected.not_empty {o : Option MethodRef} {d : TypeId} (injected : MethodInjected s p r o)
    (declaring : r.declaring = .applied d []) (found : (p.findMethod? d r).isSome = true) : False := by
  cases injected with
  | plain other => exact other d [] declaring
  | unknown applied missing =>
    obtain ⟨rfl,-⟩ := TypeRef.applied.inj (declaring.symm.trans applied)
    rw [missing] at found
    cases found
  | kept applied => cases declaring.symm.trans applied
  | replaced applied => cases declaring.symm.trans applied

end SealedRegistry

namespace Injection

variable {s : SealedRegistry} {site : String} {m : MethodId} {w : Workspace Unit} {p q : Program}

theorem rewireLocals_failsOnly {i n : Nat} {locals : List TypeRef}
    (formed : ∀ t ∈ locals, q.Formed scope t) : FailsOnly P ((rewireLocals s m site i n locals).run w).1 := by
  induction locals generalizing w i n with
  | nil => exact .ok _
  | cons t rest ih =>
    obtain ⟨first,others⟩ := forall_mem_cons.mp formed
    refine run_bind (.ok _) fun p _ _ => ?_
    refine run_bind (SealedRegistry.injectType?_failsOnly first) fun r _ _ => ?_
    cases r with
    | none => exact ih others
    | some c => exact run_bind (.ok _) fun _ _ _ => ih others

theorem rewireOperands_failsOnly {b : Body} {n : Nat} {is : List InstructionId}
    (distinct : is.Nodup) (formed : ∀ i ∈ is, q.OperandFormed scope b (w.program.instructionAt i).operand)
    (empty : ∀ i ∈ is, (w.program.instructionAt i).operand.onEmptyApplication = true → P (.crash .noElement)) :
    FailsOnly P ((rewireOperands s site n is).run w).1 := by
  induction is generalizing w n with
  | nil => exact .ok _
  | cons i rest ih =>
    obtain ⟨fresh,distinct⟩ := nodup_cons.mp distinct
    obtain ⟨first,others⟩ := forall_mem_cons.mp formed
    obtain ⟨bad,worse⟩ := forall_mem_cons.mp empty
    rw [rewireOperands,Weaving.run_program_bind]
    refine run_bind (SealedRegistry.injectOperand?_failsOnly first bad) fun r _ read => ?_
    obtain ⟨-,rfl⟩ := Weaving.run_ofExcept_eq_ok.mp read
    cases r with
    | none => exact ih distinct others worse
    | some operand =>
      rw [Weaving.run_setProgram_bind]
      -- the instructions that are left are others
      have same (j : InstructionId) (member : j ∈ rest) :
          (w.program.modifyInstruction i fun ins => { ins with operand }).instructionAt j = w.program.instructionAt j :=
        instructionAt_modify_of_ne (by rintro rfl; exact fresh member) _
      refine ih distinct (fun j member => ?_) fun j member isEmpty => worse j member ?_
      · show q.OperandFormed scope b (instructionAt _ j).operand
        rw [same j member]
        exact others j member
      · rw [← same j member]
        exact isEmpty

theorem rewireMethod_failsOnly (formed : ∀ b, (w.program.methodAt m).body = some b → q.BodyFormed m b ∧
      ∀ i ∈ b.code, w.program.instructionAt i = q.instructionAt i)
    (empty : ∀ i, Within w.program [m] i → (q.instructionAt i).operand.onEmptyApplication = true → P (.crash .noElement)) :
    FailsOnly P ((rewireMethod s m).run w).1 := by
  rw [rewireMethod,Weaving.run_program_bind]
  dsimp only
  split
  · exact .ok _
  · next b body =>
    obtain ⟨whole,same⟩ := formed b body
    refine run_bind (rewireLocals_failsOnly whole.locals) fun n x localsRun => ?_
    obtain ⟨_,-,rebodied,-⟩ := rewireLocals_eq_ok body (nil_append b.locals).symm localsRun
    have instruction (i : InstructionId) (member : i ∈ b.code) : x.program.instructionAt i = q.instructionAt i := by
      rw [← same i member,instructionAt,rebodied.code_eq]
      rfl
    refine run_bind ?_ fun k _ _ => ?_
    · have operands (i : InstructionId) (member : i ∈ b.code) :
          q.OperandFormed (q.scopeOf m) b (x.program.instructionAt i).operand := by
        rw [instruction i member]
        exact whole.operands i member
      refine rewireOperands_failsOnly whole.distinct operands fun i member isEmpty => ?_
      · rw [instruction i member] at isEmpty
        exact empty i ⟨m,.head _,b,body,member⟩ isEmpty
    · split
      · exact .ok _
      · exact .ok _

/-- Methods that were not rewired yet are as in the program at the start, which was well-formed. -/
theorem rewireMethods_failsOnly {ms : List MethodId} (distinct : ms.Nodup) (unshared : Unshared w.program)
    (intact : ∀ m ∈ ms, ∀ b, (w.program.methodAt m).body = some b → q.BodyFormed m b ∧
      ∀ i ∈ b.code, w.program.instructionAt i = q.instructionAt i)
    (empty : ∀ i, Within w.program ms i → (q.instructionAt i).operand.onEmptyApplication = true → P (.crash .noElement)) :
    FailsOnly P ((ms.mapM (rewireMethod s)).run w).1 := by
  induction ms generalizing w with
  | nil => exact .ok _
  | cons m rest ih =>
    obtain ⟨fresh,distinct⟩ := nodup_cons.mp distinct
    obtain ⟨here,others⟩ := forall_mem_cons.mp intact
    rw [mapM_cons]
    refine run_bind (rewireMethod_failsOnly here fun i within => empty i ?_) fun _ x first => ?_
    · obtain ⟨n,member,b,body,inside⟩ := within
      obtain rfl := mem_singleton.mp member
      exact ⟨n,.head _,b,body,inside⟩
    · obtain ⟨early,-⟩ := rewireMethod_injected (unshared.bodies m) first
      have method (n : MethodId) (member : n ∈ rest) : x.program.methodAt n = w.program.methodAt n :=
        early.others n fun same => fresh (mem_singleton.mp same ▸ member)
      refine run_bind (ih distinct (early.unshared unshared) (fun n member b body => ?_) fun i within => empty i ?_)
        fun _ _ _ => .ok _
      · rw [method n member] at body
        obtain ⟨whole,same⟩ := others n member b body
        refine ⟨whole,fun i inside => ?_⟩
        rw [early.untouched i ?_,same i inside]
        rintro ⟨k,among,c,found,there⟩
        obtain rfl := mem_singleton.mp among
        exact fresh (unshared.separate n k b c body found i inside there ▸ member)
      · obtain ⟨n,member,b,body,inside⟩ := within
        rw [method n member] at body
        exact ⟨n,.tail _ member,b,body,inside⟩

/-- A consumer names a method of a type that is applied to no arguments. -/
def Degenerate (p : Program) (home : ModuleId) (config : Config) : Prop :=
  ∃ i, Within p (consumers p home config) i ∧ (p.instructionAt i).operand.onEmptyApplication = true

theorem run_failsOnly (formed : w.program.WellFormed) :
    FailsOnly (fun f => f = .crash .noElement ∧ Degenerate w.program home config) ((run s home config).run w).1 := by
  rw [run,Weaving.run_program_bind,rewire,Weaving.run_program_bind]
  refine run_bind ?_ fun _ _ _ => .ok _
  refine rewireMethods_failsOnly (q := w.program) (nodup_consumers formed.listed home config)
    (unshared_of_wellFormed formed) (fun m _ b body => ⟨formed.body body,fun _ _ => rfl⟩) fun i within isEmpty => ?_
  exact ⟨rfl,i,within,isEmpty⟩

theorem not_degenerate_of_run {w' : Workspace Unit} {report : Injection}
    (formed : w.program.WellFormed) (done : (run s home config).run w = (.ok report,w')) :
    ¬Degenerate w.program home config := by
  rintro ⟨i,within,isEmpty⟩
  have rewired := (run_injected formed done).1.rewired i within
  obtain ⟨m,-,b,body,member⟩ := within
  have operand := (formed.body body).operands i member
  obtain ⟨o,d,same,declaring⟩ := Operand.onEmptyApplication_iff.mp isEmpty
  rw [same] at rewired operand
  obtain ⟨o',-,rewired⟩ := rewired
  obtain ⟨e,ref⟩ := MethodOperandFormed.ref operand
  obtain rfl : d = e := Option.some.inj ((congrArg TypeRef.element? declaring).symm.trans ref.element)
  cases rewired with
  | kept injected => exact injected.not_empty declaring ref.found
  | plain injected => exact injected.not_empty declaring ref.found
  | applied injected _ _ => exact injected.not_empty declaring ref.found

end Injection

/-! ### Arities -/

namespace Program

variable {s : String}

/-- The number of generic arguments that the text of a method gives. -/
def methodArity? (s : String) : Option Int := do
  let (_,rest) ← Text.Brackets.cut ' ' (trim s.toList)
  let (_,member) ← cutColons rest
  match readArity s (member.dropWhile (!endsMethodName ·)) with
  | .ok (arity,_) => some arity.arity
  | .error _ => none

/-- The number of generic arguments that an instruction gives a method. -/
def instructionArity? (line : List Char) : Option Int := do
  let line := trim line
  let opcode ← Opcode.ofName? (String.ofList (line.takeWhile (· ≠ ' ')))
  if opcode.operandKind = .method then methodArity? (String.ofList (trim ((line.dropWhile (· ≠ ' ')).drop 1)))
  else none

/-- The number is one that no list has as its length. -/
def isImpossible (arity : Int) : Bool := arity < 0 || arityLimit ≤ arity

variable {p : Program} {m : ModuleId} {scope : ParamScope}

theorem readMember_failsOnly
    (overrun : ∀ arity rest, readArity s (member.dropWhile (!endsMethodName ·)) = .ok (arity,rest) →
      isImpossible arity.arity = true → P (.crash .length)) : FailsOnly P (readMember s member) := by
  rw [readMember]
  split
  · exact .refused _
  · split
    · exact .refused _
    · next arity rest read =>
      split
      · exact .refused _
      · split
        · next impossible =>
          exact .failed (overrun arity rest read impossible)
        · exact .ok _

theorem readMethodRef_failsOnly {declaring : TypeRef} {returnText : List Char} {member : MemberText} {id : RefId} :
    FailsOnly P (p.readMethodRef m s declaring returnText member id) := by
  rw [readMethodRef]
  refine bind (.mapError _ fun e => ⟨_,rfl⟩) fun returns _ => ?_
  split
  · exact .refused _
  · refine bind (.mapM fun text _ => .mapError _ fun e => ⟨_,rfl⟩) fun params _ => ?_
    split
    · exact .refused _
    · dsimp only
      split
      · exact .refused _
      · exact .ok _

theorem readMethod_failsOnly {id : RefId}
    (overrun : ∀ arity, methodArity? s = some arity → isImpossible arity = true → P (.crash .length)) :
    FailsOnly P (p.readMethod m scope s id) := by
  rw [readMethod]
  split
  · exact .refused _
  · next returnText rest divided =>
    split
    · exact .refused _
    · next declaringText member cut =>
      refine bind (.mapError _ fun e => ⟨_,rfl⟩) fun declaring _ => ?_
      refine bind (readMember_failsOnly fun arity tail read => overrun arity.arity ?_) fun member _ => ?_
      · simp only [methodArity?,divided,cut,read,Option.bind_eq_bind,Option.bind_some]
      · refine readMethodRef_failsOnly.bind fun ref _ => ?_
        split
        · exact .ok _
        · exact bind (.mapM fun text _ => .mapError _ fun e => ⟨_,rfl⟩) fun _ _ => .ok _

theorem readInstruction_failsOnly {id : RefId}
    (overrun : ∀ arity, instructionArity? line = some arity → isImpossible arity = true → P (.crash .length)) :
    FailsOnly P (p.readInstruction m scope line id) := by
  rw [readInstruction]
  dsimp only
  split
  · next opcode named =>
    split
    · split
      · exact .ok _
      · exact .refused _
    · split
      · exact .ok _
      · exact .refused _
    · split
      · exact .ok _
      · exact .refused _
    · exact FailsOnly.bind (.mapError _ fun e => ⟨_,rfl⟩) fun _ _ => .ok _
    · next kind =>
      have only :
          FailsOnly P (p.readMethod m scope (String.ofList (trim (((trim line).dropWhile (· ≠ ' ')).drop 1))) id) := by
        refine readMethod_failsOnly fun arity written => overrun arity ?_
        simp only [instructionArity?,named,kind,Option.bind_eq_bind,Option.bind_some,if_true,written]
      split
      · exact .ok _
      · exact .refused _
      · next e failed =>
        rw [failed] at only
        exact fun f failed => only f (congrArg Except.error (Except.error.inj failed))
    · exact FailsOnly.bind (.mapError _ fun e => ⟨_,rfl⟩) fun _ _ => .ok _
    · split
      · exact .refused _
      · exact .ok _
  · exact .refused _

theorem possible_of_readMember {text : MemberText} (read : readMember s member = .ok text)
    {arity : ArityText} {rest : List Char}
    (written : readArity s (member.dropWhile (!endsMethodName ·)) = .ok (arity,rest)) :
    isImpossible arity.arity = false := by
  rw [readMember] at read
  split at read
  · cases read
  · rw [written] at read
    dsimp only at read
    split at read
    · cases read
    · split at read
      · cases read
      · next possible => exact Bool.eq_false_iff.mpr possible

theorem possible_of_readMethod {id : RefId} {o : MethodOperand} (read : p.readMethod m scope s id = .ok o)
    (written : methodArity? s = some arity) : isImpossible arity = false := by
  obtain ⟨_,_,divided,_,_,cut,_,-,_,memberRead,-⟩ := readMethod_eq_ok.mp read
  simp only [methodArity?,divided,cut,Option.bind_eq_bind,Option.bind_some] at written
  split at written
  · next found =>
    cases written
    exact possible_of_readMember memberRead found
  · cases written

theorem possible_of_readInstruction {id : RefId} {r : Instruction × Option String}
    (read : p.readInstruction m scope line id = .ok r) (written : instructionArity? line = some arity) :
    isImpossible arity = false := by
  obtain ⟨⟨opcode,o⟩,label⟩ := r
  obtain ⟨named,operand⟩ := readInstruction_eq_ok.mp read
  simp only [instructionArity?,named,Option.bind_eq_bind,Option.bind_some] at written
  split at written
  · next kind =>
    rw [kind] at operand
    cases operand with
    | method inner => exact possible_of_readMethod inner written
  · cases written

end Program

/-! ### Linking -/

namespace FailsOnly

variable {s : σ}

theorem linking_bind {x : StateT σ (Except Failure) α} {f : α → StateT σ (Except Failure) β} (first : FailsOnly P (x.run s))
    (later : ∀ a t, x.run s = .ok (a,t) → FailsOnly P ((f a).run t)) : FailsOnly P ((x >>= f).run s) :=
  first.bind fun (a,t) ran => later a t ran

theorem linking_lift {r : Except Failure α} (only : FailsOnly P r) :
    FailsOnly P ((liftM r : StateT σ (Except Failure) α).run s) := by
  cases r with
  | error e => exact fun f failed => only f (congrArg Except.error (Except.error.inj failed))
  | ok a => exact ok _

theorem linking_forM {f : α → StateT σ (Except Failure) PUnit} {xs : List α}
    (each : ∀ a ∈ xs, ∀ t, FailsOnly P ((f a).run t)) : FailsOnly P ((xs.forM f).run s) := by
  induction xs generalizing s with
  | nil => exact ok _
  | cons a rest ih =>
    exact linking_bind (each a (.head _) s) fun _ _ _ => ih fun b member => each b (.tail _ member)

theorem linking_mapM {f : α → StateT σ (Except Failure) β} {xs : List α} (each : ∀ a ∈ xs, ∀ t, FailsOnly P ((f a).run t)) :
    FailsOnly P ((xs.mapM f).run s) := by
  induction xs generalizing s with
  | nil => exact ok _
  | cons a rest ih =>
    rw [mapM_cons]
    refine linking_bind (each a (.head _) s) fun _ _ _ => ?_
    exact linking_bind (ih fun b member => each b (.tail _ member)) fun _ _ _ => ok _

theorem linking_foldlM {f : β → α → StateT σ (Except Failure) β} {xs : List α} {b : β}
    (each : ∀ a ∈ xs, ∀ b t, FailsOnly P ((f b a).run t)) : FailsOnly P ((xs.foldlM f b).run s) := by
  induction xs generalizing b s with
  | nil => exact ok _
  | cons a rest ih =>
    rw [foldlM_cons]
    exact linking_bind (each a (.head _) b s) fun _ _ _ => ih fun c member => each c (.tail _ member)

end FailsOnly

namespace TypeDoc

mutual
def methodDocs : TypeDoc → List MethodDoc
  | ⟨_,_,_,_,_,_,_,_,_,methods,nested⟩ => methods ++ methodDocsOf nested
def methodDocsOf : List (Option TypeDoc) → List MethodDoc
  | [] => []
  | none :: rest => methodDocsOf rest
  | some d :: rest => methodDocs d ++ methodDocsOf rest
end

mutual
/-- No nested type is missing, at any depth. -/
def isWhole : TypeDoc → Bool
  | ⟨_,_,_,_,_,_,_,_,_,_,nested⟩ => areWhole nested
/-- No type is missing, at any depth. -/
def areWhole : List (Option TypeDoc) → Bool
  | [] => true
  | none :: _ => false
  | some d :: rest => isWhole d && areWhole rest
end

end TypeDoc

namespace Document

variable {home : ModuleId} {p q : Program}
variable {site : String} {pending : PendingType} {doc : Document} {references : List ModuleId}

def lines (doc : Document) : List String := (TypeDoc.methodDocsOf doc.types).flatMap MethodDoc.body

/-- The line gives a method an impossible number of generic arguments. -/
def overruns (line : String) : Bool :=
  let line := trim line.toList
  (".label ".toList.isPrefixOf? line).isNone && (Program.instructionArity? line).any Program.isImpossible

theorem readTypeFlags_failsOnly : FailsOnly P (readTypeFlags site names) := by
  refine foldlM fun flags name _ => ?_
  split
  · exact .ok _
  · exact .refused _

theorem readMethodFlags_failsOnly : FailsOnly P (readMethodFlags site names) := by
  refine foldlM fun flags name _ => ?_
  split
  · exact .ok _
  · exact .refused _

mutual

theorem declareType_failsOnly (doc : TypeDoc) (whole : doc.isWhole = true) (o : Option TypeId) (p : Program) :
    FailsOnly P ((declareType home o doc).run p) := by
  match doc with
  | ⟨_,_,_,_,_,_,_,_,_,_,nested⟩ =>
    have inner (outer : TypeId) (q : Program) : FailsOnly P ((declareNested home outer nested).run q) :=
      declareNested_failsOnly nested whole outer q
    rw [declareType]
    dsimp only
    split
    · exact .refused _
    · refine linking_bind (.linking_lift readTypeFlags_failsOnly) fun flags s _ => ?_
      refine linking_bind (.ok _) fun id t _ => ?_
      split
      · exact linking_bind (.ok _) fun _ _ _ => linking_bind (inner _ _) fun _ _ _ => .ok _
      · exact linking_bind (inner _ _) fun _ _ _ => .ok _

theorem declareNested_failsOnly (docs : List (Option TypeDoc)) (whole : areWhole docs = true) (outer : TypeId)
    (p : Program) : FailsOnly P ((declareNested home outer docs).run p) := by
  match docs with
  | [] => rw [declareNested]; exact .ok _
  | none :: rest => cases whole
  | some doc :: rest =>
    obtain ⟨first,others⟩ := Bool.and_eq_true_iff.mp whole
    rw [declareNested]
    dsimp only
    split
    · refine linking_bind (declareType_failsOnly doc first _ _) fun _ _ _ => ?_
      exact linking_bind (declareNested_failsOnly rest others _ _) fun _ _ _ => .ok _
    · exact .refused _

end

theorem declareTypes_failsOnly (whole : areWhole docs = true) : FailsOnly P ((declareTypes home docs).run p) := by
  induction docs generalizing p with
  | nil => exact .ok _
  | cons doc rest ih =>
    cases doc with
    | none => cases whole
    | some doc =>
      obtain ⟨first,others⟩ := Bool.and_eq_true_iff.mp whole
      rw [declareTypes]
      refine linking_bind (declareType_failsOnly doc first _ _) fun pending s _ => ?_
      split
      · exact linking_bind (.ok _) fun _ _ _ => linking_bind (ih others) fun _ _ _ => .ok _
      · exact linking_bind (ih others) fun _ _ _ => .ok _

theorem bindDeclaring_failsOnly (endless : P .unbounded) : FailsOnly P ((bindDeclaring home pending).run p) := by
  rw [bindDeclaring]
  split
  · exact .ok _
  · refine linking_bind (.ok _) fun x s _ => linking_bind (.linking_lift ?_) fun own t _ => ?_
    · generalize x.allTypes home = ts
      induction ts with
      | nil => exact .ok _
      | cons t rest ih =>
        rw [findNamed]
        split
        · exact .failed endless
        · split
          · exact .ok _
          · exact ih
    · split
      · exact .ok _
      · exact .refused _

theorem checkNames_failsOnly {seen : List String} {ts : List TypeId} (endless : P .unbounded) :
    FailsOnly P (checkNames p seen ts) := by
  induction ts generalizing seen with
  | nil => exact .ok _
  | cons t rest ih =>
    rw [checkNames]
    dsimp only
    split
    · exact .failed endless
    · split
      · exact .refused _
      · exact ih

theorem declareMethod_failsOnly {doc : MethodDoc} : FailsOnly P ((declareMethod home t doc).run p) := by
  refine linking_bind (.ok _) fun x s _ => ?_
  refine linking_bind (.linking_lift readMethodFlags_failsOnly) fun flags s _ => ?_
  refine linking_bind (.ok _) fun id s _ => linking_bind (.ok _) fun y s _ => ?_
  refine linking_bind ?_ fun _ s _ => linking_bind (.linking_forM fun param _ s => ?_) fun _ _ _ => .ok _
  · rw [declareReturns]
    split
    · exact .ok _
    · refine linking_bind (.ok _) fun z s _ => ?_
      refine linking_bind (.linking_lift (.mapError _ fun e => ⟨_,rfl⟩)) fun returns s _ => ?_
      split
      · exact .ok _
      · exact .ok _
  · refine linking_bind (.ok _) fun z s _ => ?_
    exact linking_bind (.linking_lift (.mapError _ fun e => ⟨_,rfl⟩)) fun type s _ => .ok _

theorem readMembers_failsOnly {doc : TypeDoc} : FailsOnly P (readMembers p home t doc) := by
  have member {fault : ReadFault → LinkFault} {text : String} : FailsOnly P (readMemberType p home t fault text) :=
    .mapError _ fun e => ⟨_,rfl⟩
  refine bind ?_ fun base _ => bind (.mapM fun text _ => member) fun interfaces _ => ?_
  · rw [readBase]
    split
    · exact .ok _
    · exact member
  · refine bind (.mapM fun a _ => ?_) fun attributes _ => ?_
    · refine bind (.mapError _ fun e => ⟨_,rfl⟩) fun type _ => ?_
      exact bind (.mapM fun arg _ => .mapError _ fun e => ⟨_,rfl⟩) fun _ _ => .ok _
    · exact bind (.mapM fun f _ => member.bind fun _ _ => .ok _) fun _ _ => .ok _

theorem declareMembers_failsOnly : FailsOnly P ((declareMembers home pending).run p) := by
  refine linking_bind (.ok _) fun x s _ => ?_
  refine linking_bind (.linking_lift readMembers_failsOnly) fun members s _ => ?_
  exact linking_bind (.ok _) fun _ s _ => .linking_mapM fun doc _ s => declareMethod_failsOnly

theorem readLine_failsOnly {m : MethodId} {scope : ParamScope} {line : String}
    (overrun : overruns line = true → P (.crash .length)) : FailsOnly P ((readLine home m site scope body line).run p) := by
  rw [readLine]
  dsimp only
  split
  · split
    · exact .refused _
    · exact .ok _
  · next instruction =>
    refine linking_bind (.ok _) fun x s got => ?_
    have only : FailsOnly P (x.readInstruction home scope (trim line.toList) ⟨m,body.code.length,0⟩) := by
      refine readInstruction_failsOnly fun arity written impossible => overrun ?_
      simp only [overruns,instruction,written,Option.isNone_none,Option.any_some,impossible,Bool.and_self]
    split
    · exact .ok _
    · exact .refused _
    · next e failed =>
      rw [failed] at only
      exact fun f failed => only f (congrArg Except.error (Except.error.inj failed))

theorem fillBody_failsOnly {pending : PendingMethod}
    (overrun : ∀ line ∈ pending.doc.body, overruns line = true → P (.crash .length)) :
    FailsOnly P ((fillBody home pending).run p) := by
  rw [fillBody]
  dsimp only
  split
  · exact .ok _
  · refine linking_bind (.ok _) fun x s _ => ?_
    split
    · exact .refused _
    · refine linking_bind (.linking_mapM fun l _ s => .linking_lift (.mapError _ fun e => ⟨_,rfl⟩)) fun locals s _ => ?_
      refine linking_bind (.linking_foldlM fun line member b s => readLine_failsOnly (overrun line member))
        fun body s _ => ?_
      refine linking_bind (.linking_forM fun branch _ s => ?_) fun _ _ _ => .ok _
      rw [bindBranch]
      split
      · exact .ok _
      · exact .refused _

/-! ### Documents that are accepted -/

mutual

theorem declareType_docs (doc : TypeDoc) {o : Option TypeId} {p q : Program} {pending : List PendingType}
    (done : (declareType home o doc).run p = .ok (pending,q)) :
    (pending.flatMap fun t => t.doc.methods) = doc.methodDocs := by
  obtain ⟨flags,later,-,-,nestedRun,rfl⟩ := declareType_eq_ok done
  match doc, nestedRun with
  | ⟨_,_,_,_,_,_,_,_,_,methods,nested⟩, nestedRun =>
    rw [flatMap_cons,declareNested_docs nested nestedRun,methodDocs]

theorem declareNested_docs (docs : List (Option TypeDoc)) {outer : TypeId} {p q : Program} {pending : List PendingType}
    (done : (declareNested home outer docs).run p = .ok (pending,q)) :
    (pending.flatMap fun t => t.doc.methods) = methodDocsOf docs := by
  match docs with
  | [] =>
    rw [declareNested] at done
    obtain ⟨rfl,-⟩ := run_pure_eq_ok.mp done
    rfl
  | none :: rest =>
    obtain ⟨_,_,_,_,⟨⟩,-⟩ := declareNested_cons_eq_ok done
  | some doc :: rest =>
    obtain ⟨_,first,r,later,⟨⟩,-,firstRun,laterRun,rfl⟩ := declareNested_cons_eq_ok done
    rw [flatMap_append,declareType_docs doc firstRun,declareNested_docs rest laterRun,methodDocsOf]

end

theorem declareTypes_docs {pending : List PendingType} (done : (declareTypes home docs).run p = .ok (pending,q)) :
    (pending.flatMap fun t => t.doc.methods) = methodDocsOf docs := by
  induction docs generalizing p pending with
  | nil =>
    obtain ⟨rfl,-⟩ := run_pure_eq_ok.mp done
    rfl
  | cons doc rest ih =>
    obtain ⟨d,first,r,later,rfl,firstRun,laterRun,rfl⟩ := declareTypes_cons_eq_ok done
    rw [flatMap_append,declareType_docs d firstRun,ih laterRun,methodDocsOf]

/-- What a step answers, if it succeeds, has the property. -/
def Yields {α : Type} (P : α → Prop) (x : Linking α) : Prop := ∀ p a q, x.run p = .ok (a,q) → P a

theorem Yields.bind {α β : Type} {P : β → Prop} {x : Linking α} {f : α → Linking β} (later : ∀ a, Yields P (f a)) :
    Yields P (x >>= f) := by
  intro p b q done
  obtain ⟨a,r,-,done⟩ := run_bind_eq_ok.mp done
  exact later a r b q done

theorem declareMethod_doc (doc : MethodDoc) : Yields (fun pending => pending.doc = doc) (declareMethod home t doc) := by
  rw [declareMethod]
  iterate 6 refine .bind fun _ => ?_
  intro p pending q done
  obtain ⟨rfl,-⟩ := run_pure_eq_ok.mp done
  rfl

theorem declareMembers_docs :
    Yields (fun methods => methods.map PendingMethod.doc = pending.doc.methods) (declareMembers home pending) := by
  rw [declareMembers]
  iterate 3 refine .bind fun _ => ?_
  intro p methods q done
  have each := Linkage.forall₂_of_run_mapM (R := fun doc m => m.doc = id doc)
    (fun doc _ _ _ _ ran => declareMethod_doc doc _ _ _ ran) done
  rw [map_eq_of_forall₂ each,map_id]

theorem declareAllMembers_docs {types : List PendingType} {methods : List (List PendingMethod)}
    (done : (types.mapM (declareMembers home)).run p = .ok (methods,q)) :
    methods.flatten.map PendingMethod.doc = types.flatMap fun t => t.doc.methods := by
  have each := Linkage.forall₂_of_run_mapM (R := fun t ms => ms.map PendingMethod.doc = t.doc.methods)
    (fun _ _ _ _ _ ran => declareMembers_docs _ _ _ ran) done
  rw [map_flatten,map_eq_of_forall₂ each,flatMap_def]

theorem possible_of_readLine {m : MethodId} {scope : ParamScope} {later : PendingBody} {line : String}
    (done : (readLine home m site scope body line).run p = .ok (later,q)) : overruns line = false := by
  rw [readLine] at done
  simp only at done
  rw [overruns]
  split at done
  · next label => rw [label]; rfl
  · next label =>
    rw [label]
    obtain ⟨_,_,state,done⟩ := run_bind_eq_ok.mp done
    split at done
    · next read =>
      cases written : instructionArity? (trim line.toList) with
      | none => rfl
      | some arity => exact possible_of_readInstruction read written
    · exact absurd done run_throw_bind_ne_ok
    · exact absurd done run_throw_bind_ne_ok

theorem possible_of_fillBody {pending : PendingMethod} {u : PUnit} (done : (fillBody home pending).run p = .ok (u,q)) :
    ∀ line ∈ pending.doc.body, overruns line = false := by
  rw [fillBody] at done
  simp only at done
  split at done
  · next empty =>
    intro line member
    rw [isEmpty_iff.mp (Bool.and_eq_true_iff.mp empty).1] at member
    cases member
  · obtain ⟨_,_,-,done⟩ := run_bind_eq_ok.mp done
    split at done
    · exact absurd done run_throw_bind_ne_ok
    · obtain ⟨_,_,-,done⟩ := run_bind_eq_ok.mp done
      obtain ⟨body,s,lines,-⟩ := run_bind_eq_ok.mp done
      intro line member
      obtain ⟨b,t,c,t',ran⟩ := run_of_foldlM lines member
      exact possible_of_readLine ran

theorem possible_of_link (linked : doc.link p references = .ok (home,q)) : ∀ line ∈ doc.lines, overruns line = false := by
  obtain ⟨version,types,s1,s2,methods,s3,-,-,-,declared,-,-,members,bodies⟩ := linkInto_eq_ok linked
  intro line member
  obtain ⟨method,among,written⟩ := mem_flatMap.mp member
  rw [← declareTypes_docs declared,← declareAllMembers_docs members] at among
  obtain ⟨pending,listed,rfl⟩ := mem_map.mp among
  obtain ⟨t,t',filled⟩ := run_of_forM bodies listed
  exact possible_of_fillBody filled line written

/-- Linking a document in which no type is missing fails without a report only on an impossible number of generic arguments,
    or where types are put into each other and compared by name. -/
theorem link_failsOnly (whole : areWhole doc.types = true)
    (overrun : ∀ line ∈ doc.lines, overruns line = true → P (.crash .length))
    (arranged : ∀ version types s, doc.moduleName ≠ "" → readVersion doc = .ok version →
      (declareTypes ⟨p.modules.size⟩ doc.types).run (p.addModule { name := doc.moduleName, version, references }).2 =
        .ok (types,s) →
      FailsOnly P ((types.forM (bindDeclaring ⟨p.modules.size⟩)).run s) ∧
        ∀ s', (types.forM (bindDeclaring ⟨p.modules.size⟩)).run s = .ok (⟨⟩,s') →
          FailsOnly P (checkNames s' [] (s'.allTypes ⟨p.modules.size⟩))) : FailsOnly P (doc.link p references) := by
  rw [link,linkInto]
  dsimp only
  split
  · exact .refused _
  · next named =>
    refine linking_bind (.linking_lift ?_) fun version _ read => ?_
    · rw [readVersion]
      split
      · exact .ok _
      · split
        · exact .ok _
        · exact .refused _
    · obtain ⟨versionRead,rfl⟩ := run_lift_eq_ok.mp read
      refine linking_bind (.ok _) fun home s added => ?_
      obtain ⟨rfl,rfl⟩ := Prod.mk.inj (run_modifyGet_eq_ok.mp added)
      refine linking_bind (declareTypes_failsOnly whole) fun types s declared => ?_
      obtain ⟨binding,checking⟩ := arranged version types s (by simpa using named) versionRead declared
      refine linking_bind binding fun _ s' bound => ?_
      rw [run_get_bind]
      refine linking_bind (.linking_lift (checking s' bound)) fun _ s _ => ?_
      refine linking_bind (.linking_mapM fun t _ s => declareMembers_failsOnly) fun methods s members => ?_
      refine linking_bind (.linking_forM fun m listed s => ?_) fun _ _ _ => .ok _
      refine fillBody_failsOnly fun line written => overrun line (mem_flatMap.mpr ⟨m.doc,?_,written⟩)
      rw [← declareTypes_docs declared,← declareAllMembers_docs members]
      exact mem_map_of_mem listed

theorem link_crash (whole : areWhole doc.types = true) {c : Crash}
    (crashed : doc.link p references = .error (.crash c)) : c = .length ∧ ∃ line ∈ doc.lines, overruns line = true := by
  have only : FailsOnly (fun f => f = .unbounded ∨ f = .crash .length ∧ ∃ line ∈ doc.lines, overruns line = true)
      (doc.link p references) := by
    refine link_failsOnly whole (fun line written overrun => .inr ⟨rfl,line,written,overrun⟩) fun version types s _ _ _ => ?_
    exact ⟨.linking_forM fun t _ s => bindDeclaring_failsOnly (.inl rfl),fun s' _ => checkNames_failsOnly (.inl rfl)⟩
  rcases only.crash crashed with unbounded | ⟨same,line⟩
  · cases unbounded
  · cases same
    exact ⟨rfl,line⟩

end Document

/-! ### Weaving -/

namespace Workbench

variable {w : Workbench}

theorem Sound.specialize_failsOnly (sound : w.Sound) : FailsOnly P w.specialize.result := by
  have only : FailsOnly P (w.onSpecializer Specializer.run).result := Specializer.run_failsOnly sound.specializing
  rw [Workbench.specialize]
  split
  · exact only
  · exact only

theorem Sound.implicit_failsOnly (endless : P .unbounded) (sound : w.Sound) (bound : Nat) :
    FailsOnly P (w.implicit bound).result := by
  rw [Workbench.implicit,onResolver]
  exact run_bind (x := Resolver.run bound) (Resolver.run_failsOnly endless sound.resolving) fun _ _ _ => .ok _

/-- Linking crashes only on a line that gives a method an impossible number of generic arguments, and no document with
    such a line is accepted. Specializing and resolving never crash. Injection crashes only on a consumer that names a
    method of a type applied to no arguments, and does not come through one. -/
theorem crash_of_weaving {p : Program} (linked : Linked p) (references : List ModuleId) (doc : Document)
    (whole : TypeDoc.areWhole doc.types = true) :
    (∀ c, doc.link p references = .error (.crash c) → c = .length ∧ ∃ line ∈ doc.lines, Document.overruns line = true) ∧
      ∀ home q, doc.link p references = .ok (home,q) → (∀ line ∈ doc.lines, Document.overruns line = false) ∧
        ∀ config w, Relation.ReflTransGen Step { program := q, home, config } w →
          (∀ c, w.specialize.result ≠ .error (.crash c)) ∧
          (∀ bound c, (w.implicit bound).result ≠ .error (.crash c)) ∧
          ∀ view,
            (∀ c, (w.inject view none).result = .error (.crash c) →
              c = .noElement ∧ Injection.Degenerate w.program w.home w.config) ∧
            ∀ report, (w.inject view none).result = .ok report → ¬Injection.Degenerate w.program w.home w.config := by
  refine ⟨fun c => Document.link_crash whole,fun home q done => ⟨Document.possible_of_link done,fun config w steps => ?_⟩⟩
  have sound : w.Sound := by
    induction steps with
    | refl =>
      obtain ⟨rfl,size⟩ := Document.link_place linked.wellFormed done
      exact sound_start (linked.link done).wellFormed (by rw [size]; exact Nat.lt_succ_self _)
    | tail _ step ih => exact step.sound ih
  refine ⟨fun c crashed => ?_,fun bound c crashed => ?_,fun view => ⟨fun c crashed => ?_,fun report ran => ?_⟩⟩
  · exact (sound.specialize_failsOnly (P := fun _ => False)).crash crashed
  · have only := sound.implicit_failsOnly (P := fun f => f = .unbounded) rfl bound
    cases only.crash crashed
  · obtain ⟨⟨⟩,degenerate⟩ := (Injection.run_failsOnly (w := ⟨w.program,(),[]⟩) sound.formed).crash crashed
    exact ⟨rfl,degenerate⟩
  · let start : Workspace Unit := ⟨w.program,(),[]⟩
    have done : (Injection.run view w.home w.config).run start =
        (.ok report,((Injection.run view w.home w.config).run start).2) := Prod.ext ran rfl
    exact Injection.not_degenerate_of_run (w := start) sound.formed done

/-- A consumer that calls a method of a type applied to nothing. -/
def vacancy : Document :=
  { moduleName := "Vacancy"
    types :=
      [some { name := "Lodge", methods := [{ name := "Open", flags := ["static"], body := ["ret"] }] },
       some { name := "Main", attributes := [.inject]
              methods :=
                [{ name := "Run", flags := ["static"], body := ["call System.Void Lodge<>::Open()","ret"] }] }] }

/-- A call with fewer than no generic arguments. -/
def deficit : Document :=
  { moduleName := "Deficit"
    types :=
      [some { name := "Main"
              methods := [{ name := "Run", flags := ["static"], body := ["call System.Void Main::Run\x60\x60-1()","ret"] }] }] }

def vacancyCrashes (r : Except Failure (ModuleId × Program)) : Bool :=
  match r with
  | .ok (home,q) =>
    match (inject { program := q, home } {} none).result with
    | .error (.crash .noElement) => true
    | _ => false
  | _ => false

theorem vacancy_crashes : ∃ home q, vacancy.link core [CoreLibrary.home] = .ok (home,q) ∧
    (inject { program := q, home } {} none).result = .error (.crash .noElement) := by
  have evaluated : vacancyCrashes (vacancy.link core [CoreLibrary.home]) = true := by decide +kernel
  obtain ⟨r,linked⟩ : ∃ r, vacancy.link core [CoreLibrary.home] = r := ⟨_,rfl⟩
  rw [linked] at evaluated
  unfold vacancyCrashes at evaluated
  split at evaluated
  · next home q =>
    refine ⟨home,q,linked,?_⟩
    split at evaluated
    · assumption
    · cases evaluated
  · cases evaluated

def deficitCrashes (r : Except Failure (ModuleId × Program)) : Bool :=
  match r with
  | .error (.crash .length) => true
  | _ => false

theorem deficit_crashes : deficit.link core [CoreLibrary.home] = .error (.crash .length) := by
  have evaluated : deficitCrashes (deficit.link core [CoreLibrary.home]) = true := by decide +kernel
  obtain ⟨r,linked⟩ : ∃ r, deficit.link core [CoreLibrary.home] = r := ⟨_,rfl⟩
  rw [linked] at evaluated
  unfold deficitCrashes at evaluated
  split at evaluated
  · exact linked
  · cases evaluated

theorem crash_of_weaving_vacancy : (∃ home q, vacancy.link Program.core [CoreLibrary.home] = .ok (home,q) ∧
      (inject { program := q, home } {} none).result = .error (.crash .noElement) ∧ Injection.Degenerate q home {} ∧
      ∀ c, (specialize { program := q, home }).result ≠ .error (.crash c)) ∧
    deficit.link Program.core [CoreLibrary.home] = .error (.crash .length) ∧
    ∃ line ∈ deficit.lines, Document.overruns line = true := by
  obtain ⟨home,q,linked,crashed⟩ := vacancy_crashes
  obtain ⟨specializes,-,injects⟩ :=
    ((crash_of_weaving .core [CoreLibrary.home] vacancy rfl).2 home q linked).2 {} _ .refl
  refine ⟨⟨home,q,linked,crashed,((injects {}).1 _ crashed).2,specializes⟩,deficit_crashes,?_⟩
  exact ((crash_of_weaving .core [CoreLibrary.home] deficit rfl).1 _ deficit_crashes).2

end Workbench
end Loom
