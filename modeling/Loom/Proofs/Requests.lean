import Loom.Proofs.Resolving
import Loom.Proofs.Walks

/-!
Requests that remain. A run weaves the types of its queue, and clones made on the way join it; in a woven type no closed
request is left, and what is not woven is as it was.
-/
namespace Loom.Resolver

open Runs List Program Weaving
open TypeDecl (header nested signature)

variable {r : Resolver} {p q : Program} {w w' : Workspace Resolver} {t : TypeId} {m : MethodId} {b : Body}
  {pre post : List InstructionId} {i : InstructionId}
variable {config : Config} {ins : Instruction} {touched : MethodId → Prop}
variable {x : Workspace Resolver} {new : List TypeId} {u : Unit} {n : MethodId} {j : Implementation} {home : ModuleId}

/-! ### Requests that remain -/

def requestsClosed (config : Config) (p : Program) (ins : Instruction) : Bool :=
  (request? config p ins).any fun request => !request.1.isOpen

theorem requestsClosed_of_none (none : request? config p ins = .none) : requestsClosed config p ins = false := by
  rw [requestsClosed,none]
  rfl

theorem request?_of_opcode (opcode : ins.opcode ≠ .call) : request? config p ins = none := by
  rw [request?.eq_def]
  split
  · next same _ => exact absurd same opcode
  · rfl

theorem request?_of_branch {target : InstructionId} (operand : ins.operand = .branch target) :
    request? config p ins = none := by
  rw [request?.eq_def]
  split
  · next other => rw [operand] at other; cases other
  · rfl

theorem request?_divert {run : List InstructionId} {start : InstructionId} :
    request? config p (ins.divert run start) = request? config p ins := by
  cases operand : ins.operand with
  | branch target =>
    rw [Instruction.divert_of_branch operand]
    split
    · rw [request?_of_branch operand,request?_of_branch rfl]
    · rfl
  | _ => rw [Instruction.divert_of_plain (by rw [operand]; exact nofun)]

theorem request?_mono {scope : List GenericParam} (kept : Keeps header p q) (grounded : p.Grounded)
    (formed : p.OperandFormed scope b ins.operand) : request? config q ins = request? config p ins := by
  rw [request?.eq_def,request?.eq_def]
  split
  · next r typeclass opcode operand =>
    rw [operand] at formed
    obtain ⟨⟨d,ref⟩,-⟩ := formed
    rw [kept.fullName_ref_eq grounded ref.declaring.declares]
  · rfl

/-- What a run of the resolver has declared so far: clones that stand in the queue and among the types of the module. -/
structure Progress (w w' : Workspace Resolver) (new : List TypeId) : Prop where
  config : w'.own.config = w.own.config
  home : w'.own.home = w.own.home
  queue : w'.own.queue = w.own.queue ++ new
  declared : ∀ t : TypeId, t ∈ new ↔ w.program.types.size ≤ t.index ∧ t.index < w'.program.types.size
  listed : Program.ListedIn w.own.home w.program w'.program new
  leaves : ∀ t ∈ new, (w'.program.typeAt t).nested = []

theorem Progress.of_eq (agree : Agree signature w.program w'.program)
    (modules : w'.program.modules = w.program.modules) (config : w'.own.config = w.own.config)
    (home : w'.own.home = w.own.home) (queue : w'.own.queue = w.own.queue) : Progress w w' [] where
  config := config
  home := home
  queue := by rw [queue,append_nil]
  declared t := by
    rw [agree.size_eq]
    simp only [not_mem_nil,false_iff]
    omega
  listed := .of_eq modules
  leaves := nofun

theorem Progress.trans {later : List TypeId} (early : Progress w x new)
    (late : Progress x w' later) (before : Keeps signature w.program x.program)
    (after : Keeps signature x.program w'.program) : Progress w w' (new ++ later) where
  config := late.config.trans early.config
  home := late.home.trans early.home
  queue := by rw [late.queue,early.queue,append_assoc]
  declared t := by
    have first := before.size_le
    have second := after.size_le
    rw [mem_append,early.declared,late.declared]
    omega
  listed := early.listed.trans (early.home ▸ late.listed)
  leaves t member := by
    rcases mem_append.mp member with first | second
    · have same : (w'.program.typeAt t).nested = (x.program.typeAt t).nested :=
        (after.header.map nested).view_eq t ((early.declared t).mp first).2
      rw [same]
      exact early.leaves t first
    · exact late.leaves t second

theorem Answers.progress {marker : TypeId} {argument : TypeRef} (answers : Answers marker argument w w' t)
    (sound : Sound w) (closed : w.program.Formed [] argument) : ∃ new, Progress w w' new := by
  cases answers with
  | plain answer same =>
    subst same
    exact ⟨[],.of_eq (.refl _ _) rfl rfl rfl rfl⟩
  | known none answer at_ found same =>
    subst same
    exact ⟨[],.of_eq (.refl _ _) rfl rfl rfl rfl⟩
  | @made place bound j e none answer at_ missing cloned own =>
    have bound := closed.part (lookupGeneric_eq answer).2
    obtain ⟨shells,specialized⟩ := Cloning.specialize_specialized sound.formed bound.declares cloned
    have clones := specialized.specialized_eq
    refine ⟨e.flatten.map Entry.specialized,by rw [own]; rfl,by rw [own]; rfl,by rw [own]; rfl,fun t => ?_,?_,?_⟩
    · rw [clones]
      constructor
      · intro member
        obtain ⟨s,among,rfl⟩ := mem_map.mp member
        exact (specialized.each s among).new
      · rintro ⟨from_,before⟩
        obtain ⟨s,among,rfl⟩ := specialized.exists_clone from_ before
        exact mem_map_of_mem among
    · rw [clones]
      exact specialized.listed sound.fits.home
    · rw [clones]
      intro t member
      obtain ⟨s,among,rfl⟩ := mem_map.mp member
      exact (specialized.each s among).leaf

/-! ### Steps -/

/-- What weaving leads to: a sound state in which only touched methods have changed, and clones were declared. -/
structure Advances (touched : MethodId → Prop) (w w' : Workspace Resolver) : Prop where
  sound : Sound w'
  beside : Beside touched w.program w'.program
  progress : ∃ new, Progress w w' new

section Advances

variable {touched : MethodId → Prop}

theorem Advances.refl (sound : Sound w) : Advances touched w w :=
  ⟨sound,.refl _ _,[],.of_eq (.refl _ _) rfl rfl rfl rfl⟩

theorem Advances.trans (early : Advances touched w x) (late : Advances touched x w') : Advances touched w w' := by
  obtain ⟨new,first⟩ := early.progress
  obtain ⟨later,second⟩ := late.progress
  exact ⟨late.sound,early.beside.trans late.beside,_,first.trans second early.beside.signatures late.beside.signatures⟩

theorem Advances.weaken {more : MethodId → Prop} (advances : Advances touched w w') (wider : ∀ n, touched n → more n) :
    Advances more w w' :=
  ⟨advances.sound,advances.beside.weaken wider,advances.progress⟩

end Advances

theorem Replaced.progress (replaced : Replaced m b pre i post x.program w'.program)
    (own : w'.own = { x.own with callSites := x.own.callSites + 1 }) : Progress x w' [] := by
  obtain ⟨rebodied,-,-,spliced,-,-⟩ := replaced
  exact .of_eq (rebodied.agree.trans spliced.agree) (spliced.modules_eq.trans rebodied.modules_eq) (by rw [own])
    (by rw [own]) (by rw [own])

/-- The instructions request no closed type. -/
def Settled (config : Config) (p : Program) (is : List InstructionId) : Prop :=
  ∀ j ∈ is, requestsClosed config p (p.instructionAt j) = false

theorem Replaced.settled (replaced : Replaced m b pre i post p q) (formed : p.WellFormed)
    (body : (p.methodAt m).body = some b) (code : b.code = pre ++ i :: post) (settled : Settled config p pre) :
    ∃ c early, (q.methodAt m).body = some c ∧ c.code = early ++ post ∧ Settled config q early := by
  have kept : Keeps header p q := (replaced.beside formed body code).signatures.header
  obtain ⟨c,early,after,parts,each⟩ := replaced.body
  refine ⟨c,early,after,parts,fun j member => ?_⟩
  rcases each j member with opcode | ⟨before,run,start,same⟩
  · exact requestsClosed_of_none (request?_of_opcode opcode)
  · have operand := (formed.body body).operands j (by rw [code]; exact mem_append_left _ before)
    rw [requestsClosed,same,request?_divert,request?_mono kept formed.grounded operand]
    exact settled j before

theorem Settled.mono (settled : Settled config p pre) (beside : Keeps header p q) (formed : p.BodyFormed m b)
    (grounded : p.Grounded) (within : pre ⊆ b.code)
    (same : ∀ j ∈ pre, q.instructionAt j = p.instructionAt j) : Settled config q pre := by
  intro j member
  rw [requestsClosed,same j member,request?_mono beside grounded (formed.operands j (within member))]
  exact settled j member

/-- Weaving an instruction leaves what stands behind it, and no closed request up to there if there was none before. -/
theorem Weaves.advances (weaves : Weaves m i w w') (sound : Sound w) (body : (w.program.methodAt m).body = some b)
    (code : b.code = pre ++ i :: post) (settled : Settled w.own.config w.program pre) : Advances (· = m) w w' ∧
      ∃ b' early, (w'.program.methodAt m).body = some b' ∧ b'.code = early ++ post ∧
        Settled w.own.config w'.program early := by
  have split : b.code = (pre ++ [i]) ++ post := by
    rw [code]
    simp
  have extend (here : requestsClosed w.own.config w.program (w.program.instructionAt i) = false) :
      Settled w.own.config w.program (pre ++ [i]) := by
    intro j member
    rcases mem_append.mp member with before | last
    · exact settled j before
    · rw [mem_singleton.mp last]
      exact here
  cases weaves with
  | plain request same =>
    subst same
    exact ⟨.refl sound,b,_,body,split,extend (requestsClosed_of_none request)⟩
  | left request isOpen program own =>
    rw [program]
    refine ⟨?_,b,_,body,split,extend (by rw [requestsClosed,request]; simp [isOpen])⟩
    refine ⟨⟨by rw [program]; exact sound.formed,by rw [program,own]; exact sound.fits⟩,?_,[],?_⟩
    · rw [program]
      exact .refl _ _
    · exact .of_eq (by rw [program]; exact .refl _ _) (by rw [program]) (by rw [own]) (by rw [own]) (by rw [own])
  | resolved request closed answers edited own =>
    obtain ⟨middle,grown,modules,still,replaced⟩ := replaced_of_answers sound body code request closed answers edited
    have old := sound.formed.body body
    have operand := old.operands i (by rw [code]; simp)
    obtain ⟨new,progress⟩ := answers.progress sound (request_formed operand request closed)
    have first : Advances (· = m) w _ := ⟨middle,.of_extends sound.formed grown modules,new,progress⟩
    have second : Advances (· = m) _ w' :=
      ⟨replaced.sound middle own,replaced.beside middle.formed still code,[],replaced.progress own⟩
    have before : pre ⊆ b.code := by
      rw [code]
      exact subset_append_left _ _
    refine ⟨first.trans second,replaced.settled middle.formed still code ?_⟩
    exact settled.mono grown.headers old sound.formed.grounded before fun j member =>
      grown.code.instruction_eq j (old.inside j (before member))

/-! ### Runs -/

theorem weaveCode_advances {code : List InstructionId} (sound : Sound w)
    (body : (w.program.methodAt m).body = some b) (parts : b.code = pre ++ code)
    (settled : Settled w.own.config w.program pre) (done : (code.forM (weaveInstruction m)).run w = (.ok u,w')) :
    Advances (· = m) w w' ∧ ∃ b', (w'.program.methodAt m).body = some b' ∧ Settled w.own.config w'.program b'.code := by
  induction code generalizing w b pre with
  | nil =>
    obtain ⟨-,rfl⟩ := run_pure_eq_ok.mp done
    exact ⟨.refl sound,b,body,by rw [parts,append_nil]; exact settled⟩
  | cons i rest ih =>
    obtain ⟨x,first,later⟩ := run_forM_cons_eq_ok.mp done
    obtain ⟨step,b',early,after,left,clear⟩ := (weaveInstruction_eq_ok first).advances sound body parts settled
    obtain ⟨new,progress⟩ := step.progress
    rw [← progress.config] at clear ⊢
    obtain ⟨steps,result⟩ := ih step.sound after left clear later
    exact ⟨step.trans steps,result⟩

theorem weaveMethod_advances (sound : Sound w) (done : (weaveMethod m).run w = (.ok u,w')) :
    Advances (· = m) w w' ∧ ∀ b, (w'.program.methodAt m).body = some b → Settled w.own.config w'.program b.code := by
  rw [weaveMethod,run_program_bind] at done
  cases body : (w.program.methodAt m).body with
  | none =>
    rw [body] at done
    obtain ⟨-,rfl⟩ := run_pure_eq_ok.mp done
    refine ⟨.refl sound,fun b found => ?_⟩
    rw [body] at found
    cases found
  | some b =>
    rw [body] at done
    obtain ⟨advances,b',after,settled⟩ := weaveCode_advances sound body (nil_append _).symm nofun done
    refine ⟨advances,fun c found => ?_⟩
    obtain rfl := Option.some.inj (after.symm.trans found)
    exact settled

/-- No closed request is left in a method. -/
def Clear (config : Config) (p : Program) (n : MethodId) : Prop :=
  ∀ b, (p.methodAt n).body = some b → Settled config p b.code

theorem Clear.mono (clear : Clear config p n) (beside : Beside touched p q) (formed : p.WellFormed)
    (other : ¬touched n) (inside : n.owner.index < p.types.size) : Clear config q n := by
  intro b body
  rw [beside.others n other inside] at body
  exact (clear b body).mono beside.signatures.header (formed.body body) formed.grounded (fun _ => id)
    (beside.untouched n other b body)

theorem weaveMethods_advances {ms : List MethodId} (sound : Sound w) (owner : ∀ n ∈ ms, n.owner = t)
    (done : (ms.forM weaveMethod).run w = (.ok u,w')) : Advances (·.owner = t) w w' ∧
      ∀ n, n.owner.index < w.program.types.size → Clear w.own.config w.program n ∨ n ∈ ms →
        Clear w.own.config w'.program n := by
  induction ms generalizing w with
  | nil =>
    obtain ⟨-,rfl⟩ := run_pure_eq_ok.mp done
    exact ⟨.refl sound,fun n _ clear => clear.resolve_right nofun⟩
  | cons m rest ih =>
    obtain ⟨x,first,later⟩ := run_forM_cons_eq_ok.mp done
    obtain ⟨step,clear⟩ := weaveMethod_advances sound first
    obtain ⟨new,progress⟩ := step.progress
    obtain ⟨steps,result⟩ := ih step.sound (fun n member => owner n (.tail _ member)) later
    rw [progress.config] at result
    have here : ∀ n, n = m → n.owner = t := fun n same => same ▸ owner m (.head _)
    refine ⟨(step.weaken here).trans steps,fun n inside cases_ => ?_⟩
    refine result n (Nat.lt_of_lt_of_le inside step.beside.signatures.size_le) ?_
    by_cases same : n = m
    · rw [same]
      exact .inl clear
    · refine cases_.imp (fun clear => clear.mono step.beside sound.formed same inside) fun member => ?_
      exact (mem_cons.mp member).resolve_left same

theorem weaveQueue_advances {n place : Nat} (sound : Sound w)
    (clear : ∀ m : MethodId, m.owner ∈ w.own.queue.take place → Clear w.own.config w.program m)
    (done : (weaveQueue n place).run w = (.ok u,w')) : Advances (·.owner ∈ w'.own.queue) w w' ∧
      ∀ m : MethodId, m.owner ∈ w'.own.queue → Clear w.own.config w'.program m := by
  induction n generalizing w place with
  | zero => exact absurd done run_throw_ne_ok
  | succ n ih =>
    rw [weaveQueue,run_own_bind] at done
    cases at_ : w.own.queue[place]? with
    | none =>
      simp only [at_] at done
      obtain ⟨-,rfl⟩ := run_pure_eq_ok.mp done
      refine ⟨.refl sound,fun m member => clear m ?_⟩
      rwa [List.take_of_length_le (List.getElem?_eq_none_iff.mp at_)]
    | some t =>
      simp only [at_] at done
      rw [run_program_bind] at done
      obtain ⟨_,x,woven,done⟩ := run_bind_eq_ok.mp done
      obtain ⟨step,cleared⟩ := weaveMethods_advances sound (fun m member => (mem_methodsOf.mp member).1) woven
      obtain ⟨new,progress⟩ := step.progress
      have before : place < w.own.queue.length := (List.getElem?_eq_some_iff.mp at_).1
      have declared := sound.fits.queue
      have clear' : ∀ m : MethodId, m.owner ∈ x.own.queue.take (place + 1) → Clear w.own.config x.program m := by
        intro m member
        rw [progress.queue,List.take_append_of_le_length before,List.take_succ_eq_append_getElem before] at member
        rcases List.mem_append.mp member with earlier | here
        · exact cleared m (declared _ (List.mem_of_mem_take earlier)) (.inl (clear m earlier))
        · obtain rfl : m.owner = t := (List.mem_singleton.mp here).trans (List.getElem?_eq_some_iff.mp at_).2
          refine cleared m (declared _ (List.mem_of_getElem? at_)) ?_
          by_cases within : m.position < (w.program.typeAt m.owner).methods.length
          · exact .inr (mem_methodsOf.mpr ⟨rfl,within⟩)
          · refine .inl fun b body => ?_
            rw [methodAt_of_le (Nat.le_of_not_lt within)] at body
            cases body
      rw [← progress.config] at clear' ⊢
      obtain ⟨steps,result⟩ := ih step.sound clear' done
      obtain ⟨later,further⟩ := steps.progress
      have queued : t ∈ w'.own.queue := by
        rw [further.queue,progress.queue]
        exact List.mem_append_left _ (List.mem_append_left _ (List.mem_of_getElem? at_))
      exact ⟨(step.weaken fun m same => by rw [same]; exact queued).trans steps,result⟩

/-- Instructions of queued types are woven one after the other, until all is done, a bound is met or one of them fails. -/
inductive Woven (P : Failure → Prop) : Workspace Resolver → Except Failure Unit × Workspace Resolver → Prop
  | done {w : Workspace Resolver} : Woven P w (.ok (),w)
  | left {w : Workspace Resolver} {f : Failure} (bound : P f) : Woven P w (.error f,w)
  | failed {w v : Workspace Resolver} {m : MethodId} {b : Body} {i : InstructionId} {f : Failure} (sound : Sound w)
      (body : (w.program.methodAt m).body = some b) (member : i ∈ b.code)
      (ran : (weaveInstruction m i).run w = (.error f,v)) : Woven P w (.error f,v)
  | step {w v : Workspace Resolver} {m : MethodId} {b : Body} {i : InstructionId} {r : Except Failure Unit × Workspace Resolver}
      (sound : Sound w) (queued : m.owner ∈ w.own.queue) (body : (w.program.methodAt m).body = some b) (member : i ∈ b.code)
      (ran : (weaveInstruction m i).run w = (.ok (),v)) (rest : Woven P v r) : Woven P w r

section Woven

variable {P : Failure → Prop}

theorem Woven.trans {r : Except Failure Unit × Workspace Resolver} (first : Woven P w (.ok (),x)) (later : Woven P x r) :
    Woven P w r := by
  generalize ended : ((.ok (),x) : Except Failure Unit × Workspace Resolver) = e at first
  induction first with
  | done => cases ended; exact later
  | left => cases ended
  | failed => cases ended
  | step sound queued body member ran _ ih => exact .step sound queued body member ran (ih ended)

theorem Woven.bind {y : Weaving Resolver Unit} {f : Unit → Weaving Resolver Unit} (first : Woven P w (y.run w))
    (later : ∀ v, y.run w = (.ok (),v) → Woven P v ((f ()).run v)) : Woven P w ((y >>= f).run w) := by
  refine run_bind_cases (R := Woven P w) (fun e failed => ?_) fun _ v ran => ?_
  · rwa [← failed]
  · rw [ran] at first
    exact first.trans (later v ran)

theorem weaveCode_woven {code : List InstructionId} (sound : Sound w) (queued : m.owner ∈ w.own.queue)
    (body : (w.program.methodAt m).body = some b) (parts : b.code = pre ++ code)
    (settled : Settled w.own.config w.program pre) : Woven P w ((code.forM (weaveInstruction m)).run w) := by
  induction code generalizing w b pre with
  | nil => exact .done
  | cons i rest ih =>
    have member : i ∈ b.code := by rw [parts]; simp
    refine run_bind_cases (R := Woven P w) (fun _ failed => .failed sound body member (Prod.ext failed rfl))
      fun _ v first => .step sound queued body member first ?_
    obtain ⟨step,b',early,after,left,clear⟩ := (weaveInstruction_eq_ok first).advances sound body parts settled
    obtain ⟨new,progress⟩ := step.progress
    rw [← progress.config] at clear
    exact ih step.sound (by rw [progress.queue]; exact mem_append_left _ queued) after left clear

theorem weaveMethods_woven {ms : List MethodId} (sound : Sound w) (queued : ∀ m ∈ ms, m.owner ∈ w.own.queue) :
    Woven P w ((ms.forM weaveMethod).run w) := by
  induction ms generalizing w with
  | nil => exact .done
  | cons m rest ih =>
    refine .bind ?_ fun v first => ?_
    · rw [weaveMethod,run_program_bind]
      cases body : (w.program.methodAt m).body with
      | none => exact .done
      | some b =>
        exact weaveCode_woven sound (queued m (.head _)) body (nil_append _).symm (forall_mem_nil _)
    · obtain ⟨step,-⟩ := weaveMethod_advances sound first
      obtain ⟨new,progress⟩ := step.progress
      refine ih step.sound fun k member => ?_
      rw [progress.queue]
      exact mem_append_left _ (queued k (.tail _ member))

theorem weaveType_woven {place : Nat} (sound : Sound w) (at_ : w.own.queue[place]? = some t) :
    Woven P w (((w.program.methodsOf t).forM weaveMethod).run w) :=
  weaveMethods_woven sound fun m member => by
    rw [(mem_methodsOf.mp member).1]
    exact mem_of_getElem? at_

theorem weaveQueue_woven {n place : Nat} (endless : P .unbounded) (sound : Sound w) : Woven P w ((weaveQueue n place).run w) := by
  induction n generalizing w place with
  | zero => exact .left endless
  | succ n ih =>
    rw [weaveQueue,run_own_bind]
    split
    · exact .done
    · next t at_ =>
      rw [run_program_bind]
      refine .bind (weaveType_woven sound at_) fun v woven => ?_
      exact ih (weaveMethods_advances sound (fun m member => (mem_methodsOf.mp member).1) woven).1.sound

end Woven

theorem mem_implementationsOf {marker : String} (member : j ∈ p.implementationsOf marker t) :
    j.implementation = t ∧ j.specializations = [] ∧ (p.typeAt t).isAbstract = false ∧
      .applied j.marker [j.argument] ∈ (p.typeAt t).interfaces := by
  rw [implementationsOf] at member
  split at member
  · cases member
  · next concrete =>
    obtain ⟨u,listed,found⟩ := mem_filterMap.mp member
    split at found
    · split at found
      · cases found
        exact ⟨rfl,rfl,Bool.eq_false_iff.mpr concrete,listed⟩
      · cases found
    · cases found

theorem start_listed (known : j ∈ (start p home config).index.plain ∨ j ∈ (start p home config).index.generic) :
    j.implementation ∈ p.allTypes home ∧ j.specializations = [] ∧ (p.typeAt j.implementation).isAbstract = false ∧
      .applied j.marker [j.argument] ∈ (p.typeAt j.implementation).interfaces := by
  have member : j ∈ (p.allTypes home).flatMap (p.implementationsOf config.typeclassMarker) :=
    known.elim (fun member => (mem_filter.mp member).1) fun member => (mem_filter.mp member).1
  obtain ⟨t,among,found⟩ := mem_flatMap.mp member
  obtain ⟨rfl,none,concrete,listed⟩ := mem_implementationsOf found
  exact ⟨among,none,concrete,listed⟩

theorem start_fits (formed : p.WellFormed) (place : home.index < p.modules.size) : (start p home config).Fits p := by
  refine ⟨place,fun j member => formed.listed.allTypes (start_listed (.inl member)).1,
    fun j member => formed.listed.allTypes (start_listed (.inr member)).1,fun j member e among => ?_,nofun⟩
  rw [(start_listed (.inr member)).2.1] at among
  cases among

/-- The types that a run weaves in any case. -/
def outset (r : Resolver) (p : Program) : List TypeId :=
  (p.allTypes r.home).filter fun t => !r.index.isInsideGeneric p t

theorem queued_sound (sound : Sound w) :
    Sound { w with own := { w.own with queue := w.own.queue ++ outset w.own w.program } } := by
  have fits := sound.fits
  refine ⟨sound.formed,fits.home,fits.plain,fits.generic,fits.made,fun t member => ?_⟩
  rcases mem_append.mp member with old | new
  · exact fits.queue t old
  · exact sound.formed.listed.allTypes (mem_filter.mp new).1

theorem run_advances {bound : Nat} (sound : Sound w) (done : (run bound).run w = (.ok u,w')) :
    Advances (·.owner ∈ w'.own.queue) { w with own := { w.own with queue := w.own.queue ++ outset w.own w.program } } w' ∧
      ∀ m : MethodId, m.owner ∈ w'.own.queue → Clear w.own.config w'.program m := by
  rw [run,run_own_bind,run_program_bind,run_setOwn_bind] at done
  exact weaveQueue_advances (queued_sound sound) (fun _ member => absurd member not_mem_nil) done

/-! ### Types that are not woven -/

def holdsRequest (config : Config) (p : Program) (n : MethodId) : Bool :=
  (p.bodyOf n).code.any fun j => requestsClosed config p (p.instructionAt j)

theorem Clear.holdsRequest (clear : Clear config p n) : holdsRequest config p n = false := by
  rw [Resolver.holdsRequest,bodyOf]
  cases body : (p.methodAt n).body with
  | none => rfl
  | some b =>
    rw [Option.getD_some,any_eq_false]
    exact fun j member => Bool.eq_false_iff.mp (clear b body j member)

theorem Beside.holdsRequest (beside : Beside touched p q) (formed : p.WellFormed) (other : ¬touched n)
    (inside : n.owner.index < p.types.size) : holdsRequest config q n = holdsRequest config p n := by
  rw [Resolver.holdsRequest,Resolver.holdsRequest,bodyOf,bodyOf,beside.others n other inside]
  cases body : (p.methodAt n).body with
  | none => rfl
  | some b =>
    rw [Option.getD_some,Bool.eq_iff_iff,any_eq_true,any_eq_true]
    refine exists_congr fun j => and_congr_right fun member => ?_
    rw [requestsClosed,requestsClosed,beside.untouched n other b body j member,
      request?_mono beside.signatures.header formed.grounded ((formed.body body).operands j member)]

theorem Advances.allTypes (advances : Advances touched w w') (progress : Progress w w' new)
    (formed : w.program.WellFormed) : w'.program.allTypes w.own.home = w.program.allTypes w.own.home ++ new := by
  have kept := advances.beside.signatures.header
  refine allTypes_grow formed.grounded formed.nests formed.listed (fun t inside => ?_) kept.size_le
    progress.listed progress.leaves fun t member => ((progress.declared t).mp member).2
  exact (kept.map nested).view_eq t inside

/-- The closed requests that a run leaves in a module are those of the types inside generic implementations, which it
    does not weave: everywhere else, in nested types and in clones too, none is left. -/
theorem request_left_iff {home : ModuleId} {config : Config} {bound : Nat} {log : List String} {u : Unit}
    (formed : p.WellFormed) (place : home.index < p.modules.size)
    (done : (run bound).run ⟨p,start p home config,log⟩ = (.ok u,w')) (member : t ∈ w'.program.allTypes home)
    (method : m ∈ w'.program.methodsOf t) : holdsRequest config w'.program m = true ↔
      t ∈ p.allTypes home ∧ (start p home config).index.isInsideGeneric p t = true ∧ holdsRequest config p m = true := by
  have sound : Sound ⟨p,start p home config,log⟩ := ⟨formed,start_fits formed place⟩
  obtain ⟨advances,clear⟩ := run_advances sound done
  obtain ⟨new,progress⟩ := advances.progress
  obtain rfl := (Program.mem_methodsOf.mp method).1
  have queue : w'.own.queue = outset (start p home config) p ++ new := progress.queue
  have types : w'.program.allTypes home = p.allTypes home ++ new := advances.allTypes progress formed
  have fresh : ∀ d ∈ new, p.types.size ≤ d.index := fun d among => ((progress.declared d).mp among).1
  constructor
  · intro left
    have unwoven : m.owner ∉ w'.own.queue := fun queued => by
      have none : holdsRequest config w'.program m = false := (clear m queued).holdsRequest
      rw [none] at left
      cases left
    rw [queue,List.mem_append,not_or] at unwoven
    rw [types,List.mem_append] at member
    have old := member.resolve_right unwoven.2
    refine ⟨old,?_,?_⟩
    · by_contra outside
      exact unwoven.1 (List.mem_filter.mpr ⟨old,by simpa using outside⟩)
    · rw [← left]
      refine (advances.beside.holdsRequest formed ?_ (formed.listed.allTypes old)).symm
      rw [queue,List.mem_append,not_or]
      exact unwoven
  · rintro ⟨old,inside,held⟩
    rw [← held]
    refine advances.beside.holdsRequest formed ?_ (formed.listed.allTypes old)
    rw [queue,List.mem_append,not_or]
    refine ⟨fun listed => ?_,fun among => ?_⟩
    · have outside := (List.mem_filter.mp listed).2
      rw [show (start p home config).index.isInsideGeneric p m.owner = true from inside] at outside
      cases outside
    · exact Nat.not_lt_of_le (fresh _ among) (formed.listed.allTypes old)

/-- A typeclass with a plain implementation and a generic one. -/
def showing : Document :=
  { moduleName := "Showing"
    types :=
      [some (.typeclass "Show"),
       some { name := "ShowInt", interfaces := ["Show<System.Int32>"], methods := [{ name := ".ctor" }] },
       some { name := "ShowList", generics := ["T"], interfaces := ["Show<System.Collections.Generic.List<!0>>"]
              methods :=
                [{ name := ".ctor" },
                 .static "Inner" "System.Object" [resolving "Show<!0>","ret"]]
              nested :=
                [some { name := "Helper"
                        methods :=
                          [.static "Get" "System.Object"
                             [resolving "Show<System.Int32>","ret"]] }] },
       some { name := "Main"
              methods :=
                [.static "Run" "System.Object"
                   [resolving "Show<System.Collections.Generic.List<System.Int32>>",
                    "ret"]] }] }

/-- The requests of the main type and of the clone made for it are resolved; that of the nested type is left. -/
theorem showing_resolved : ∃ home p w, showing.link core [CoreLibrary.home] = .ok (home,p) ∧
    home.index < p.modules.size ∧ (run budget).run ⟨p,start p home {},[]⟩ = (.ok (),w) ∧
    ⟨16⟩ ∈ w.program.allTypes home ∧ ⟨18⟩ ∈ w.program.allTypes home ∧ ⟨⟨16⟩,0⟩ ∈ w.program.methodsOf ⟨16⟩ ∧
    ⟨⟨18⟩,1⟩ ∈ w.program.methodsOf ⟨18⟩ ∧ ⟨18⟩ ∉ p.allTypes home ∧ w.own.callSites = 2 ∧
    holdsRequest {} w.program ⟨⟨16⟩,0⟩ = true := by
  obtain ⟨home,p,linked,evaluated⟩ := showing.link_passes (f := fun home p =>
    passes ((run budget).run ⟨p,start p home {},[]⟩) fun _ w =>
      decide (home.index < p.modules.size) && decide (⟨16⟩ ∈ w.program.allTypes home) &&
      decide (⟨18⟩ ∈ w.program.allTypes home) && decide (⟨⟨16⟩,0⟩ ∈ w.program.methodsOf ⟨16⟩) &&
      decide (⟨⟨18⟩,1⟩ ∈ w.program.methodsOf ⟨18⟩) && decide (⟨18⟩ ∉ p.allTypes home) &&
      decide (w.own.callSites = 2) && holdsRequest {} w.program ⟨⟨16⟩,0⟩) (by decide +kernel)
  obtain ⟨_,w,done,evaluated⟩ := exists_of_passes evaluated
  simp only [Bool.and_eq_true,decide_eq_true_eq] at evaluated
  obtain ⟨⟨⟨⟨⟨⟨⟨place,helper⟩,clone⟩,get⟩,inner⟩,fresh⟩,sites⟩,left⟩ := evaluated
  exact ⟨home,p,w,linked,place,done,helper,clone,get,inner,fresh,sites,left⟩

theorem request_left_iff_showing : ∃ home p w, showing.link Program.core [CoreLibrary.home] = .ok (home,p) ∧
    (run budget).run ⟨p,start p home {},[]⟩ = (.ok (),w) ∧ w.own.callSites = 2 ∧
    (⟨16⟩ ∈ p.allTypes home ∧ (start p home {}).index.isInsideGeneric p ⟨16⟩ = true ∧
      holdsRequest {} p ⟨⟨16⟩,0⟩ = true ∧ holdsRequest {} w.program ⟨⟨16⟩,0⟩ = true) ∧
    ⟨18⟩ ∈ w.program.allTypes home ∧ ⟨18⟩ ∉ p.allTypes home ∧ holdsRequest {} w.program ⟨⟨18⟩,1⟩ = false := by
  obtain ⟨home,p,w,linked,place,done,helper,clone,get,inner,fresh,sites,left⟩ := showing_resolved
  have formed : p.WellFormed := (Linked.core.link linked).wellFormed
  obtain ⟨old,inside,held⟩ := (request_left_iff formed place done helper get).mp left
  refine ⟨home,p,w,linked,done,sites,⟨old,inside,held,left⟩,clone,fresh,Bool.eq_false_iff.mpr fun kept => ?_⟩
  exact fresh ((request_left_iff formed place done clone inner).mp kept).1

end Loom.Resolver
