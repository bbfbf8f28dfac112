import Loom.Proofs.Completion

/-!
Requests that fail. A specializer clones first and registers afterwards. A request that cloning refuses leaves
everything as it was; one that the registry rejects leaves the clones of the whole family in the module, without an
entry for them.
-/
namespace Loom

open Runs Weaving
open CoreLibrary (int32)

namespace Cloning

variable {p : Program} {source : TypeId} {argument : TypeRef}

/-- The type does not have exactly one parameter, or the argument is open. -/
def Refused (p : Program) (source : TypeId) (argument : TypeRef) : Prop :=
  (p.typeAt source).generics.length ≠ 1 ∨ argument.isOpen = true

theorem refused_iff {scope : List GenericParam} (formed : p.Formed scope argument) :
    Refused p source argument ↔ ∃ failure, refusal? p source argument = some failure := by
  rw [← Option.isSome_iff_exists,refusal?_isSome_iff formed.ne_absent,Refused]

theorem closed_of_done {style : CloneStyle} {home : ModuleId} {e : Entry} {q : Program}
    (done : (specialize style home source argument).run p = (.ok e,q)) : argument.isOpen = false := by
  obtain ⟨-,-,-,accepted,-⟩ := specialize_phases done
  exact (refusal?_eq_none accepted).2.2

theorem refusal?_of_stopped {style : CloneStyle} {home : ModuleId} {scope : List GenericParam} {failure : Failure}
    {q : Program} (formed : p.WellFormed) (whole : p.Formed scope argument)
    (stopped : (specialize style home source argument).run p = (.error failure,q)) :
    refusal? p source argument = some failure ∧ q = p := by
  cases refused : refusal? p source argument with
  | some other =>
    rw [specialize_of_refused refused] at stopped
    cases stopped
    exact ⟨rfl,rfl⟩
  | none =>
    have closed := whole.closed (refusal?_eq_none refused).2.2
    obtain ⟨e,r,cloned⟩ := specialize_answered style home formed closed refused
    rw [cloned] at stopped
    cases stopped

end Cloning

namespace Specializer

open Cloning (Refused Grafted)

variable {w : Workspace Specializer} {source : TypeId} {argument : TypeRef} {scope : List GenericParam}

/-- The program is well-formed, and the registry is consistent with it. -/
structure Steady (w : Workspace Specializer) : Prop where
  sound : Sound w
  consistent : Consistent w

theorem specialize_steady (source : TypeId) (steady : Steady w) (whole : w.program.Formed scope argument) :
    Steady ((specialize source argument).run w).2 ∧ w.program.Extends ((specialize source argument).run w).2.program := by
  have outcome := served w source argument
  have consistent := (steady.consistent.serve whole.declares outcome).1
  rcases ended : (specialize source argument).run w with ⟨r,w'⟩
  rw [ended] at outcome consistent
  cases outcome with
  | known found => exact ⟨⟨steady.sound,consistent⟩,.refl _⟩
  | refused missing stopped =>
    obtain ⟨-,rfl⟩ := Cloning.refusal?_of_stopped steady.sound.formed whole stopped
    exact ⟨⟨steady.sound,consistent⟩,.refl _⟩
  | @rejected _ e q missing cloned rejected =>
    have closed := whole.closed (Cloning.closed_of_done cloned)
    obtain ⟨shells,specialized⟩ := Cloning.specialize_specialized steady.sound.formed closed.declares cloned
    refine ⟨⟨⟨specialized.wellFormed steady.sound.formed closed steady.sound.place,?_,fun c member => ?_⟩,consistent⟩,
      specialized.grown⟩
    · show _ < q.modules.size
      rw [(specialized.listed steady.sound.place).size_eq]
      exact steady.sound.place
    · exact (steady.sound.stands c member).mono specialized.grown.signatures
  | @made e q registry log missing cloned added =>
    have closed := whole.closed (Cloning.closed_of_done cloned)
    obtain ⟨⟨sound,-⟩,grown⟩ := specialize_sound steady.sound closed ended
    exact ⟨⟨sound,consistent⟩,grown⟩

theorem generate_steady {t : TypeId} (steady : Steady w) (inside : t.index < w.program.types.size) :
    Steady ((generate t).run w).2 ∧ w.program.Extends ((generate t).run w).2.program := by
  let I (v : Workspace Specializer) : Prop := Steady v ∧ w.program.Extends v.program
  have start : I w := ⟨steady,.refl _⟩
  rw [generate,run_program_bind,run_own_bind]
  refine after_forM (I := I) (fun a member v holds => ?_) start
  refine after_bind (I := I) holds fun argument _ read holds => ?_
  obtain ⟨named,rfl⟩ := run_ofExcept_eq_ok.mp read
  have closed : w.program.Formed [] argument := by
    refine ((steady.sound.formed.types t inside).members.attributes a (List.mem_filter.mp member).1).2 argument ?_
    rw [args_of_markerArgument named]
    exact .head _
  obtain ⟨next,grown⟩ := specialize_steady t holds.1 (closed.mono holds.2.headers)
  exact after_bind (I := I) ⟨next,holds.2.trans grown⟩ fun _ _ _ holds => holds

theorem run_steady (steady : Steady w) : Steady (Specializer.run.run w).2 := by
  rw [run,run_program_bind,run_own_bind]
  have loop : Steady (((w.program.moduleAt w.own.home).types.forM generate).run w).2 ∧
      w.program.Extends (((w.program.moduleAt w.own.home).types.forM generate).run w).2.program := by
    refine after_forM (I := fun v => Steady v ∧ w.program.Extends v.program) (fun t member v holds => ?_)
      ⟨steady,.refl _⟩
    have inside := Nat.lt_of_lt_of_le (steady.sound.formed.listed.top _ t member) holds.2.types.size_le
    obtain ⟨next,grown⟩ := generate_steady holds.1 inside
    exact ⟨next,holds.2.trans grown⟩
  refine after_bind (I := Steady) loop.1 fun _ v _ after => ?_
  rw [run_own_bind]
  exact ⟨⟨after.sound.formed,after.sound.place,after.sound.stands⟩,
    ⟨after.consistent.arranged,after.consistent.memo,after.consistent.declared,after.consistent.owners,
      after.consistent.apart⟩⟩

/-- A call of a specializer, whatever comes of it: a request for a type at an argument, or a run. -/
inductive Calls : Workspace Specializer → Workspace Specializer → Prop
  | request {w : Workspace Specializer} {scope : List GenericParam} (source : TypeId) (argument : TypeRef)
      (formed : w.program.Formed scope argument) : Calls w ((specialize source argument).run w).2
  | run {w : Workspace Specializer} : Calls w (Specializer.run.run w).2

theorem steady_of_calls {p : Program} {home : ModuleId} {config : Config} {log : List String} (formed : p.WellFormed)
    (place : home.index < p.modules.size) (called : Relation.ReflTransGen Calls ⟨p,start home config,log⟩ w) :
    Steady w := by
  induction called with
  | refl => exact ⟨⟨formed,place,nofun⟩,⟨formed.arranged,rfl,nofun,nofun,.nil⟩⟩
  | tail _ call steady =>
    cases call with
    | request source argument formed => exact (specialize_steady source steady formed).1
    | run => exact run_steady steady

def Taken (w : Workspace Specializer) (source : TypeId) (argument : TypeRef) : Prop :=
  ∃ t, Relation.ReflTransGen w.program.Encloses source t ∧
    ∃ e ∈ Entry.flattenAll w.own.registry.entries, w.program.isEntryFor e t argument = true

section

variable {e : Entry} {q : Program} (steady : Steady w) (whole : w.program.Formed scope argument)
  (cloned : (Cloning.specialize w.own.style w.own.home source argument).run w.program = (.ok e,q))
include steady whole cloned

/-- The registry rejects the entries of a family one of which it has. -/
theorem repeated?_eq_none_iff :
    w.own.registry.repeated? q e = none ↔ ¬Taken w source argument := by
  have grafted := Cloning.specialize_grafted steady.sound.formed whole.declares steady.sound.place cloned
  obtain ⟨-,-,filed⟩ := Cloning.specialize_filed steady.consistent.arranged cloned
  have same (known : Entry) (member : known ∈ Entry.flattenAll w.own.registry.entries) (t : TypeId) :
      q.isEntryFor known t argument = w.program.isEntryFor known t argument := by
    rw [Program.isEntryFor,Program.isEntryFor,grafted.grown.headers.same_eq steady.consistent.arranged.grounded
      (steady.consistent.declared known member) whole.declares]
  rw [Registry.repeated?_eq_none]
  constructor
  · rintro apart ⟨t,reached,known,member,answers⟩
    obtain ⟨c,among,rfl⟩ := List.mem_map.mp ((grafted.reached t).mpr reached)
    refine Program.apart_iff.mp (apart c among known member) ?_
    rw [(filed c among).argument_eq,same known member]
    exact answers
  · intro free c among known member
    refine Program.apart_iff.mpr fun answers => free ⟨c.generic,?_,known,member,?_⟩
    · exact (grafted.reached _).mp (List.mem_map_of_mem among)
    · rwa [(filed c among).argument_eq,same known member] at answers

theorem added_iff :
    (∃ registry, w.own.registry.add q e = .ok registry) ↔ ¬(w.own.registry.isSealed = true ∨ Taken w source argument) := by
  simp only [Registry.add_eq_ok,repeated?_eq_none_iff steady whole cloned,not_or,Bool.not_eq_true]
  constructor
  · rintro ⟨_,open_,free,-⟩
    exact ⟨open_,free⟩
  · rintro ⟨open_,free⟩
    exact ⟨_,open_,free,rfl⟩

end

/-- When a request fails, and what it leaves in the module. Only a request that cloning refuses leaves the list of types
    alone; one that the registry rejects adds the clones of the family to it and is forgotten otherwise. -/
theorem failed_request_leaves {p : Program} {home : ModuleId} {config : Config} {log : List String} (linked : Linked p)
    (place : home.index < p.modules.size) (called : Relation.ReflTransGen Calls ⟨p,start home config,log⟩ w)
    (source : TypeId) (whole : w.program.Formed scope argument) :
    let outcome := (specialize source argument).run w
    ((∃ failure, outcome.1 = .error failure) ↔
      (∀ e ∈ w.own.memo, w.program.isEntryFor e source argument = false) ∧
        (Refused w.program source argument ∨ w.own.registry.isSealed = true ∨ Taken w source argument)) ∧
    ∀ failure, outcome.1 = .error failure →
      ((outcome.2.program.moduleAt w.own.home).types = (w.program.moduleAt w.own.home).types ↔
        Refused w.program source argument) ∧
      (Refused w.program source argument → outcome.2 = w) ∧
      (¬Refused w.program source argument → outcome.2.own = w.own ∧ outcome.2.log = w.log ∧
        ∃ entry, Grafted w.own.home source w.program outcome.2.program entry) := by
  have steady := steady_of_calls linked.wellFormed place called
  have ended := served w source argument
  have accepted {e : Entry} {q : Program}
      (cloned : (Cloning.specialize w.own.style w.own.home source argument).run w.program = (.ok e,q)) :
      ¬Refused w.program source argument := by
    obtain ⟨_,_,_,free,-⟩ := Cloning.specialize_phases cloned
    rw [Cloning.refused_iff whole,free]
    exact nofun
  have absent (missing : w.own.memo.find? (fun e => w.program.isEntryFor e source argument) = none) :
      ∀ e ∈ w.own.memo, w.program.isEntryFor e source argument = false :=
    fun e member => Bool.eq_false_iff.mpr (List.find?_eq_none.mp missing e member)
  dsimp only
  rcases outcome : (specialize source argument).run w with ⟨r,w'⟩
  rw [outcome] at ended
  cases ended with
  | @known e found =>
    refine ⟨⟨nofun,?_⟩,nofun⟩
    rintro ⟨unknown,-⟩
    have answers : w.program.isEntryFor e source argument = true := by simpa using List.find?_some found
    rw [unknown e (List.mem_of_find?_eq_some found)] at answers
    cases answers
  | @refused failure q missing stopped =>
    obtain ⟨refused,rfl⟩ := Cloning.refusal?_of_stopped steady.sound.formed whole stopped
    have here := (Cloning.refused_iff whole).mpr ⟨failure,refused⟩
    exact ⟨⟨fun _ => ⟨absent missing,.inl here⟩,fun _ => ⟨failure,rfl⟩⟩,
      fun _ _ => ⟨⟨fun _ => here,fun _ => rfl⟩,fun _ => rfl,fun free => absurd here free⟩⟩
  | @rejected failure e q missing cloned rejected =>
    have grafted := Cloning.specialize_grafted steady.sound.formed whole.declares steady.sound.place cloned
    have free := accepted cloned
    have why : w.own.registry.isSealed = true ∨ Taken w source argument := by
      by_contra free
      obtain ⟨registry,added⟩ := (added_iff steady whole cloned).mpr free
      rw [rejected] at added
      cases added
    have longer : (q.moduleAt w.own.home).types ≠ (w.program.moduleAt w.own.home).types := fun same => by
      rw [grafted.listed.here] at same
      have root := e.mem_flatten_self
      rw [List.map_eq_nil_iff.mp (List.append_right_eq_self.mp same)] at root
      cases root
    exact ⟨⟨fun _ => ⟨absent missing,.inr why⟩,fun _ => ⟨failure,rfl⟩⟩,fun _ _ =>
      ⟨⟨fun same => absurd same longer,fun here => absurd here free⟩,fun here => absurd here free,
        fun _ => ⟨rfl,rfl,e,grafted⟩⟩⟩
  | @made e q registry log missing cloned added =>
    refine ⟨⟨nofun,?_⟩,nofun⟩
    rintro ⟨-,why⟩
    exact absurd (why.resolve_left (accepted cloned)) ((added_iff steady whole cloned).mp ⟨registry,added⟩)

theorem failed_request_leaves_cabinet : ∃ home p w, cabinet.link Program.core [CoreLibrary.home] = .ok (home,p) ∧
    Relation.ReflTransGen Calls ⟨p,start home {},[]⟩ w ∧
    ∃ failure v, (specialize ⟨13⟩ (.decl CoreLibrary.int32)).run w = (.error failure,v) ∧
      v.program.types.size = w.program.types.size + 2 ∧
      (v.program.moduleAt w.own.home).types ≠ (w.program.moduleAt w.own.home).types ∧ v.own = w.own ∧
      ∃ entry, Grafted w.own.home ⟨13⟩ w.program v.program entry := by
  obtain ⟨home,p,linked,evaluated⟩ := cabinet.link_passes (f := fun home p =>
    let first := ((specialize ⟨14⟩ (.decl int32)).run ⟨p,start home {},[]⟩).2
    let second := (specialize ⟨13⟩ (.decl int32)).run first
    !second.1.isOk && decide ((first.program.typeAt ⟨13⟩).generics.length = 1) &&
      decide (int32.index < first.program.types.size) && decide (second.2.program.types.size = first.program.types.size + 2))
    (by decide +kernel)
  simp only [Bool.and_eq_true,decide_eq_true_eq] at evaluated
  obtain ⟨⟨⟨error,one⟩,inside⟩,size⟩ := evaluated
  rcases failed : (specialize ⟨13⟩ (.decl int32)).run ((specialize ⟨14⟩ (.decl int32)).run ⟨p,start home {},[]⟩).2 with
    ⟨failure | _,v⟩
  · rw [failed] at size
    have built := Linked.core.link linked
    obtain ⟨last,grown⟩ := Document.link_place Program.core_wellFormed linked
    have numbers : p.Formed [] (.decl CoreLibrary.int32) :=
      Program.formed_decl (built.declares_core (by decide) _ (TypeRef.mem_parts_self _) _ rfl)
    have drawer := Relation.ReflTransGen.single (Calls.request (w := ⟨p,start home {},[]⟩) ⟨14⟩ _ numbers)
    obtain ⟨-,fails⟩ := failed_request_leaves built (by rw [last,grown]; exact Nat.lt_succ_self _) drawer ⟨13⟩
      (Program.formed_decl inside : Program.Formed _ [] _)
    simp only [failed] at fails
    obtain ⟨unchanged,-,left⟩ := fails failure rfl
    have accepted : ¬Refused _ ⟨13⟩ (.decl CoreLibrary.int32) := not_or.mpr ⟨not_not.mpr one,nofun⟩
    obtain ⟨own,-,grafted⟩ := left accepted
    exact ⟨home,p,_,linked,drawer,failure,v,failed,size,fun same => accepted (unchanged.mp same),own,grafted⟩
  · rw [failed] at error
    cases error

end Specializer
end Loom
