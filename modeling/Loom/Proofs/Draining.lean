import Loom.Proofs.Crashes
import Loom.Proofs.Memos

/-!
When the resolution of a module ends. A clone joins the queue that is being woven, and its code can request further
clones, so a run need not end. It ends exactly if clones are made for finitely many arguments.
-/
namespace Loom.Resolver

open Runs List Weaving
open Relation (ReflTransGen)

variable {p : Program} {w w' x : Workspace Resolver} {t marker : TypeId} {argument : TypeRef} {m : MethodId}
  {i : InstructionId} {n k place : Nat}

/-- Clones were made, and what joined the queue are their types. -/
def Grows (w w' : Workspace Resolver) : Prop :=
  ∃ made, w'.own.specializations = w.own.specializations ++ made ∧
    w'.own.queue = w.own.queue ++ made.flatMap fun e => e.flatten.map Entry.specialized

theorem Grows.refl : Grows w w := ⟨[],by simp⟩

theorem Grows.trans (first : Grows w x) (second : Grows x w') : Grows w w' := by
  obtain ⟨made,listed,queued⟩ := first
  obtain ⟨more,listed',queued'⟩ := second
  exact ⟨made ++ more,by rw [listed',listed,append_assoc],
    by rw [queued',queued,append_assoc,flatMap_append]⟩

theorem Answers.grows (answers : Answers marker argument w w' t) : Grows w w' := by
  cases answers with
  | plain answer same => exact same ▸ .refl
  | known none answer at_ found same => exact same ▸ .refl
  | @made place bound j e none answer at_ missing cloned own => exact ⟨[e],by rw [own]; rfl,by rw [own]; simp [record]⟩

theorem Weaves.grows (weaves : Weaves m i w w') : Grows w w' := by
  cases weaves with
  | plain request same => exact same ▸ .refl
  | left request isOpen program own => exact ⟨[],by simp [own]⟩
  | resolved request closed answers edited own =>
    obtain ⟨made,listed,queued⟩ := answers.grows
    exact ⟨made,by rw [own]; exact listed,by rw [own]; exact queued⟩

/-- The methods of a type are woven, all of them. -/
def WeavesType (t : TypeId) (w w' : Workspace Resolver) : Prop :=
  ((w.program.methodsOf t).forM weaveMethod).run w = (.ok (),w')

theorem WeavesType.grows (woven : WeavesType t w w') : Grows w w' := by
  refine forM_keeps (I := Grows w) (fun m _ v v' before done => ?_) woven .refl
  rw [weaveMethod,run_program_bind] at done
  exact forM_keeps (I := Grows w) (fun i _ u u' before done => before.trans (weaveInstruction_eq_ok done).grows)
    done before

theorem WeavesType.sound (woven : WeavesType t w w') (sound : Sound w) : Sound w' :=
  (weaveMethods_advances sound (fun _ member => (Program.mem_methodsOf.mp member).1) woven).1.sound

theorem weaveQueue_at_end (at_ : w.own.queue[place]? = none) : (weaveQueue (n + 1) place).run w = (.ok (),w) := by
  rw [weaveQueue,run_own_bind,at_]
  rfl

theorem weaveQueue_of_woven (at_ : w.own.queue[place]? = some t) (woven : WeavesType t w x) :
    (weaveQueue (n + 1) place).run w = (weaveQueue n (place + 1)).run x := by
  rw [weaveQueue,run_own_bind,at_]
  exact run_bind_of_ok woven

theorem weaveQueue_of_failed (sound : Sound w) (at_ : w.own.queue[place]? = some t)
    (failed : ∀ v, ¬WeavesType t w v) : ∃ e v, ∀ n, (weaveQueue (n + 1) place).run w = (.error (.error e),v) := by
  rcases ran : ((w.program.methodsOf t).forM weaveMethod).run w with ⟨f | u,v⟩
  · obtain ⟨e,rfl⟩ := ((weaveType_woven (P := fun _ => False) sound at_).failsOnly f (by rw [ran])).resolve_right id
    refine ⟨e,v,fun n => ?_⟩
    rw [weaveQueue,run_own_bind,at_]
    exact (run_program_bind).trans (run_bind_of_error ran)
  · exact absurd ran (failed v)

theorem weaveQueue_add_of_ended (sound : Sound w) (ended : ((weaveQueue n place).run w).1 ≠ .error .unbounded) :
    (weaveQueue (n + k) place).run w = (weaveQueue n place).run w := by
  induction n generalizing w place with
  | zero => exact absurd rfl ended
  | succ n ih =>
    rw [Nat.succ_add]
    cases at_ : w.own.queue[place]? with
    | none => rw [weaveQueue_at_end at_,weaveQueue_at_end at_]
    | some t =>
      by_cases woven : ∃ x, WeavesType t w x
      · obtain ⟨x,woven⟩ := woven
        rw [weaveQueue_of_woven at_ woven] at ended
        rw [weaveQueue_of_woven at_ woven,weaveQueue_of_woven at_ woven]
        exact ih (woven.sound sound) ended
      · obtain ⟨e,v,fails⟩ := weaveQueue_of_failed sound at_ (not_exists.mp woven)
        rw [fails,fails]

/-- A run that is given up has woven as many types of the queue as it may, and would go on from there. -/
theorem weaveQueue_add_of_unbounded (sound : Sound w) (start : place ≤ w.own.queue.length)
    (endless : (weaveQueue n place).run w = (.error .unbounded,w')) :
    Sound w' ∧ Grows w w' ∧ place + n ≤ w'.own.queue.length ∧
      ∀ k, (weaveQueue (n + k) place).run w = (weaveQueue k (place + n)).run w' := by
  induction n generalizing w place with
  | zero =>
    obtain rfl : w = w' := (Prod.mk.inj endless).2
    exact ⟨sound,.refl,start,fun k => by rw [Nat.zero_add,Nat.add_zero]⟩
  | succ n ih =>
    cases at_ : w.own.queue[place]? with
    | none =>
      rw [weaveQueue_at_end at_] at endless
      cases endless
    | some t =>
      by_cases woven : ∃ x, WeavesType t w x
      · obtain ⟨x,woven⟩ := woven
        rw [weaveQueue_of_woven at_ woven] at endless
        have before : place + 1 ≤ x.own.queue.length := by
          obtain ⟨made,-,queued⟩ := woven.grows
          rw [queued,List.length_append]
          exact Nat.le_add_right_of_le (List.getElem?_eq_some_iff.mp at_).1
        obtain ⟨sound',grows,long,onward⟩ := ih (woven.sound sound) before endless
        rw [Nat.add_right_comm] at long
        refine ⟨sound',woven.grows.trans grows,long,fun k => ?_⟩
        rw [Nat.succ_add,weaveQueue_of_woven at_ woven,onward k,Nat.add_right_comm,Nat.add_assoc]
      · obtain ⟨e,v,fails⟩ := weaveQueue_of_failed sound at_ (not_exists.mp woven)
        rw [fails] at endless
        cases endless

theorem subset_of_moves (moves : ReflTransGen Moves w w') (sound : Sound w) :
    w.own.specializations ⊆ w'.own.specializations := by
  induction moves with
  | refl => exact Subset.refl _
  | tail moves move ih =>
    obtain ⟨-,x,cause,-,_,_,own⟩ := move.moved (sound_of_moves moves sound)
    rw [own]
    rcases cause with rfl | ⟨marker,argument,t,-,answers⟩
    · exact ih
    · obtain ⟨made,listed,-⟩ := answers.grows
      rw [listed]
      exact subset_append_of_subset_left _ ih

theorem Recorded.length_le (recorded : Recorded w) {arguments : List TypeRef}
    (among : ∀ e ∈ w.own.specializations, e.argument ∈ arguments) :
    w.own.specializations.length ≤ w.own.index.generic.length * arguments.length := by
  have memo (l : List Implementation) (sub : l ⊆ w.own.index.generic) :
      (l.flatMap Implementation.specializations).length ≤ l.length * arguments.length := by
    induction l with
    | nil => simp
    | cons j rest ih =>
      obtain ⟨here,later⟩ := cons_subset.mp sub
      have different : (j.specializations.map Entry.argument).Nodup :=
        pairwise_map.mpr ((recorded.distinct j here).imp fun differ same => by
          rw [same,Program.same_iff.mpr rfl] at differ
          cases differ)
      have listed : j.specializations.map Entry.argument ⊆ arguments := by
        intro a member
        obtain ⟨e,own,rfl⟩ := mem_map.mp member
        exact among e (recorded.reported.mem_iff.mpr (mem_flatMap.mpr ⟨j,here,own⟩))
      have few := (different.subperm listed).length_le
      rw [length_map] at few
      rw [flatMap_cons,length_append,length_cons,Nat.succ_mul,Nat.add_comm]
      exact Nat.add_le_add (ih later) few
  rw [recorded.reported.length_eq]
  exact memo _ (Subset.refl _)

/-- A queue whose weaving is given up whatever the bound gets more clones than any number. -/
theorem exists_clones (sound : Sound w) (endless : ∀ n, ∃ x, (weaveQueue n 0).run w = (.error .unbounded,x)) (k : Nat) :
    ∃ n, k ≤ ((weaveQueue n 0).run w).2.own.specializations.length := by
  induction k with
  | zero => exact ⟨0,Nat.zero_le _⟩
  | succ k ih =>
    obtain ⟨n,many⟩ := ih
    obtain ⟨x,first⟩ := endless n
    obtain ⟨middle,-,woven,onward⟩ := weaveQueue_add_of_unbounded sound (Nat.zero_le _) first
    rw [first] at many
    rw [Nat.zero_add] at woven onward
    -- without another clone the rest of the queue would be woven now
    refine ⟨n + (x.own.queue.length + 1),?_⟩
    obtain ⟨w',second⟩ := endless (n + (x.own.queue.length + 1))
    rw [second]
    rw [onward] at second
    obtain ⟨-,⟨made,listed,queued⟩,long,-⟩ := weaveQueue_add_of_unbounded middle woven second
    rw [listed,length_append]
    refine Nat.add_le_add many (length_pos_iff.mpr fun none => ?_)
    rw [queued,none,flatMap_nil,append_nil] at long
    omega

/-- What is in the report at one bound is in it at the bound at which the weaving ends. -/
theorem weaveQueue_subset (sound : Sound w) (ended : ((weaveQueue n 0).run w).1 ≠ .error .unbounded) :
    ((weaveQueue k 0).run w).2.own.specializations ⊆ ((weaveQueue n 0).run w).2.own.specializations := by
  by_cases early : ∃ x, (weaveQueue k 0).run w = (.error .unbounded,x)
  · obtain ⟨x,given⟩ := early
    obtain ⟨middle,-,-,onward⟩ := weaveQueue_add_of_unbounded sound (Nat.zero_le _) given
    rw [← weaveQueue_add_of_ended (k := k) sound ended,Nat.add_comm,onward,given]
    exact subset_of_moves (weaveQueue_moves middle) middle
  · have ended' : ((weaveQueue k 0).run w).1 ≠ .error .unbounded := fun same => early ⟨_,Prod.ext same rfl⟩
    rw [← weaveQueue_add_of_ended (k := k) sound ended,Nat.add_comm,weaveQueue_add_of_ended sound ended']
    exact Subset.refl _

theorem weaveQueue_ends_iff (sound : Sound w) (recorded : Recorded w) :
    (∃ n, ((weaveQueue n 0).run w).1 ≠ .error .unbounded) ↔
      ∃ arguments : List TypeRef, ∀ n, ∀ e ∈ ((weaveQueue n 0).run w).2.own.specializations, e.argument ∈ arguments := by
  constructor
  · rintro ⟨n,ended⟩
    refine ⟨((weaveQueue n 0).run w).2.own.specializations.map Entry.argument,fun k e member => ?_⟩
    exact mem_map_of_mem (weaveQueue_subset sound ended member)
  · rintro ⟨arguments,among⟩
    by_contra never
    have endless (n : Nat) : ∃ x, (weaveQueue n 0).run w = (.error .unbounded,x) :=
      ⟨_,Prod.ext (by_contra fun ended => never ⟨n,ended⟩) rfl⟩
    obtain ⟨n,many⟩ := exists_clones sound endless (w.own.index.generic.length * arguments.length + 1)
    obtain ⟨after,declared⟩ := recorded_of_moves (weaveQueue_moves sound) sound recorded
    have few := after.length_le (among n)
    have implementations := congrArg length declared
    rw [length_map,length_map] at implementations
    rw [implementations] at few
    omega

/-- The resolution of a module ends exactly if clones are made for finitely many arguments: otherwise the run is given up
    whatever the bound. A run that ends does not depend on the bound. -/
theorem run_ends_iff {home : ModuleId} {config : Config} {bench : Workbench} {log : List String} (linked : Linked p)
    (place : home.index < p.modules.size) (steps : ReflTransGen Workbench.Step { program := p, home, config } bench)
    (fresh : w = ⟨bench.program,start bench.program bench.home bench.config,log⟩) :
    ((∃ n, ((run n).run w).1 ≠ .error .unbounded) ↔
      ∃ arguments : List TypeRef, ∀ n, ∀ e ∈ ((run n).run w).2.own.specializations, e.argument ∈ arguments) ∧
    ∀ n k, ((run n).run w).1 ≠ .error .unbounded → (run (n + k)).run w = (run n).run w := by
  subst fresh
  have right := Workbench.sound_of_steps linked.wellFormed place steps
  have recorded : Recorded ⟨bench.program,start bench.program bench.home bench.config,log⟩ := start_recorded
  have sound := queued_sound (w := ⟨bench.program,start bench.program bench.home bench.config,log⟩)
    (start_indexed right.formed right.place).toSound
  simp only [run,Weaving.run_own_bind,Weaving.run_program_bind,Weaving.run_setOwn_bind]
  exact ⟨weaveQueue_ends_iff sound ⟨recorded.each,recorded.distinct,recorded.reported⟩,
    fun n k ended => weaveQueue_add_of_ended sound ended⟩

theorem run_ends_iff_showing : ∃ home p w, showing.link Program.core [CoreLibrary.home] = .ok (home,p) ∧
    w.own.callSites = 2 ∧ (∀ k, (run (budget + k)).run ⟨p,start p home {},[]⟩ = (.ok (),w)) ∧
    ∃ arguments : List TypeRef, ∀ n,
      ∀ e ∈ ((run n).run ⟨p,start p home {},[]⟩).2.own.specializations, e.argument ∈ arguments := by
  obtain ⟨home,p,w,linked,place,done,-,-,-,-,-,sites,-⟩ := showing_resolved
  have steps : ReflTransGen Workbench.Step { program := p, home } { program := p, home } := .refl
  obtain ⟨ends,same⟩ := run_ends_iff (Linked.core.link linked) place steps rfl
  have ended : ((run budget).run ⟨p,start p home {},[]⟩).1 ≠ .error .unbounded := by
    rw [done]
    rintro ⟨⟩
  exact ⟨home,p,w,linked,sites,fun k => (same budget k ended).trans done,ends.mp ⟨budget,ended⟩⟩

end Loom.Resolver
