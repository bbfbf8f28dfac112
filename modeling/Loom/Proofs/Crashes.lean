import Loom.Proofs.Completion

/-!
Where a pass can crash. On a well-formed program neither the generation of specializations nor the resolution of
typeclasses crashes; injection crashes on a method of a type that is applied to no arguments, and nowhere else.
-/
namespace Loom

open Weaving

variable {α β σ : Type} {P : Failure → Prop}
variable {source : TypeId} {p : Program} {argument : TypeRef}

/-- If a request fails without a report, then in one of the given ways. -/
def FailsOnly (P : Failure → Prop) (r : Except Failure α) : Prop := ∀ f, r = .error f → (∃ e, f = .error e) ∨ P f

namespace FailsOnly

theorem ok (a : α) : FailsOnly P (.ok a) := nofun

theorem refused (e : Error) : FailsOnly P (.error (.error e) : Except Failure α) := by
  rintro _ ⟨⟩
  exact .inl ⟨e,rfl⟩

theorem failed {f : Failure} (known : P f) : FailsOnly P (.error f : Except Failure α) := by
  rintro _ ⟨⟩
  exact .inr known

theorem crash {r : Except Failure α} {c : Crash} (only : FailsOnly P r) (crashed : r = .error (.crash c)) : P (.crash c) := by
  rcases only _ crashed with ⟨e,⟨⟩⟩ | known
  exact known

theorem bind {x : Except Failure α} {f : α → Except Failure β} (first : FailsOnly P x)
    (later : ∀ a, x = .ok a → FailsOnly P (f a)) : FailsOnly P (x >>= f) := by
  cases x with
  | error e => exact fun f failed => first f (congrArg Except.error (Except.error.inj failed))
  | ok a => exact later a rfl

theorem mapError {ε : Type} {f : ε → Failure} (x : Except ε α) (reports : ∀ e, ∃ r, f e = .error r) :
    FailsOnly P (x.mapError f) := by
  cases x with
  | ok a => exact ok a
  | error e =>
    obtain ⟨r,same⟩ := reports e
    rw [Except.mapError,same]
    exact refused r

theorem mapM {f : α → Except Failure β} {xs : List α} (each : ∀ a ∈ xs, FailsOnly P (f a)) : FailsOnly P (xs.mapM f) := by
  induction xs with
  | nil => exact ok []
  | cons a rest ih =>
    rw [List.mapM_cons]
    exact (each a (.head _)).bind fun _ _ => (ih fun b member => each b (.tail _ member)).bind fun _ _ => ok _

theorem foldlM {f : β → α → Except Failure β} {xs : List α} {b : β} (each : ∀ b, ∀ a ∈ xs, FailsOnly P (f b a)) :
    FailsOnly P (xs.foldlM f b) := by
  induction xs generalizing b with
  | nil => exact ok b
  | cons a rest ih =>
    rw [List.foldlM_cons]
    exact (each b a (.head _)).bind fun _ _ => ih fun c d member => each c d (.tail _ member)

theorem run_bind {x : ExceptT Failure (StateM σ) α} {f : α → ExceptT Failure (StateM σ) β} {s : σ}
    (first : FailsOnly P (x.run s).1) (later : ∀ a t, x.run s = (.ok a,t) → FailsOnly P ((f a).run t).1) :
    FailsOnly P ((x >>= f).run s).1 := by
  refine Runs.run_bind_cases (R := fun r => FailsOnly P r.1) (fun e failed f same => ?_) later
  exact first f (failed.trans (congrArg Except.error (Except.error.inj same)))

/-- A loop crashes only as its rounds do, if the rounds that succeed keep what they need. -/
theorem run_forM {I : σ → Prop} {f : α → ExceptT Failure (StateM σ) PUnit} {xs : List α} {s : σ} (start : I s)
    (each : ∀ a ∈ xs, ∀ t, I t → FailsOnly P ((f a).run t).1)
    (round : ∀ a ∈ xs, ∀ t t', I t → (f a).run t = (.ok ⟨⟩,t') → I t') : FailsOnly P ((xs.forM f).run s).1 := by
  induction xs generalizing s with
  | nil => exact ok _
  | cons a rest ih =>
    refine run_bind (each a (.head _) s start) fun _ t ran => ?_
    exact ih (round a (.head _) s t start ran) (fun b member => each b (.tail _ member))
      fun b member => round b (.tail _ member)

end FailsOnly

open FailsOnly (run_bind)

namespace Cloning

variable {p : Program} {style : CloneStyle} {home : ModuleId} {argument : TypeRef}

theorem refusal_reports {failure : Failure} (refused : refusal? p source argument = some failure) :
    ∃ e, failure = .error e := by
  simp only [refusal?] at refused
  split at refused
  · exact ⟨_,(Option.some.inj refused).symm⟩
  · split at refused
    · exact ⟨_,(Option.some.inj refused).symm⟩
    · split at refused
      · exact ⟨_,(Option.some.inj refused).symm⟩
      · split at refused
        · exact ⟨_,(Option.some.inj refused).symm⟩
        · cases refused

theorem specialize_failsOnly (formed : p.WellFormed) (closed : p.Formed [] argument) :
    FailsOnly P ((specialize style home source argument).run p).1 := by
  cases refused : refusal? p source argument with
  | some failure =>
    obtain ⟨e,rfl⟩ := refusal_reports refused
    rw [specialize_of_refused refused]
    exact .refused e
  | none =>
    obtain ⟨entry,q,done⟩ := specialize_answered style home formed closed refused
    rw [done]
    exact .ok entry

end Cloning

namespace Weaving

theorem cloning_failsOnly {c : Cloning α} {w : Workspace σ} (only : FailsOnly P (c.run w.program).1) :
    FailsOnly P ((cloning c : Weaving σ α).run w).1 :=
  only

end Weaving

theorem Program.specializationFailure_reports {t : TypeId} {fault : String → WeaveFault}
    (present : argument ≠ .absent) : ∃ e, p.specializationFailure t argument fault = .error e := by
  cases argument with
  | absent => exact absurd rfl present
  | _ => exact ⟨_,rfl⟩

theorem Registry.add_failsOnly {r : Registry} {e : Entry} (present : ∀ c ∈ e.flatten, c.argument ≠ .absent) :
    FailsOnly P (r.add p e) := by
  rw [add]
  split
  · exact .refused _
  · split
    · next c found =>
      obtain ⟨e,same⟩ := p.specializationFailure_reports (present c (List.mem_of_find?_eq_some found))
      rw [same]
      exact .refused e
    · exact .ok _

namespace Specializer

variable {w : Workspace Specializer} {source t : TypeId} {argument : TypeRef}

theorem specialize_failsOnly (sound : Sound w) (closed : w.program.Formed [] argument) :
    FailsOnly P ((specialize source argument).run w).1 := by
  rw [specialize,run_own_bind,run_program_bind]
  split
  · exact .ok _
  · refine run_bind (cloning_failsOnly (Cloning.specialize_failsOnly sound.formed closed)) fun entry v cloned => ?_
    obtain ⟨q,done,rfl⟩ := run_cloning_eq_ok.mp cloned
    obtain ⟨shells,specialized⟩ := Cloning.specialize_specialized sound.formed closed.declares done
    rw [run_program_bind]
    refine run_bind (Registry.add_failsOnly fun c member => ?_) fun _ _ _ => .ok _
    obtain ⟨shell,-,records⟩ := right_of_forall₂ specialized.records member
    rw [records.argument_eq]
    exact closed.ne_absent

theorem markerArgument_failsOnly {a : Attribute} : FailsOnly P (markerArgument p t a) := by
  rw [markerArgument]
  split
  · exact .ok _
  · exact .refused _
  · exact .refused _

theorem generate_failsOnly (sound : Sound w) (inside : t.index < w.program.types.size) :
    FailsOnly P ((generate t).run w).1 := by
  rw [generate,run_program_bind,run_own_bind]
  have closed (a : Attribute) (member : a ∈ w.program.attributesOf t w.own.marker) (argument : TypeRef)
      (named : markerArgument w.program t a = .ok argument) : w.program.Formed [] argument := by
    refine ((sound.formed.types t inside).members.attributes a (List.mem_filter.mp member).1).2 argument ?_
    rw [args_of_markerArgument named]
    exact .head _
  refine FailsOnly.run_forM (I := fun v => Sound v ∧ w.program.Extends v.program) ⟨sound,.refl _⟩ ?_ ?_
  · intro a member v holds
    refine run_bind markerArgument_failsOnly fun argument _ read => ?_
    obtain ⟨named,rfl⟩ := run_ofExcept_eq_ok.mp read
    have formed := (closed a member argument named).mono holds.2.headers
    exact run_bind (specialize_failsOnly holds.1 formed) fun _ _ _ => .ok _
  · intro a member v v' holds ran
    obtain ⟨argument,e,named,ran⟩ := generateOne_eq_ok ran
    have formed := (closed a member argument named).mono holds.2.headers
    obtain ⟨⟨next,-⟩,grown⟩ := specialize_sound holds.1 formed ran
    exact ⟨next,holds.2.trans grown⟩

theorem run_failsOnly (sound : Sound w) : FailsOnly P (Specializer.run.run w).1 := by
  rw [run,run_program_bind,run_own_bind]
  have inside (t : TypeId) (member : t ∈ (w.program.moduleAt w.own.home).types) (v : Workspace Specializer)
      (grown : w.program.Extends v.program) : t.index < v.program.types.size :=
    Nat.lt_of_lt_of_le (sound.formed.listed.top _ t member) grown.types.size_le
  refine run_bind ?_ fun _ _ _ => .ok _
  refine FailsOnly.run_forM (I := fun v => Sound v ∧ w.program.Extends v.program) ⟨sound,.refl _⟩ ?_ ?_
  · exact fun t member v holds => generate_failsOnly holds.1 (inside t member v holds.2)
  · intro t member v v' holds ran
    obtain ⟨⟨next,-⟩,grown⟩ := generate_sound holds.1 (inside t member v holds.2) ran
    exact ⟨next,holds.2.trans grown⟩

end Specializer

namespace Resolver

variable {w : Workspace Resolver} {t : TypeId} {m : MethodId} {i : InstructionId} {b : Body} {pre : List InstructionId}

theorem specialization_failsOnly {place : Nat} (sound : Sound w)
    (closed : w.program.Formed [] argument) : FailsOnly P ((specialization place argument).run w).1 := by
  rw [specialization,run_own_bind,run_program_bind]
  dsimp only
  split
  · exact .ok _
  · exact run_bind (cloning_failsOnly (Cloning.specialize_failsOnly sound.formed closed)) fun _ _ _ => .ok _

theorem resolve_failsOnly {typeclass : TypeRef} (sound : Sound w) (closed : w.program.Formed [] typeclass) :
    FailsOnly P ((resolve typeclass).run w).1 := by
  rw [resolve,run_own_bind,run_program_bind]
  dsimp only
  split
  · exact absurd rfl closed.ne_absent
  · next marker argument =>
    split
    · have formed := closed.part (TypeRef.mem_parts_applied.mpr (.inr ⟨argument,.head _,TypeRef.mem_parts_self _⟩))
      split
      · exact .ok _
      · exact .refused _
      · split
        · exact .refused _
        · next place bound answer => exact specialization_failsOnly sound (formed.part (lookupGeneric_eq answer).2)
        · exact .refused _
    · exact .refused _
  · exact .refused _

theorem atMethod_failsOnly {α : Type} {x : Weaving Resolver α} {site : String} (only : FailsOnly P (x.run w).1) :
    FailsOnly P ((tryCatch x fun f => throw (atMethod site f)).run w).1 := by
  rw [Runs.run_tryCatch_eq]
  rcases ran : x.run w with ⟨f | a,v⟩
  · rw [ran] at only
    cases f with
    | error e =>
      show FailsOnly P (.error (atMethod site (.error e)))
      rw [atMethod]
      split <;> exact .refused _
    | crash c => exact only
    | unbounded => exact only
  · exact .ok a

theorem substituteIn_failsOnly {first : Instruction} {rest : List Instruction} :
    FailsOnly P (p.substituteIn m i first rest) := by
  rw [Program.substituteIn]
  dsimp only
  split
  · exact .refused _
  · exact .ok _

theorem replaceInstance_failsOnly {id : RefId} : FailsOnly P (replaceInstance p m i t id) := by
  rw [replaceInstance]
  split
  · exact substituteIn_failsOnly
  · split
    · exact .refused _
    · exact substituteIn_failsOnly

theorem replaceWithValue_failsOnly {id : RefId} : FailsOnly P (replaceWithValue p m i t argument id) := by
  rw [replaceWithValue]
  split
  · exact .refused _
  · exact substituteIn_failsOnly

theorem weaveInstruction_failsOnly (sound : Sound w) (body : (w.program.methodAt m).body = some b) (member : i ∈ b.code) :
    FailsOnly P ((weaveInstruction m i).run w).1 := by
  rw [weaveInstruction,run_own_bind,run_program_bind]
  split
  · exact .ok _
  · next typeclass method request =>
    dsimp only
    split
    · exact .ok _
    · next closed =>
      have operand := (sound.formed.body body).operands i member
      rw [(request?_eq_some request).2.1] at operand
      have formed : w.program.Formed [] typeclass := (operand.2.2 _ (.head _)).closed (Bool.eq_false_iff.mpr closed)
      refine run_bind (atMethod_failsOnly (resolve_failsOnly sound formed)) fun t v _ => ?_
      refine run_bind (.ok _) fun p _ _ => ?_
      split
      · next f failed =>
        rintro _ ⟨⟩
        split at failed
        · exact replaceInstance_failsOnly _ failed
        · exact replaceWithValue_failsOnly _ failed
      · exact .ok _

theorem Woven.failsOnly {r : Except Failure Unit × Workspace Resolver} (woven : Woven P w r) : FailsOnly P r.1 := by
  induction woven with
  | done => exact .ok _
  | left bound => exact .failed bound
  | failed sound body member ran =>
    have only := weaveInstruction_failsOnly (P := P) sound body member
    rwa [ran] at only
  | step _ _ _ _ _ _ ih => exact ih

theorem run_failsOnly {bound : Nat} (endless : P .unbounded) (sound : Sound w) : FailsOnly P ((run bound).run w).1 := by
  rw [run,run_own_bind,run_program_bind,run_setOwn_bind]
  exact (weaveQueue_woven endless (queued_sound sound)).failsOnly

end Resolver
end Loom
