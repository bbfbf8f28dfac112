import Loom.Proofs.Editing

/-!
Branches of an edited body. Every edit that succeeds tells where each branch leads after it, so after any number of edits
a branch leads into the body unless it leads to an instruction that was removed while it stood at the end.
-/
namespace Loom

open List Program

def Instruction.branch? (i : Instruction) : Option InstructionId :=
  match i.operand with
  | .branch t => some t
  | _ => none

def Program.branch? (p : Program) (i : InstructionId) : Option InstructionId := (p.instructionAt i).branch?

/-- An edit of a body about one of its instructions. -/
inductive BodyEdit where
  | insertBefore (target fresh : InstructionId)
  | insertAfter (target fresh : InstructionId)
  | replace (target fresh : InstructionId)
  | remove (target : InstructionId)

namespace BodyEdit

variable {p q r : Program} {b c d : Body} {e : BodyEdit} {gone pre post : List InstructionId} {i t u : InstructionId}

def target : BodyEdit → InstructionId
  | .insertBefore target _ | .insertAfter target _ | .replace target _ | .remove target => target

def fresh? : BodyEdit → Option InstructionId
  | .insertBefore _ fresh | .insertAfter _ fresh | .replace _ fresh => some fresh
  | .remove _ => none

def after? (p : Program) (b : Body) : BodyEdit → Option (Program × Body)
  | .insertBefore target fresh => (b.insertBefore? target fresh).map (p,·)
  | .insertAfter target fresh => (b.insertAfter? target fresh).map (p,·)
  | .replace target fresh => p.replaceIn? b target fresh
  | .remove target => p.removeIn? b target

def run (p : Program) (b : Body) (e : BodyEdit) : Except Failure (Program × Body) :=
  (e.after? p b).elim (.error (p.notInBody e.target)) .ok

/-- What stands in the place of the target after the edit. -/
def block : BodyEdit → List InstructionId
  | .insertBefore target fresh => [fresh,target]
  | .insertAfter target fresh => [target,fresh]
  | .replace _ fresh => [fresh]
  | .remove _ => []

/-- Where a branch leads after the edit. A branch to a replaced instruction follows to the new one, a branch to a removed
    one to its successor, if it has one. -/
def leads (e : BodyEdit) (b : Body) (t : InstructionId) : InstructionId :=
  match e with
  | .replace target fresh => if t = target then fresh else t
  | .remove target => if t = target then (b.code[b.code.idxOf target + 1]?).getD t else t
  | _ => t

def dropped (b : Body) : BodyEdit → List InstructionId
  | .remove target => if b.code.getLast? = some target then [target] else []
  | _ => []

/-- What the edit puts in has not been in the body before, and branches into the body or to itself if it branches. -/
def Admits (p : Program) (b : Body) (gone : List InstructionId) (e : BodyEdit) : Prop :=
  ∀ i ∈ e.fresh?, i ∉ b.code ∧ i ∉ gone ∧ ∀ t ∈ p.branch? i, t ∈ b.code ∨ t = i

theorem run_eq_error (outside : e.target ∉ b.code) : e.run p b = .error (p.notInBody e.target) := by
  have place : b.indexOf? e.target = none :=
    findIdx?_eq_none_iff.mpr fun i member => beq_eq_false_iff_ne.mpr fun same => outside (same ▸ member)
  have refused : e.after? p b = none := by
    cases e <;> simp only [target] at place <;>
      simp only [after?,Body.insertBefore?,Body.insertAfter?,replaceIn?,removeIn?,place,Option.map_none]
  rw [run,refused]
  rfl

theorem branch?_retarget (source target : InstructionId) (i : Instruction) :
    (i.retarget source target).branch? = i.branch?.map fun t => if t = source then target else t := by
  cases operand : i.operand with
  | branch t =>
    rw [Instruction.retarget,operand,Instruction.branch?,Instruction.branch?,operand]
    by_cases here : t = source <;> simp [here,operand]
  | _ => rw [Instruction.retarget,operand,Instruction.branch?,operand]; rfl

theorem branch?_of_outside (outside : ¬i.index < p.code.size) : p.branch? i = none := by
  rw [Program.branch?,instructionAt,Array.getElem?_eq_none (Nat.le_of_not_lt outside)]
  rfl

theorem branch?_retarget_of_mem {code : List InstructionId} {source target : InstructionId} (distinct : code.Nodup)
    (member : i ∈ code) :
    (p.retarget code source target).branch? i = (p.branch? i).map fun t => if t = source then target else t := by
  by_cases inside : i.index < p.code.size
  · rw [Program.branch?,instructionAt_retarget_of_mem distinct inside member,branch?_retarget]
    rfl
  · have size := (retarget_types (p := p) code source target).2.2
    rw [branch?_of_outside inside,branch?_of_outside (by rwa [size])]
    rfl

theorem leads_of_ne (other : u ≠ e.target) : e.leads b u = u := by
  cases e <;> simp_all [leads,target]

theorem idxOf_succ (code : b.code = pre ++ t :: post) (fresh : t ∉ pre) : b.code[b.code.idxOf t + 1]? = post.head? := by
  rw [code,idxOf_append_of_notMem fresh,idxOf_cons_self,getElem?_append_right (by omega),
    Nat.add_zero,Nat.add_sub_cancel_left,getElem?_cons_succ,head?_eq_getElem?]

/-- An edit about an instruction of the body succeeds, with other instructions in its place and every branch led on. -/
theorem run_eq_ok (code : b.code = pre ++ e.target :: post) (fresh : e.target ∉ pre)
    (distinct : (pre ++ e.block ++ post).Nodup) :
    ∃ q, e.run p b = .ok (q,{ b with code := pre ++ e.block ++ post }) ∧
      ∀ i ∈ pre ++ e.block ++ post, q.branch? i = (p.branch? i).map (e.leads b) := by
  have place := Body.indexOf?_eq code fresh
  have unmoved (i : InstructionId) : p.branch? i = (p.branch? i).map fun t => t := Option.map_id_apply.symm
  cases e with
  | insertBefore target new =>
    refine ⟨p,?_,fun i _ => unmoved i⟩
    simp only [BodyEdit.target] at place code
    rw [run,after?,Body.insertBefore?,place,code,Option.map_some,insertIdx_length,append_assoc]
    rfl
  | insertAfter target new =>
    refine ⟨p,?_,fun i _ => unmoved i⟩
    simp only [BodyEdit.target] at place code
    have done : (pre ++ target :: post).insertIdx (pre.length + 1) new = pre ++ [target,new] ++ post := by
      simpa using insertIdx_length (pre ++ [target]) post new
    rw [run,after?,Body.insertAfter?,place,code,Option.map_some,done]
    rfl
  | replace target new =>
    refine ⟨p.retarget (pre ++ [new] ++ post) target new,?_,fun i member => branch?_retarget_of_mem distinct member⟩
    simp only [BodyEdit.target] at place code
    rw [run,after?,replaceIn?,place,code,Option.map_some]
    simp [block]
  | remove target =>
    simp only [BodyEdit.target] at place code fresh
    have erased : b.code.eraseIdx pre.length = pre ++ post := by simp [code,eraseIdx_append_of_length_le]
    have next := idxOf_succ code fresh
    have later : (pre ++ post)[pre.length]? = post.head? := by
      rw [getElem?_append_right (Nat.le_refl _),Nat.sub_self,head?_eq_getElem?]
    rw [run,after?,removeIn?,place,Option.map_some]
    dsimp only
    rw [erased,later]
    cases post with
    | nil =>
      refine ⟨p,by simp [block],fun i _ => ?_⟩
      have stays : leads (.remove target) b = fun t => t := funext fun t => by simp [leads,next]
      rw [stays,← unmoved]
    | cons s rest =>
      refine ⟨p.retarget (pre ++ s :: rest) target s,by simp [block],fun i member => ?_⟩
      have moves : leads (.remove target) b = fun t => if t = target then s else t :=
        funext fun t => by simp [leads,next]
      rw [moves]
      exact branch?_retarget_of_mem (by simpa [block] using distinct) (by simpa [block] using member)

/-- The instructions of a body differ, and its branches lead into it or to instructions that are gone from its end. -/
structure Confined (p : Program) (b : Body) (gone : List InstructionId) : Prop where
  distinct : b.code.Nodup
  left : ∀ t ∈ gone, t ∉ b.code
  branches : ∀ i ∈ b.code, ∀ t ∈ p.branch? i, t ∈ b.code ∨ t ∈ gone

/-- A branch into the body leads into the edited body, unless it led to the last instruction and that one is gone. -/
theorem leads_mem (code : b.code = pre ++ e.target :: post) (fresh : e.target ∉ pre) (member : u ∈ b.code) :
    e.leads b u ∈ pre ++ e.block ++ post ∨ e.leads b u ∈ e.dropped b := by
  rw [code] at member
  cases e with
  | insertBefore target new => simp_all [leads,block,BodyEdit.target]; tauto
  | insertAfter target new => simp_all [leads,block,BodyEdit.target]; tauto
  | replace target new =>
    by_cases here : u = target
    · simp_all [leads,block,BodyEdit.target]
    · simp_all [leads,block,BodyEdit.target]; tauto
  | remove target =>
    simp only [BodyEdit.target] at code fresh member
    by_cases here : u = target
    · rw [leads,if_pos here,here,idxOf_succ code fresh,dropped,code]
      cases post <;> simp
    · simp_all [leads,block]

theorem Confined.distinct_block (confined : Confined p b gone) (admits : e.Admits p b gone)
    (code : b.code = pre ++ e.target :: post) : (pre ++ e.block ++ post).Nodup := by
  have before := confined.distinct
  have apart : ∀ j ∈ e.fresh?, j ∉ pre ++ e.target :: post := fun j put => code ▸ (admits j put).1
  rw [code,nodup_middle,nodup_cons] at before
  cases e <;> simp_all [block,target,fresh?,nodup_middle,not_or,eq_comm]

theorem Confined.run (confined : Confined p b gone) (admits : e.Admits p b gone) (done : e.run p b = .ok (q,c)) :
    Confined q c (e.dropped b ++ gone) ∧ ∀ i ∈ c.code, q.branch? i = (p.branch? i).map (e.leads b) := by
  have member : e.target ∈ b.code := by
    by_contra outside
    rw [run_eq_error outside] at done
    cases done
  obtain ⟨pre,post,code,fresh⟩ := eq_append_cons_of_mem member
  have old : ∀ j ∈ pre ++ e.block ++ post, j ∈ b.code ∨ j ∈ e.fresh? := by
    rw [code]
    cases e <;> simp [block,target,fresh?] <;> tauto
  have new : ∀ j ∈ e.fresh?, j ∈ pre ++ e.block ++ post := by
    cases e <;> simp [block,fresh?]
  have before := confined.distinct
  rw [code,nodup_middle,nodup_cons] at before
  have distinct := confined.distinct_block admits code
  have left : ∀ t ∈ e.dropped b ++ gone, t ∉ pre ++ e.block ++ post := by
    intro t away within
    rcases mem_append.mp away with last | away
    · cases e <;> simp_all [dropped,block,target]
    · rcases old t within with stood | put
      · exact confined.left t away stood
      · exact (admits t put).2.1 away
  obtain ⟨r,ran,led⟩ := run_eq_ok (p := p) code fresh distinct
  cases ran.symm.trans done
  refine ⟨⟨distinct,left,fun i within t leads => ?_⟩,led⟩
  rw [led i within] at leads
  obtain ⟨u,branches,rfl⟩ := Option.map_eq_some_iff.mp leads
  have source : u ∈ b.code ∨ u ∈ gone ∨ u ∈ e.fresh? := by
    rcases old i within with stood | put
    · exact (confined.branches i stood u branches).imp_right .inl
    · rcases (admits i put).2.2 u branches with inside | rfl
      · exact .inl inside
      · exact .inr (.inr put)
  rcases source with inside | away | put
  · exact (leads_mem code fresh inside).imp_right (mem_append_left _)
  · have other : u ≠ e.target := fun same => confined.left u away (same ▸ member)
    rw [leads_of_ne other]
    exact .inr (mem_append_right _ away)
  · have other : u ≠ e.target := fun same => (admits u put).1 (same ▸ member)
    rw [leads_of_ne other]
    exact .inl (new u put)

/-- What becomes of a body by edits that put in new instructions, and what is gone from its end. An edit that fails leaves
    the body as it is. -/
inductive Edited (p : Program) (b : Body) : List InstructionId → Program → Body → Prop
  | none : Edited p b [] p b
  | edit {gone : List InstructionId} {q r : Program} {c d : Body} {e : BodyEdit} (edited : Edited p b gone q c)
      (admits : e.Admits q c gone) (done : e.run q c = .ok (r,d)) : Edited p b (e.dropped c ++ gone) r d

theorem Edited.confined (distinct : b.code.Nodup) (inside : ∀ i ∈ b.code, ∀ t ∈ p.branch? i, t ∈ b.code)
    (edited : Edited p b gone q c) : Confined q c gone := by
  induction edited with
  | none => exact ⟨distinct,forall_mem_nil _,fun i member t leads => .inl (inside i member t leads)⟩
  | edit _ admits done ih => exact (ih.run admits done).1

/-- Edits keep the instructions of a body apart and its branches inside: after any edits a branch leads out of the body
    exactly if it leads to an instruction that was removed from the end. An edit fails exactly if its target is not in the
    body, and one that succeeds leads every branch on from what it replaced or removed, and no other. -/
theorem edits_keep_branches (distinct : b.code.Nodup) (inside : ∀ i ∈ b.code, ∀ t ∈ p.branch? i, t ∈ b.code)
    (edited : Edited p b gone q c) :
    c.code.Nodup ∧ (∀ i ∈ c.code, ∀ t ∈ q.branch? i, (t ∉ c.code ↔ t ∈ gone)) ∧
      ∀ e : BodyEdit, (e.target ∉ c.code → e.run q c = .error (q.notInBody e.target)) ∧
        (e.target ∈ c.code → e.Admits q c gone → ∃ r d, e.run q c = .ok (r,d) ∧ Edited p b (e.dropped c ++ gone) r d ∧
          ∀ i ∈ d.code, r.branch? i = (q.branch? i).map (e.leads c)) := by
  have confined := edited.confined distinct inside
  refine ⟨confined.distinct,fun i member t leads => ⟨fun outside => ?_,confined.left t⟩,fun e => ⟨run_eq_error,?_⟩⟩
  · exact (confined.branches i member t leads).resolve_left outside
  · intro member admits
    obtain ⟨pre,post,code,fresh⟩ := List.eq_append_cons_of_mem member
    obtain ⟨r,ran,-⟩ := run_eq_ok (p := q) code fresh (confined.distinct_block admits code)
    exact ⟨r,_,ran,edited.edit admits ran,(confined.run admits ran).2⟩

/-- A body that branches to its last instruction, which gives way to a branch to it. -/
def corner : Program × Body :=
  ({ code := #[⟨.branch,.branch ⟨1⟩⟩,⟨.ret,.none⟩,⟨.branch,.branch ⟨1⟩⟩] },{ code := [⟨0⟩,⟨1⟩] })

/-- The new branch comes to lead to itself. When it is removed from the end, the branch to it is left. -/
theorem edits_keep_branches_corner : ∃ q c, Edited corner.1 corner.2 [⟨2⟩] q c ∧ c.code = [⟨0⟩] ∧
    q.branch? ⟨0⟩ = some ⟨2⟩ ∧ (⟨2⟩ : InstructionId) ∉ c.code := by
  have replaced : Edited corner.1 corner.2 [] _ _ :=
    .edit (e := .replace ⟨1⟩ ⟨2⟩) .none (by unfold Admits; decide) rfl
  have removed : Edited corner.1 corner.2 [⟨2⟩] _ _ :=
    .edit (e := .remove ⟨2⟩) replaced (by unfold Admits; decide) rfl
  refine ⟨_,_,removed,rfl,rfl,?_⟩
  exact ((edits_keep_branches (by decide) (by decide) removed).2.1 ⟨0⟩ (.head _) ⟨2⟩ rfl).mpr (.head _)

end BodyEdit
end Loom
