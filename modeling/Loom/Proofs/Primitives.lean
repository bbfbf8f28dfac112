import Mathlib.Logic.Relation
import Loom.Machine.Execution
import Loom.Proofs.Runs

/-!
What the machine can do to its state. Whatever runs, and wherever it stops, the state has changed by a sequence of
elementary edits, and none of them touches the operands below the innermost activation. What every edit keeps, every
instruction keeps.
-/
namespace Loom.Machine

open Runs
open Relation (ReflTransGen)
open Run

variable {α β : Type} {p : Program} {home : ModuleId}
variable {s : State}
variable {s' t : State} {name : String} {m : MethodId} {r : Except Stop (Option Value) × State}

/-- An edit that concerns neither operands nor activations. -/
inductive Aside (p : Program) (home : ModuleId) : State → State → Prop where
  | heap (s : State) (h : Heap) : Aside p home s { s with heap := h }
  | labels (s : State) (m : MethodId) : Aside p home s { s with labels := (m,codeOf p m) :: s.labels }
  | types (s : State) (name : String) : Aside p home s { s with types := (name,p.findType? home name) :: s.types }

/-- An edit that an instruction can make. -/
inductive Edit (p : Program) (home : ModuleId) : State → State → Prop where
  | aside {s s' : State} : Aside p home s s' → Edit p home s s'
  | push (s : State) (v : Value) : Edit p home s { s with stack := v :: s.stack }
  | pop {s : State} {v : Value} {rest : List Value} :
      s.stack = v :: rest → s.base < s.stack.length → Edit p home s { s with stack := rest }
  | next (s : State) (n : Nat) :
      Edit p home s { s with frames := s.frames.modifyHead fun f => { f with next := n } }

/-- All that a run does to the state are such edits, also where it stops. -/
def Makes (E : State → State → Prop) (x : Run α) : Prop := ∀ s, ReflTransGen E s (x.run s).2

namespace Makes

variable {E : State → State → Prop} {x : Run α}

theorem of_keeps (keeps : ∀ s, (x.run s).2 = s) : Makes E x := fun s => by rw [keeps s]

theorem made (makes : Makes E x) {s : State} {r : Except Stop α} (ran : x.run s = (r,t)) : ReflTransGen E s t := by
  have made := makes s
  rwa [ran] at made

theorem bind {f : α → Run β} (first : Makes E x) (later : ∀ a, Makes E (f a)) : Makes E (x >>= f) :=
  fun s => after_bind (first s) fun a t _ made => made.trans (later a t)

end Makes

theorem Aside.stack_eq (made : ReflTransGen (Aside p home) s s') : s'.stack = s.stack := by
  induction made with
  | refl => rfl
  | tail _ last ih => cases last <;> exact ih

theorem Aside.frames_eq (made : ReflTransGen (Aside p home) s s') : s'.frames = s.frames := by
  induction made with
  | refl => rfl
  | tail _ last ih => cases last <;> exact ih

theorem Edit.frames_eq (made : ReflTransGen (Edit p home) s s') :
    ∃ n, s'.frames = s.frames.modifyHead fun f => { f with next := n } := by
  induction made with
  | refl => exact ⟨(s.frames.head?.getD default).next,by cases s.frames <;> rfl⟩
  | tail _ last ih =>
    obtain ⟨n,same⟩ := ih
    cases last with
    | aside last => exact ⟨n,by rw [Aside.frames_eq (.single last),same]⟩
    | push v => exact ⟨n,same⟩
    | pop _ _ => exact ⟨n,same⟩
    | next k => exact ⟨k,by simp only [same]; cases s.frames <;> rfl⟩

theorem Edit.pushes (vs : List Value) (s : State) : ReflTransGen (Edit p home) s { s with stack := vs ++ s.stack } := by
  induction vs with
  | nil => exact .refl
  | cons v rest ih => exact ih.tail (.push { s with stack := rest ++ s.stack } v)

/-- Operands are taken only from above the base of the innermost activation. -/
theorem peek_run (s : State) : (peek p).run s = match s.stack with
    | v :: _ => if s.stack.length ≤ s.base then (raise p .stackUnderflow).run s else (.ok v,s)
    | [] => (raise p .stackUnderflow).run s := by
  show ((match s.stack with
    | v :: _ => if s.stack.length ≤ s.base then raise p .stackUnderflow else pure v
    | [] => raise p .stackUnderflow : Run Value)).run s = _
  cases s.stack with
  | nil => rfl
  | cons v rest =>
    simp only
    split
    · rfl
    · rfl

theorem pop_run (s : State) : (pop p).run s = match s.stack with
    | v :: rest => if s.stack.length ≤ s.base then (raise p .stackUnderflow).run s else (.ok v,{ s with stack := rest })
    | [] => (raise p .stackUnderflow).run s := by
  rw [pop,run_bind_eq,peek_run]
  cases operands : s.stack with
  | nil => rfl
  | cons v rest =>
    by_cases low : (v :: rest).length ≤ s.base
    · simp only [if_pos low]
      rfl
    · simp only [if_neg low]
      show (_,{ s with stack := s.stack.tail }) = _
      rw [operands]
      rfl

theorem Makes.peek {E : State → State → Prop} : Makes E (peek p) := .of_keeps fun s => by
  rw [peek_run]
  split
  · split <;> rfl
  · rfl

theorem Makes.pop : Makes (Edit p home) (pop p) := fun s => by
  rw [pop_run]
  split
  · next v rest operands =>
    split
    · exact .refl
    · next above => exact .single (.pop operands (Nat.lt_of_not_le above))
  · exact .refl

theorem typeNamed_run_known {found : Option TypeId} (known : s.types.lookup name = some found) :
    (typeNamed p home name).run s = (.ok found,s) := by
  rw [typeNamed,run_get_bind]
  rw [known]
  rfl

theorem typeNamed_run_new (new : s.types.lookup name = none) : (typeNamed p home name).run s =
    (.ok (p.findType? home name),{ s with types := (name,p.findType? home name) :: s.types }) := by
  rw [typeNamed,run_get_bind]
  rw [new]
  rfl

theorem Makes.typeNamed (name : String) : Makes (Aside p home) (typeNamed p home name) := fun s => by
  cases remembered : s.types.lookup name with
  | some found => rw [typeNamed_run_known remembered]
  | none => rw [typeNamed_run_new remembered]; exact .single (.types s name)

theorem labelsOf_run_known {code : List InstructionId} (known : s.labels.lookup m = some code) :
    (labelsOf p m).run s = (.ok code,s) := by
  rw [labelsOf,run_get_bind]
  rw [known]
  rfl

theorem labelsOf_run_new (new : s.labels.lookup m = none) :
    (labelsOf p m).run s = (.ok (codeOf p m),{ s with labels := (m,codeOf p m) :: s.labels }) := by
  rw [labelsOf,run_get_bind]
  rw [new]
  rfl

theorem Makes.labelsOf (m : MethodId) : Makes (Aside p home) (labelsOf p m) := fun s => by
  cases remembered : s.labels.lookup m with
  | some code => rw [labelsOf_run_known remembered]
  | none => rw [labelsOf_run_new remembered]; exact .single (.labels s m)

theorem leaveFrame_run (s : State) : leaveFrame.run s = (.ok ⟨⟩,match s.frames with
    | f :: rest => { s with frames := rest, stack := s.stack.drop (s.stack.length - f.base) }
    | [] => s) := rfl

end Loom.Machine
