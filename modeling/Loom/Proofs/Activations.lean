import Loom.Proofs.Lockstep

/-!
How methods begin and end. One instruction edits the state within the innermost activation, enters a method in a new
activation, or leaves the activation and gives its caller what is due.
-/
namespace Loom.Machine

open Runs
open Relation (ReflTransGen)
open Run

variable {α : Type} {p : Program} {home : ModuleId} {s t : State} {m : MethodId} {r : Except Stop (Option Value) × State}

def dues (p : Program) (m : MethodId) (v : Value) : Delivery → List Value
  | .result => if (p.methodAt m).returns.isVoid p then [] else [v]
  | .object o => [o]

def yield (v : Value) : Delivery → Value
  | .result => v
  | .object o => o

theorem deliver_run (m : MethodId) (v : Value) (delivery : Delivery) (s : State) : (deliver p m v delivery).run s =
      if s.frames = [] then (.ok (some (yield v delivery)),s)
      else (.ok none,{ s with stack := dues p m v delivery ++ s.stack }) := by
  show (match delivery with
    | .result => if s.frames.isEmpty then pure (some v) else if (p.methodAt m).returns.isVoid p then pure none else (do
        push v
        return none)
    | .object o => if s.frames.isEmpty then pure (some o) else (do
        push o
        return none) : Run (Option Value)).run s = _
  by_cases last : s.frames = []
  · have empty : s.frames.isEmpty = true := by rw [last]; rfl
    simp only [empty,if_true,if_pos last]
    cases delivery <;> rfl
  · have more : s.frames.isEmpty = false := by simpa using last
    simp only [more,Bool.false_eq_true,if_false,if_neg last]
    cases delivery with
    | object o => rfl
    | result =>
      by_cases void : (p.methodAt m).returns.isVoid p
      · simp only [dues,void,if_true]
        rfl
      · simp only [dues,void,Bool.false_eq_true,if_false]
        rfl

/-- How the beginning of a method can end that owes its caller one of the given deliveries. -/
inductive Begun (p : Program) (home : ModuleId) (m : MethodId) (D : Delivery → Prop) (s : State) :
    Except Stop (Option Value) × State → Prop where
  | stopped {t : State} (e : Stop) : ReflTransGen (Aside p home) s t → Begun p home m D s (.error e,t)
  | ended {t : State} (v : Value) {delivery : Delivery} : ReflTransGen (Aside p home) s t → t.frames = [] → D delivery →
      Begun p home m D s (.ok (some (yield v delivery)),t)
  | delivered {t : State} (v : Value) {delivery : Delivery} : ReflTransGen (Aside p home) s t → t.frames ≠ [] →
      D delivery → Begun p home m D s (.ok none,{ t with stack := dues p m v delivery ++ t.stack })
  | entered {t : State} {f : Frame} : ReflTransGen (Aside p home) s t → f.base = t.stack.length → f.method = m →
      D f.delivery → Begun p home m D s (.ok none,{ t with frames := f :: t.frames })

namespace Begun

variable {m : MethodId} {D : Delivery → Prop} {s t : State}

theorem after (worked : ReflTransGen (Aside p home) s t) (begun : Begun p home m D t r) : Begun p home m D s r := by
  cases begun with
  | stopped e later => exact .stopped e (worked.trans later)
  | ended v later last due => exact .ended v (worked.trans later) last due
  | delivered v later more due => exact .delivered v (worked.trans later) more due
  | entered later base method due => exact .entered (worked.trans later) base method due

theorem mono {D' : Delivery → Prop} (wider : ∀ d, D d → D' d) (begun : Begun p home m D s r) : Begun p home m D' s r := by
  cases begun with
  | stopped e worked => exact .stopped e worked
  | ended v worked last due => exact .ended v worked last (wider _ due)
  | delivered v worked more due => exact .delivered v worked more (wider _ due)
  | entered worked base method due => exact .entered worked base method (wider _ due)

theorem bind {x : Run α} {f : α → Run (Option Value)} (first : Makes (Aside p home) x)
    (later : ∀ a t, x.run s = (.ok a,t) → ReflTransGen (Aside p home) s t → Begun p home m D t ((f a).run t)) :
    Begun p home m D s ((x >>= f).run s) := by
  have made := first s
  refine run_bind_cases (R := Begun p home m D s) (fun e _ => .stopped e made) fun a t ran => ?_
  rw [ran] at made
  exact (later a t ran made).after made

end Begun

theorem deliver_begun (m : MethodId) (v : Value) (delivery : Delivery) (s : State) :
    Begun p home m (· = delivery) s ((deliver p m v delivery).run s) := by
  rw [deliver_run]
  split
  · next last => exact .ended v .refl last rfl
  · next more => exact .delivered v .refl more rfl

theorem enterFrame_begun (bound : Nat) (m : MethodId) (body : Body) (c : Context) (this : Value) (args : List Value)
    (delivery : Delivery) (s : State) :
    Begun p home m (· = delivery) s ((do
      enterFrame p bound m body c this args delivery
      return none : Run (Option Value)).run s) := by
  rw [enterFrame,bind_assoc]
  refine .bind (.of_keeps fun _ => rfl) fun start t got _ => ?_
  obtain ⟨rfl,rfl⟩ := run_get_eq_ok.mp got
  rw [bind_assoc]
  refine .bind (Shadows.allocate _).aside fun args s₁ _ first => ?_
  rw [bind_assoc]
  refine .bind (Shadows.zeroLocals c _).aside fun zeros s₂ _ second => ?_
  rw [bind_assoc]
  refine .bind (Shadows.allocate _).aside fun locals s₃ _ third => .entered .refl ?_ rfl rfl
  rw [Aside.stack_eq third,Aside.stack_eq second,Aside.stack_eq first]

theorem begin_begun (bound : Nat) (m : MethodId) (c : Context) (this : Value) (args : List Value) (delivery : Delivery)
    (s : State) : Begun p home m (· = delivery) s ((begin p bound m c this args delivery).run s) := by
  refine .bind Shadows.checkDepth.aside fun _ s₁ _ _ => .bind Shadows.heap.aside fun h s₂ _ _ => ?_
  by_cases native : (!(p.methodAt m).native.isEmpty) = true
  · simp only [native,if_true]
    exact .bind (Shadows.invokeNative m c _ args).aside fun v s₃ _ _ => deliver_begun m v delivery s₃
  · simp only [native]
    cases (p.methodAt m).body with
    | none => exact .stopped _ .refl
    | some body => exact enterFrame_begun bound m body c _ args delivery s₂

theorem construct_begun (bound : Nat) (t : TypeId) (typeArgs : List TypeRef) (ctor : MethodId) (args : List Value) (s : State) :
    Begun p home ctor (∃ v, · = .object v) s ((construct p bound t typeArgs ctor args).run s) := by
  refine .bind (Shadows.constructNatively ctor _ args).aside fun own s₁ _ _ => ?_
  split
  · exact (deliver_begun ctor own _ s₁).mono fun _ due => ⟨own,due⟩
  · refine .bind Shadows.heap.aside fun h s₂ _ _ => .bind (Shadows.orUnbounded_id _).aside fun made s₃ _ _ => ?_
    refine .bind (Shadows.setHeap made.2).aside fun _ s₄ _ _ => ?_
    exact (begin_begun bound ctor _ made.1 args _ s₄).mono fun _ due => ⟨made.1,due⟩

/-- How one instruction of the innermost activation can end: its work is done or stops, a method is entered, or the
    activation is left and its caller given its due. -/
inductive Stepped (p : Program) (home : ModuleId) (s : State) : Except Stop (Option Value) × State → Prop where
  | worked {t : State} (r : Except Stop (Option Value)) : ReflTransGen (Edit p home) s t → Stepped p home s (r,t)
  | entered {t : State} {f : Frame} : ReflTransGen (Edit p home) s t → f.base = t.stack.length →
      Stepped p home s (.ok none,{ t with frames := f :: t.frames })
  | left {t : State} {f : Frame} {rest : List Frame} (r : Option Value) (v : Value) : ReflTransGen (Edit p home) s t →
      t.frames = f :: rest → Stepped p home s (.ok r,{ t with
        frames := rest
        stack := (if rest = [] then [] else dues p f.method v f.delivery) ++ t.stack.drop (t.stack.length - f.base) })

theorem Stepped.begun {D : Delivery → Prop}
    (made : ReflTransGen (Edit p home) s t) (begun : Begun p home m D t r) : Stepped p home s r := by
  have aside : ∀ {u : State}, ReflTransGen (Aside p home) t u → ReflTransGen (Edit p home) s u :=
    fun worked => made.trans (ReflTransGen.mono (fun _ _ => .aside) _ _ worked)
  cases begun with
  | stopped e worked => exact .worked _ (aside worked)
  | ended v worked last due => exact .worked _ (aside worked)
  | delivered v worked more due =>
    exact .worked _ ((aside worked).trans (Edit.pushes _ _))
  | entered worked base method due => exact .entered (aside worked) base

theorem finish_stepped (made : ReflTransGen (Edit p home) s t) :
    Stepped p home s ((finish p (s.frames.head?.getD default)).run t) := by
  have made : ReflTransGen (Edit p home) s ((result p (s.frames.head?.getD default).method).run t).2 :=
    made.trans ((Shadows.result _).edits t)
  refine run_bind_cases (R := Stepped p home s) (fun e _ => .worked _ made) fun v u ran => ?_
  rw [ran] at made
  rw [run_bind_eq,leaveFrame_run]
  simp only [deliver_run]
  cases frames : u.frames with
  | nil => simpa only [frames,if_true] using Stepped.worked _ made
  | cons g rest =>
    obtain ⟨n,same⟩ := Edit.frames_eq made
    cases outer : s.frames with
    | nil => rw [frames,outer] at same; cases same
    | cons f others =>
      rw [frames,outer] at same
      cases same
      have left := fun r => Stepped.left r v made frames
      by_cases last : rest = []
      · simpa only [last,if_true,List.nil_append] using left (some _)
      · simpa only [last,if_false,List.head?_cons,Option.getD_some] using left none

theorem Edit.advance (s : State) : ReflTransGen (Edit p home) s s.advance := by
  have next : Edit p home s _ := .next s ((s.frames.head?.getD default).next + 1)
  have same : s.advance = { s with frames := s.frames.modifyHead fun f =>
      { f with next := (s.frames.head?.getD default).next + 1 } } := by
    rw [State.advance]
    cases s.frames <;> rfl
  rw [same]
  exact .single next

theorem step_run (bound : Nat) (s : State) : (step p home bound).run s =
    match (codeOf p (s.frames.head?.getD default).method)[(s.frames.head?.getD default).next]? with
    | none => (raise p (.endless (p.methodFullName (s.frames.head?.getD default).method))).run s
    | some i =>
      ((⟨p,home,s.frames.head?.getD default,bound⟩ : Site).step (p.instructionAt i) >>=
        perform p bound (s.frames.head?.getD default)).run s.advance := by
  show (match (codeOf p (s.frames.head?.getD default).method)[(s.frames.head?.getD default).next]? with
    | none => raise p (.endless (p.methodFullName (s.frames.head?.getD default).method))
    | some i => do
      modify State.advance
      perform p bound (s.frames.head?.getD default)
        (← (⟨p,home,s.frames.head?.getD default,bound⟩ : Site).step (p.instructionAt i)) : Run (Option Value)).run s = _
  cases (codeOf p (s.frames.head?.getD default).method)[(s.frames.head?.getD default).next]? <;> rfl

theorem step_stepped (bound : Nat) (s : State) : Stepped p home s ((step p home bound).run s) := by
  rw [step_run]
  split
  · exact .worked _ .refl
  · next i _ =>
    have made := (Edit.advance s).trans
      ((Shadows.siteStep (s := ⟨p,home,s.frames.head?.getD default,bound⟩) (p.instructionAt i)).edits _)
    refine run_bind_cases (R := Stepped p home s) (fun e _ => .worked _ made) fun effect t ran => ?_
    rw [ran] at made
    cases effect with
    | next => exact .worked _ made
    | ret => exact finish_stepped made
    | invoke m c this args => exact .begun made (begin_begun bound m c this args .result t)
    | construct u typeArgs ctor args => exact .begun made (construct_begun bound u typeArgs ctor args t)

end Loom.Machine
