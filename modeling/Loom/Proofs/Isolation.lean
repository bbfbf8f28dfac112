import Mathlib.Logic.Function.Iterate
import Loom.Proofs.Activations
import Loom.Proofs.Linking

/-!
Activations do not disturb each other's operands. While a method runs, with all that it calls, the operands below it
stay as they are; when a call is over, its arguments have been replaced by the result of the method, if it has one.
-/
namespace Loom.Machine

open List
open Relation (ReflTransGen)
open Run
open Runs (run_bind_eq_ok run_pure_eq_ok)

variable {p : Program} {home : ModuleId} {bound : Nat}
variable {s : State} {rest : List Frame}
variable {e s' st t u : State} {below : List Value} {α : Type} {n : Nat} {r : Except Stop (Option Value)} {f : Frame}
  {m : MethodId} {isVirtual : Bool} {effect : Effect}

theorem Edit.suffix (made : ReflTransGen (Edit p home) s s')
    (low : below.length ≤ s.base) (held : below <:+ s.stack) : below <:+ s'.stack ∧ s'.base = s.base := by
  induction made with
  | refl => exact ⟨held,rfl⟩
  | @tail t u _ last ih =>
    obtain ⟨held,base⟩ := ih
    cases last with
    | aside last =>
      rw [State.base,Aside.stack_eq (.single last),Aside.frames_eq (.single last)]
      exact ⟨held,base⟩
    | push v => exact ⟨held.trans (suffix_cons v t.stack),base⟩
    | pop operands above =>
      refine ⟨?_,base⟩
      rw [operands] at held above
      refine (suffix_cons_iff.mp held).resolve_left fun all => ?_
      rw [← all,base] at above
      omega
    | next n =>
      refine ⟨held,base ▸ ?_⟩
      rw [State.base,State.base]
      cases t.frames <;> rfl

/-- An activation that is under way: below it are the activations and the operands that it was entered above. -/
structure Held (f : Frame) (rest : List Frame) (below : List Value) (s : State) : Prop where
  frames : ∃ inner n, s.frames = inner ++ { f with next := n } :: rest ∧ ∀ g ∈ inner, below.length ≤ g.base
  stack : below <:+ s.stack

theorem suffix_drop {below xs : List α} (held : below <:+ xs) (high : below.length ≤ n) :
    below <:+ xs.drop (xs.length - n) := by
  obtain ⟨above,rfl⟩ := held
  rw [drop_append_of_le_length (by rw [length_append]; omega)]
  exact suffix_append _ _

namespace Held

variable {f : Frame} {rest : List Frame} {below : List Value} {s s' : State}

section

variable (held : Held f rest below s) (base : f.base = below.length)
include held base

theorem base_le : below.length ≤ s.base := by
  obtain ⟨inner,n,frames,high⟩ := held.frames
  rw [State.base,frames]
  cases inner with
  | nil => exact Nat.le_of_eq base.symm
  | cons g others => exact high g (.head _)

theorem edit (made : ReflTransGen (Edit p home) s s') : Held f rest below s' := by
  obtain ⟨inner,n,frames,high⟩ := held.frames
  obtain ⟨k,same⟩ := Edit.frames_eq made
  refine ⟨?_,(Edit.suffix made (held.base_le base) held.stack).1⟩
  rw [same,frames]
  cases inner with
  | nil => exact ⟨[],k,rfl,nofun⟩
  | cons g others =>
    exact ⟨{ g with next := k } :: others,n,rfl,forall_mem_cons.mpr (forall_mem_cons.mp high)⟩

theorem stepped (done : Stepped p home s (r,s')) : Held f rest below s' ∨
      ∃ v, s'.frames = rest ∧ s'.stack = (if rest = [] then [] else dues p f.method v f.delivery) ++ below := by
  cases done with
  | worked _ made => exact .inl (held.edit base made)
  | @entered t g made height =>
    have held := held.edit base made
    obtain ⟨inner,n,frames,high⟩ := held.frames
    refine .inl ⟨⟨g :: inner,n,by rw [frames]; rfl,forall_mem_cons.mpr ⟨?_,high⟩⟩,held.stack⟩
    rw [height]
    exact held.stack.length_le
  | @left t g others r v made inner =>
    have held := held.edit base made
    obtain ⟨inside,n,frames,high⟩ := held.frames
    rw [inner] at frames
    cases inside with
    | nil =>
      cases frames
      refine .inr ⟨v,rfl,?_⟩
      obtain ⟨above,operands⟩ := held.stack
      rw [← operands,length_append,base,Nat.add_sub_cancel,drop_left]
    | cons h more =>
      cases frames
      obtain ⟨first,others⟩ := forall_mem_cons.mp high
      exact .inl ⟨⟨more,n,rfl,others⟩,(suffix_drop held.stack first).trans (suffix_append _ _)⟩

end

end Held

/-- A method is entered, at the start of a run or by an instruction. -/
inductive Enters (p : Program) (home : ModuleId) (bound : Nat) : State → State → Prop where
  | begin {s e : State} (m : MethodId) (c : Context) (this : Value) (args : List Value) (delivery : Delivery) :
      (begin p bound m c this args delivery).run s = (.ok none,e) → s.frames.length < e.frames.length →
      Enters p home bound s e
  | construct {s e : State} (t : TypeId) (typeArgs : List TypeRef) (ctor : MethodId) (args : List Value) :
      (construct p bound t typeArgs ctor args).run s = (.ok none,e) → s.frames.length < e.frames.length →
      Enters p home bound s e
  | step {s e : State} :
      (step p home bound).run s = (.ok none,e) → s.frames.length < e.frames.length → Enters p home bound s e

/-- A state of the activation that begins in a state, or of one that it calls. The last instruction may have stopped. -/
inductive Inside (p : Program) (home : ModuleId) (bound : Nat) (e : State) : State → Prop where
  | entry : Inside p home bound e e
  | step {s s' : State} {r : Except Stop (Option Value)} : Inside p home bound e s → (step p home bound).run s = (r,s') →
      e.frames.length ≤ s'.frames.length → Inside p home bound e s'

theorem Stepped.entry (done : Stepped p home s (r,e))
    (deeper : s.frames.length < e.frames.length) : ∃ f rest, e.frames = f :: rest ∧ f.base = e.stack.length := by
  have length : ∀ {t : State}, ReflTransGen (Edit p home) s t → t.frames.length = s.frames.length := fun made => by
    obtain ⟨n,same⟩ := Edit.frames_eq made
    rw [same,length_modifyHead]
  cases done with
  | worked _ made => rw [length made] at deeper; omega
  | @entered t f made height => exact ⟨f,t.frames,rfl,height⟩
  | @left t g rest r v made inner =>
    have same := length made
    rw [inner,length_cons] at same
    simp only at deeper
    omega

theorem Enters.entry (enters : Enters p home bound s e) : ∃ f rest, e.frames = f :: rest ∧ f.base = e.stack.length := by
  cases enters with
  | begin m c this args delivery ran deeper =>
    exact (Stepped.begun .refl (ran ▸ begin_begun bound m c this args delivery s : Begun p home _ _ s _)).entry deeper
  | construct t typeArgs ctor args ran deeper =>
    exact (Stepped.begun .refl (ran ▸ construct_begun bound t typeArgs ctor args s : Begun p home _ _ s _)).entry deeper
  | step ran deeper => exact (ran ▸ step_stepped bound s : Stepped p home s _).entry deeper

theorem Inside.held (frames : e.frames = f :: rest) (base : f.base = e.stack.length)
    (inside : Inside p home bound e s) : Held f rest e.stack s := by
  induction inside with
  | entry => exact ⟨⟨[],f.next,frames,nofun⟩,suffix_refl _⟩
  | @step s s' r _ ran within ih =>
    refine (ih.stepped base (ran ▸ step_stepped bound s)).resolve_right ?_
    rintro ⟨v,left,-⟩
    rw [frames,left,length_cons] at within
    omega

def after (p : Program) (home : ModuleId) (bound : Nat) (s : State) : State := ((step p home bound).run s).2

theorem Inside.iterate (n : Nat) (deep : ∀ k < n + 1, e.frames.length ≤ ((after p home bound)^[k] e).frames.length) :
    Inside p home bound e ((after p home bound)^[n] e) := by
  induction n with
  | zero => exact .entry
  | succ n ih =>
    have last := deep (n + 1) (Nat.lt_succ_self _)
    rw [Function.iterate_succ_apply'] at last ⊢
    exact .step (ih fun k low => deep k (Nat.lt_succ_of_lt low)) rfl last

theorem pop_eq_ok {v : Value} (ran : (pop p).run s = (.ok v,t)) :
    s.stack = v :: t.stack ∧ t = { s with stack := t.stack } := by
  rw [pop_run] at ran
  cases operands : s.stack with
  | nil =>
    rw [operands] at ran
    cases ran
  | cons w rest =>
    rw [operands] at ran
    simp only at ran
    split at ran
    · cases ran
    · cases ran
      exact ⟨rfl,rfl⟩

theorem popMany_eq_ok {vs : List Value} (ran : (popMany p n).run s = (.ok vs,t)) :
    vs.length = n ∧ s.stack = vs.reverse ++ t.stack ∧ t = { s with stack := t.stack } := by
  induction n generalizing s vs with
  | zero =>
    obtain ⟨rfl,rfl⟩ := run_pure_eq_ok.mp ran
    exact ⟨rfl,rfl,rfl⟩
  | succ n ih =>
    obtain ⟨last,u,first,ran⟩ := run_bind_eq_ok.mp ran
    obtain ⟨front,u',others,ran⟩ := run_bind_eq_ok.mp ran
    obtain ⟨rfl,rfl⟩ := run_pure_eq_ok.mp ran
    obtain ⟨top,same⟩ := pop_eq_ok first
    obtain ⟨count,below,same'⟩ := ih others
    refine ⟨by simp [count],by simp [top,below],?_⟩
    rw [same',same]

/-- What a call comes to: the method that its operand names, and the one that is invoked with the operands it takes. -/
structure Invokes (p : Program) (home : ModuleId) (bound : Nat) (f : Frame) (i : Instruction) (s : State)
    (target invoked : MethodId) (this : Value) (args : List Value) : Prop where
  effect : ∃ c u, ((⟨p,home,f,bound⟩ : Site).step i).run s = (.ok (.invoke invoked c this args),u)
  operand : ∃ o t, i.operand = .method o ∧ (f.context.subst o.ref.declaring).element? = some t ∧
    resolveOn? p t o.ref = some target
  count : args.length = (p.methodAt target).params.length
  direct : (i.opcode = .call ∨ (p.methodAt target).isStatic = true ∨ (p.methodAt target).isVirtual = false) →
    invoked = target
  overriding : invoked = target ∨ ∃ t, override? p (p.methodAt target) t = some invoked

def taken (p : Program) (target : MethodId) (this : Value) (args : List Value) : List Value :=
  args.reverse ++ if (p.methodAt target).isStatic then [] else [this]

theorem orRaise_eq_ok {f : Fault} {o : Option α} {a : α} : (orRaise p f o).run s = (.ok a,t) ↔ o = some a ∧ s = t := by
  cases o with
  | none => exact ⟨nofun,nofun⟩
  | some b => rw [Option.some.injEq]; exact run_pure_eq_ok

theorem searchBases_eq_some {f : TypeId → List TypeRef → Option α} {t : TypeId} {args : List TypeRef}
    {a : α} (found : searchBases p f n t args = some (some a)) : ∃ t args, f t args = some a := by
  induction n generalizing t args with
  | zero => cases found
  | succ n ih =>
    rw [searchBases] at found
    split at found
    · next b here =>
      cases found
      exact ⟨t,args,here⟩
    · split at found
      · exact ih found
      · cases found

theorem dispatch_eq_ok {v : Value} {target : MethodDecl} {typeArgs : List TypeRef}
    (ran : (dispatch p home bound v target).run s = (.ok (some (m,typeArgs)),u)) : ∃ t, override? p target t = some m := by
  obtain ⟨found,t,-,ran⟩ := run_bind_eq_ok.mp ran
  cases found with
  | none => cases ran
  | some found =>
    cases searched : searchBases p (fun t args => (override? p target t).map (·,args)) bound found.1 found.2 with
    | none =>
      simp only [searched] at ran
      cases ran
    | some r =>
      simp only [searched] at ran
      cases ran
      obtain ⟨t,args,here⟩ := searchBases_eq_some searched
      obtain ⟨m,overrides,same⟩ := Option.map_eq_some_iff.mp here
      cases same
      exact ⟨t,overrides⟩

namespace Site

variable {s : Site}

theorem callOn_eq_ok {c : Context} {this : Value} {args : List Value}
    (ran : (s.callOn isVirtual m c this args).run st = (.ok effect,u)) : ∃ invoked c, effect = .invoke invoked c this args ∧
      ((isVirtual = false ∨ (s.program.methodAt m).isVirtual = false) → invoked = m) ∧
      (invoked = m ∨ ∃ t, override? s.program (s.program.methodAt m) t = some invoked) := by
  obtain ⟨h,st₁,-,ran⟩ := run_bind_eq_ok.mp ran
  dsimp only at ran
  split at ran
  · cases ran
  · split at ran
    · next virtual =>
      obtain ⟨isVirtual,declared⟩ := Bool.and_eq_true_iff.mp virtual
      obtain ⟨found,st₂,searched,ran⟩ := run_bind_eq_ok.mp ran
      cases found with
      | none =>
        obtain ⟨_,_,_,stop⟩ := run_bind_eq_ok.mp ran
        cases stop
      | some found =>
        obtain ⟨rfl,-⟩ := run_pure_eq_ok.mp ran
        refine ⟨found.1,_,rfl,fun plain => ?_,.inr (dispatch_eq_ok searched)⟩
        rw [isVirtual,declared] at plain
        cases plain with
        | inl plain => cases plain
        | inr plain => cases plain
    · obtain ⟨rfl,-⟩ := run_pure_eq_ok.mp ran
      exact ⟨m,c,rfl,fun _ => rfl,.inl rfl⟩

theorem call_eq_ok {i : Instruction} (ran : (s.call i isVirtual).run st = (.ok effect,u)) :
    ∃ target invoked c this args, effect = .invoke invoked c this args ∧
      (∃ o t, i.operand = .method o ∧ (s.frame.context.subst o.ref.declaring).element? = some t ∧
        resolveOn? s.program t o.ref = some target) ∧ args.length = (s.program.methodAt target).params.length ∧
      ((isVirtual = false ∨ (s.program.methodAt target).isStatic = true ∨ (s.program.methodAt target).isVirtual = false) →
        invoked = target) ∧ (invoked = target ∨ ∃ t, override? s.program (s.program.methodAt target) t = some invoked) ∧
      st.stack = taken s.program target this args ++ u.stack ∧ u.frames = st.frames := by
  obtain ⟨o,st₁,read,ran⟩ := run_bind_eq_ok.mp ran
  obtain ⟨operand,rfl⟩ := orRaise_eq_ok.mp read
  obtain ⟨⟨target,t,declaring⟩,st₂,named,ran⟩ := run_bind_eq_ok.mp ran
  obtain ⟨resolved,rfl⟩ := orRaise_eq_ok.mp named
  obtain ⟨t',element,resolved⟩ := Option.bind_eq_some_iff.mp resolved
  obtain ⟨m,found,same⟩ := Option.map_eq_some_iff.mp resolved
  cases same
  have known : ∃ o t, i.operand = .method o ∧ (s.frame.context.subst o.ref.declaring).element? = some t ∧
      resolveOn? s.program t o.ref = some target := by
    refine ⟨o,t,?_,element,found⟩
    revert operand
    cases i.operand <;> simp
  obtain ⟨args,st₃,popped,ran⟩ := run_bind_eq_ok.mp ran
  obtain ⟨count,below,same⟩ := popMany_eq_ok popped
  have kept : st₃.frames = st.frames := by rw [same]
  split at ran
  · next static =>
    obtain ⟨rfl,rfl⟩ := run_pure_eq_ok.mp ran
    exact ⟨target,target,_,_,args,rfl,known,count,fun _ => rfl,.inl rfl,by simpa [taken,static] using below,kept⟩
  · next bound =>
    obtain ⟨this,st₄,top,ran⟩ := run_bind_eq_ok.mp ran
    obtain ⟨first,same'⟩ := pop_eq_ok top
    obtain ⟨invoked,c,rfl,direct,overriding⟩ := callOn_eq_ok ran
    have aside := (Shadows.callOn isVirtual target _ this args).aside.made ran
    refine ⟨target,invoked,c,this,args,rfl,known,count,fun plain => direct (plain.imp_right ?_),overriding,?_,?_⟩
    · exact fun either => either.resolve_left bound
    · rw [Aside.stack_eq aside]
      simp [taken,bound,below,first]
    · rw [Aside.frames_eq aside,same',kept]

end Site

theorem advance_frames (frames : s.frames = f :: rest) : s.advance.frames = { f with next := f.next + 1 } :: rest := by
  rw [State.advance,frames]
  rfl

theorem call_stepped {i : InstructionId} (frames : s.frames = f :: rest) (here : (codeOf p f.method)[f.next]? = some i)
    (calls : (p.instructionAt i).opcode = .call ∨ (p.instructionAt i).opcode = .callVirtual)
    (ran : (step p home bound).run s = (.ok none,s')) :
    ∃ target invoked this args below, Invokes p home bound f (p.instructionAt i) s.advance target invoked this args ∧
      s.stack = taken p target this args ++ below ∧
      ((∃ v, s'.frames = { f with next := f.next + 1 } :: rest ∧ s'.stack = dues p invoked v .result ++ below) ∨
        ∃ g, s'.frames = g :: { f with next := f.next + 1 } :: rest ∧ s'.stack = below ∧ g.base = below.length ∧
          g.method = invoked ∧ g.delivery = .result) := by
  have head : s.frames.head?.getD default = f := by rw [frames]; rfl
  rw [step_run,head,here] at ran
  obtain ⟨effect,u,called,begun⟩ := run_bind_eq_ok.mp ran
  obtain ⟨isVirtual,opcode,call⟩ : ∃ isVirtual, ((p.instructionAt i).opcode = .call → isVirtual = false) ∧
      ((⟨p,home,f,bound⟩ : Site).call (p.instructionAt i) isVirtual).run s.advance = (.ok effect,u) := by
    rcases calls with plain | virtual
    · exact ⟨false,fun _ => rfl,by rwa [Site.step,plain] at called⟩
    · exact ⟨true,fun plain => absurd (plain.symm.trans virtual) (by decide),by rwa [Site.step,virtual] at called⟩
  obtain ⟨target,invoked,c,this,args,rfl,operand,count,direct,overriding,stack,same⟩ := Site.call_eq_ok call
  refine ⟨target,invoked,this,args,u.stack,⟨⟨c,u,called⟩,operand,count,fun plain => direct ?_,overriding⟩,stack,?_⟩
  · exact plain.imp_left opcode
  · have begun : Begun p home invoked (· = .result) u (.ok none,s') := begun ▸ begin_begun bound invoked c this args .result u
    rw [advance_frames frames] at same
    cases begun with
    | @delivered t v delivery worked more due =>
      cases due
      refine .inl ⟨v,?_,?_⟩
      · rw [← same,← Aside.frames_eq worked]
      · rw [← Aside.stack_eq worked]
    | @entered t g worked base method due =>
      have stack := Aside.stack_eq worked
      refine .inr ⟨g,?_,stack,by rw [base,stack],method,due⟩
      rw [← same,← Aside.frames_eq worked]

/-- The run from an instruction to the first state with no more than so many activations. -/
inductive Completes (p : Program) (home : ModuleId) (bound depth : Nat) : State → State → Prop where
  | here {s s' : State} : (step p home bound).run s = (.ok none,s') → s'.frames.length ≤ depth →
      Completes p home bound depth s s'
  | later {s t s' : State} : (step p home bound).run s = (.ok none,t) → depth < t.frames.length →
      Completes p home bound depth t s' → Completes p home bound depth s s'

/-- That run, where it takes at most so many instructions. -/
def completion? (p : Program) (home : ModuleId) (bound depth : Nat) : Nat → State → Option State
  | 0, _ => none
  | n + 1, s =>
    match (step p home bound).run s with
    | (.ok none,t) => if t.frames.length ≤ depth then some t else completion? p home bound depth n t
    | _ => none

theorem Completes.of_completion? {depth : Nat} (found : completion? p home bound depth n s = some s') :
    Completes p home bound depth s s' := by
  induction n generalizing s with
  | zero => cases found
  | succ n ih =>
    rw [completion?] at found
    split at found
    · next t ran =>
      split at found
      · next low =>
        cases found
        exact .here ran low
      · next deeper => exact .later ran (Nat.lt_of_not_le deeper) (ih found)
    · cases found

theorem Held.completes (held : Held f rest below s)
    (base : f.base = below.length) (completes : Completes p home bound rest.length s s') :
    ∃ v, s'.frames = rest ∧ s'.stack = (if rest = [] then [] else dues p f.method v f.delivery) ++ below := by
  induction completes with
  | @here s s' ran low =>
    refine (held.stepped base (ran ▸ step_stepped bound s)).resolve_left fun held => ?_
    obtain ⟨inner,n,frames,-⟩ := held.frames
    rw [frames,length_append,length_cons] at low
    omega
  | @later s t s' ran deeper _ ih =>
    refine (held.stepped base (ran ▸ step_stepped bound s)).elim ih ?_
    rintro ⟨v,frames,-⟩
    rw [frames] at deeper
    omega

/-- Activations do not disturb the operands of others: from its entry on, an activation and all that it calls leave the
    stack at or above its base, with the operands below as they were. A call that completes has taken its arguments, and
    the receiver of a method that has one, and has pushed one value if and only if the method that it invoked returns
    one. -/
theorem stack_isolated (p : Program) (home : ModuleId) (bound : Nat) :
    (∀ s e, Enters p home bound s e → ∃ f rest, e.frames = f :: rest ∧ f.base = e.stack.length ∧
      ∀ s', Inside p home bound e s' → f.base ≤ s'.stack.length ∧ s'.stack.drop (s'.stack.length - f.base) = e.stack) ∧
    (∀ s s' f rest i, s.frames = f :: rest → (codeOf p f.method)[f.next]? = some i →
      (p.instructionAt i).opcode = .call ∨ (p.instructionAt i).opcode = .callVirtual →
      Completes p home bound s.frames.length s s' → ∃ target invoked this args below v,
        Invokes p home bound f (p.instructionAt i) s.advance target invoked this args ∧
        s.stack = taken p target this args ++ below ∧
        s'.stack = (if (p.methodAt invoked).returns.isVoid p then [] else [v]) ++ below ∧
        s'.frames = { f with next := f.next + 1 } :: rest) := by
  constructor
  · intro s e enters
    obtain ⟨f,rest,frames,base⟩ := enters.entry
    refine ⟨f,rest,frames,base,fun s' inside => ?_⟩
    obtain ⟨above,operands⟩ := (inside.held frames base).stack
    rw [← operands,List.length_append,base,Nat.add_sub_cancel,List.drop_left]
    exact ⟨Nat.le_add_left _ _,rfl⟩
  · intro s s' f rest i frames here calls completes
    have depth : s.frames.length = ({ f with next := f.next + 1 } :: rest).length := by rw [frames]; rfl
    rw [depth] at completes
    cases completes with
    | here ran low =>
      obtain ⟨target,invoked,this,args,below,invokes,stack,ended | entered⟩ := call_stepped frames here calls ran
      · obtain ⟨v,frames,due⟩ := ended
        exact ⟨target,invoked,this,args,below,v,invokes,stack,due,frames⟩
      · obtain ⟨g,frames,-⟩ := entered
        rw [frames] at low
        exact absurd low (Nat.not_succ_le_self _)
    | later ran deeper completes =>
      obtain ⟨target,invoked,this,args,below,invokes,stack,ended | entered⟩ := call_stepped frames here calls ran
      · obtain ⟨v,frames,-⟩ := ended
        rw [frames] at deeper
        exact absurd deeper (Nat.lt_irrefl _)
      · obtain ⟨g,frames,rfl,base,rfl,due⟩ := entered
        have held : Held g _ _ _ := ⟨⟨[],g.next,frames,nofun⟩,List.suffix_refl _⟩
        obtain ⟨v,frames,operands⟩ := held.completes base completes
        rw [if_neg (List.cons_ne_nil _ _),due] at operands
        exact ⟨target,g.method,this,args,_,v,invokes,stack,operands,frames⟩

/-- A virtual call of a method whose override leaves operands behind, with an operand of the caller below. -/
def kennel : Document :=
  { moduleName := "Kennel"
    types :=
      [some { name := "Animal"
              methods :=
                [{ name := ".ctor", body := ["ret"] },
                 { name := "Feed", flags := ["virtual"], returns := "System.Int32"
                   params := [{ name := "amount", type := "System.Int32" }], body := ["ldarg 1","ret"] }] },
       some { name := "Dog", base := "Animal"
              methods :=
                [{ name := ".ctor", body := ["ret"] },
                 { name := "Feed", flags := ["virtual"], returns := "System.Int32"
                   params := [{ name := "amount", type := "System.Int32" }]
                   body := ["ldnull","ldarg 1","dup","add","ret"] }] },
       some { name := "Main"
              methods :=
                [.static "Run" "System.Int32"
                   ["ldc.i4 5","newobj System.Void Dog::.ctor()","ldc.i4 7",
                    "callvirt System.Int32 Animal::Feed(System.Int32)","add","ret"]] }] }

/-- The next step enters a virtual call, which pushes above the operand of its caller and leaves its value there. -/
def entersKennel (home : ModuleId) (p : Program) (s : State) : Bool :=
  match (step p home 9).run s, s.frames, completion? p home 9 1 9 s with
  | (.ok none,e), [f], some s' =>
    decide (s.stack = [.int 7,.object ⟨0⟩,.int 5]) && decide (((after p home 9)^[4] e).stack = [.int 14,.null,.int 5]) &&
      decide (s'.stack = [.int 14,.int 5]) && decide (1 < e.frames.length) && decide (e.stack.length = 1) &&
      (List.range 5).all (fun k => e.frames.length ≤ ((after p home 9)^[k] e).frames.length) &&
      match (codeOf p f.method)[f.next]? with
      | some i => decide ((p.instructionAt i).opcode = .callVirtual)
      | none => false
  | _, _, _ => false

/-- The caller's operand stays below what the override pushes, and the call leaves the override's value on top of it. -/
theorem stack_isolated_kennel : ∃ home p s e u s' f i, kennel.link Program.core [CoreLibrary.home] = .ok (home,p) ∧
    s.stack = [.int 7,.object ⟨0⟩,.int 5] ∧ s.frames = [f] ∧ (codeOf p f.method)[f.next]? = some i ∧
    (p.instructionAt i).opcode = .callVirtual ∧ Enters p home 9 s e ∧ Inside p home 9 e u ∧
    u.stack = [.int 14,.null,.int 5] ∧ u.stack.drop 2 = e.stack ∧ Completes p home 9 1 s s' ∧ s'.stack = [.int 14,.int 5] ∧
    ∃ target invoked this args below v, Invokes p home 9 f (p.instructionAt i) s.advance target invoked this args ∧
      s.stack = taken p target this args ++ below ∧
      s'.stack = (if (p.methodAt invoked).returns.isVoid p then [] else [v]) ++ below := by
  -- The call is the fifth step of the first method of the last type.
  obtain ⟨home,p,linked,evaluated⟩ := kennel.link_passes (f := fun home p => entersKennel home p
    ((after p home 9)^[4] ((begin p 9 ⟨⟨p.types.size - 1⟩,0⟩ {} .null [] .result).run {}).2)) (by decide +kernel)
  obtain ⟨s,evaluated⟩ : ∃ s, entersKennel home p s = true := ⟨_,evaluated⟩
  unfold entersKennel at evaluated
  split at evaluated
  · next _ _ _ e f s' ran frames completed =>
    simp only [Bool.and_eq_true,decide_eq_true_eq,List.all_eq_true,List.mem_range] at evaluated
    obtain ⟨⟨⟨⟨⟨⟨before,during⟩,later⟩,deeper⟩,height⟩,deep⟩,evaluated⟩ := evaluated
    split at evaluated
    · next i here =>
      have virtual := of_decide_eq_true evaluated
      have enters : Enters p home 9 s e := .step ran (by rw [frames]; exact deeper)
      have inside := Inside.iterate 4 deep
      have completes := Completes.of_completion? completed
      obtain ⟨operands,calls⟩ := stack_isolated p home 9
      obtain ⟨_,_,-,base,kept⟩ := operands _ e enters
      obtain ⟨target,invoked,this,args,below,v,invokes,stack,stack',-⟩ :=
        calls _ s' f [] i frames here (.inr virtual) (by rw [frames]; exact completes)
      refine ⟨home,p,_,e,_,s',f,i,linked,before,frames,here,virtual,enters,inside,during,?_,completes,
        later,target,invoked,this,args,below,v,invokes,stack,stack'⟩
      have kept := (kept _ inside).2
      rw [base,height,during] at kept
      rw [during]
      exact kept
    · cases evaluated
  · cases evaluated

end Loom.Machine
