import Loom.Proofs.Linking
import Loom.Proofs.Activations
import Loom.Workbench

/-!
A machine that has been used answers as a new one. Between requests the machine holds no activation and no operand, and
what it remembers of look-ups is what they would give again; so a call on it runs in lockstep with the same call on a new
machine.
-/
namespace Loom.Machine

open Runs List
open Relation (ReflTransGen)
open Heap Run

variable {p : Program} {home : ModuleId} {bound : Nat} {old : Heap}
variable {s : State}

/-- What a machine can be asked for. -/
inductive Request where
  | call (type method : String) (args : List Value)
  | create (type : TypeRef) (args : List Value)
  | callMethod (this : Value) (method : String) (args : List Value)

def Request.run (bound : Nat) (p : Program) (home : ModuleId) : Request → Run Value
  | .call type method args => Machine.call bound p home type method args
  | .create type args => Machine.create bound p home type args
  | .callMethod this method args => Machine.callMethod bound p home this method args

/-- A request takes the machine from one state to another, whatever its outcome. -/
def Serves (bound : Nat) (p : Program) (home : ModuleId) (s t : State) : Prop :=
  ∃ r : Request, t = ((r.run bound p home).run s).2

/-- A machine between requests. -/
structure Idle (p : Program) (home : ModuleId) (s : State) : Prop where
  frames : s.frames = []
  stack : s.stack = []
  sound : Sound p home s

theorem Aside.sound {t : State} (made : ReflTransGen (Aside p home) s t) (sound : Sound p home s) : Sound p home t := by
  induction made with
  | refl => exact sound
  | tail _ last ih =>
    cases last with
    | heap h => exact ⟨ih.labels,ih.types⟩
    | labels m => exact ih.remember_labels m
    | types name => exact ih.remember_type name

theorem Edit.sound {t : State} (made : ReflTransGen (Edit p home) s t) (sound : Sound p home s) : Sound p home t := by
  induction made with
  | refl => exact sound
  | tail _ last ih =>
    cases last with
    | aside last => exact Aside.sound (.single last) ih
    | push v => exact ⟨ih.labels,ih.types⟩
    | pop _ _ => exact ⟨ih.labels,ih.types⟩
    | next n => exact ⟨ih.labels,ih.types⟩

theorem Stepped.sound {out : Except Stop (Option Value) × State} (stepped : Stepped p home s out)
    (sound : Sound p home s) : Sound p home out.2 := by
  cases stepped with
  | worked _ made => exact Edit.sound made sound
  | entered made _ =>
    have kept := Edit.sound made sound
    exact ⟨kept.labels,kept.types⟩
  | left _ _ made _ =>
    have kept := Edit.sound made sound
    exact ⟨kept.labels,kept.types⟩

theorem Sound.steps (sound : Sound p home s) (n : Nat) : Sound p home ((Machine.steps p home bound n).run s).2 := by
  induction n generalizing s with
  | zero => exact sound
  | succ n ih =>
    refine after_bind (I := Sound p home) ((step_stepped bound s).sound sound) fun r t _ sound => ?_
    cases r with
    | none => exact ih sound
    | some v => exact sound

theorem complete_run (start : Run (Option Value)) (s : State) :
    (complete p home bound start).run s = (((runOut p home bound start).run s).1,
      { ((runOut p home bound start).run s).2 with frames := [], stack := [] }) := by
  rw [complete,run_bind_eq,map_eq_pure_bind,run_tryCatch_eq,run_bind_eq]
  rcases (runOut p home bound start).run s with ⟨e | a,t⟩ <;> rfl

theorem Idle.complete {start : Run (Option Value)} (sound : Sound p home (start.run s).2) :
    Idle p home ((complete p home bound start).run s).2 := by
  rw [complete_run]
  have kept : Sound p home ((runOut p home bound start).run s).2 :=
    after_bind (I := Sound p home) sound fun r t _ sound => by
      cases r with
      | none => exact sound.steps bound
      | some v => exact sound
  exact ⟨rfl,rfl,kept.labels,kept.types⟩

theorem Idle.aside {t : State} (idle : Idle p home s) (made : ReflTransGen (Aside p home) s t) : Idle p home t :=
  ⟨(Aside.frames_eq made).trans idle.frames,(Aside.stack_eq made).trans idle.stack,Aside.sound made idle.sound⟩

theorem Idle.begin (idle : Idle p home s) (m : MethodId) (c : Context) (this : Value) (args : List Value) :
    Idle p home ((Machine.complete p home bound (Machine.begin p bound m c this args .result)).run s).2 :=
  .complete ((Stepped.begun .refl (begin_begun bound m c this args .result s)).sound idle.sound)

/-- Whatever the machine is asked for, and whatever comes of it, it is idle again. -/
theorem Idle.serves {t : State} (idle : Idle p home s) (serves : Serves bound p home s t) : Idle p home t := by
  obtain ⟨r,rfl⟩ := serves
  cases r with
  | call type method args =>
    rw [Request.run,Machine.call]
    cases p.findType? home type with
    | none => exact idle
    | some t =>
      simp only
      cases findByArity? p t method args.length true with
      | none => exact idle
      | some m => exact idle.begin m {} .null args
  | create type args =>
    rw [Request.run,Machine.create]
    cases type.element? with
    | none => exact idle
    | some t =>
      simp only
      cases findByArity? p t ".ctor" args.length false with
      | none => exact idle
      | some m => exact .complete ((Stepped.begun .refl (construct_begun bound t _ m args s)).sound idle.sound)
  | callMethod this method args =>
    refine after_bind (I := Idle p home) idle fun h t _ idle => ?_
    dsimp only
    split
    · exact idle
    · refine after_bind (I := Idle p home) (idle.aside ((Shadows.searchType _ bound _).aside t)) fun found u _ idle => ?_
      cases found with
      | none => exact idle
      | some found => exact idle.begin found.1 _ this args

namespace Shadows

theorem complete {start start' : Run (Option Value)}
    (begins : Shadows .anything p home old (Option.map old.rename) start start') :
    Shadows .anything p home old old.rename (Machine.complete p home bound start) (Machine.complete p home bound start') :=
  ⟨.anything,fun s t alike => by
    have runs : Shadows .anything p home old old.rename (runOut p home bound start) (runOut p home bound start') :=
      begins.bind fun r => by
        cases r with
        | none => exact steps bound
        | some v => exact pure _ v
    obtain ⟨same,alike⟩ := runs.2 s t alike
    rw [complete_run,complete_run]
    exact ⟨same,(alike.setFrames []).setStack []⟩⟩

theorem call (type method : String) (args : List Value) :
    Shadows .anything p home old old.rename (Machine.call bound p home type method args)
      (Machine.call bound p home type method (args.map old.rename)) := by
  rw [Machine.call,Machine.call,length_map]
  cases p.findType? home type with
  | none => exact throw _
  | some t =>
    simp only
    cases findByArity? p t method args.length true with
    | none => exact throw _
    | some m => exact complete (begin m {} .null args .result)

end Shadows

/-- A value that refers to nothing in the store. -/
def Value.isPlain : Value → Bool
  | .null | .int _ | .bool _ | .text _ => true
  | _ => false

theorem Heap.rename_of_isPlain {v : Value} (plain : v.isPlain = true) : old.rename v = v := by
  cases v <;> first | rfl | cases plain

/-- A used machine is like a new one with its store put behind what is there already. -/
theorem Idle.alike (idle : Idle p home s) : Alike p home s.heap {} s where
  heap := extend_empty.symm
  stack := idle.stack
  frames := idle.frames
  left := ⟨nofun,nofun⟩
  right := idle.sound

/-- Calls with plain arguments have the outcome that they have on a new machine. -/
def AsNew (bound : Nat) (p : Program) (home : ModuleId) (s : State) : Prop :=
  ∀ (type method : String) {args : List Value}, (∀ v ∈ args, v.isPlain = true) →
    ((call bound p home type method args).run s).1 =
        ((call bound p home type method args).run {}).1.map s.heap.rename ∧
      ((call bound p home type method args).run s).2.heap =
        s.heap.extend ((call bound p home type method args).run {}).2.heap ∧
      Function.Injective s.heap.rename

theorem Idle.new : Idle p home {} := ⟨rfl,rfl,nofun,nofun⟩

theorem Idle.asNew (idle : Idle p home s) : AsNew bound p home s := by
  intro type method args plain
  have same : args.map s.heap.rename = args :=
    (map_congr_left fun v member => rename_of_isPlain (plain v member)).trans (map_id args)
  obtain ⟨outcome,alike⟩ := (Shadows.call type method args).2 {} s idle.alike
  rw [same] at outcome alike
  exact ⟨outcome,alike.heap,fun a b same => rename_inj.mp same⟩

/-- A call with plain arguments on a machine that has been used has the outcome that it has on a new machine: the same
    fault with the same trace, or the same value, in the same store, up to the names of what is in it. -/
theorem call_used_machine {s : State} (used : ReflTransGen (Serves bound p home) {} s) (type method : String)
    {args : List Value} (plain : ∀ v ∈ args, v.isPlain = true) : ((call bound p home type method args).run s).1 =
        ((call bound p home type method args).run {}).1.map s.heap.rename ∧
      ((call bound p home type method args).run s).2.heap =
        s.heap.extend ((call bound p home type method args).run {}).2.heap ∧
      Function.Injective s.heap.rename := by
  have idle : Idle p home s := by
    induction used with
    | refl => exact .new
    | tail _ serves ih => exact ih.serves serves
  exact idle.asNew type method plain

/-- A factory, and a method that calls another one which takes more operands than it has. -/
def factory : Document :=
  { moduleName := "Factory"
    types :=
      [some { name := "Part", methods := [{ name := ".ctor", body := ["ret"] }] },
       some { name := "Main"
              methods :=
                [{ name := "Make", flags := ["static"], returns := "Part"
                   params := [{ name := "size", type := "System.Int32" }]
                   body := ["newobj System.Void Part::.ctor()","ret"] },
                 { name := "Take", flags := ["static"], body := ["pop","ret"] },
                 { name := "Break", flags := ["static"]
                   body := ["newobj System.Void Part::.ctor()","call System.Void Main::Take()","ret"] }] }] }

/-- After a part was made and a call has failed two activations deep, the next part is the third one in the store. -/
theorem call_used_machine_factory : ∃ home p s, factory.link Program.core [CoreLibrary.home] = .ok (home,p) ∧
    ReflTransGen (Serves 9 p home) {} s ∧ s.heap.objects.size = 2 ∧
    ((call 9 p home "Main" "Make" [.int 7]).run {}).1 = .ok (.object ⟨0⟩) ∧
    ((call 9 p home "Main" "Make" [.int 7]).run s).1 = .ok (.object ⟨2⟩) ∧
    ((call 9 p home "Main" "Make" [.int 7]).run s).2.heap.objects.size = 3 := by
  obtain ⟨home,p,linked,evaluated⟩ := factory.link_passes (f := fun home p =>
    let s := ((call 9 p home "Main" "Break" []).run ((call 9 p home "Main" "Make" [.int 7]).run {}).2).2
    Runs.passes ((call 9 p home "Main" "Make" [.int 7]).run {}) fun v t =>
      decide (s.heap.objects.size = 2) && decide (v = .object ⟨0⟩) && decide (t.heap.objects.size = 1)) (by decide +kernel)
  obtain ⟨v,t,made,evaluated⟩ := Runs.exists_of_passes evaluated
  simp only [Bool.and_eq_true,decide_eq_true_eq] at evaluated
  obtain ⟨⟨size,rfl⟩,one⟩ := evaluated
  have used : ReflTransGen (Serves 9 p home) {} _ :=
    .tail (.single ⟨.call "Main" "Make" [.int 7],rfl⟩) ⟨.call "Main" "Break" [],rfl⟩
  have plain : ∀ v ∈ [Value.int 7], v.isPlain = true := by decide
  obtain ⟨outcome,store,-⟩ := call_used_machine used "Main" "Make" plain
  rw [made] at outcome store
  refine ⟨home,p,_,linked,used,size,by rw [made],outcome.trans ?_,?_⟩
  · exact congrArg (fun n => Except.ok (Value.object ⟨n⟩)) size
  · rw [store,extend,Array.size_append,Array.size_map,one]
    exact congrArg (· + 1) size

/-- A machine serves a request, or the program is edited and keeps the bodies in which the machine has taken a branch and
    what is found under the names that it has looked up. -/
inductive Uses (bound : Nat) (home : ModuleId) : Program × State → Program × State → Prop
  | serves {p s t} (served : Serves bound p home s t) : Uses bound home (p,s) (p,t)
  | edits {p q s} (labels : ∀ e ∈ s.labels, codeOf q e.1 = codeOf p e.1)
      (types : ∀ e ∈ s.types, q.findType? home e.1 = p.findType? home e.1) : Uses bound home (p,s) (q,s)

/-- Branches follow edited bodies as long as no body is edited in which the machine has taken a branch before: calls have
    the outcome that they have on a machine that is new after the edits. -/
theorem call_edited_program {q : Program} {s : State} (used : ReflTransGen (Uses bound home) (p,{}) (q,s)) :
    AsNew bound q home s := by
  suffices idle : ∀ c, ReflTransGen (Uses bound home) (p,{}) c → Idle c.1 home c.2 from (idle _ used).asNew
  intro c used
  induction used with
  | refl => exact .new
  | tail _ last ih =>
    cases last with
    | serves served => exact ih.serves served
    | edits labels types =>
      refine ⟨ih.frames,ih.stack,fun m code known => ?_,fun name found known => ?_⟩
      · rw [ih.sound.labels m code known,labels _ (mem_of_lookup known)]
      · rw [ih.sound.types name found known,types _ (mem_of_lookup known)]

/-- A method that jumps to a call which is moved to a clone. -/
def corridor : Document :=
  { moduleName := "Corridor"
    types :=
      [some { name := "G", generics := ["T"], attributes := [.generate "System.Int32"]
              methods := [.static "One" "System.Int32" ["ldc.i4 1","ret"]] },
       some { name := "Main", attributes := [.inject]
              methods :=
                [.static "Run" "System.Int32"
                   ["br end",".label end","call System.Int32 G<System.Int32>::One()","ret"]] }] }

theorem call_edited_program_corridor : ∃ home p q s, corridor.link Program.core [CoreLibrary.home] = .ok (home,p) ∧
    ReflTransGen (Uses 9 home) (p,{}) (q,s) ∧ s.labels ≠ [] ∧ p.types.size < q.types.size ∧
    ((call 9 q home "Main" "Run" []).run s).1 = .ok (.int 1) := by
  obtain ⟨home,p,linked,evaluated⟩ := corridor.link_passes (f := fun home p =>
    let w : Workbench := { program := p, home }
    let s := ((call 9 p home "Main" "Run" []).run {}).2
    Except.passes w.specialize.result fun view =>
      let q := (w.specialize.bench.inject view none).bench.program
      decide (∀ e ∈ s.labels, codeOf q e.1 = codeOf p e.1) && decide (s.labels ≠ []) &&
        decide (∀ e ∈ s.types, q.findType? home e.1 = p.findType? home e.1) && decide (p.types.size < q.types.size) &&
        Except.passes ((call 9 q home "Main" "Run" []).run {}).1 fun v => decide (v = .int 1)) (by decide +kernel)
  obtain ⟨view,-,evaluated⟩ := Except.exists_of_passes evaluated
  simp only [Bool.and_eq_true,decide_eq_true_eq] at evaluated
  obtain ⟨⟨⟨⟨labels,taken⟩,types⟩,more⟩,evaluated⟩ := evaluated
  obtain ⟨v,one,same⟩ := Except.exists_of_passes evaluated
  have used : ReflTransGen (Uses 9 home) (p,{}) _ :=
    .tail (.single (.serves ⟨.call "Main" "Run" [],rfl⟩)) (.edits labels types)
  refine ⟨home,p,_,_,linked,used,taken,more,?_⟩
  rw [(call_edited_program used "Main" "Run" (List.forall_mem_nil _)).1,one,of_decide_eq_true same]
  rfl

end Loom.Machine
