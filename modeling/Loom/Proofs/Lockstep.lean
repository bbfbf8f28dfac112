import Loom.Proofs.Primitives
import Loom.Proofs.Relocation

/-!
Two machines in lockstep. One has nothing in its store at the start; the other goes through the same run with a store
that holds something already. Instruction by instruction they do the same, up to the names of what is in the stores, and
they stop with the same fault and the same trace.
-/
namespace Loom.Machine

open List Heap Run
open Relation (ReflTransGen)
open Machine (allocate begin construct deliver dispatch finish labelsOf perform result step steps checkDepth enterFrame leaveFrame searchType zeroLocals)

variable {α β γ δ : Type} {p : Program} {home : ModuleId} {old : Heap} {bound : Nat}

/-! ### Names in states -/

def Delivery.rename (old : Heap) : Delivery → Delivery
  | .result => .result
  | .object v => .object (old.rename v)

def Frame.rename (old : Heap) (f : Frame) : Frame :=
  { f with args := f.args.map old.slotId, locals := f.locals.map old.slotId, delivery := f.delivery.rename old }

def Effect.rename (old : Heap) : Effect → Effect
  | .invoke m c this args => .invoke m c (old.rename this) (args.map old.rename)
  | .construct t typeArgs m args => .construct t typeArgs m (args.map old.rename)
  | e => e

def Site.rename (old : Heap) (s : Site) : Site := { s with frame := s.frame.rename old }

structure Sound (p : Program) (home : ModuleId) (s : State) : Prop where
  labels : ∀ m code, s.labels.lookup m = some code → code = codeOf p m
  types : ∀ name found, s.types.lookup name = some found → found = p.findType? home name

namespace Sound

variable {s : State}

section

variable (sound : Sound p home s)
include sound

theorem remember_type (name : String) :
    Sound p home { s with types := (name,p.findType? home name) :: s.types } := by
  refine ⟨sound.labels,fun other found known => ?_⟩
  rw [lookup_cons] at known
  split at known
  · next same =>
    cases known
    rw [eq_of_beq same]
  · exact sound.types other found known

theorem remember_labels (m : MethodId) :
    Sound p home { s with labels := (m,codeOf p m) :: s.labels } := by
  refine ⟨fun other code known => ?_,sound.types⟩
  rw [lookup_cons] at known
  split at known
  · next same =>
    cases known
    rw [eq_of_beq same]
  · exact sound.labels other code known

theorem typeNamed (name : String) : ∃ types,
    (Machine.typeNamed p home name).run s = (.ok (p.findType? home name),{ s with types }) ∧
      Sound p home { s with types } := by
  cases known : s.types.lookup name with
  | some found =>
    cases sound.types name found known
    exact ⟨s.types,typeNamed_run_known known,sound⟩
  | none => exact ⟨_,typeNamed_run_new known,sound.remember_type name⟩

theorem labelsOf (m : MethodId) : ∃ labels,
    (labelsOf p m).run s = (.ok (codeOf p m),{ s with labels }) ∧ Sound p home { s with labels } := by
  cases known : s.labels.lookup m with
  | some code =>
    cases sound.labels m code known
    exact ⟨s.labels,labelsOf_run_known known,sound⟩
  | none => exact ⟨_,labelsOf_run_new known,sound.remember_labels m⟩

end

end Sound

/-- The second state is the first one with its store put behind another store. -/
structure Alike (p : Program) (home : ModuleId) (old : Heap) (s t : State) : Prop where
  heap : t.heap = old.extend s.heap
  stack : t.stack = s.stack.map old.rename
  frames : t.frames = s.frames.map (Frame.rename old)
  left : Sound p home s
  right : Sound p home t

namespace Alike

variable {s t : State}

section

variable (alike : Alike p home old s t)
include alike

theorem base : t.base = s.base := by
  rw [State.base,State.base,alike.frames]
  cases s.frames <;> rfl

theorem height : t.stack.length = s.stack.length := by rw [alike.stack,length_map]

theorem trace : t.frames.map (Frame.line p) = s.frames.map (Frame.line p) := by
  rw [alike.frames,map_map]
  rfl

theorem head : t.frames.head?.getD default = (s.frames.head?.getD default).rename old := by
  rw [alike.frames]
  cases s.frames <;> rfl

theorem setStack (vs : List Value) : Alike p home old { s with stack := vs } { t with stack := vs.map old.rename } :=
  ⟨alike.heap,rfl,alike.frames,⟨alike.left.labels,alike.left.types⟩,⟨alike.right.labels,alike.right.types⟩⟩

theorem setFrames (fs : List Frame) :
    Alike p home old { s with frames := fs } { t with frames := fs.map (Frame.rename old) } :=
  ⟨alike.heap,alike.stack,rfl,⟨alike.left.labels,alike.left.types⟩,⟨alike.right.labels,alike.right.types⟩⟩

theorem setHeap (h : Heap) : Alike p home old { s with heap := h } { t with heap := old.extend h } :=
  ⟨rfl,alike.stack,alike.frames,⟨alike.left.labels,alike.left.types⟩,⟨alike.right.labels,alike.right.types⟩⟩

theorem next (at' : Nat → Nat) : Alike p home old
    { s with frames := s.frames.modifyHead fun f => { f with next := at' f.next } }
    { t with frames := t.frames.modifyHead fun f => { f with next := at' f.next } } := by
  have same : t.frames.modifyHead (fun f => { f with next := at' f.next }) =
      (s.frames.modifyHead fun f => { f with next := at' f.next }).map (Frame.rename old) := by
    rw [alike.frames]
    cases s.frames <;> rfl
  rw [same]
  exact alike.setFrames _

end

end Alike

/-! ### Runs in lockstep -/

/-- From states that are alike both runs end alike: with one fault, or with values of which the second is the image of
    the first. -/
def Follows (p : Program) (home : ModuleId) (old : Heap) (f : α → β) (x : Run α) (y : Run β) : Prop :=
  ∀ s t, Alike p home old s t → (y.run t).1 = (x.run s).1.map f ∧ Alike p home old (x.run s).2 (y.run t).2

/-- How much of the state a run may edit. -/
inductive Reach where
  | aside
  | edit
  | anything

def Reach.Step (p : Program) (home : ModuleId) : Reach → State → State → Prop
  | .aside => Aside p home
  | .edit => Edit p home
  | .anything => fun _ _ => True

theorem Reach.of_aside (E : Reach) {s s' : State} (made : ReflTransGen (Aside p home) s s') :
    ReflTransGen (E.Step p home) s s' := by
  refine ReflTransGen.mono (fun _ _ step => ?_) _ _ made
  cases E with
  | aside => exact step
  | edit => exact .aside step
  | anything => trivial

theorem Makes.anything {x : Run α} : Makes (Reach.anything.Step p home) x := fun _ => .single trivial

/-- The second run follows the first, which makes only edits within its reach. -/
def Shadows (E : Reach) (p : Program) (home : ModuleId) (old : Heap) (f : α → β) (x : Run α) (y : Run β) : Prop :=
  Makes (E.Step p home) x ∧ Follows p home old f x y

namespace Shadows

variable {E : Reach}

theorem aside {f : α → β} {x : Run α} {y : Run β} (shadows : Shadows .aside p home {} f x y) : Makes (Aside p home) x :=
  shadows.1

theorem edits {f : α → β} {x : Run α} {y : Run β} (shadows : Shadows .edit p home {} f x y) : Makes (Edit p home) x :=
  shadows.1

theorem anything {f : α → β} {x : Run α} {y : Run β} (shadows : Shadows E p home old f x y) :
    Shadows .anything p home old f x y := ⟨.anything,shadows.2⟩

theorem bind {f : α → β} {g : γ → δ} {x : Run α} {y : Run β} {k : α → Run γ} {l : β → Run δ}
    (first : Shadows E p home old f x y) (later : ∀ a, Shadows E p home old g (k a) (l (f a))) :
    Shadows E p home old g (x >>= k) (y >>= l) := by
  refine ⟨first.1.bind fun a => (later a).1,fun s t alike => ?_⟩
  obtain ⟨same,alike⟩ := first.2 s t alike
  rw [Runs.run_bind_eq,Runs.run_bind_eq]
  revert same alike
  rcases x.run s with ⟨r,s'⟩
  rcases y.run t with ⟨r',t'⟩
  rintro (rfl : r' = r.map f) alike
  cases r with
  | error e => exact ⟨rfl,alike⟩
  | ok a => exact (later a).2 s' t' alike

theorem pure (f : α → β) (a : α) : Shadows E p home old f (Pure.pure a) (Pure.pure (f a)) :=
  ⟨.of_keeps fun _ => rfl,fun _ _ alike => ⟨rfl,alike⟩⟩

theorem throw {f : α → β} (e : Stop) : Shadows E p home old f (throw e) (throw e) :=
  ⟨.of_keeps fun _ => rfl,fun _ _ alike => ⟨rfl,alike⟩⟩

theorem raise {f : α → β} (fault : Fault) : Shadows E p home old f (raise p fault) (raise p fault) :=
  ⟨.of_keeps fun _ => rfl,fun _ _ alike =>
    ⟨congrArg (fun trace => Except.error (Stop.fault fault (some trace))) alike.trace,alike⟩⟩

theorem orRaise (f : α → β) (fault : Fault) (o : Option α) :
    Shadows E p home old f (orRaise p fault o) (orRaise p fault (o.map f)) := by
  cases o with
  | none => exact raise fault
  | some a => exact pure f a

theorem orUnbounded (f : α → β) (o : Option α) : Shadows E p home old f (orUnbounded o) (orUnbounded (o.map f)) := by
  cases o with
  | none => exact throw _
  | some a => exact pure f a

theorem orRaise_id (fault : Fault) (o : Option α) : Shadows E p home old id (Run.orRaise p fault o) (Run.orRaise p fault o) := by
  have same : Shadows E p home old id _ _ := orRaise id fault o
  rwa [Option.map_id] at same

theorem orUnbounded_id (o : Option α) : Shadows E p home old id (Run.orUnbounded o) (Run.orUnbounded o) := by
  have same : Shadows E p home old id _ _ := orUnbounded id o
  rwa [Option.map_id] at same

theorem ite {c : Prop} [Decidable c] {f : α → β} {x x' : Run α} {y y' : Run β} (yes : Shadows E p home old f x y)
    (no : Shadows E p home old f x' y') : Shadows E p home old f (if c then x else x') (if c then y else y') := by
  split
  · exact yes
  · exact no

theorem get {g : γ → δ} {k : State → Run γ} {l : State → Run δ} (makes : Makes (E.Step p home) (MonadState.get >>= k))
    (later : ∀ s t, Alike p home old s t → Shadows .anything p home old g (k s) (l t)) :
    Shadows E p home old g (MonadState.get >>= k) (MonadState.get >>= l) :=
  ⟨makes,fun s t alike => (later s t alike).2 s t alike⟩

theorem heap : Shadows E p home old old.extend Run.heap Run.heap :=
  ⟨.of_keeps fun _ => rfl,fun _ _ alike => ⟨congrArg Except.ok alike.heap,alike⟩⟩

theorem setHeap (h : Heap) : Shadows E p home old id (Run.setHeap h) (Run.setHeap (old.extend h)) :=
  ⟨fun s => E.of_aside (.single (.heap s h)),fun _ _ alike => ⟨rfl,alike.setHeap h⟩⟩

theorem format (v : Value) : Shadows E p home old id (Run.format p v) (Run.format p (old.rename v)) := by
  refine ⟨.of_keeps fun _ => rfl,fun s t alike => ⟨congrArg Except.ok ?_,alike⟩⟩
  show t.heap.format p (old.rename v) = s.heap.format p v
  rw [alike.heap,format_extend]

/-! ### Operands -/

theorem push (v : Value) : Shadows .edit p home old id (Run.push v) (Run.push (old.rename v)) := by
  refine ⟨fun s => .single (.push s v),fun s t alike => ⟨rfl,?_⟩⟩
  show Alike p home old { s with stack := v :: s.stack } { t with stack := old.rename v :: t.stack }
  rw [alike.stack]
  exact alike.setStack (v :: s.stack)

theorem peek : Shadows E p home old old.rename (Run.peek p) (Run.peek p) := get .peek fun s t alike => by
  rw [alike.height,alike.base,alike.stack]
  cases s.stack with
  | nil => exact raise _
  | cons v rest => exact ite (raise _) (pure old.rename v)

theorem pop : Shadows .edit p home old old.rename (Run.pop p) (Run.pop p) := by
  refine ⟨.pop,(peek.bind fun v => ?_ : Shadows .anything p home old old.rename _ _).2⟩
  refine bind (f := id) ⟨.anything,fun s t alike => ⟨rfl,?_⟩⟩ fun _ => pure old.rename v
  show Alike p home old { s with stack := s.stack.tail } { t with stack := t.stack.tail }
  rw [alike.stack,← map_tail]
  exact alike.setStack _

theorem popMany (n : Nat) : Shadows .edit p home old (map old.rename) (Run.popMany p n) (Run.popMany p n) := by
  induction n with
  | zero => exact pure _ []
  | succ n ih =>
    refine pop.bind fun last => ih.bind fun front => ?_
    rw [← map_singleton,← map_append]
    exact pure _ _

theorem pushCopy (v : Value) :
    Shadows .edit p home old id (Run.pushCopy p bound v) (Run.pushCopy p bound (old.rename v)) := heap.bind fun h => by
  rw [copyWithin_extend]
  exact (orUnbounded _ _).bind fun (v,h) => (setHeap h).bind fun _ => push v

/-! ### Types at run time -/

theorem typeNamed (name : String) :
    Shadows E p home old id (Machine.typeNamed p home name) (Machine.typeNamed p home name) := by
  refine ⟨fun s => E.of_aside (Makes.typeNamed name s),fun s t alike => ?_⟩
  obtain ⟨types,ran,left⟩ := alike.left.typeNamed name
  obtain ⟨types',ran',right⟩ := alike.right.typeNamed name
  rw [ran,ran']
  exact ⟨rfl,alike.heap,alike.stack,alike.frames,left,right⟩

theorem labelsOf (m : MethodId) : Shadows E p home old id (labelsOf p m) (labelsOf p m) := by
  refine ⟨fun s => E.of_aside (Makes.labelsOf m s),fun s t alike => ?_⟩
  obtain ⟨labels,ran,left⟩ := alike.left.labelsOf m
  obtain ⟨labels',ran',right⟩ := alike.right.labelsOf m
  rw [ran,ran']
  exact ⟨rfl,alike.heap,alike.stack,alike.frames,left,right⟩

theorem runtimeType (v : Value) :
    Shadows E p home old id (Machine.runtimeType p home v) (Machine.runtimeType p home (old.rename v)) := by
  have named : ∀ name args, Shadows E p home old id
      (do return (← Machine.typeNamed p home name).map fun t : TypeId => (t,(args : List TypeRef)))
      (do return (← Machine.typeNamed p home name).map fun t : TypeId => (t,args)) :=
    fun name _ => (typeNamed name).bind fun _ => pure id _
  cases v with
  | object o =>
    refine heap.bind fun h => ?_
    rw [objectAt_extend]
    exact pure id _
  | list l =>
    refine heap.bind fun h => ?_
    rw [listAt_extend]
    exact named _ _
  | _ => exact named _ _

theorem searchType (f : TypeId → List TypeRef → Option α) (n : Nat) (v : Value) :
    Shadows E p home old id (searchType p home f n v) (searchType p home f n (old.rename v)) :=
  (runtimeType v).bind fun found => by
    cases found with
    | none => exact pure id _
    | some found => exact orUnbounded_id _

theorem isAssignable (n : Nat) (v : Value) (t : TypeRef) :
    Shadows E p home old id (Machine.isAssignable p home n v t) (Machine.isAssignable p home n (old.rename v) t) := by
  rw [Machine.isAssignable,Machine.isAssignable]
  cases t.element? with
  | none => exact pure id _
  | some want => exact ite (pure id _) ((searchType _ n v).bind fun _ => pure id _)

/-! ### Instructions -/

section

variable {s : Site}

theorem operand (ofKind? : Operand → Option α) (i : Instruction) :
    Shadows E s.program s.home old id (s.operand ofKind? i) ((s.rename old).operand ofKind? i) := .orRaise_id _ _

theorem slot (slots : List SlotId) (i : Instruction) :
    Shadows E s.program s.home old old.slotId (s.slot slots i) ((s.rename old).slot (slots.map old.slotId) i) :=
  (operand _ i).bind fun n => by
    have same : Shadows E s.program s.home old old.slotId _ _ :=
      .orRaise old.slotId (.slotRange (s.program.instructionText i)) (if n < 0 then none else slots[n.toNat]?)
    rw [apply_ite (Option.map old.slotId),Option.map_none,← getElem?_map] at same
    exact same

theorem object (v : Value) (f : FieldRef) :
    Shadows E s.program s.home old old.objectId (s.object v f) ((s.rename old).object (old.rename v) f) :=
  heap.bind fun h => by
    rw [load_extend]
    cases h.load v with
    | null => exact .raise _
    | object o => exact .pure _ o
    | _ => exact (format v).bind fun _ => .raise _

theorem target (o : MethodOperand) : Shadows E s.program s.home old id (s.target o) ((s.rename old).target o) := .orRaise_id _ _

theorem jump (i : Instruction) : Shadows .edit s.program s.home old (Effect.rename old) (s.jump i) ((s.rename old).jump i) :=
  (labelsOf _).bind fun code => (operand _ i).bind fun target => by
    rw [id_eq,id_eq]
    cases ({ code } : Body).lastIndexOf? target with
    | none => exact .raise _
    | some place =>
      exact bind (f := id) ⟨fun st => .single (.next st place),fun _ _ alike => ⟨rfl,alike.next fun _ => place⟩⟩ fun _ =>
        .pure _ Effect.next

theorem numbers (i : Instruction) : Shadows .edit s.program s.home old id (s.numbers i) ((s.rename old).numbers i) :=
  pop.bind fun b => pop.bind fun a => by
    rw [int?_rename,int?_rename]
    split
    · exact .pure id _
    · exact (format _).bind fun _ => (format _).bind fun _ => .raise _

theorem callOn (isVirtual : Bool) (m : MethodId) (c : Context) (this : Value) (args : List Value) :
    Shadows E s.program s.home old (Effect.rename old) (s.callOn isVirtual m c this args)
      ((s.rename old).callOn isVirtual m c (old.rename this) (args.map old.rename)) := by
  refine heap.bind fun h => ?_
  simp only [load_extend,rename_eq_null]
  refine .ite (.raise _) (.ite ((searchType _ _ _).bind fun found => ?_) (.pure _ (Effect.invoke m c this args)))
  cases found with
  | none => exact (format _).bind fun _ => .raise _
  | some found => exact .pure _ (Effect.invoke found.1 _ this args)

theorem siteCall (i : Instruction) (isVirtual : Bool) :
    Shadows .edit s.program s.home old (Effect.rename old) (s.call i isVirtual) ((s.rename old).call i isVirtual) := by
  refine (operand _ i).bind fun o => (target o).bind fun (m,_,declaring) => ?_
  refine (popMany _).bind fun args => .ite (.pure _ (Effect.invoke m _ .null args)) ?_
  exact pop.bind fun this => callOn isVirtual m _ this args

theorem siteStep (i : Instruction) :
    Shadows .edit s.program s.home old (Effect.rename old) (s.step i) ((s.rename old).step i) := by
  have done : Shadows .edit s.program s.home old (Effect.rename old) (return .next) (return .next) := .pure _ Effect.next
  have pushes : ∀ v : Value, Shadows .edit s.program s.home old (Effect.rename old)
      (do Run.push v; return .next) (do Run.push (old.rename v); return .next) := fun v => (push v).bind fun _ => done
  have copies : ∀ v : Value, Shadows .edit s.program s.home old (Effect.rename old)
      (do Run.pushCopy s.program s.bound v; return .next) (do Run.pushCopy s.program s.bound (old.rename v); return .next) :=
    fun v => (pushCopy v).bind fun _ => done
  have writes : ∀ h : Heap, Shadows .edit s.program s.home old (Effect.rename old)
      (do Run.setHeap h; return .next) (do Run.setHeap (old.extend h); return .next) := fun h => (setHeap h).bind fun _ => done
  have computes : ∀ f : Int32 → Int32 → Value, (∀ x y, old.rename (f x y) = f x y) →
      Shadows .edit s.program s.home old (Effect.rename old) (do let xy ← s.numbers i; Run.push (f xy.1 xy.2); return .next)
        (do let xy ← (s.rename old).numbers i; Run.push (f xy.1 xy.2); return .next) :=
    fun f plain => (numbers i).bind fun xy => by
      have same := pushes (f xy.1 xy.2)
      rwa [plain] at same
  rw [Site.step,Site.step]
  cases i.opcode with
  | nop => exact done
  | constrained => exact done
  | loadArg =>
    refine (slot _ i).bind fun slot => heap.bind fun h => ?_
    rw [slotAt_extend]
    exact .ite (pushes _) (copies _)
  | loadArgAddress =>
    refine heap.bind fun h => (slot _ i).bind fun slot => ?_
    rw [takeAddress_extend]
    exact (setHeap _).bind fun _ => pushes _
  | storeArg =>
    refine (slot _ i).bind fun slot => pop.bind fun v => heap.bind fun h => ?_
    rw [setSlot_extend]
    exact writes _
  | loadLocal =>
    refine (slot _ i).bind fun slot => heap.bind fun h => ?_
    rw [slotAt_extend]
    exact copies _
  | loadLocalAddress =>
    refine heap.bind fun h => (slot _ i).bind fun slot => ?_
    rw [takeAddress_extend]
    exact (setHeap _).bind fun _ => pushes _
  | storeLocal =>
    refine (slot _ i).bind fun slot => pop.bind fun v => heap.bind fun h => ?_
    rw [setSlot_extend]
    exact writes _
  | loadInt => exact (operand _ i).bind fun n => pushes (.int _)
  | loadText => exact (operand _ i).bind fun t => pushes (.text t)
  | loadNull => exact pushes .null
  | loadField =>
    refine (operand _ i).bind fun f => pop.bind fun v => (object v f).bind fun o =>
      heap.bind fun h => ?_
    rw [id_eq,field?_extend]
    cases h.field? o f.name with
    | none => exact (format (.object o)).bind fun _ => .raise _
    | some v => exact copies v
  | storeField =>
    refine (operand _ i).bind fun f => pop.bind fun v => pop.bind fun this => ?_
    refine (object this f).bind fun o => heap.bind fun h => ?_
    rw [id_eq,field?_extend]
    cases h.field? o f.name with
    | none => exact (format (.object o)).bind fun _ => .raise _
    | some old' =>
      refine heap.bind fun h => ?_
      rw [setField_extend]
      exact writes _
  | call => exact siteCall i false
  | callVirtual => exact siteCall i true
  | newObject =>
    exact (operand _ i).bind fun o => (target o).bind fun found =>
      (popMany _).bind fun args => .pure _ (Effect.construct found.2.1 _ found.1 args)
  | ret => exact .pure _ Effect.ret
  | pop =>
    have dropped : Shadows .edit s.program s.home old id (discard (Run.pop s.program)) (discard (Run.pop s.program)) :=
      pop.bind fun _ => .pure id _
    exact dropped.bind fun _ => done
  | dup => exact peek.bind fun v => pushes v
  | box =>
    refine pop.bind fun v => heap.bind fun h => ?_
    rw [load_extend]
    exact copies _
  | unbox =>
    refine pop.bind fun v => heap.bind fun h => ?_
    rw [load_extend]
    exact copies _
  | initObject =>
    refine pop.bind fun v => ?_
    cases v with
    | address number slot =>
      refine (operand _ i).bind fun t => heap.bind fun h => ?_
      rw [(zero_extend _ _).1]
      refine (orUnbounded _ _).bind fun zero => ?_
      have stored := writes (zero.2.setSlot slot zero.1)
      rw [← setSlot_extend] at stored
      exact stored
    | _ => exact .raise _
  | castClass =>
    refine (operand _ i).bind fun t => peek.bind fun v => ?_
    simp only [rename_eq_null]
    refine .ite done ((isAssignable _ v _).bind fun fits => .ite done ?_)
    exact (format v).bind fun _ => .raise _
  | add => exact computes (fun x y => .int (x + y)) fun _ _ => rfl
  | sub => exact computes (fun x y => .int (x - y)) fun _ _ => rfl
  | mul => exact computes (fun x y => .int (x * y)) fun _ _ => rfl
  | equal =>
    refine pop.bind fun b => pop.bind fun a => ?_
    rw [isSame_rename]
    exact pushes (.bool _)
  | greater => exact computes (fun x y => .bool (y < x)) fun _ _ => rfl
  | less => exact computes (fun x y => .bool (x < y)) fun _ _ => rfl
  | branch => exact jump i
  | branchTrue =>
    refine pop.bind fun v => ?_
    rw [isTruthy_rename]
    exact .ite (jump i) done
  | branchFalse =>
    refine pop.bind fun v => ?_
    rw [isTruthy_rename]
    exact .ite done (jump i)
  | unknown n => exact .raise _

end

/-! ### Activations -/

theorem allocate (vs : List Value) :
    Shadows E p home old (map old.slotId) (allocate vs) (allocate (vs.map old.rename)) := by
  induction vs with
  | nil => exact pure _ []
  | cons v rest ih =>
    refine heap.bind fun h => ?_
    rw [addSlot_extend]
    exact (setHeap _).bind fun _ => ih.bind fun slots => pure _ (_ :: slots)

theorem zeroLocals (c : Context) (ts : List TypeRef) :
    Shadows E p home old (map old.rename) (zeroLocals p bound c ts) (zeroLocals p bound c ts) := by
  induction ts with
  | nil => exact pure _ []
  | cons t rest ih =>
    refine heap.bind fun h => ?_
    rw [(zero_extend _ _).1]
    exact (orUnbounded _ _).bind fun (v,h) => (setHeap h).bind fun _ => ih.bind fun vs => pure _ (v :: vs)

theorem invokeNative (m : MethodId) (c : Context) (this : Value) (args : List Value) :
    Shadows E p home old old.rename (Machine.invokeNative p bound m c this args)
      (Machine.invokeNative p bound m c (old.rename this) (args.map old.rename)) := by
  rw [Machine.invokeNative,Machine.invokeNative]
  cases Native.ofKey? (p.methodAt m).native with
  | none => exact raise _
  | some op =>
    refine heap.bind fun h => ?_
    rw [Native.run_extend]
    cases op.run p bound c h this args with
    | value v h => exact (setHeap h).bind fun _ => pure _ v
    | fault f => exact raise _
    | crash => exact raise _
    | unbounded => exact throw _

theorem checkDepth : Shadows E p home old id (checkDepth p) (checkDepth p) := by
  refine get (fun s => ?_) fun s t alike => ?_
  · rw [Runs.run_get_bind]
    split <;> exact .refl
  · rw [alike.frames,length_map]
    exact ite (raise _) (pure id _)

theorem deliver (m : MethodId) (v : Value) (delivery : Delivery) :
    Shadows .anything p home old (Option.map old.rename) (deliver p m v delivery)
      (deliver p m (old.rename v) (delivery.rename old)) := get .anything fun s t alike => by
  have last : t.frames.isEmpty = s.frames.isEmpty := by rw [alike.frames,isEmpty_map]
  rw [last]
  cases delivery with
  | object o => exact ite (pure _ (some o)) ((push o).anything.bind fun _ => pure _ none)
  | result => exact ite (pure _ (some v)) (ite (pure _ none) ((push v).anything.bind fun _ => pure _ none))

theorem enterFrame (m : MethodId) (body : Body) (c : Context) (this : Value) (args : List Value) (delivery : Delivery) :
    Shadows .anything p home old id (enterFrame p bound m body c this args delivery)
      (enterFrame p bound m body c (old.rename this) (args.map old.rename) (delivery.rename old)) :=
  get .anything fun s t alike => by
    rw [alike.height,← map_cons,← apply_ite]
    refine (allocate _).bind fun args => (zeroLocals c _).bind fun zeros => (allocate zeros).bind fun locals => ?_
    refine ⟨.anything,fun s t alike => ⟨rfl,?_⟩⟩
    show Alike p home old { s with frames := _ :: s.frames } { t with frames := _ :: t.frames }
    rw [alike.frames]
    exact alike.setFrames ({ method := m, context := c, args, locals, base := _, delivery } :: s.frames)

theorem begin (m : MethodId) (c : Context) (this : Value) (args : List Value) (delivery : Delivery) :
    Shadows .anything p home old (Option.map old.rename) (begin p bound m c this args delivery)
      (begin p bound m c (old.rename this) (args.map old.rename) (delivery.rename old)) := by
  refine checkDepth.bind fun _ => heap.bind fun h => ?_
  rw [load_extend]
  refine ite ((invokeNative m c _ args).bind fun v => deliver m v delivery) ?_
  cases (p.methodAt m).body with
  | none => exact raise _
  | some body => exact (enterFrame m body c _ args delivery).bind fun _ => pure _ none

theorem constructNatively (m : MethodId) (c : Context) (args : List Value) :
    Shadows E p home old old.rename (Machine.constructNatively p bound m c args)
      (Machine.constructNatively p bound m c (args.map old.rename)) :=
  ite (pure _ Value.null) (checkDepth.bind fun _ => invokeNative m c .null args)

theorem construct (t : TypeId) (typeArgs : List TypeRef) (ctor : MethodId) (args : List Value) :
    Shadows .anything p home old (Option.map old.rename) (construct p bound t typeArgs ctor args)
      (construct p bound t typeArgs ctor (args.map old.rename)) := by
  refine (constructNatively ctor _ args).bind fun own => ?_
  simp only [ne_eq,rename_eq_null]
  refine ite (deliver ctor own (.object own)) (heap.bind fun h => ?_)
  rw [(zero_extend _ _).2.1]
  exact (orUnbounded _ _).bind fun (v,h) => (setHeap h).bind fun _ => begin ctor _ v args (.object v)

theorem result (m : MethodId) : Shadows .edit p home old old.rename (result p m) (result p m) := by
  refine ite (pure _ Value.null) (pop.bind fun v => ?_)
  rw [isTruthy_rename]
  exact ite (pure _ (Value.bool _)) (pure _ v)

theorem leaveFrame : Shadows .anything p home old id leaveFrame leaveFrame := by
  refine ⟨.anything,fun s t alike => ?_⟩
  rw [leaveFrame_run,leaveFrame_run]
  refine ⟨rfl,?_⟩
  have frames := alike.frames
  cases inner : s.frames with
  | nil =>
    rw [inner] at frames
    rw [frames]
    exact alike
  | cons f rest =>
    rw [inner] at frames
    rw [frames]
    simp only [map_cons]
    rw [alike.height,alike.stack,← map_drop]
    exact (alike.setFrames rest).setStack _

theorem finish (f : Frame) : Shadows .anything p home old (Option.map old.rename) (finish p f) (finish p (f.rename old)) :=
  (result f.method).anything.bind fun v => leaveFrame.bind fun _ => deliver f.method v f.delivery

theorem perform (f : Frame) (effect : Effect) : Shadows .anything p home old (Option.map old.rename) (perform p bound f effect)
      (perform p bound (f.rename old) (effect.rename old)) := by
  cases effect with
  | next => exact pure _ none
  | ret => exact finish f
  | invoke m c this args => exact begin m c this args .result
  | construct t typeArgs ctor args => exact construct t typeArgs ctor args

/-! ### Runs -/

theorem step : Shadows .anything p home old (Option.map old.rename) (step p home bound) (step p home bound) :=
  get .anything fun s t alike => by
    simp only [alike.head]
    generalize s.frames.head?.getD default = f
    rw [show (f.rename old).method = f.method from rfl,show (f.rename old).next = f.next from rfl]
    cases (codeOf p f.method)[f.next]? with
    | none => exact raise _
    | some i =>
      have advances : Shadows .anything p home old id (modify State.advance) (modify State.advance) :=
        ⟨.anything,fun _ _ alike => ⟨rfl,alike.next (· + 1)⟩⟩
      exact advances.bind fun _ => (siteStep (s := ⟨p,home,f,bound⟩) _).anything.bind fun effect => perform f effect

theorem steps (n : Nat) : Shadows .anything p home old old.rename (steps p home bound n) (steps p home bound n) := by
  induction n with
  | zero => exact throw _
  | succ n ih =>
    refine step.bind fun r => ?_
    cases r with
    | none => exact ih
    | some v => exact pure _ v

end Shadows
end Loom.Machine
