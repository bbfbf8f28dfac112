import Loom.Proofs.Rewiring
import Loom.Proofs.Unification

/-!
Resolving typeclasses. A request is answered with an implementation that is declared, or with a clone made for it; the
call gives way to the construction of the answer, and the program stays well-formed.
-/
namespace Loom

open Runs List Program TypeRef Weaving
open Injection (Rebodied)
open Cloning (Specialized)

variable {scope : List GenericParam} {typeclass : TypeRef} {e : Entry} {i : Implementation} {config : Config}
  {x : Workspace Resolver}

namespace Program

variable {p : Program} {t : TypeRef}

theorem Formed.closed (formed : p.Formed scope t) (closed : t.isOpen = false) : p.Formed [] t := by
  intro u within
  have part := formed u within
  cases u with
  | param g => exact absurd (isOpen_iff.mpr ⟨g,within⟩) (Bool.eq_false_iff.mp closed)
  | absent => exact part
  | decl d => exact part
  | applied d args => exact part

end Program

namespace Resolver

variable {r : Resolver} {p q : Program} {w w' : Workspace Resolver} {t : TypeId}
variable {argument bound : TypeRef} {marker : TypeId} {place : Nat} {method : MethodRef} {ins : Instruction}

/-- The only answer among the generic implementations: its pattern matches the argument, and the first parameter is
    bound on the way. -/
theorem lookupGeneric_unifies (answer : r.index.lookupGeneric p marker argument = [(place,bound)]) :
    ∃ i bindings, r.index.generic[place]? = some i ∧ i.marker = marker ∧
      p.unify i.implementation i.argument argument [] = some bindings ∧ bindings.lookup 0 = some bound := by
  have member : (place,bound) ∈ r.index.lookupGeneric p marker argument := by
    rw [answer]
    exact .head _
  obtain ⟨⟨i,k⟩,among,found⟩ := mem_filterMap.mp member
  have at_ : r.index.generic[k]? = some i := mem_zipIdx_iff_getElem?.mp among
  dsimp only at found
  split at found
  · next same =>
    obtain ⟨b,bind,⟨⟩⟩ := Option.map_eq_some_iff.mp found
    obtain ⟨bindings,matched,looked⟩ := Option.bind_eq_some_iff.mp bind
    exact ⟨i,bindings,at_,same,matched,looked⟩
  · cases found

/-- The only answer among the generic implementations: where it stands, and a part of the argument to specialize it
    for. -/
theorem lookupGeneric_eq (answer : r.index.lookupGeneric p marker argument = [(place,bound)]) :
    (∃ i, r.index.generic[place]? = some i ∧ i.marker = marker) ∧ bound ∈ argument.parts := by
  obtain ⟨i,bindings,at_,same,matched,looked⟩ := lookupGeneric_unifies answer
  refine ⟨⟨i,at_,same⟩,?_⟩
  obtain ⟨new,added,-,part⟩ := unify_adds (k := 0) matched
  exact part bound (added.symm.trans looked)

/-! ### Answers -/

/-- How clones are named. -/
def style (r : Resolver) : CloneStyle := { delimiter := r.config.delimiter }

/-- The resolver after a clone was made of the implementation at a place. -/
def record (r : Resolver) (place : Nat) (entry : Entry) : Resolver :=
  { r with
    index := { r.index with
      generic := r.index.generic.modify place fun i => { i with specializations := i.specializations ++ [entry] } }
    specializations := r.specializations ++ [entry]
    queue := r.queue ++ entry.flatten.map Entry.specialized }

/-- The answers to a request: the one plain implementation, or else a clone of the one generic implementation that
    matches, made now if there is none yet. -/
inductive Answers (marker : TypeId) (argument : TypeRef) (w w' : Workspace Resolver) : TypeId → Prop
  | plain {i : Implementation} (answer : w.own.index.lookup w.program marker argument = [i]) (same : w' = w) :
      Answers marker argument w w' i.implementation
  | known {place : Nat} {bound : TypeRef} {i : Implementation} {e : Entry}
      (none : w.own.index.lookup w.program marker argument = [])
      (answer : w.own.index.lookupGeneric w.program marker argument = [(place,bound)])
      (at_ : w.own.index.generic[place]? = some i)
      (found : (i.specializations.find? fun e => w.program.same e.argument bound) = some e) (same : w' = w) :
      Answers marker argument w w' e.specialized
  | made {place : Nat} {bound : TypeRef} {i : Implementation} {e : Entry}
      (none : w.own.index.lookup w.program marker argument = [])
      (answer : w.own.index.lookupGeneric w.program marker argument = [(place,bound)])
      (at_ : w.own.index.generic[place]? = some i)
      (missing : (i.specializations.find? fun e => w.program.same e.argument bound) = .none)
      (cloned : (Cloning.specialize w.own.style w.own.home i.implementation bound).run w.program = (.ok e,w'.program))
      (own : w'.own = w.own.record place e) :
      Answers marker argument w w' e.specialized

theorem specialization_eq_ok (none : w.own.index.lookup w.program marker argument = [])
    (answer : w.own.index.lookupGeneric w.program marker argument = [(place,bound)])
    (done : (specialization place bound).run w = (.ok t,w')) : Answers marker argument w w' t := by
  obtain ⟨⟨i,at_,-⟩,-⟩ := lookupGeneric_eq answer
  rw [specialization,run_own_bind,run_program_bind] at done
  simp only [at_,Option.getD_some] at done
  cases found : i.specializations.find? fun e => w.program.same e.argument bound with
  | some e =>
    simp only [found] at done
    obtain ⟨rfl,rfl⟩ := run_pure_eq_ok.mp done
    exact .known none answer at_ found rfl
  | none =>
    simp only [found] at done
    obtain ⟨e,_,ran,done⟩ := run_bind_eq_ok.mp done
    obtain ⟨q,cloned,rfl⟩ := run_cloning_eq_ok.mp ran
    rw [run_setOwn_bind,run_program_bind,run_report_bind] at done
    obtain ⟨rfl,rfl⟩ := run_pure_eq_ok.mp done
    exact .made none answer at_ found cloned rfl

theorem resolve_eq_ok (done : (resolve typeclass).run w = (.ok t,w')) :
    ∃ marker argument, typeclass = .applied marker [argument] ∧
      w.program.hasAttribute marker w.own.config.typeclassMarker = true ∧ Answers marker argument w w' t := by
  rw [resolve,run_own_bind,run_program_bind] at done
  match typeclass, done with
  | .applied marker [argument], done =>
    refine ⟨marker,argument,rfl,?_⟩
    dsimp only at done
    by_cases typed : w.program.hasAttribute marker w.own.config.typeclassMarker = true
    · rw [if_pos typed] at done
      refine ⟨typed,?_⟩
      cases plain : w.own.index.lookup w.program marker argument with
      | cons i rest =>
        simp only [plain] at done
        cases rest with
        | nil =>
          obtain ⟨rfl,rfl⟩ := run_pure_eq_ok.mp done
          exact .plain plain rfl
        | cons j more => exact absurd done run_throw_ne_ok
      | nil =>
        simp only [plain] at done
        cases generic : w.own.index.lookupGeneric w.program marker argument with
        | nil =>
          simp only [generic] at done
          exact absurd done run_throw_ne_ok
        | cons first rest =>
          simp only [generic] at done
          cases rest with
          | nil => exact specialization_eq_ok plain generic done
          | cons j more => exact absurd done run_throw_ne_ok
    · rw [if_neg typed] at done
      exact absurd done run_throw_bind_ne_ok
  | .absent, done => exact absurd done run_throw_ne_ok
  | .decl _, done => exact absurd done run_throw_ne_ok
  | .param _, done => exact absurd done run_throw_ne_ok
  | .applied _ [], done => exact absurd done run_throw_ne_ok
  | .applied _ (_ :: _ :: _), done => exact absurd done run_throw_ne_ok

/-- What the resolver knows of is declared. -/
structure Fits (r : Resolver) (p : Program) : Prop where
  home : r.home.index < p.modules.size
  plain : ∀ i ∈ r.index.plain, i.implementation.index < p.types.size
  generic : ∀ i ∈ r.index.generic, i.implementation.index < p.types.size
  made : ∀ i ∈ r.index.generic, ∀ e ∈ i.specializations, e.specialized.index < p.types.size
  queue : ∀ t ∈ r.queue, t.index < p.types.size

theorem Fits.mono (fits : r.Fits p) (types : p.types.size ≤ q.types.size) (modules : q.modules.size = p.modules.size) :
    r.Fits q where
  home := by rw [modules]; exact fits.home
  plain i member := Nat.lt_of_lt_of_le (fits.plain i member) types
  generic i member := Nat.lt_of_lt_of_le (fits.generic i member) types
  made i member e among := Nat.lt_of_lt_of_le (fits.made i member e among) types
  queue t member := Nat.lt_of_lt_of_le (fits.queue t member) types

theorem mem_record (member : i ∈ (r.record place e).index.generic) :
    i ∈ r.index.generic ∨ ∃ j, r.index.generic[place]? = some j ∧
      i = { j with specializations := j.specializations ++ [e] } := by
  obtain ⟨k,at_⟩ := mem_iff_getElem?.mp member
  rw [record,getElem?_modify] at at_
  obtain ⟨j,before,rfl⟩ := Option.map_eq_some_iff.mp at_
  split
  · next same => exact .inr ⟨j,by rw [same]; exact before,rfl⟩
  · exact .inl (mem_of_getElem? before)

theorem exists_of_mem_record (member : i ∈ (r.record place e).index.generic) : ∃ j ∈ r.index.generic,
      j.implementation = i.implementation ∧ ∀ f ∈ i.specializations, f ∈ j.specializations ∨ f = e := by
  rcases mem_record member with old | ⟨j,at_,rfl⟩
  · exact ⟨i,old,rfl,fun f among => .inl among⟩
  · refine ⟨j,mem_of_getElem? at_,rfl,fun f among => ?_⟩
    exact (mem_append.mp among).imp id mem_singleton.mp

theorem Fits.record (fits : r.Fits p) (declared : ∀ c ∈ e.flatten, c.specialized.index < p.types.size) :
    (r.record place e).Fits p := by
  refine ⟨fits.home,fits.plain,fun i member => ?_,fun i member f among => ?_,fun t member => ?_⟩
  · obtain ⟨j,old,same,-⟩ := exists_of_mem_record member
    rw [← same]
    exact fits.generic j old
  · obtain ⟨j,old,-,entries⟩ := exists_of_mem_record member
    rcases entries f among with earlier | rfl
    · exact fits.made j old f earlier
    · exact declared f (Entry.mem_flatten_self f)
  · rcases mem_append.mp member with old | new
    · exact fits.queue t old
    · obtain ⟨c,among,rfl⟩ := mem_map.mp new
      exact declared c among

/-- The program is well-formed and the resolver fits it. -/
structure Sound (w : Workspace Resolver) : Prop where
  formed : w.program.WellFormed
  fits : w.own.Fits w.program

theorem Answers.sound (answers : Answers marker argument w w' t) (sound : Sound w)
    (closed : w.program.Formed [] argument) : Sound w' ∧ w.program.Extends w'.program ∧
      w'.program.modules.size = w.program.modules.size ∧ t.index < w'.program.types.size := by
  obtain ⟨formed,fits⟩ := sound
  cases answers with
  | @plain i answer same =>
    subst same
    have member : i ∈ w'.own.index.lookup w'.program marker argument := by
      rw [answer]
      exact .head _
    exact ⟨⟨formed,fits⟩,.refl _,rfl,fits.plain i (mem_filter.mp member).1⟩
  | known none answer at_ found same =>
    subst same
    exact ⟨⟨formed,fits⟩,.refl _,rfl,fits.made _ (mem_of_getElem? at_) _ (mem_of_find?_eq_some found)⟩
  | made none answer at_ missing cloned own =>
    have bound := closed.part (lookupGeneric_eq answer).2
    obtain ⟨shells,specialized⟩ := Cloning.specialize_specialized formed bound.declares cloned
    have size := (specialized.listed fits.home).size_eq
    have declared : ∀ c ∈ Entry.flatten _, c.specialized.index < w'.program.types.size := fun c member =>
      (specialized.stands member).declared
    refine ⟨⟨specialized.wellFormed formed bound fits.home,?_⟩,specialized.grown,size,
      declared _ (Entry.mem_flatten_self _)⟩
    rw [own]
    exact (fits.mono specialized.grown.types.size_le size).record declared

/-! ### Replacements -/

theorem request?_eq_some (request : request? config p ins = some (typeclass,method)) :
    ins.opcode = .call ∧ ins.operand = .method (.applied method [typeclass]) ∧ method.name = config.resolverMethod ∧
      method.declaring ≠ .absent ∧ method.declaring.fullName p = config.resolverType := by
  rw [request?.eq_def] at request
  split at request
  · next opcode operand =>
    split at request
    · next named =>
      cases request
      simp only [Bool.and_eq_true,beq_iff_eq,Bool.not_eq_true'] at named
      refine ⟨opcode,operand,named.1.1,fun absent => ?_,named.2⟩
      rw [absent] at named
      cases named.1.2
    · cases request
  · cases request

/-- A call in the body of a method gave way, perhaps with a box before it, to instructions that are no calls. -/
inductive Replaced (m : MethodId) (b : Body) (pre : List InstructionId) (i : InstructionId) (post : List InstructionId)
    (p q : Program) : Prop
  | intro {b' : Body} {x : Program} {early dropped : List InstructionId} {block : List Instruction}
      (rebodied : Rebodied m b' p x) (code : b'.code = b.code) (cut : pre = early ++ dropped)
      (spliced : Spliced m b' early (dropped ++ [i]) post block x q) (plain : ∀ ins ∈ block, ins.opcode ≠ .call)
      (formed : q.WellFormed)

variable {m c : MethodId} {b : Body} {pre post : List InstructionId} {i : InstructionId} {id : RefId}

theorem construction_formed (signed : p.Signed) (declared : t.index < p.types.size)
    (found : c ∈ p.methodsOf t) : p.OperandFormed scope b (.method (.plain (p.refOn c (.decl t) id))) := by
  have owner := (mem_methodsOf.mp found).1
  obtain ⟨returns,params⟩ := ((signed.members t declared).methods c owner).refOn (.decl t) id
  refine ⟨c.owner,by rw [owner]; rfl,formed_decl declared,returns,params,?_⟩
  exact findMethod?_refOn_isSome (by rw [owner]; exact found)

theorem rebodied_self (body : (p.methodAt m).body = some b) : Rebodied m b p p :=
  ⟨.refl _ _,rfl,rfl,body,fun _ _ => rfl⟩

inductive Supplies (p : Program) (t : TypeId) (id : RefId) : Instruction → Prop
  | construct {params : List TypeRef} {c : MethodId} (found : p.constructor? t params = some c) :
      Supplies p t id ⟨.newObject,.method (.plain (p.refOn c (.decl t) id))⟩
  | clear : Supplies p t id ⟨.initObject,.type (.decl t)⟩
  | box : Supplies p t id ⟨.box,.type (.decl t)⟩
  | address (k : Int) : Supplies p t id ⟨.loadLocalAddress,.int k⟩
  | load (k : Int) : Supplies p t id ⟨.loadLocal,.int k⟩

theorem Supplies.not_call (supplies : Supplies p t id ins) : ins.opcode ≠ .call := by
  cases supplies <;> rintro ⟨⟩

theorem Supplies.formed (signed : p.Signed) (declared : t.index < p.types.size) (supplies : Supplies p t id ins) :
    ins.operand.kind = ins.opcode.operandKind ∧ p.OperandFormed scope {} ins.operand := by
  cases supplies with
  | construct found => exact ⟨rfl,construction_formed signed declared (mem_filter.mp (mem_of_find?_eq_some found)).1⟩
  | clear => exact ⟨rfl,formed_decl declared⟩
  | box => exact ⟨rfl,formed_decl declared⟩
  | address => exact ⟨rfl,trivial⟩
  | load => exact ⟨rfl,trivial⟩

/-- What is put in the place of a call, with its new variables: a fresh object, an initialised variable in a box, or
    an object constructed around a value. -/
inductive Sequence (p : Program) (t : TypeId) (argument : TypeRef) (k : Nat) (id : RefId) :
    Bool → List TypeRef → List Instruction → Prop
  | fresh {c : MethodId} (object : (p.typeAt t).isValueType = false) (found : p.constructor? t [] = some c) :
      Sequence p t argument k id false [] [⟨.newObject,.method (.plain (p.refOn c (.decl t) id))⟩]
  | initialised (value : (p.typeAt t).isValueType = true) : Sequence p t argument k id false [.decl t]
      [⟨.loadLocalAddress,.int k⟩,⟨.initObject,.type (.decl t)⟩,⟨.loadLocal,.int k⟩,⟨.box,.type (.decl t)⟩]
  | around {c : MethodId} (found : p.constructor? t [argument] = some c) :
      Sequence p t argument k id true [] (⟨.newObject,.method (.plain (p.refOn c (.decl t) id))⟩ ::
        if (p.typeAt t).isValueType then [⟨.box,.type (.decl t)⟩] else [])

section Sequence

variable {argument : TypeRef} {k : Nat} {form : Bool} {new : List TypeRef} {block : List Instruction}

section

variable (sequence : Sequence p t argument k id form new block)
include sequence

theorem Sequence.ne_nil : block ≠ [] := by
  cases sequence <;> exact cons_ne_nil _ _

theorem Sequence.new_eq : ∀ u ∈ new, u = .decl t := by
  cases sequence <;> simp

theorem Sequence.supplies : ∀ ins ∈ block, Supplies p t id ins := by
  cases sequence with
  | fresh object found => exact forall_mem_singleton.mpr (.construct found)
  | initialised =>
    simp only [forall_mem_cons]
    exact ⟨.address _,.clear,.load _,.box,nofun⟩
  | around found =>
    refine forall_mem_cons.mpr ⟨.construct found,?_⟩
    split
    · exact forall_mem_singleton.mpr .box
    · exact nofun

theorem Sequence.reference : ∀ k ins, block[k]? = some ins → ∀ r ∈ ins.operand.reference?, k = 0 ∧ r = id := by
  have bare (rest : List Instruction) (none : ∀ ins ∈ rest, ins.operand.reference? = Option.none) (k : Nat) (ins : Instruction)
      (at_ : rest[k]? = some ins) (r : RefId) (held : r ∈ ins.operand.reference?) : False := by
    rw [none ins (mem_of_getElem? at_)] at held
    cases held
  intro k ins at_ r held
  cases sequence with
  | initialised => exact (bare _ (by simp [Operand.reference?]) k ins at_ r held).elim
  | fresh _ _ =>
    cases k with
    | zero => cases at_; exact ⟨rfl,(Option.some.inj held).symm⟩
    | succ k => cases at_
  | around _ =>
    cases k with
    | zero => cases at_; exact ⟨rfl,(Option.some.inj held).symm⟩
    | succ k => exact (bare _ (by split <;> simp [Operand.reference?]) k ins at_ r held).elim

end

end Sequence

/-- A call gave way to the instructions that bring in a value of a type, and a call with a value did so together with a
    box before it. -/
inductive Supplied (m : MethodId) (b : Body) (pre : List InstructionId) (i : InstructionId) (post : List InstructionId)
    (t : TypeId) (argument : TypeRef) (form : Bool) (id : RefId) (p q : Program) : Prop
  | intro {b' : Body} {x : Program} {early dropped : List InstructionId} {new : List TypeRef} {block : List Instruction}
      (rebodied : Rebodied m b' p x) (code : b'.code = b.code) (locals : b'.locals = b.locals ++ new)
      (box : dropped = if form then p.boxAtEnd pre else []) (cut : pre = early ++ dropped)
      (spliced : Spliced m b' early (dropped ++ [i]) post block x q)
      (sequence : Sequence p t argument b.locals.length id form new block)

section

variable (formed : p.WellFormed) (body : (p.methodAt m).body = some b) (code : b.code = pre ++ i :: post)
include formed body code

theorem replaceInstance_supplied (done : replaceInstance p m i t id = .ok q) :
    Supplied m b pre i post t argument false id p q := by
  have old := formed.body body
  have found : p.bodyOf m = b := by
    rw [bodyOf,body]
    rfl
  rw [replaceInstance,found] at done
  split at done
  · next value =>
    let b' : Body := { b with locals := b.locals ++ [.decl t], initLocals := true }
    have rebodied := rebodied_setBody body b'
    obtain ⟨q',spliced_eq,spliced⟩ := substituteIn_spliced ⟨.loadLocalAddress,.int b.locals.length⟩
      [⟨.initObject,.type (.decl t)⟩,⟨.loadLocal,.int b.locals.length⟩,⟨.box,.type (.decl t)⟩]
      rebodied.body code old.distinct old.inside (by rintro ⟨⟩)
    obtain rfl : q' = q := Except.ok.inj (spliced_eq.symm.trans done)
    exact ⟨rebodied,rfl,rfl,rfl,(append_nil pre).symm,spliced,.initialised value⟩
  · next object =>
    split at done
    · cases done
    · next c constructor =>
      obtain ⟨q',spliced_eq,spliced⟩ := substituteIn_spliced
        ⟨.newObject,.method (.plain (p.refOn c (.decl t) id))⟩ [] body code old.distinct old.inside (by rintro ⟨⟩)
      obtain rfl : q' = q := Except.ok.inj (spliced_eq.symm.trans done)
      exact ⟨rebodied_self body,rfl,(append_nil _).symm,rfl,(append_nil pre).symm,spliced,
        .fresh (Bool.eq_false_iff.mpr object) constructor⟩

theorem replaceWithValue_supplied (done : replaceWithValue p m i t argument id = .ok q) :
    Supplied m b pre i post t argument true id p q := by
  have old := formed.body body
  rw [replaceWithValue] at done
  split at done
  · cases done
  · next c constructor =>
    obtain ⟨q',early,spliced_eq,cut,spliced⟩ := dropBox_spliced
      ⟨.newObject,.method (.plain (p.refOn c (.decl t) id))⟩
      (if (p.typeAt t).isValueType then [⟨.box,.type (.decl t)⟩] else []) body code old.distinct old.inside (by rintro ⟨⟩)
    obtain rfl : q' = q := Except.ok.inj (spliced_eq.symm.trans done)
    exact ⟨rebodied_self body,rfl,(append_nil _).symm,rfl,cut,spliced,.around constructor⟩

end

theorem Supplied.replaced {form : Bool} (supplied : Supplied m b pre i post t argument form id.next p q) (formed : p.WellFormed)
    (body : (p.methodAt m).body = some b) (code : b.code = pre ++ i :: post) (declared : t.index < p.types.size)
    (held : (p.instructionAt i).operand.reference? = some id) : Replaced m b pre i post p q := by
  obtain @⟨b',x,early,dropped,new,block,rebodied,same,locals,-,cut,spliced,sequence⟩ := supplied
  have middle : x.WellFormed := by
    refine rebodied.wellFormed formed body same fun u member => ?_
    rw [locals] at member
    rcases mem_append.mp member with before | added
    · exact (formed.body body).locals u before
    · rw [sequence.new_eq u added]
      exact formed_decl declared
  have split : b'.code = early ++ (dropped ++ [i]) ++ post := by
    rw [same,code,cut]
    simp
  refine ⟨rebodied,same,cut,spliced,fun ins member => (sequence.supplies ins member).not_call,
    spliced.wellFormed middle rebodied.body split sequence.ne_nil (fun ins member => ?_) fun k ins at_ r holds => ?_⟩
  · obtain ⟨kind,operand⟩ := (sequence.supplies ins member).formed formed.signed declared
    exact ⟨kind,operand.mono rebodied.agree.keeps formed.signed⟩
  · obtain ⟨rfl,rfl⟩ := sequence.reference k ins at_ r holds
    refine ⟨rfl,(formed.body body).references.method i (by rw [code]; simp) id held,i,by simp,id,?_,rfl⟩
    rw [instructionAt,rebodied.code_eq]
    exact held

/-! ### Steps -/

/-- What weaving one instruction of a method does: nothing where no type is requested or the type is open, and otherwise
    a replacement by the answer. -/
inductive Weaves (m : MethodId) (i : InstructionId) (w w' : Workspace Resolver) : Prop
  | plain (request : request? w.own.config w.program (w.program.instructionAt i) = none) (same : w' = w)
  | left {typeclass : TypeRef} {method : MethodRef}
      (request : request? w.own.config w.program (w.program.instructionAt i) = some (typeclass,method))
      (isOpen : typeclass.isOpen = true) (program : w'.program = w.program) (own : w'.own = w.own)
  | resolved {marker : TypeId} {argument : TypeRef} {method : MethodRef} {x : Workspace Resolver} {t : TypeId}
      (request : request? w.own.config w.program (w.program.instructionAt i) = some (.applied marker [argument],method))
      (closed : argument.isOpen = false) (answers : Answers marker argument w x t)
      (edited : (if method.params.isEmpty then replaceInstance x.program m i t method.id.next
        else replaceWithValue x.program m i t argument method.id.next) = .ok w'.program)
      (own : w'.own = { x.own with callSites := x.own.callSites + 1 })

theorem weaveInstruction_eq_ok {u : Unit} (done : (weaveInstruction m i).run w = (.ok u,w')) : Weaves m i w w' := by
  rw [weaveInstruction,run_own_bind,run_program_bind] at done
  cases request : request? w.own.config w.program (w.program.instructionAt i) with
  | none =>
    simp only [request] at done
    obtain ⟨-,rfl⟩ := run_pure_eq_ok.mp done
    exact .plain request rfl
  | some pair =>
    obtain ⟨typeclass,method⟩ := pair
    simp only [request] at done
    cases isOpen : typeclass.isOpen with
    | true =>
      rw [if_pos isOpen] at done
      obtain rfl := run_modify_eq_ok.mp done
      exact .left request isOpen rfl rfl
    | false =>
      rw [if_neg (Bool.eq_false_iff.mp isOpen)] at done
      obtain ⟨t,x,answered,done⟩ := run_bind_eq_ok.mp done
      obtain ⟨marker,argument,rfl,-,answers⟩ := resolve_eq_ok (run_tryCatch_eq_ok.mp answered)
      rw [run_program_bind] at done
      have closed : argument.isOpen = false := by simpa using isOpen
      generalize edited : (if method.params.isEmpty = true then replaceInstance x.program m i t method.id.next
        else replaceWithValue x.program m i t ((applied marker [argument]).arguments.headD .absent) method.id.next) = r at done
      cases r with
      | error f => exact absurd done run_throw_ne_ok
      | ok q =>
        rw [run_setProgram_bind,run_own_bind,run_setOwn_bind] at done
        obtain rfl := run_modify_eq_ok.mp done
        exact .resolved request closed answers edited rfl

/-- The methods that are not touched are as they were, and more may be declared. -/
structure Beside (touched : MethodId → Prop) (p q : Program) : Prop where
  signatures : Keeps TypeDecl.signature p q
  modules : q.modules.size = p.modules.size
  others : ∀ n, ¬touched n → n.owner.index < p.types.size → q.methodAt n = p.methodAt n
  untouched : ∀ n, ¬touched n → ∀ c, (p.methodAt n).body = some c → ∀ j ∈ c.code, q.instructionAt j = p.instructionAt j

section Beside

variable {touched : MethodId → Prop}

theorem Beside.refl (touched : MethodId → Prop) (p : Program) : Beside touched p p :=
  ⟨.refl _ _,rfl,fun _ _ _ => rfl,fun _ _ _ _ _ _ => rfl⟩

theorem Beside.trans {x : Program} (early : Beside touched p x) (late : Beside touched x q) : Beside touched p q where
  signatures := early.signatures.trans late.signatures
  modules := late.modules.trans early.modules
  others n other inside := by
    rw [late.others n other (Nat.lt_of_lt_of_le inside early.signatures.size_le),early.others n other inside]
  untouched n other c body j member := by
    have same := early.others n other (owner_lt_of_body body)
    rw [late.untouched n other c (by rw [same]; exact body) j member,early.untouched n other c body j member]

theorem Beside.weaken {more : MethodId → Prop} (beside : Beside touched p q) (wider : ∀ n, touched n → more n) :
    Beside more p q where
  signatures := beside.signatures
  modules := beside.modules
  others n other := beside.others n fun touched => other (wider n touched)
  untouched n other := beside.untouched n fun touched => other (wider n touched)

theorem Beside.of_extends (formed : p.WellFormed) (grown : p.Extends q) (modules : q.modules.size = p.modules.size) :
    Beside touched p q where
  signatures := grown.signatures
  modules := modules
  others _ _ inside := grown.methodAt_eq inside
  untouched _ _ _ body j member := grown.code.instruction_eq j ((formed.body body).inside j member)

end Beside

theorem Replaced.beside (replaced : Replaced m b pre i post p q) (formed : p.WellFormed)
    (body : (p.methodAt m).body = some b) (code : b.code = pre ++ i :: post) : Beside (· = m) p q := by
  obtain ⟨rebodied,same,cut,spliced,-,-⟩ := replaced
  refine ⟨(rebodied.agree.trans spliced.agree).keeps,by rw [spliced.modules_eq,rebodied.modules_eq],
    fun n other _ => (spliced.others n other).trans (rebodied.others n other),fun n other c found j member => ?_⟩
  have instruction : q.instructionAt j = _ := spliced.untouched j ?_ ?_
  · rw [instruction,instructionAt,rebodied.code_eq]
    rfl
  · rw [rebodied.code_eq]
    exact (formed.body found).inside j member
  · intro among
    refine other (formed.separate n m c b found body j member ?_)
    rw [code,cut]
    simpa [or_assoc] using among

theorem Replaced.body (replaced : Replaced m b pre i post p q) : ∃ c early, (q.methodAt m).body = some c ∧
    c.code = early ++ post ∧ ∀ j ∈ early, (q.instructionAt j).opcode ≠ .call ∨
      j ∈ pre ∧ ∃ run start, q.instructionAt j = (p.instructionAt j).divert run start := by
  obtain ⟨rebodied,same,cut,spliced,plain,-⟩ := replaced
  refine ⟨_,_,spliced.body,rfl,fun j member => ?_⟩
  rcases mem_append.mp member with before | new
  · have kept := spliced.kept j (mem_append_left _ before)
    rw [instructionAt,instructionAt,rebodied.code_eq] at kept
    exact .inr ⟨by rw [cut]; exact mem_append_left _ before,_,_,kept⟩
  · exact .inl (plain _ (spliced.mem_of_block new))

theorem request_formed (operand : p.OperandFormed (p.scopeOf m) b (p.instructionAt i).operand)
    (request : request? config p (p.instructionAt i) = some (.applied marker [argument],method))
    (closed : argument.isOpen = false) : p.Formed [] argument := by
  obtain ⟨-,same,-⟩ := request?_eq_some request
  rw [same] at operand
  have applied : p.Formed (p.scopeOf m) (.applied marker [argument]) := operand.2.2 _ (.head _)
  have part := applied.part (mem_parts_applied.mpr (.inr ⟨argument,.head _,mem_parts_self _⟩))
  exact part.closed closed

theorem supplied_of_edit (formed : p.WellFormed) (body : (p.methodAt m).body = some b) (code : b.code = pre ++ i :: post)
    (edited : (if method.params.isEmpty then replaceInstance p m i t id else replaceWithValue p m i t argument id) = .ok q) :
    Supplied m b pre i post t argument (!method.params.isEmpty) id p q := by
  split at edited
  · next none_ =>
    rw [none_]
    exact replaceInstance_supplied formed body code edited
  · next some_ =>
    rw [Bool.eq_false_iff.mpr some_]
    exact replaceWithValue_supplied formed body code edited

/-- The answer to a closed request takes its place in a well-formed program that has what was there. -/
theorem replaced_of_answers (sound : Sound w) (body : (w.program.methodAt m).body = some b)
    (code : b.code = pre ++ i :: post)
    (request : request? w.own.config w.program (w.program.instructionAt i) = some (.applied marker [argument],method))
    (closed : argument.isOpen = false) (answers : Answers marker argument w x t)
    (edited : (if method.params.isEmpty then replaceInstance x.program m i t method.id.next
      else replaceWithValue x.program m i t argument method.id.next) = .ok q) :
    Sound x ∧ w.program.Extends x.program ∧ x.program.modules.size = w.program.modules.size ∧
      (x.program.methodAt m).body = some b ∧ Replaced m b pre i post x.program q := by
  have old := sound.formed.body body
  have operand := old.operands i (by rw [code]; simp)
  obtain ⟨after,grown,modules,declared⟩ := answers.sound sound (request_formed operand request closed)
  have still : (x.program.methodAt m).body = some b := by
    rw [grown.methodAt_eq (owner_lt_of_body body)]
    exact body
  have held : (x.program.instructionAt i).operand.reference? = some method.id := by
    rw [grown.code.instruction_eq i (old.inside i (by rw [code]; simp)),(request?_eq_some request).2.1]
    rfl
  exact ⟨after,grown,modules,still,
    (supplied_of_edit after.formed still code edited).replaced after.formed still code declared held⟩

theorem Replaced.sound (replaced : Replaced m b pre i post x.program w'.program) (sound : Sound x)
    (own : w'.own = { x.own with callSites := x.own.callSites + 1 }) : Sound w' := by
  obtain ⟨rebodied,-,-,spliced,-,formed⟩ := replaced
  have agree := rebodied.agree.trans spliced.agree
  have fits := sound.fits.mono (q := w'.program) (Nat.le_of_eq agree.size_eq.symm)
    (by rw [spliced.modules_eq,rebodied.modules_eq])
  exact ⟨formed,by rw [own]; exact ⟨fits.home,fits.plain,fits.generic,fits.made,fits.queue⟩⟩

end Resolver
end Loom
