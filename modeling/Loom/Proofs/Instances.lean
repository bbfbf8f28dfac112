import Loom.Proofs.Shrinking

/-!
The answers to requests are instances. The type that a resolver answers with can be constructed, and is a plain
implementation that lists the requested typeclass, or the clone of a generic one whose pattern becomes the request at
the argument. The clone lists the request itself exactly if the request does not apply the implementation, or a type
nested in it, to that argument.
-/
namespace Loom

open Runs List TypeRef TypeDecl Cloning
open Program (Agree Keeps same_iff)
open Relation (ReflTransGen)
open Weaving (run_own_bind run_program_bind)

variable {i : Implementation} {place : Nat} {scope : List GenericParam}

namespace Program

variable {p q : Program} {source t d : TypeId} {argument u : TypeRef}

/-- The reference applies the type, or one reached from it through generic nested types, to that argument first. -/
def Involves (p : Program) (source : TypeId) (argument u : TypeRef) : Prop :=
  ∃ d first rest, ReflTransGen p.Encloses source d ∧ .applied d (first :: rest) ∈ u.parts ∧ p.same first argument = true

section

variable (kept : Keeps TypeDecl.header p q) (formed : p.WellFormed) (inside : source.index < p.types.size)
include kept formed inside

theorem Keeps.reaches_iff : ReflTransGen q.Encloses source d ↔ ReflTransGen p.Encloses source d :=
  kept.within_iff formed.nests inside

theorem Keeps.involves_iff (known : p.Declares argument) (declared : p.Declares u) :
    q.Involves source argument u ↔ p.Involves source argument u := by
  refine exists_congr fun d => exists_congr fun first => exists_congr fun rest => ?_
  rw [kept.reaches_iff formed inside]
  refine and_congr_right fun _ => and_congr_right fun within => ?_
  have part : first ∈ u.parts :=
    TypeRef.mem_parts_trans (mem_parts_applied.mpr (.inr ⟨first,.head _,mem_parts_self _⟩)) within
  rw [kept.same_eq formed.grounded (fun v inner => declared v (TypeRef.mem_parts_trans inner part)) known]

end

theorem Formed.isOpen_eq (formed : p.Formed [] u) : u.isOpen = false := by
  rw [Bool.eq_false_iff]
  intro isOpen
  obtain ⟨g,within⟩ := isOpen_iff.mp isOpen
  cases formed _ within

theorem eq_of_mem_typeParams {g : GenericParam} (one : (p.typeAt t).generics.length = 1) (member : g ∈ p.typeParams t) :
    g.owner = .type t ∧ g.position = 0 := by
  obtain ⟨owner,at_⟩ := mem_typeParams.mp member
  obtain ⟨inside,-⟩ := List.getElem?_eq_some_iff.mp at_
  exact ⟨owner,by omega⟩

theorem Formed.mapParams_eq {f : GenericParam → TypeRef} (formed : p.Formed (p.typeParams t) u)
    (one : (p.typeAt t).generics.length = 1) (first : ∀ name, f ⟨.type t,0,name⟩ = argument) :
    u.mapParams f = u.mapParams fun _ => argument := by
  refine mapParams_congr fun g within => ?_
  obtain ⟨owner,position⟩ := eq_of_mem_typeParams one (formed _ within)
  obtain ⟨o,k,name⟩ := g
  cases owner
  cases position
  exact first name

/-- A type that was made from one with one parameter for an argument: nothing of it is left open, and it lists what the
    original lists at the argument, except where that involves the original. -/
structure Instance (p : Program) (source : TypeId) (argument : TypeRef) (t : TypeId) : Prop where
  old : source.index < p.types.size
  new : t.index < p.types.size
  one : (p.typeAt source).generics.length = 1
  closed : p.Formed [] argument
  flags : (p.typeAt t).flags = (p.typeAt source).flags
  plain : (p.typeAt t).generics = []
  interfaces : List.Forall₂ (fun a b => p.same b (a.mapParams fun _ => argument) = true ↔
    ¬p.Involves source argument (a.mapParams fun _ => argument)) (p.typeAt source).interfaces (p.typeAt t).interfaces

theorem Instance.mono (kept : Keeps signature p q) (formed : p.WellFormed)
    (made : p.Instance source argument t) : q.Instance source argument t := by
  have header := kept.header
  have listed (d : TypeId) (inside : d.index < p.types.size) : (q.typeAt d).interfaces = (p.typeAt d).interfaces :=
    (kept.map TypeDecl.interfaces).view_eq d inside
  have flags (d : TypeId) (inside : d.index < p.types.size) : (q.typeAt d).flags = (p.typeAt d).flags :=
    (header.map TypeDecl.flags).view_eq d inside
  refine ⟨Nat.lt_of_lt_of_le made.old kept.size_le,Nat.lt_of_lt_of_le made.new kept.size_le,?_,made.closed.mono header,
    ?_,?_,?_⟩
  · rw [header.generics made.old]
    exact made.one
  · rw [flags t made.new,flags source made.old]
    exact made.flags
  · rw [header.generics made.new]
    exact made.plain
  · rw [listed source made.old,listed t made.new]
    have patterns := (formed.types source made.old).members.interfaces
    have results := (formed.types t made.new).members.interfaces
    obtain ⟨length,each⟩ := forall₂_iff_zip.mp made.interfaces
    refine forall₂_iff_zip.mpr ⟨length,fun {a b} paired => ?_⟩
    obtain ⟨first,second⟩ := of_mem_zip paired
    have image : p.Declares (a.mapParams fun _ => argument) :=
      ((patterns a first).mapParams fun _ _ => made.closed).declares
    rw [header.same_eq formed.grounded (results b second).declares image,
      header.involves_iff formed made.old made.closed.declares image]
    exact each paired

end Program

namespace Cloning

variable {style : CloneStyle} {home : ModuleId} {argument u : TypeRef} {source : TypeId} {p q : Program} {entry : Entry}
  {shells : List Shell}

/-- A reference is left alone by redirection to the clones exactly if it does not involve the type that is cloned. -/
theorem Specialized.redirected_iff (specialized : Specialized style home source argument p q entry shells)
    (reached : ∀ t, t ∈ entry.flatten.map Entry.generic ↔ ReflTransGen q.Encloses source t) :
    q.Redirected (familyOf argument shells) u ↔ ¬q.Involves source argument u := by
  have sources (d : TypeId) : (∃ s ∈ shells, s.source = d) ↔ ReflTransGen q.Encloses source d := by
    have same : entry.flatten.map Entry.generic = shells.map Shell.source := by
      rw [← forall₂_eq_eq_eq]
      exact forall₂_map_left_iff.mpr (forall₂_map_right_iff.mpr (specialized.records.imp fun _ _ r => r.generic))
    rw [← reached,same,mem_map]
  constructor
  · rintro redirected ⟨d,first,rest,steps,within,same⟩
    obtain ⟨s,member,rfl⟩ := (sources d).mpr steps
    have differs := redirected (s.scope argument) (Specialized.scope_mem member) first rest within
    rw [show (s.scope argument).target = argument from rfl,same] at differs
    cases differs
  · intro uninvolved c member first rest within
    obtain ⟨s,among,rfl⟩ := mem_map.mp member
    rw [Bool.eq_false_iff]
    exact fun same => uninvolved ⟨s.source,first,rest,(sources _).mp ⟨s,among,rfl⟩,within,same⟩

theorem specialize_instance (formed : p.WellFormed) (closed : p.Formed [] argument) (place : home.index < p.modules.size)
    (done : (specialize style home source argument).run p = (.ok entry,q)) :
    entry.argument = argument ∧ q.Instance source argument entry.specialized := by
  obtain ⟨shells,specialized⟩ := specialize_specialized formed closed.declares done
  obtain ⟨_,_,_,accepted,-⟩ := specialize_phases done
  obtain ⟨one,-,-⟩ := refusal?_eq_none accepted
  have old := index_of_accepted accepted
  have kept := specialized.grown.headers
  have reached (t : TypeId) : t ∈ entry.flatten.map Entry.generic ↔ ReflTransGen q.Encloses source t := by
    rw [(specialize_grafted formed closed.declares place done).reached,kept.reaches_iff formed old]
  obtain ⟨first,rest,shape,rooted⟩ := specialized.rooted
  have member : first ∈ shells := by rw [shape]; exact .head _
  have clone := specialized.each first member
  obtain rfl : first.source = source := rooted.source_eq
  have root : entry.specialized = first.clone := by
    have clones := specialized.specialized_eq
    rw [shape] at clones
    cases entry
    exact (cons.inj clones).1
  have same : q.typeAt first.source = p.typeAt first.source := specialized.grown.typeAt_eq old
  rw [root]
  refine ⟨specialized.root_eq.2,Nat.lt_of_lt_of_le old kept.size_le,clone.new.2,?_,closed.mono kept,?_,?_,?_⟩
  · rw [same]
    exact one
  · rw [same]
    exact clone.flags
  · rw [clone.generics]
    exact eq_nil_of_length_eq_zero (by rw [length_tail,one])
  · rw [same]
    have patterns := (formed.types _ old).members.interfaces
    refine forall₂_imp_of_mem clone.interfaces fun a listed b brought => ?_
    obtain ⟨r,redirected,rfl⟩ := CloneSite.type_eq_ok.mp brought
    have stands := specialized.typeSite_stands member
    have resolved : Scope.resolve (typeSite (familyOf argument shells) first).chain a = a.mapParams fun _ => argument :=
      (patterns a listed).mapParams_eq one stands.resolve_first
    have image : q.Formed [] (a.mapParams fun _ => argument) := ((patterns a listed).mapParams fun _ _ => closed).mono kept
    rw [resolved] at redirected
    -- nothing is open after the substitution, so there is no parameter left to move
    rw [TypeRef.mapParams_of_closed (specialized.family.formed_redirect image redirected).isOpen_eq,
      Program.same_redirect_iff redirected]
    exact specialized.redirected_iff reached

end Cloning

namespace Program

variable {p : Program} {source : TypeId} {pattern actual argument bound : TypeRef} {bindings : Bindings}

theorem same_of_unify (formed : p.Formed (p.typeParams source) pattern) (one : (p.typeAt source).generics.length = 1)
    (matched : p.unify source pattern actual [] = some bindings) (found : bindings.lookup 0 = some bound)
    (same : p.same argument bound = true) : p.same (pattern.mapParams fun _ => argument) actual = true := by
  let f (k : Nat) : TypeRef := if k = 0 then argument else (bindings.lookup k).getD .absent
  have agrees (k : Nat) (t : TypeRef) (known : bindings.lookup k = some t) : p.same (f k) t = true := by
    by_cases first : k = 0
    · subst first
      rw [found] at known
      cases known
      exact same
    · rw [show f k = t by simp only [f,if_neg first,known,Option.getD_some]]
      exact same_iff.mpr rfl
  have first (name : String) : bindParam source f ⟨.type source,0,name⟩ = argument := by simp [bindParam,f]
  rw [← formed.mapParams_eq one first]
  exact (unify_iff.mp ⟨_,matched,agrees⟩).2

def Implements (p : Program) (t : TypeId) (typeclass : TypeRef) : Prop :=
  ∃ a ∈ (p.typeAt t).interfaces, p.same a typeclass = true

end Program

namespace Resolver

variable {p : Program} {w w' : Workspace Resolver} {t : TypeId} {marker : TypeId} {argument : TypeRef}

/-- The implementation can be constructed, and lists what the index says. -/
structure Cites (p : Program) (i : Implementation) : Prop where
  concrete : (p.typeAt i.implementation).isAbstract = false
  listed : .applied i.marker [i.argument] ∈ (p.typeAt i.implementation).interfaces

/-- The state is sound and its index is right: about the implementations, and about the clones that were made of them. -/
structure Indexed (w : Workspace Resolver) : Prop extends Sound w where
  plain : ∀ i ∈ w.own.index.plain, Cites w.program i ∧ (w.program.typeAt i.implementation).generics = []
  generic : ∀ i ∈ w.own.index.generic, Cites w.program i
  made : ∀ i ∈ w.own.index.generic, ∀ e ∈ i.specializations,
    w.program.Instance i.implementation e.argument e.specialized

theorem Cites.mono {q : Program} (kept : Keeps signature p q) (cites : Cites p i)
    (inside : i.implementation.index < p.types.size) : Cites q i := by
  have flags : (q.typeAt i.implementation).flags = (p.typeAt i.implementation).flags :=
    (kept.header.map flags).view_eq _ inside
  have interfaces : (q.typeAt i.implementation).interfaces = (p.typeAt i.implementation).interfaces :=
    (kept.map interfaces).view_eq _ inside
  refine ⟨?_,by rw [interfaces]; exact cites.listed⟩
  rw [isAbstract,flags]
  exact cites.concrete

theorem Indexed.mono (indexed : Indexed w) (sound : Sound w') (kept : Keeps signature w.program w'.program)
    (index : w'.own.index = w.own.index) : Indexed w' := by
  refine ⟨sound,?_,?_,?_⟩
  · rw [index]
    intro i member
    have inside := indexed.fits.plain i member
    exact ⟨(indexed.plain i member).1.mono kept inside,by rw [kept.header.generics inside]; exact (indexed.plain i member).2⟩
  · rw [index]
    exact fun i member => (indexed.generic i member).mono kept (indexed.fits.generic i member)
  · rw [index]
    exact fun i member e among => (indexed.made i member e among).mono kept indexed.formed

theorem start_indexed {home : ModuleId} {config : Config} {log : List String} (formed : p.WellFormed)
    (place : home.index < p.modules.size) : Indexed ⟨p,start p home config,log⟩ := by
  refine ⟨⟨formed,start_fits formed place⟩,fun i member => ?_,fun i member => ?_,fun i member e among => ?_⟩
  · obtain ⟨-,-,concrete,listed⟩ := start_listed (.inl member)
    exact ⟨⟨concrete,listed⟩,by simpa [isGeneric] using (mem_filter.mp member).2⟩
  · obtain ⟨-,-,concrete,listed⟩ := start_listed (.inr member)
    exact ⟨concrete,listed⟩
  · rw [(start_listed (.inr member)).2.1] at among
    cases among

theorem Answers.indexed (answers : Answers marker argument w w' t) (indexed : Indexed w)
    (closed : w.program.Formed [] argument) : Indexed w' := by
  obtain ⟨sound,grown,modules,-⟩ := answers.sound indexed.toSound closed
  have fits : w.own.Fits w'.program := indexed.fits.mono grown.types.size_le modules
  have before : Indexed ⟨w'.program,w.own,w.log⟩ := indexed.mono ⟨sound.formed,fits⟩ grown.signatures rfl
  cases answers with
  | plain answer same =>
    subst same
    exact before
  | known none answer at_ found same =>
    subst same
    exact before
  | @made place bound j e none answer at_ missing cloned own =>
    have part := closed.part (lookupGeneric_eq answer).2
    obtain ⟨argument_eq,fresh⟩ := specialize_instance indexed.formed part indexed.fits.home cloned
    refine ⟨sound,?_,?_,?_⟩
    · rw [own]
      exact before.plain
    · rw [own]
      intro i member
      rcases mem_record member with old | ⟨k,there,rfl⟩
      · exact before.generic i old
      · exact ⟨(before.generic k (mem_of_getElem? there)).concrete,(before.generic k (mem_of_getElem? there)).listed⟩
    · rw [own]
      intro i member f among
      rcases mem_record member with old | ⟨k,there,rfl⟩
      · exact before.made i old f among
      · obtain rfl := Option.some.inj (at_.symm.trans there)
        rcases mem_append.mp among with earlier | last
        · exact before.made _ (mem_of_getElem? at_) f earlier
        · rw [mem_singleton.mp last,argument_eq]
          exact fresh

/-- How a type answers a request: as a plain implementation that lists it, or as the clone of a generic
    implementation, with a pattern that becomes the request at the argument of the clone. -/
inductive Realizes (r : Resolver) (p : Program) (typeclass : TypeRef) (t : TypeId) : Prop
  | plain {i : Implementation} (member : i ∈ r.index.plain) (same : i.implementation = t)
      (implements : p.Implements t typeclass)
  | cloned {i : Implementation} {e : Entry} {a b : TypeRef} (member : i ∈ r.index.generic) (among : e ∈ i.specializations)
      (same : e.specialized = t) (made : p.Instance i.implementation e.argument t)
      (paired : (a,b) ∈ (p.typeAt i.implementation).interfaces.zip (p.typeAt t).interfaces)
      (becomes : p.same (a.mapParams fun _ => e.argument) typeclass = true)
      (lists : p.same b typeclass = true ↔ ¬p.Involves i.implementation e.argument (a.mapParams fun _ => e.argument))

theorem same_applied {a b : TypeRef} (same : p.same a b = true) : p.same (.applied marker [a]) (.applied marker [b]) = true := by
  rw [same_iff,Program.canonical_applied,Program.canonical_applied,map_singleton,map_singleton,
    same_iff.mp same]

theorem Indexed.pattern_formed (indexed : Indexed w) (member : i ∈ w.own.index.generic) :
    w.program.Formed (w.program.typeParams i.implementation) i.argument := by
  have interfaces := (indexed.formed.types _ (indexed.fits.generic i member)).members.interfaces
  exact (interfaces _ (indexed.generic i member).listed).part
    (mem_parts_applied.mpr (.inr ⟨i.argument,.head _,mem_parts_self _⟩))

theorem same_of_lookupGeneric {bound own : TypeRef} (indexed : Indexed w)
    (answer : w.own.index.lookupGeneric w.program marker argument = [(place,bound)])
    (at_ : w.own.index.generic[place]? = some i) (one : (w.program.typeAt i.implementation).generics.length = 1)
    (same : w.program.same own bound = true) :
    i.marker = marker ∧ w.program.same (i.argument.mapParams fun _ => own) argument = true := by
  obtain ⟨j,bindings,there,marked,matched,found⟩ := lookupGeneric_unifies answer
  obtain rfl := Option.some.inj (at_.symm.trans there)
  have pattern := indexed.pattern_formed (mem_of_getElem? at_)
  exact ⟨marked,Program.same_of_unify pattern one matched found same⟩

theorem Indexed.realizes {e : Entry} (indexed : Indexed w) (member : i ∈ w.own.index.generic)
    (among : e ∈ i.specializations) (same : w.program.same (i.argument.mapParams fun _ => e.argument) argument = true) :
    (w.program.typeAt e.specialized).isAbstract = false ∧ (w.program.typeAt e.specialized).generics = [] ∧
      Realizes w.own w.program (.applied i.marker [argument]) e.specialized := by
  have made := indexed.made i member e among
  have cites := indexed.generic i member
  have becomes : w.program.same ((applied i.marker [i.argument]).mapParams fun _ => e.argument)
      (.applied i.marker [argument]) = true := by
    rw [mapParams_applied]
    exact same_applied same
  have pairs := forall₂_iff_zip.mpr ⟨made.interfaces.length_eq,fun {a b} paired =>
    (⟨paired,forall₂_zip made.interfaces paired⟩ : (a,b) ∈ _ ∧ _)⟩
  obtain ⟨b,-,paired,lists⟩ := right_of_forall₂ pairs cites.listed
  refine ⟨?_,made.plain,.cloned member among rfl made paired becomes ?_⟩
  · rw [isAbstract,made.flags]
    exact cites.concrete
  · rw [← lists,same_iff,same_iff,same_iff.mp becomes]

theorem Answers.realizes (answers : Answers marker argument w w' t) (indexed : Indexed w)
    (closed : w.program.Formed [] argument) :
    (w'.program.typeAt t).isAbstract = false ∧ (w'.program.typeAt t).generics = [] ∧
      Realizes w'.own w'.program (.applied marker [argument]) t := by
  have after := answers.indexed indexed closed
  cases answers with
  | @plain i answer same =>
    subst same
    have found : i ∈ w'.own.index.lookup w'.program marker argument := by
      rw [answer]
      exact .head _
    obtain ⟨member,chosen⟩ := mem_filter.mp found
    obtain ⟨marked,alike⟩ := Bool.and_eq_true_iff.mp chosen
    obtain ⟨cites,plain⟩ := indexed.plain i member
    refine ⟨cites.concrete,plain,.plain member rfl ⟨_,cites.listed,?_⟩⟩
    rw [eq_of_beq marked]
    exact same_applied alike
  | @known place bound i e none answer at_ found same =>
    subst same
    have member := mem_of_getElem? at_
    have among := mem_of_find?_eq_some found
    have alike : w'.program.same e.argument bound = true := by simpa using find?_some found
    obtain ⟨rfl,becomes⟩ := same_of_lookupGeneric indexed answer at_ (indexed.made i member e among).one alike
    exact after.realizes member among becomes
  | @made place bound i e none answer at_ missing cloned own =>
    have part := closed.part (lookupGeneric_eq answer).2
    obtain ⟨argument_eq,fresh⟩ := specialize_instance indexed.formed part indexed.fits.home cloned
    obtain ⟨shells,specialized⟩ := specialize_specialized indexed.formed part.declares cloned
    have kept := specialized.grown.headers
    have old := mem_of_getElem? at_
    have one : (w.program.typeAt i.implementation).generics.length = 1 := by
      rw [← kept.generics (indexed.fits.generic i old)]
      exact fresh.one
    obtain ⟨rfl,becomes⟩ := same_of_lookupGeneric indexed answer at_ one (same_iff.mpr rfl)
    have member : { i with specializations := i.specializations ++ [e] } ∈ w'.own.index.generic := by
      refine mem_of_getElem? (i := place) ?_
      rw [own,record,getElem?_modify,at_]
      simp
    refine Indexed.realizes (i := { i with specializations := i.specializations ++ [e] }) after member
      (mem_append_right _ (.head _)) ?_
    have image := (indexed.pattern_formed old).mapParams fun _ _ => part
    rw [argument_eq,kept.same_eq indexed.formed.grounded image.declares closed.declares]
    exact becomes

variable {typeclass : TypeRef} {m : MethodId} {i : InstructionId} {b : Body} {pre : List InstructionId}

/-- What happens between one request and the next, successful or not: the resolver answers a request, weaves an
    instruction or queues types to weave, or something else declares more or changes bodies. -/
inductive Moves : Workspace Resolver → Workspace Resolver → Prop
  | ask {w : Workspace Resolver} {typeclass : TypeRef} (closed : w.program.Formed [] typeclass) :
      Moves w ((resolve typeclass).run w).2
  | weave {w : Workspace Resolver} {m : MethodId} {b : Body} {i : InstructionId}
      (body : (w.program.methodAt m).body = some b) (member : i ∈ b.code) : Moves w ((weaveInstruction m i).run w).2
  | enqueue {w : Workspace Resolver} {more : List TypeId} (declared : ∀ t ∈ more, t.index < w.program.types.size) :
      Moves w { w with own := { w.own with queue := w.own.queue ++ more } }
  | edit {w : Workspace Resolver} {q : Program} (formed : q.WellFormed) (kept : Keeps signature w.program q)
      (modules : q.modules.size = w.program.modules.size) : Moves w { w with program := q }

/-- The outcome is a success, or the state is as it was. -/
def Unharmed {α : Type} (w : Workspace Resolver) (r : Except Failure α × Workspace Resolver) : Prop :=
  (∃ a, r.1 = .ok a) ∨ r.2 = w

theorem specialization_unharmed (sound : Sound w)
    (whole : w.program.Formed scope argument) : Unharmed w ((specialization place argument).run w) := by
  rw [specialization,run_own_bind,run_program_bind]
  dsimp only
  split
  · exact .inl ⟨_,rfl⟩
  · refine run_bind_cases (R := Unharmed w) (fun f failed => .inr ?_) fun e x cloned => .inl ⟨_,rfl⟩
    -- a clone that is not refused is made, so the program was not touched
    rw [Weaving.run_cloning] at failed ⊢
    cases refused : refusal? w.program ((w.own.index.generic[place]?).getD default).implementation argument with
    | none =>
      have closed := whole.closed (refusal?_eq_none refused).2.2
      obtain ⟨e,q,done⟩ := specialize_answered { delimiter := w.own.config.delimiter } w.own.home sound.formed
        closed refused
      rw [done] at failed
      cases failed
    | some failure => rw [specialize_of_refused refused]

theorem resolve_unharmed (sound : Sound w) (whole : w.program.Formed scope typeclass) :
    Unharmed w ((resolve typeclass).run w) := by
  rw [resolve,run_own_bind,run_program_bind]
  dsimp only
  split
  · exact .inr rfl
  · next marker argument =>
    split
    · have formed := whole.part (mem_parts_applied.mpr (.inr ⟨argument,.head _,mem_parts_self _⟩))
      split
      · exact .inl ⟨_,rfl⟩
      · exact .inr rfl
      · split
        · exact .inr rfl
        · next place bound answer => exact specialization_unharmed sound (formed.part (lookupGeneric_eq answer).2)
        · exact .inr rfl
    · exact .inr rfl
  · exact .inr rfl

/-- A failure left the state as it was, or as it was after a request was answered. -/
def Halted (w : Workspace Resolver) (r : Except Failure Unit × Workspace Resolver) : Prop :=
  ∀ f, r.1 = .error f → r.2 = w ∨ ∃ typeclass t, w.program.Formed [] typeclass ∧ (resolve typeclass).run w = (.ok t,r.2)

theorem weaveInstruction_halted (sound : Sound w) (body : (w.program.methodAt m).body = some b) (member : i ∈ b.code) :
    Halted w ((weaveInstruction m i).run w) := by
  rw [weaveInstruction,run_own_bind,run_program_bind]
  split
  · exact fun _ _ => .inl rfl
  · next typeclass method request =>
    dsimp only
    split
    · rintro _ ⟨⟩
    · next closed =>
      have operand := (sound.formed.body body).operands i member
      rw [(request?_eq_some request).2.1] at operand
      have formed : w.program.Formed [] typeclass := (operand.2.2 _ (.head _)).closed (Bool.eq_false_iff.mpr closed)
      refine run_bind_cases (R := Halted w) (fun _ failed _ _ => .inl ?_) fun t x answered => ?_
      · have unharmed := resolve_unharmed sound formed
        rw [run_tryCatch_eq] at failed ⊢
        rcases ran : (resolve typeclass).run w with ⟨f | t,v⟩
        · rw [ran] at unharmed
          exact unharmed.resolve_left (by rintro ⟨_,⟨⟩⟩)
        · rw [ran] at failed
          cases failed
      · have answered := run_tryCatch_eq_ok.mp answered
        rw [run_program_bind]
        split
        · exact fun _ _ => .inr ⟨typeclass,t,formed,answered⟩
        · rintro _ ⟨⟩

/-- What a move comes to: perhaps a request is answered, and after that no declaration changes, and of the resolver only
    the queue and the number of calls. -/
structure Moved (w w' : Workspace Resolver) : Prop where
  sound : Sound w'
  answered : ∃ x, (x = w ∨ ∃ marker argument t, w.program.Formed [] argument ∧ Answers marker argument w x t) ∧
    Keeps signature x.program w'.program ∧ ∃ queue callSites, w'.own = { x.own with queue, callSites }

theorem Moved.refl (sound : Sound w) : Moved w w := ⟨sound,w,.inl rfl,.refl _ _,_,_,rfl⟩

theorem moved_of_resolve (sound : Sound w) (closed : w.program.Formed [] typeclass)
    (done : (resolve typeclass).run w = (.ok t,w')) : Moved w w' := by
  obtain ⟨marker,argument,rfl,-,answers⟩ := resolve_eq_ok done
  have formed := closed.part (mem_parts_applied.mpr (.inr ⟨argument,.head _,mem_parts_self _⟩))
  exact ⟨(answers.sound sound formed).1,w',.inr ⟨marker,argument,t,formed,answers⟩,.refl _ _,_,_,rfl⟩

theorem moved_of_weaves (sound : Sound w) (body : (w.program.methodAt m).body = some b) (member : i ∈ b.code)
    (weaves : Weaves m i w w') : Moved w w' := by
  cases weaves with
  | plain request same =>
    subst same
    exact .refl sound
  | left request isOpen program own =>
    refine ⟨⟨by rw [program]; exact sound.formed,by rw [program,own]; exact sound.fits⟩,w,.inl rfl,?_,_,_,own⟩
    rw [program]
    exact .refl _ _
  | resolved request closed answers edited own =>
    obtain ⟨pre,post,code⟩ := append_of_mem member
    obtain ⟨middle,-,-,still,replaced⟩ := replaced_of_answers sound body code request closed answers edited
    have formed := request_formed ((sound.formed.body body).operands i member) request closed
    exact ⟨replaced.sound middle own,_,.inr ⟨_,_,_,formed,answers⟩,
      (replaced.beside middle.formed still code).signatures,_,_,own⟩

theorem Moves.moved (move : Moves w w') (sound : Sound w) : Moved w w' := by
  cases move with
  | @ask typeclass closed =>
    rcases ran : (resolve typeclass).run w with ⟨f | t,v⟩
    · have unharmed := resolve_unharmed sound closed
      rw [ran] at unharmed
      obtain rfl : v = w := unharmed.resolve_left nofun
      exact .refl sound
    · exact moved_of_resolve sound closed ran
  | @weave m b i body member =>
    rcases ran : (weaveInstruction m i).run w with ⟨f | u,v⟩
    · have halted := weaveInstruction_halted sound body member
      rw [ran] at halted
      rcases halted f rfl with same | ⟨typeclass,t,closed,done⟩
      · obtain rfl : v = w := same
        exact .refl sound
      · exact moved_of_resolve sound closed done
    · exact moved_of_weaves sound body member (weaveInstruction_eq_ok ran)
  | @enqueue more declared =>
    have fits := sound.fits
    refine ⟨⟨sound.formed,fits.home,fits.plain,fits.generic,fits.made,fun t member => ?_⟩,w,.inl rfl,.refl _ _,_,_,rfl⟩
    exact (mem_append.mp member).elim (fits.queue t) (declared t)
  | edit formed kept modules => exact ⟨⟨formed,sound.fits.mono kept.size_le modules⟩,w,.inl rfl,kept,_,_,rfl⟩

theorem Moves.indexed (move : Moves w w') (indexed : Indexed w) : Indexed w' := by
  obtain ⟨sound,x,cause,kept,_,_,own⟩ := move.moved indexed.toSound
  refine Indexed.mono ?_ sound kept (by rw [own])
  rcases cause with rfl | ⟨marker,argument,t,closed,answers⟩
  · exact indexed
  · exact answers.indexed indexed closed

theorem indexed_of_moves (moves : ReflTransGen Moves w w') (indexed : Indexed w) : Indexed w' := by
  induction moves with
  | refl => exact indexed
  | tail _ move ih => exact move.indexed ih

theorem Woven.moves {P : Failure → Prop} {r : Except Failure Unit × Workspace Resolver} (woven : Woven P w r) :
    ReflTransGen Moves w r.2 := by
  induction woven with
  | done => exact .refl
  | left => exact .refl
  | failed _ body member ran =>
    have move := Moves.weave body member
    rw [ran] at move
    exact .single move
  | step _ _ body member ran _ ih =>
    have move := Moves.weave body member
    rw [ran] at move
    exact .head move ih

theorem sound_of_moves (moves : ReflTransGen Moves w w') (sound : Sound w) : Sound w' := by
  induction moves with
  | refl => exact sound
  | tail _ move ih => exact (move.moved ih).sound

theorem weaveQueue_moves {n : Nat} (sound : Sound w) : ReflTransGen Moves w ((weaveQueue n place).run w).2 :=
  (weaveQueue_woven (P := fun _ => True) trivial sound).moves

theorem run_moves {bound : Nat} (sound : Sound w) : ReflTransGen Moves w ((run bound).run w).2 := by
  rw [run,run_own_bind,run_program_bind,Weaving.run_setOwn_bind]
  refine .head (.enqueue fun t member => ?_) (weaveQueue_moves (queued_sound sound))
  exact sound.formed.listed.allTypes (mem_filter.mp member).1

/-- Asked at any point of a run, before it or after it, a resolver answers a closed request with a type that can be
    constructed and that realizes the request. -/
theorem answer_realizes {home : ModuleId} {config : Config} {bench : Workbench} {log : List String} (linked : Linked p)
    (place : home.index < p.modules.size) (steps : ReflTransGen Workbench.Step { program := p, home, config } bench)
    (moves : ReflTransGen Moves ⟨bench.program,start bench.program bench.home bench.config,log⟩ w) :
    (∀ bound, ReflTransGen Moves w ((run bound).run w).2) ∧
      ∀ typeclass t w', w.program.Formed [] typeclass → (resolve typeclass).run w = (.ok t,w') →
        (w'.program.typeAt t).isAbstract = false ∧ (w'.program.typeAt t).generics = [] ∧
          Realizes w'.own w'.program typeclass t := by
  have sound := Workbench.sound_of_steps linked.wellFormed place steps
  have indexed := indexed_of_moves moves (start_indexed sound.formed sound.place)
  refine ⟨fun bound => run_moves indexed.toSound,fun typeclass t w' closed done => ?_⟩
  obtain ⟨marker,argument,rfl,-,answers⟩ := resolve_eq_ok done
  have formed := closed.part (TypeRef.mem_parts_applied.mpr (.inr ⟨argument,.head _,TypeRef.mem_parts_self _⟩))
  exact answers.realizes indexed formed

/-- A typeclass with two generic implementations, for lists and for the implementation itself, and a request for lists. -/
def mirrors : Document :=
  { moduleName := "Mirrors"
    types :=
      [some (.typeclass "Show"),
       some { name := "ShowList", generics := ["T"], interfaces := ["Show<System.Collections.Generic.List<!0>>"]
              methods := [{ name := ".ctor" }] },
       some { name := "Mirror", generics := ["T"], interfaces := ["Show<Mirror<!0>>"]
              methods := [{ name := ".ctor" }] },
       some { name := "Main"
              methods :=
                [.static "Run" "System.Object"
                   [resolving "Show<System.Collections.Generic.List<System.Int32>>",
                    "ret"]] }] }

def showOf (t : TypeId) : TypeRef := .applied ⟨13⟩ [.applied t [.decl ⟨4⟩]]

theorem answer_realizes_mirrors : ∃ home p w t x u y, mirrors.link Program.core [CoreLibrary.home] = .ok (home,p) ∧
    ReflTransGen Moves ⟨p,start p home {},[]⟩ w ∧
    ((resolve (showOf ⟨7⟩)).run w = (.ok t,x) ∧ (x.program.typeAt t).isAbstract = false ∧
      (x.program.typeAt t).generics = [] ∧ Realizes x.own x.program (showOf ⟨7⟩) t ∧ x.program.Implements t (showOf ⟨7⟩)) ∧
    (resolve (showOf ⟨15⟩)).run w = (.ok u,y) ∧ (y.program.typeAt u).isAbstract = false ∧
      (y.program.typeAt u).generics = [] ∧ Realizes y.own y.program (showOf ⟨15⟩) u ∧
      ¬y.program.Implements u (showOf ⟨15⟩) := by
  obtain ⟨home,p,linked,evaluated⟩ := mirrors.link_passes (f := fun home p =>
    let w := ((run budget).run ⟨p,start p home {},[]⟩).2
    Runs.passes ((resolve (showOf ⟨7⟩)).run w) fun t x => Runs.passes ((resolve (showOf ⟨15⟩)).run w) fun u y =>
      decide (home.index < p.modules.size) && decide (w.program.Formed [] (showOf ⟨7⟩)) &&
      decide (w.program.Formed [] (showOf ⟨15⟩)) &&
      ((x.program.typeAt t).interfaces.any fun a => x.program.same a (showOf ⟨7⟩)) &&
      !((y.program.typeAt u).interfaces.any fun a => y.program.same a (showOf ⟨15⟩))) (by decide +kernel)
  obtain ⟨t,x,lists,evaluated⟩ := Runs.exists_of_passes evaluated
  obtain ⟨u,y,mirror,evaluated⟩ := Runs.exists_of_passes evaluated
  simp only [Bool.and_eq_true,decide_eq_true_eq,Bool.not_eq_true',List.any_eq_true,List.any_eq_false] at evaluated
  obtain ⟨⟨⟨⟨place,first⟩,second⟩,implements⟩,missing⟩ := evaluated
  have from_ := Linked.core.link linked
  have steps : ReflTransGen Workbench.Step { program := p, home } { program := p, home } := .refl
  have start_ : ReflTransGen Moves ⟨p,start p home {},[]⟩ ⟨p,start p home {},[]⟩ := .refl
  have moves := (answer_realizes from_ place steps start_).1 budget
  have answers := (answer_realizes from_ place steps moves).2
  obtain ⟨concrete,plain,realizes⟩ := answers _ t x first lists
  obtain ⟨concrete',plain',realizes'⟩ := answers _ u y second mirror
  refine ⟨home,p,_,t,x,u,y,linked,moves,⟨lists,concrete,plain,realizes,implements⟩,mirror,concrete',
    plain',realizes',?_⟩
  rintro ⟨a,member,same⟩
  exact missing a member same

end Resolver
end Loom
