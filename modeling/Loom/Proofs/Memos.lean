import Loom.Proofs.Instances
import Loom.Proofs.Naming

/-!
What a resolver remembers. A generic implementation keeps the clones that were made of it, so for one argument it is
cloned once. A type that implements several typeclasses stands in the index several times and keeps clones of its own
each time, all of one name.
-/
namespace Loom

open List Program Cloning Implementation
open Relation (ReflTransGen)

/-- What the index says about an implementation, whatever was made of it. -/
def Implementation.declared (i : Implementation) : TypeId × TypeId × TypeRef := (i.marker,i.implementation,i.argument)

namespace Resolver

variable {p q : Program} {r : Resolver} {w w' : Workspace Resolver} {t marker : TypeId} {argument typeclass : TypeRef}
  {e f : Entry} {delimiter : String}

/-- The entry is for a clone of the type, named for the type and the argument. -/
structure Remembers (p : Program) (delimiter : String) (t : TypeId) (e : Entry) : Prop where
  generic : e.generic = t
  old : t.index < p.types.size
  closed : p.Formed [] e.argument
  inside : e.specialized.index < p.types.size
  name : p.fullName e.specialized = p.fullName t ++ delimiter ++ e.argument.fullName p

theorem Remembers.mono (kept : Keeps TypeDecl.header p q) (grounded : p.Grounded) (remembers : Remembers p delimiter t e) :
    Remembers q delimiter t e where
  generic := remembers.generic
  old := Nat.lt_of_lt_of_le remembers.old kept.size_le
  closed := remembers.closed.mono kept
  inside := Nat.lt_of_lt_of_le remembers.inside kept.size_le
  name := by
    rw [kept.fullName_eq grounded remembers.inside,kept.fullName_eq grounded remembers.old,
      kept.fullName_ref_eq grounded remembers.closed.declares]
    exact remembers.name

theorem specialize_remembers {style : CloneStyle} {home : ModuleId} (formed : p.WellFormed) (closed : p.Formed [] argument)
    (done : (specialize style home t argument).run p = (.ok e,q)) :
    e.argument = argument ∧ Remembers q style.delimiter t e := by
  obtain ⟨shells,specialized⟩ := specialize_specialized formed closed.declares done
  obtain ⟨shells',x,y,accepted,-⟩ := specialize_phases done
  obtain ⟨generic,argument_eq⟩ := specialized.root_eq
  have old := index_of_accepted accepted
  have kept := specialized.grown.headers
  have self := Entry.mem_flatten_self e
  obtain ⟨inside,rest,original,clone⟩ := (specialize_mirrors formed.arranged done).names e self
  have none : rest = "" := by
    rw [generic] at original
    exact (String.append_right_inj _).mp (original.symm.trans String.append_empty.symm)
  refine ⟨argument_eq,generic,Nat.lt_of_lt_of_le old kept.size_le,?_,inside,?_⟩
  · rw [argument_eq]
    exact closed.mono kept
  · rw [clone,none,String.append_empty,argument_eq,kept.fullName_eq formed.grounded old,
      kept.fullName_ref_eq formed.grounded closed.declares]

/-- The memos hold clones for different arguments each, and the report lists the clones of all memos. -/
structure Recorded (w : Workspace Resolver) : Prop where
  each : ∀ i ∈ w.own.index.generic, ∀ e ∈ i.specializations,
    Remembers w.program w.own.config.delimiter i.implementation e
  distinct : ∀ i ∈ w.own.index.generic,
    i.specializations.Pairwise fun e f => w.program.same e.argument f.argument = false
  reported : w.own.specializations.Perm (w.own.index.generic.flatMap Implementation.specializations)

theorem start_recorded {home : ModuleId} {config : Config} {log : List String} : Recorded ⟨p,start p home config,log⟩ := by
  have fresh (i : Implementation) (member : i ∈ (start p home config).index.generic) : i.specializations = [] := by
    obtain ⟨t,-,found⟩ := mem_flatMap.mp (mem_filter.mp member).1
    exact (mem_implementationsOf found).2.1
  have empty : (start p home config).index.generic.flatMap Implementation.specializations = [] :=
    flatMap_eq_nil_iff.mpr fresh
  refine ⟨fun i member e among => ?_,fun i member => ?_,?_⟩
  · rw [fresh i member] at among
    cases among
  · rw [fresh i member]
    exact .nil
  · rw [empty]
    exact .refl _

theorem Recorded.mono (recorded : Recorded w) (kept : Keeps TypeDecl.header w.program w'.program)
    (grounded : w.program.Grounded) (index : w'.own.index = w.own.index) (config : w'.own.config = w.own.config)
    (specializations : w'.own.specializations = w.own.specializations) : Recorded w' := by
  refine ⟨?_,?_,by rw [index,specializations]; exact recorded.reported⟩
  · rw [index,config]
    exact fun i member e among => (recorded.each i member e among).mono kept grounded
  · rw [index]
    intro i member
    refine (recorded.distinct i member).imp_of_mem fun first second differ => ?_
    rw [kept.same_eq grounded (recorded.each i member _ first).closed.declares
      (recorded.each i member _ second).closed.declares]
    exact differ

theorem flatMap_modify_perm {place : Nat} {i : Implementation} {l : List Implementation} (at_ : l[place]? = some i) :
    ((l.modify place fun i => { i with specializations := i.specializations ++ [e] }).flatMap
      Implementation.specializations).Perm (l.flatMap Implementation.specializations ++ [e]) := by
  induction l generalizing place with
  | nil => cases at_
  | cons j rest ih =>
    cases place with
    | zero =>
      rw [modify_zero_cons,flatMap_cons,flatMap_cons,append_assoc,append_assoc]
      exact perm_append_comm.append_left _
    | succ place =>
      rw [modify_succ_cons,flatMap_cons,flatMap_cons,append_assoc]
      exact (ih at_).append_left _

theorem Answers.recorded (answers : Answers marker argument w w' t) (sound : Sound w) (closed : w.program.Formed [] argument)
    (recorded : Recorded w) : Recorded w' := by
  cases answers with
  | plain answer same =>
    subst same
    exact recorded
  | known none answer at_ found same =>
    subst same
    exact recorded
  | @made place bound j e none answer at_ missing cloned own =>
    have part := closed.part (lookupGeneric_eq answer).2
    obtain ⟨shells,specialized⟩ := specialize_specialized sound.formed part.declares cloned
    obtain ⟨argument_eq,fresh⟩ := specialize_remembers sound.formed part cloned
    have before : Recorded ⟨w'.program,w.own,w.log⟩ :=
      recorded.mono specialized.grown.headers sound.formed.grounded rfl rfl rfl
    refine ⟨?_,?_,?_⟩
    · rw [own]
      intro i member f among
      rcases mem_record member with old | ⟨k,there,rfl⟩
      · exact before.each i old f among
      · obtain rfl := Option.some.inj (at_.symm.trans there)
        rcases mem_append.mp among with earlier | last
        · exact before.each _ (mem_of_getElem? at_) f earlier
        · rw [mem_singleton.mp last]
          exact fresh
    · rw [own]
      intro i member
      rcases mem_record member with old | ⟨k,there,rfl⟩
      · exact before.distinct i old
      · obtain rfl := Option.some.inj (at_.symm.trans there)
        have listed := mem_of_getElem? at_
        refine pairwise_append.mpr ⟨before.distinct _ listed,pairwise_singleton _ _,fun f among g last => ?_⟩
        have differ := find?_eq_none.mp missing f among
        rw [mem_singleton.mp last,argument_eq,specialized.grown.headers.same_eq sound.formed.grounded
          (recorded.each _ listed f among).closed.declares part.declares]
        exact Bool.eq_false_iff.mpr differ
    · rw [own]
      exact (recorded.reported.append_right _).trans (flatMap_modify_perm at_).symm

theorem Moves.recorded (move : Moves w w') (sound : Sound w) (recorded : Recorded w) : Recorded w' ∧
    w'.own.index.generic.map declared = w.own.index.generic.map declared := by
  obtain ⟨after,x,cause,kept,_,_,own⟩ := move.moved sound
  rcases cause with rfl | ⟨marker,argument,t,closed,answers⟩
  · exact ⟨recorded.mono kept.header sound.formed.grounded (by rw [own]) (by rw [own]) (by rw [own]),by rw [own]⟩
  · have middle := answers.sound sound closed
    refine ⟨(answers.recorded sound closed recorded).mono kept.header middle.1.formed.grounded (by rw [own]) (by rw [own])
      (by rw [own]),?_⟩
    rw [own]
    cases answers with
    | plain answer same => rw [same]
    | known none answer at_ found same => rw [same]
    | @made place bound j e none answer at_ missing cloned own =>
      rw [own]
      refine ext_getElem? fun k => ?_
      rw [record,getElem?_map,getElem?_map,getElem?_modify]
      cases w.own.index.generic[k]? with
      | none => rfl
      | some i => by_cases here : place = k <;> simp [here,declared]

theorem recorded_of_moves (moves : ReflTransGen Moves w w') (sound : Sound w) (recorded : Recorded w) : Recorded w' ∧
    w'.own.index.generic.map declared = w.own.index.generic.map declared := by
  induction moves with
  | refl => exact ⟨recorded,rfl⟩
  | tail moves move ih =>
    obtain ⟨after,same⟩ := move.recorded (sound_of_moves moves sound) ih.1
    exact ⟨after,same.trans ih.2⟩

/-- A resolver is called: for one typeclass, open or closed, or for a run. What it has done stays when it fails. -/
inductive Calls : Workspace Resolver → Workspace Resolver → Prop
  | resolve {w : Workspace Resolver} {scope : List GenericParam} {typeclass : TypeRef}
      (whole : w.program.Formed scope typeclass) : Calls w ((resolve typeclass).run w).2
  | run {w : Workspace Resolver} {bound : Nat} : Calls w ((run bound).run w).2

theorem resolve_of_open {scope : List GenericParam} (indexed : Indexed w) (whole : w.program.Formed scope typeclass)
    (isOpen : typeclass.isOpen = true) : ((resolve typeclass).run w).2 = w := by
  refine (resolve_unharmed indexed.toSound whole).elim (fun ⟨t,answered⟩ => ?_) id
  obtain ⟨marker,argument,rfl,-,answers⟩ := resolve_eq_ok (Prod.ext answered rfl)
  cases answers with
  | plain answer same => exact same
  | known none answer at_ found same => exact same
  | @made place bound i e none answer at_ missing cloned own =>
    obtain ⟨_,_,_,accepted,-⟩ := specialize_phases cloned
    obtain ⟨one,-,closed⟩ := refusal?_eq_none accepted
    have part : w.program.Formed scope bound := whole.part (TypeRef.mem_parts_applied.mpr
      (.inr ⟨argument,.head _,(lookupGeneric_eq answer).2⟩))
    -- the pattern is closed at what its parameter is bound to, and so is what it matches
    have image := (indexed.pattern_formed (mem_of_getElem? at_)).mapParams fun _ _ => part.closed closed
    obtain ⟨-,same⟩ := same_of_lookupGeneric indexed answer at_ one (same_iff.mpr rfl)
    have shut : argument.isOpen = false := by
      rw [← isOpen_canonical,← same_iff.mp same,isOpen_canonical]
      exact image.isOpen_eq
    rw [TypeRef.isOpen_applied] at isOpen
    simp [shut] at isOpen

theorem Calls.moves (call : Calls w w') (indexed : Indexed w) : ReflTransGen Moves w w' := by
  cases call with
  | @resolve scope typeclass whole =>
    cases isOpen : typeclass.isOpen with
    | true => rw [resolve_of_open indexed whole isOpen]
    | false => exact .single (.ask (whole.closed isOpen))
  | run => exact run_moves indexed.toSound

theorem moves_of_calls (calls : ReflTransGen Calls w w') (indexed : Indexed w) : ReflTransGen Moves w w' := by
  induction calls with
  | refl => exact .refl
  | tail _ call ih => exact ih.trans (call.moves (indexed_of_moves ih indexed))

theorem countP_memo {memo : List Entry} {own : TypeId} (generic : ∀ e ∈ memo, e.generic = own)
    (distinct : memo.Pairwise fun e f => p.same e.argument f.argument = false) : memo.countP (p.isEntryFor · t argument) =
      if own == t && memo.any (fun e => p.same e.argument argument) then 1 else 0 := by
  induction memo with
  | nil => simp
  | cons e rest ih =>
    obtain ⟨others,distinct⟩ := pairwise_cons.mp distinct
    have here : e.generic = own := generic e (.head _)
    rw [countP_cons,ih (fun f member => generic f (.tail _ member)) distinct,isEntryFor,here,any_cons]
    by_cases found : p.same e.argument argument = true
    · have none : rest.any (fun f => p.same f.argument argument) = false := by
        rw [any_eq_false]
        intro f member same
        have differ := others f member
        rw [Bool.eq_false_iff,Ne,same_iff,same_iff.mp found,same_iff.mp same] at differ
        exact differ rfl
      simp [found,none]
    · simp [found]

theorem countP_memos {l : List Implementation} (generic : ∀ i ∈ l, ∀ e ∈ i.specializations, e.generic = i.implementation)
    (distinct : ∀ i ∈ l, i.specializations.Pairwise fun e f => p.same e.argument f.argument = false) :
    (l.flatMap Implementation.specializations).countP (p.isEntryFor · t argument) =
      l.countP fun i => i.implementation == t && i.specializations.any fun e => p.same e.argument argument := by
  induction l with
  | nil => rfl
  | cons i rest ih =>
    rw [flatMap_cons,countP_append,countP_cons,ih (fun j member => generic j (.tail _ member))
      (fun j member => distinct j (.tail _ member)),countP_memo (generic i (.head _)) (distinct i (.head _)),Nat.add_comm]

/-- The report has no two clones of one type for one argument exactly if no two implementations by one type have been
    cloned for one argument. -/
theorem Recorded.pairwise_iff (recorded : Recorded w) :
    (w.own.specializations.Pairwise fun e f => w.program.isEntryFor e f.generic f.argument = false) ↔
      w.own.index.generic.Pairwise fun i j => i.implementation = j.implementation →
        ∀ e ∈ i.specializations, ∀ f ∈ j.specializations, w.program.same e.argument f.argument = false := by
  have apart (e f : Entry) : w.program.isEntryFor e f.generic f.argument = false ↔
      (e.generic = f.generic → w.program.same e.argument f.argument = false) := by
    rw [Bool.eq_false_iff,Ne,isEntryFor_iff,not_and,Bool.eq_false_iff]
  have symmetric {e f : Entry} (differ : w.program.isEntryFor e f.generic f.argument = false) :
      w.program.isEntryFor f e.generic e.argument = false := by
    rw [apart] at differ ⊢
    intro same
    rw [Bool.eq_false_iff,Ne,same_iff,eq_comm,← same_iff]
    exact Bool.eq_false_iff.mp (differ same.symm)
  have inside : ∀ i ∈ w.own.index.generic,
      i.specializations.Pairwise fun e f => w.program.isEntryFor e f.generic f.argument = false := fun i member =>
    (recorded.distinct i member).imp fun differ => (apart _ _).mpr fun _ => differ
  rw [recorded.reported.pairwise_iff symmetric,pairwise_flatMap,and_iff_right inside]
  refine Pairwise.iff_of_mem fun {i j} first second => ?_
  have generic (e : Entry) (among : e ∈ i.specializations) : e.generic = i.implementation :=
    (recorded.each i first e among).generic
  have generic' (f : Entry) (among : f ∈ j.specializations) : f.generic = j.implementation :=
    (recorded.each j second f among).generic
  constructor
  · intro differ same e among f among'
    exact (apart e f).mp (differ e among f among') ((generic e among).trans (same.trans (generic' f among').symm))
  · intro differ e among f among'
    refine (apart e f).mpr fun same => differ ?_ e among f among'
    rw [← generic e among,same,generic' f among']

/-- After any calls, the report has no two clones of one type for one argument exactly if no type was cloned for one
    argument in two of its implementations. For each argument a type is cloned once in each implementation at most: there
    are as many clones as implementations in which it was cloned for the argument, and they have one name. The index says
    of the implementations what it said at the start, so a type that implements one typeclass is cloned once at most. -/
theorem one_clone_iff {home : ModuleId} {config : Config} {bench : Workbench} {log : List String}
    (linked : Linked p) (place : home.index < p.modules.size)
    (steps : ReflTransGen Workbench.Step { program := p, home, config } bench)
    (calls : ReflTransGen Calls ⟨bench.program,start bench.program bench.home bench.config,log⟩ w) :
    ((w.own.specializations.Pairwise fun e f => w.program.isEntryFor e f.generic f.argument = false) ↔
      w.own.index.generic.Pairwise fun i j => i.implementation = j.implementation →
        ∀ e ∈ i.specializations, ∀ f ∈ j.specializations, w.program.same e.argument f.argument = false) ∧
    (∀ t argument, w.own.specializations.countP (w.program.isEntryFor · t argument) = w.own.index.generic.countP fun i =>
        i.implementation == t && i.specializations.any fun e => w.program.same e.argument argument) ∧
    (∀ e ∈ w.own.specializations, ∀ f ∈ w.own.specializations, w.program.isEntryFor e f.generic f.argument = true →
      w.program.fullName e.specialized = w.program.fullName f.specialized) ∧
    w.own.index.generic.map Implementation.declared =
      (start bench.program bench.home bench.config).index.generic.map Implementation.declared := by
  have sound := Workbench.sound_of_steps linked.wellFormed place steps
  have indexed : Indexed ⟨bench.program,start bench.program bench.home bench.config,log⟩ :=
    start_indexed sound.formed sound.place
  obtain ⟨recorded,same⟩ := recorded_of_moves (moves_of_calls calls indexed) indexed.toSound start_recorded
  refine ⟨recorded.pairwise_iff,fun t argument => ?_,fun e first f second alike => ?_,same⟩
  · rw [recorded.reported.countP_eq]
    exact countP_memos (fun i member e among => (recorded.each i member e among).generic) recorded.distinct
  · obtain ⟨i,listed,among⟩ := List.mem_flatMap.mp (recorded.reported.mem_iff.mp first)
    obtain ⟨j,listed',among'⟩ := List.mem_flatMap.mp (recorded.reported.mem_iff.mp second)
    have here := recorded.each i listed e among
    have there := recorded.each j listed' f among'
    obtain ⟨generic,argument⟩ := isEntryFor_iff.mp alike
    rw [here.name,there.name,← here.generic,← there.generic,generic,
      Program.fullName_eq_of_same argument here.closed there.closed]

/-- Two typeclasses, a generic type that implements both for lists and one that implements the first for boxes. -/
def wardrobe : Document :=
  { moduleName := "Wardrobe"
    types :=
      [some (.typeclass "Show"),some (.typeclass "Order"),some { name := "Box", generics := ["T"] },
       some { name := "Lists", generics := ["T"]
              interfaces :=
                ["Show<System.Collections.Generic.List<!0>>","Order<System.Collections.Generic.List<!0>>"]
              methods := [{ name := ".ctor" }] },
       some { name := "Boxes", generics := ["T"], interfaces := ["Show<Box<!0>>"], methods := [{ name := ".ctor" }] },
       some { name := "Main"
              methods :=
                [.static "Run" "System.Object"
                   [resolving "Show<System.Collections.Generic.List<System.Int32>>",
                    "pop",
                    resolving "Order<System.Collections.Generic.List<System.Int32>>",
                    "pop",resolving "Show<Box<System.Int32>>","pop",
                    resolving "Show<System.Collections.Generic.List<System.Int32>>",
                    "ret"]] }] }

theorem one_clone_iff_wardrobe : ∃ home p w, wardrobe.link Program.core [CoreLibrary.home] = .ok (home,p) ∧
    (run budget).run ⟨p,start p home {},[]⟩ = (.ok (),w) ∧ w.own.callSites = 4 ∧ (w.own.index.generic.countP fun i =>
      i.implementation == ⟨16⟩ && i.specializations.any fun e => w.program.same e.argument (.decl ⟨4⟩)) = 2 ∧
    (w.own.index.generic.countP fun i =>
      i.implementation == ⟨17⟩ && i.specializations.any fun e => w.program.same e.argument (.decl ⟨4⟩)) = 1 ∧
    ¬w.own.index.generic.Pairwise fun i j => i.implementation = j.implementation →
      ∀ e ∈ i.specializations, ∀ f ∈ j.specializations, w.program.same e.argument f.argument = false := by
  obtain ⟨home,p,linked,evaluated⟩ := wardrobe.link_passes (f := fun home p =>
    Runs.passes ((run budget).run ⟨p,start p home {},[]⟩) fun _ w =>
      decide (home.index < p.modules.size) && decide (w.own.callSites = 4) &&
      decide (w.own.specializations.countP (w.program.isEntryFor · ⟨16⟩ (.decl ⟨4⟩)) = 2) &&
      decide (w.own.specializations.countP (w.program.isEntryFor · ⟨17⟩ (.decl ⟨4⟩)) = 1) &&
      !decide (w.own.specializations.Pairwise fun e f => w.program.isEntryFor e f.generic f.argument = false))
    (by decide +kernel)
  obtain ⟨_,w,done,evaluated⟩ := Runs.exists_of_passes evaluated
  simp only [Bool.and_eq_true,Bool.not_eq_true',decide_eq_true_eq,decide_eq_false_iff_not] at evaluated
  obtain ⟨⟨⟨⟨place,sites⟩,lists⟩,boxes⟩,twice⟩ := evaluated
  have call : Calls ⟨p,start p home {},[]⟩ w := by
    have called : Calls ⟨p,start p home {},[]⟩ ((run budget).run ⟨p,start p home {},[]⟩).2 := .run
    rwa [done] at called
  have steps : ReflTransGen Workbench.Step { program := p, home } { program := p, home } := .refl
  obtain ⟨exact_,count,-,-⟩ := one_clone_iff (Linked.core.link linked) place steps (.single call)
  exact ⟨home,p,w,linked,done,sites,(count _ _).symm.trans lists,(count _ _).symm.trans boxes,
    fun apart => twice (exact_.mpr apart)⟩

end Resolver
end Loom
