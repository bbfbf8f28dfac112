import Loom.Proofs.Provenance

/-!
Modules that grow. Passes add clones at the end of the types of a module. The names of clones hold a mark that tells
them from the names of a document, and all that was there before keeps its signature, so what a module mentions can be
told after any passes.
-/
namespace Loom

open List Cloning
open Program (Agree Keeps Title Within)
open Text (Tidy Balances)
open TypeDecl (signature)

variable {n : Nat} {L : TypeId → Prop} {home : ModuleId} {o p q : Program}
variable {a b : List Char} {argument : TypeRef} {view : SealedRegistry} {u : Unit}

/-- What is left of a text that matches its brackets, after a part that leads to some depth, goes on from there. -/
theorem Text.Balances.of_append {anywhere : Bool} {d e f : Nat} (first : Balances anywhere d a e)
    (whole : Balances anywhere d (a ++ b) f) : Balances anywhere e b f := by
  have noName {c : Char} (mark : c = ',' ∨ c = ' ') : Text.isNameChar c = false := by
    rcases mark with rfl | rfl <;> decide
  induction first with
  | nil d => exact whole
  | opening _ ih =>
    cases whole with
    | opening later => exact ih later
    | separator mark => rcases mark with same | same <;> cases same
    | char name => exact absurd name (by decide)
  | closing _ ih =>
    cases whole with
    | closing later => exact ih later
    | separator mark => rcases mark with same | same <;> cases same
    | char name => exact absurd name (by decide)
  | separator mark _ _ ih =>
    cases whole with
    | opening => rcases mark with same | same <;> cases same
    | closing => rcases mark with same | same <;> cases same
    | separator _ _ later => exact ih later
    | char name => rw [noName mark] at name; cases name
  | char name _ ih =>
    cases whole with
    | opening => exact absurd name (by decide)
    | closing => exact absurd name (by decide)
    | separator mark => rw [noName mark] at name; cases name
    | char _ later => exact ih later

theorem Program.Formed.fullName_eq_text {t : TypeRef} (closed : p.Formed [] t) : t.fullName p = t.text p := by
  refine TypeRef.fullName_eq_text fun u within g => ?_
  rintro rfl
  exact absurd (closed _ within) not_mem_nil

theorem title_of_clone {source name rest : String} (first : Title source) (argument : Tidy name.toList)
    (original : Title (source ++ rest)) : Title (source ++ "$specialized$" ++ name ++ rest) := by
  obtain ⟨tidy,c,front,starts,plain⟩ := first
  have later : Tidy rest.toList := by
    have whole := original.tidy
    rw [String.toList_append] at whole
    exact Text.Balances.of_append tidy whole
  have mark : Tidy "$specialized$".toList := Text.tidy_of_nameChars (by decide)
  constructor
  · simp only [String.toList_append]
    exact ((tidy.append mark).append argument).append later
  · refine ⟨c,front ++ "$specialized$".toList ++ name.toList ++ rest.toList,?_,plain⟩
    simp only [String.toList_append,starts,cons_append]

theorem mark_mem_clone (source name rest : String) : '$' ∈ (source ++ "$specialized$" ++ name ++ rest).toList := by
  simp only [String.toList_append,mem_append]
  exact .inl (.inl (.inr (by decide)))

/-- A type that was declared since some point, or one of given types. -/
def Known (n : Nat) (L : TypeId → Prop) (d : TypeId) : Prop := n ≤ d.index ∨ L d

/-- The program came out of another one by passes over a module, which holds the types from a point on. -/
structure Program.Lineage (n : Nat) (L : TypeId → Prop) (home : ModuleId) (o p : Program) : Prop where
  kept : Keeps signature o p
  titles : ∀ t : TypeId, n ≤ t.index → t.index < p.types.size → Title (p.fullName t)
  marked : ∀ t : TypeId, o.types.size ≤ t.index → t.index < p.types.size → '$' ∈ (p.fullName t).toList
  listed : ∀ t : TypeId, t ∈ p.allTypes home ↔ n ≤ t.index ∧ t.index < p.types.size
  modules : ∃ added, Program.ListedIn home o p added
  traced : p.Traced n (Known n L)

namespace Program.Lineage

theorem of_agree (lineage : o.Lineage n L home p) (agree : Agree signature p q) (modules_eq : q.modules = p.modules)
    (traced : q.Traced n (Known n L)) : o.Lineage n L home q := by
  have names : q.fullName = p.fullName := agree.header.fullName_eq
  refine ⟨lineage.kept.trans agree.keeps,?_,?_,?_,?_,traced⟩
  · intro t new inside
    rw [names]
    exact lineage.titles t new (agree.size_eq ▸ inside)
  · intro t new inside
    rw [names]
    exact lineage.marked t new (agree.size_eq ▸ inside)
  · intro t
    rw [agree.header.allTypes_eq modules_eq,agree.size_eq]
    exact lineage.listed t
  · obtain ⟨added,modules⟩ := lineage.modules
    exact ⟨_,modules.trans (.of_eq modules_eq)⟩

section Specialize

variable (lineage : o.Lineage n L home p) (grounded : o.Grounded)
  (foreign : ∀ d, L d → d.index < o.types.size ∧ Title (o.fullName d))
include lineage grounded foreign

theorem title_of_known {d : TypeId} (known : Known n L d) (inside : d.index < p.types.size) : Title (p.fullName d) := by
  rcases known with new | other
  · exact lineage.titles d new inside
  · obtain ⟨old,title⟩ := foreign d other
    rw [lineage.kept.header.fullName_eq grounded old]
    exact title

theorem tidy_argument (closed : p.Formed [] argument) (given : argument.Mentions (Known n L)) :
    Tidy (argument.fullName p).toList := by
  rw [closed.fullName_eq_text]
  refine (Program.tidy_text fun u within => ⟨?_,fun d element => ?_⟩).1
  · cases u with
    | absent => exact (closed _ within).elim
    | _ => rfl
  · exact lineage.title_of_known grounded foreign (given u within d element) (closed.declares u within d element)

theorem specialize {style : CloneStyle} {source : TypeId} {e : Entry} (formed : p.WellFormed)
    (place : home.index < p.modules.size) (closed : p.Formed [] argument) (given : argument.Mentions (Known n L))
    (member : source ∈ p.allTypes home) (delimiter : style.delimiter = "$specialized$")
    (done : (specialize style home source argument).run p = (.ok e,q)) : o.Lineage n L home q := by
  obtain ⟨shells,specialized⟩ := specialize_specialized formed closed.declares done
  have mirrors := specialize_mirrors formed.arranged done
  have grown := specialized.grown
  have own : ∀ t ∈ p.allTypes home, n ≤ t.index := fun t listed => ((lineage.listed t).mp listed).1
  have low : n ≤ p.types.size := Nat.le_of_lt (Nat.lt_of_le_of_lt (own source member) ((lineage.listed source).mp member).2)
  have generic (c : Entry) (among : c ∈ e.flatten) : c.generic ∈ p.allTypes home :=
    ((mirrors.generics _).mp ⟨c,among,rfl⟩).mem_allTypes formed member
  have clone (t : TypeId) (new : p.types.size ≤ t.index) (inside : t.index < q.types.size) :
      Title (q.fullName t) ∧ '$' ∈ (q.fullName t).toList := by
    obtain ⟨s,among,rfl⟩ := specialized.exists_clone new inside
    obtain ⟨c,flat,record⟩ := left_of_forall₂ specialized.records among
    obtain ⟨-,rest,original,name⟩ := mirrors.names c flat
    have titled (t : TypeId) (listed : t ∈ p.allTypes home) : Title (p.fullName t) :=
      lineage.titles t (own t listed) ((lineage.listed t).mp listed).2
    rw [delimiter,record.specialized] at name
    rw [name]
    refine ⟨title_of_clone (titled source member) (lineage.tidy_argument grounded foreign closed given) ?_,mark_mem_clone _ _ _⟩
    rw [← original]
    exact titled _ (generic c flat)
  have before {t : TypeId} (old : t.index < p.types.size) : q.fullName t = p.fullName t :=
    grown.headers.fullName_eq formed.grounded old
  refine ⟨lineage.kept.trans grown.signatures,?_,?_,?_,?_,?_⟩
  · intro t new inside
    by_cases old : t.index < p.types.size
    · rw [before old]
      exact lineage.titles t new old
    · exact (clone t (Nat.le_of_not_lt old) inside).1
  · intro t new inside
    by_cases old : t.index < p.types.size
    · rw [before old]
      exact lineage.marked t new old
    · exact (clone t (Nat.le_of_not_lt old) inside).2
  · intro t
    rw [specialized.allTypes_eq formed place,mem_append,lineage.listed,specialized.specialized_eq]
    constructor
    · rintro (⟨new,old⟩ | cloned)
      · exact ⟨new,Nat.lt_of_lt_of_le old grown.types.size_le⟩
      · obtain ⟨s,among,rfl⟩ := mem_map.mp cloned
        obtain ⟨new,inside⟩ := (specialized.each s among).new
        exact ⟨Nat.le_trans low new,inside⟩
    · rintro ⟨new,inside⟩
      by_cases old : t.index < p.types.size
      · exact .inl ⟨new,old⟩
      · obtain ⟨s,among,rfl⟩ := specialized.exists_clone (Nat.le_of_not_lt old) inside
        exact .inr (mem_map_of_mem among)
  · obtain ⟨added,modules⟩ := lineage.modules
    exact ⟨_,modules.trans (specialized.listed place)⟩
  · refine specialized.traced (fun d new => .inl new) low given formed (fun s among => ?_) lineage.traced
    obtain ⟨c,flat,record⟩ := left_of_forall₂ specialized.records among
    rw [← record.generic]
    exact own _ (generic c flat)

end Specialize
end Program.Lineage

section Passes

variable (grounded : o.Grounded) (foreign : ∀ d, L d → d.index < o.types.size ∧ Title (o.fullName d))

namespace Specializer

variable {w w' : Workspace Specializer} {source : TypeId} {argument : TypeRef} {e : Entry}

/-- What holds while the markers of the module are followed. -/
structure Tracked (n : Nat) (L : TypeId → Prop) (home : ModuleId) (o : Program) (w : Workspace Specializer) : Prop where
  sound : Sound w
  lineage : o.Lineage n L home w.program
  home_eq : w.own.home = home
  delimiter : w.own.style.delimiter = "$specialized$"
  entries : ∀ e ∈ Entry.flattenAll w.own.registry.entries, e.Traced n w.program

theorem Tracked.mono {s : Specializer} (tracked : Tracked n L home o ⟨p,s,[]⟩) (kept : Keeps signature p q)
    (sound : Sound ⟨q,s,[]⟩) (lineage : o.Lineage n L home q) : Tracked n L home o ⟨q,s,[]⟩ :=
  ⟨sound,lineage,tracked.home_eq,tracked.delimiter,fun e member =>
    (tracked.entries e member).mono kept (tracked.sound.stands e member)⟩

include grounded foreign

theorem Tracked.specialize (tracked : Tracked n L home o w) (closed : w.program.Formed [] argument)
    (given : argument.Mentions (Known n L)) (member : source ∈ w.program.allTypes home)
    (done : (specialize source argument).run w = (.ok e,w')) : Tracked n L home o w' ∧ w.program.Extends w'.program := by
  obtain ⟨⟨sound,-⟩,grown⟩ := specialize_sound tracked.sound closed done
  refine ⟨?_,grown⟩
  rcases specialize_eq_ok done with ⟨rfl,-⟩ | ⟨q,cloned,rfl,own⟩
  · exact tracked
  · rw [tracked.home_eq] at cloned
    have formed := tracked.sound.formed
    have place : home.index < w.program.modules.size := tracked.home_eq ▸ tracked.sound.place
    obtain ⟨new,inside⟩ := (tracked.lineage.listed source).mp member
    obtain ⟨shells,specialized⟩ := specialize_specialized formed closed.declares cloned
    refine ⟨sound,?_,by rw [own]; exact tracked.home_eq,by rw [own]; exact tracked.delimiter,fun c among => ?_⟩
    · exact tracked.lineage.specialize grounded foreign formed place closed given member tracked.delimiter cloned
    · rw [own] at among
      obtain ⟨f,listed,inner⟩ := Entry.mem_flattenAll.mp among
      rcases mem_append.mp listed with known | made
      · have old := Entry.mem_flattenAll.mpr ⟨f,known,inner⟩
        exact (tracked.entries c old).mono grown.signatures (tracked.sound.stands c old)
      · rw [mem_singleton.mp made] at inner
        exact specialized.entry_traced (Nat.le_trans new (Nat.le_of_lt inside)) inner

theorem Tracked.generate {t : TypeId} (tracked : Tracked n L home o w) (member : t ∈ w.program.allTypes home)
    (done : (generate t).run w = (.ok (),w')) : Tracked n L home o w' ∧ w.program.Extends w'.program := by
  obtain ⟨new,inside⟩ := (tracked.lineage.listed t).mp member
  obtain ⟨⟨after,-⟩,grown⟩ := generate_keeps (I := fun v => Tracked n L home o v ∧ t.index < v.program.types.size)
    (fun v v' argument e holds among closed ran => by
      obtain ⟨a,listed,marked⟩ := among
      have given := ((tracked.lineage.traced.types t new).attributes a listed).types argument marked
      obtain ⟨next,grown⟩ := holds.1.specialize grounded foreign closed given
        ((holds.1.lineage.listed t).mpr ⟨new,holds.2⟩) ran
      exact ⟨⟨next,Nat.lt_of_lt_of_le holds.2 grown.types.size_le⟩,grown⟩)
    (tracked.sound.formed.types t inside).members ⟨tracked,inside⟩ done
  exact ⟨after,grown⟩

theorem Tracked.run (tracked : Tracked n L home o w) (done : Specializer.run.run w = (.ok view,w')) :
    Tracked n L home o w' ∧ w.program.Extends w'.program ∧ ∀ e ∈ view.flat, e.Traced n w'.program := by
  obtain ⟨v,loop,rfl,rfl⟩ := run_eq_ok done
  have round (t : TypeId) (member : t ∈ (w.program.moduleAt w.own.home).types) (x y : Workspace Specializer)
      (holds : Tracked n L home o x ∧ w.program.Extends x.program) (ran : (Specializer.generate t).run x = (.ok (),y)) :
      Tracked n L home o y ∧ w.program.Extends y.program := by
    rw [tracked.home_eq] at member
    have among := Program.mem_allTypes_of_top tracked.sound.formed.listed member
    obtain ⟨new,inside⟩ := (tracked.lineage.listed t).mp among
    have still := (holds.1.lineage.listed t).mpr ⟨new,Nat.lt_of_lt_of_le inside holds.2.types.size_le⟩
    obtain ⟨next,grown⟩ := holds.1.generate grounded foreign still ran
    exact ⟨next,holds.2.trans grown⟩
  obtain ⟨after,grown⟩ := Runs.forM_keeps round loop ⟨tracked,.refl _⟩
  have sound := after.sound
  exact ⟨⟨⟨sound.formed,sound.place,sound.stands⟩,after.lineage,after.home_eq,after.delimiter,after.entries⟩,grown,
    after.entries⟩

end Specializer

namespace Resolver

variable {w w' : Workspace Resolver} {m : MethodId} {b : Body} {pre post : List InstructionId} {i : InstructionId} {t : TypeId}

/-- What holds while the requests of the module are answered. -/
structure Tracked (n : Nat) (L : TypeId → Prop) (home : ModuleId) (o : Program) (w : Workspace Resolver) : Prop where
  lineage : o.Lineage n L home w.program
  home_eq : w.own.home = home
  delimiter : w.own.config.delimiter = "$specialized$"
  plain : ∀ i ∈ w.own.index.plain, n ≤ i.implementation.index
  generic : ∀ i ∈ w.own.index.generic, n ≤ i.implementation.index
  made : ∀ i ∈ w.own.index.generic, ∀ e ∈ i.specializations, n ≤ e.specialized.index
  queue : ∀ t ∈ w.own.queue, n ≤ t.index

include grounded foreign

theorem Answers.tracked {marker : TypeId} (answers : Answers marker argument w w' t) (sound : Sound w)
    (tracked : Tracked n L home o w) (closed : w.program.Formed [] argument) (given : argument.Mentions (Known n L)) :
    Tracked n L home o w' ∧ n ≤ t.index := by
  cases answers with
  | @plain i answer same =>
    subst same
    have member : i ∈ w'.own.index.lookup w'.program marker argument := by
      rw [answer]
      exact .head _
    exact ⟨tracked,tracked.plain i (mem_filter.mp member).1⟩
  | known none answer at_ found same =>
    subst same
    exact ⟨tracked,tracked.made _ (mem_of_getElem? at_) _ (mem_of_find?_eq_some found)⟩
  | @made place bound i e none answer at_ missing cloned own =>
    have part := (lookupGeneric_eq answer).2
    have formed := sound.formed
    have inside : home.index < w.program.modules.size := tracked.home_eq ▸ sound.fits.home
    have listed := mem_of_getElem? at_
    have member : i.implementation ∈ w.program.allTypes home :=
      (tracked.lineage.listed _).mpr ⟨tracked.generic i listed,sound.fits.generic i listed⟩
    have low : n ≤ w.program.types.size := Nat.le_trans (tracked.generic i listed) (Nat.le_of_lt (sound.fits.generic i listed))
    rw [tracked.home_eq] at cloned
    obtain ⟨shells,specialized⟩ := specialize_specialized formed (closed.part part).declares cloned
    have new : ∀ c ∈ e.flatten, n ≤ c.specialized.index := fun c among => (specialized.entry_traced low among).own
    refine ⟨⟨?_,?_,?_,?_,?_,?_,?_⟩,new e e.mem_flatten_self⟩
    · exact tracked.lineage.specialize grounded foreign formed inside (closed.part part) (given.part part) member
        tracked.delimiter cloned
    all_goals rw [own]
    · exact tracked.home_eq
    · exact tracked.delimiter
    · exact tracked.plain
    · intro j among
      obtain ⟨k,old,same,-⟩ := exists_of_mem_record among
      rw [← same]
      exact tracked.generic k old
    · intro j among f recorded
      obtain ⟨k,old,-,entries⟩ := exists_of_mem_record among
      rcases entries f recorded with earlier | rfl
      · exact tracked.made k old f earlier
      · exact new f f.mem_flatten_self
    · intro u queued
      rcases mem_append.mp queued with old | added
      · exact tracked.queue u old
      · obtain ⟨c,among,rfl⟩ := mem_map.mp added
        exact new c among

theorem Weaves.tracked (weaves : Weaves m i w w') (sound : Sound w) (tracked : Tracked n L home o w)
    (queued : m.owner ∈ w.own.queue) (body : (w.program.methodAt m).body = some b) (code : b.code = pre ++ i :: post) :
    Tracked n L home o w' := by
  cases weaves with
  | plain request same => exact same ▸ tracked
  | left request isOpen program own =>
    refine ⟨by rw [program]; exact tracked.lineage,?_,?_,?_,?_,?_,?_⟩
    all_goals rw [own]
    exacts [tracked.home_eq,tracked.delimiter,tracked.plain,tracked.generic,tracked.made,tracked.queue]
  | @resolved marker argument method x t request closed answers edited own =>
    have among : i ∈ b.code := by
      rw [code]
      simp
    have old := sound.formed.body body
    have formed := request_formed (old.operands i among) request closed
    have given : argument.Mentions (Known n L) := by
      obtain ⟨-,same,-⟩ := request?_eq_some request
      have mentions := ((tracked.lineage.traced.bodies m b (tracked.queue _ queued) body).code i among).mentions
      rw [same] at mentions
      have whole : (TypeRef.applied marker [argument]).Mentions (Known n L) := mentions _ (by simp [Operand.refs])
      exact whole.argument (.head _)
    obtain ⟨middle,new⟩ := answers.tracked grounded foreign sound tracked formed given
    obtain ⟨after,grown,-,-⟩ := answers.sound sound formed
    have still : (x.program.methodAt m).body = some b := by
      rw [grown.methodAt_eq (Program.owner_lt_of_body body)]
      exact body
    have supplied := supplied_of_edit after.formed still code edited
    have traced := supplied.traced after.formed still code (fun d declared => .inl declared) new middle.lineage.traced
    obtain ⟨rebodied,-,-,-,-,spliced,-⟩ := supplied
    refine ⟨middle.lineage.of_agree (rebodied.agree.trans spliced.agree) ?_ traced,?_,?_,?_,?_,?_,?_⟩
    · rw [spliced.modules_eq,rebodied.modules_eq]
    all_goals rw [own]
    exacts [middle.home_eq,middle.delimiter,middle.plain,middle.generic,middle.made,middle.queue]

theorem Woven.tracked {P : Failure → Prop} {r : Except Failure Unit × Workspace Resolver} (woven : Woven P w r)
    (ended : r.1 = .ok u) (tracked : Tracked n L home o w) : Tracked n L home o r.2 := by
  induction woven with
  | done => exact tracked
  | left => cases ended
  | failed => cases ended
  | step sound queued body member ran _ ih =>
    obtain ⟨pre,post,code⟩ := append_of_mem member
    exact ih ended ((weaveInstruction_eq_ok ran).tracked grounded foreign sound tracked queued body code)

theorem Tracked.run {bound : Nat} (tracked : Tracked n L home o w) (sound : Sound w)
    (done : (run bound).run w = (.ok u,w')) : Tracked n L home o w' := by
  rw [Resolver.run,Weaving.run_own_bind,Weaving.run_program_bind,Weaving.run_setOwn_bind] at done
  have woven : Woven (fun _ => True) _ (.ok u,w') := done ▸ weaveQueue_woven trivial (queued_sound sound)
  refine woven.tracked grounded foreign rfl ?_
  obtain ⟨lineage,home_eq,delimiter,plain,generic,made,queue⟩ := tracked
  refine ⟨lineage,home_eq,delimiter,plain,generic,made,fun t member => ?_⟩
  rcases mem_append.mp member with old | new
  · exact queue t old
  · have among := (mem_filter.mp new).1
    rw [home_eq] at among
    exact ((lineage.listed t).mp among).1

omit grounded foreign

theorem Tracked.mono {r : Resolver} {log : List String} (tracked : Tracked n L home o ⟨p,r,log⟩)
    (lineage : o.Lineage n L home q) : Tracked n L home o ⟨q,r,[]⟩ :=
  ⟨lineage,tracked.home_eq,tracked.delimiter,tracked.plain,tracked.generic,tracked.made,tracked.queue⟩

theorem start_tracked {config : Config} (lineage : o.Lineage n L home p) (delimiter : config.delimiter = "$specialized$")
    (log : List String) : Tracked n L home o ⟨p,start p home config,log⟩ := by
  refine ⟨lineage,rfl,delimiter,fun j member => ((lineage.listed _).mp (start_listed (.inl member)).1).1,
    fun j member => ((lineage.listed _).mp (start_listed (.inr member)).1).1,fun j member e among => ?_,forall_mem_nil _⟩
  rw [(start_listed (.inr member)).2.1] at among
  cases among

end Resolver

namespace Workbench

variable {w w' : Workbench}

/-- A step of work on one module: a pass that succeeds, or passes set up anew that name clones as before. -/
def Weave (w w' : Workbench) : Prop :=
  Step w w' ∧ w'.home = w.home ∧ w'.config.delimiter = "$specialized$"

theorem weave_of_pass (delimiter : w.config.delimiter = "$specialized$") :
    (∀ view, w.specialize.result = .ok view → Weave w w.specialize.bench) ∧
      (∀ view types report, w.view = some view → (w.inject view types).result = .ok report →
        Weave w (w.inject view types).bench) ∧
      ∀ bound report, (w.implicit bound).result = .ok report → Weave w (w.implicit bound).bench := by
  refine ⟨fun view done => ?_,fun view types report known done => ?_,fun bound report done => ?_⟩
  · obtain ⟨space,-,bench⟩ := specialize_eq_ok done
    exact ⟨.specialize done,by rw [bench],by rw [bench]; exact delimiter⟩
  · obtain ⟨ts,space,-,bench⟩ := inject_eq_ok done
    exact ⟨.inject known done,by rw [bench],by rw [bench]; exact delimiter⟩
  · obtain ⟨space,-,bench⟩ := implicit_eq_ok done
    exact ⟨.implicit done,by rw [bench],by rw [bench]; exact delimiter⟩

/-- What holds while one module is worked on. -/
structure Tracked (n : Nat) (L : TypeId → Prop) (home : ModuleId) (o : Program) (w : Workbench) : Prop where
  sound : w.Sound
  home_eq : w.home = home
  delimiter : w.config.delimiter = "$specialized$"
  lineage : o.Lineage n L home w.program
  specializer : ∀ s, w.specializer = some s → Specializer.Tracked n L home o ⟨w.program,s,[]⟩
  view : ∀ v, w.view = some v → ∀ e ∈ v.flat, e.Traced n w.program
  resolver : ∀ r, w.resolver = some r → Resolver.Tracked n L home o ⟨w.program,r,[]⟩

theorem Tracked.specializing (tracked : Tracked n L home o w) :
    Specializer.Tracked n L home o ⟨w.program,w.specializer.getD (.start w.home w.config),[]⟩ := by
  cases known : w.specializer with
  | none =>
    have sound := tracked.sound.specializing
    rw [known] at sound
    exact ⟨sound,tracked.lineage,tracked.home_eq,tracked.delimiter,forall_mem_nil _⟩
  | some s => exact tracked.specializer s known

theorem Tracked.resolving (tracked : Tracked n L home o w) :
    Resolver.Tracked n L home o ⟨w.program,w.resolver.getD (.start w.program w.home w.config),[]⟩ := by
  cases known : w.resolver with
  | none =>
    rw [tracked.home_eq]
    exact Resolver.start_tracked tracked.lineage tracked.delimiter []
  | some r => exact tracked.resolver r known

include grounded foreign

theorem Tracked.specialize (tracked : Tracked n L home o w)
    (done : w.specialize.result = .ok view) : Tracked n L home o w.specialize.bench := by
  have sound := tracked.sound.specialize done
  obtain ⟨space,ran,bench⟩ := specialize_eq_ok done
  obtain ⟨after,grown,entries⟩ := tracked.specializing.run grounded foreign ran
  rw [bench] at sound ⊢
  refine ⟨sound,tracked.home_eq,tracked.delimiter,after.lineage,?_,?_,fun r known => ?_⟩
  · rintro s ⟨⟩
    exact ⟨sound.specializer _ rfl,after.lineage,after.home_eq,after.delimiter,after.entries⟩
  · rintro v ⟨⟩
    exact entries
  · exact (tracked.resolver r known).mono after.lineage

theorem Tracked.implicit {bound : Nat} {report : TypeclassReport} (tracked : Tracked n L home o w)
    (done : (w.implicit bound).result = .ok report) : Tracked n L home o (w.implicit bound).bench := by
  have sound := tracked.sound.implicit done
  obtain ⟨space,ran,bench⟩ := implicit_eq_ok done
  have resolving := tracked.sound.resolving
  obtain ⟨⟨-,beside,-⟩,-⟩ := Resolver.run_advances resolving ran
  have after := tracked.resolving.run grounded foreign resolving ran
  rw [bench] at sound ⊢
  refine ⟨sound,tracked.home_eq,tracked.delimiter,after.lineage,fun s known => ?_,fun v known e member => ?_,?_⟩
  · exact (tracked.specializer s known).mono beside.signatures (sound.specializer s known) after.lineage
  · exact (tracked.view v known e member).mono beside.signatures (tracked.sound.view v known e member)
  · rintro r ⟨⟩
    exact after.mono after.lineage

omit grounded foreign

theorem Tracked.inject {types : Option (List TypeId)} {report : Injection}
    (tracked : Tracked n L home o w) (known : w.view = some view) (done : (w.inject view types).result = .ok report) :
    Tracked n L home o (w.inject view types).bench := by
  have sound := tracked.sound.inject known done
  obtain ⟨ts,space,ran,bench⟩ := inject_eq_ok done
  have fits := tracked.sound.view view known
  obtain ⟨-,agree,lineage⟩ := Injection.rewire_keeps
    (I := fun q => q.WellFormed ∧ Agree signature w.program q ∧ o.Lineage n L home q) (fun _ holds => holds.1)
    (fun m p q holds early => by
      obtain ⟨formed,agree,lineage⟩ := holds
      have still := fits.mono agree.keeps
      refine ⟨early.wellFormed formed still,agree.trans early.agree,lineage.of_agree early.agree early.modules_eq ?_⟩
      refine early.traced (fun d new => .inl new) still (fun e member => ?_) lineage.traced
      exact (tracked.view view known e member).mono agree.keeps (fits e member))
    ⟨tracked.sound.formed,.refl _ _,tracked.lineage⟩ ran
  rw [bench] at sound ⊢
  refine ⟨sound,tracked.home_eq,tracked.delimiter,lineage,fun s known => ?_,fun v known e member => ?_,fun r known => ?_⟩
  · exact (tracked.specializer s known).mono agree.keeps (sound.specializer s known) lineage
  · exact (tracked.view v known e member).mono agree.keeps (tracked.sound.view v known e member)
  · exact (tracked.resolver r known).mono lineage

include grounded foreign

theorem Weave.tracked (weave : Weave w w') (tracked : Tracked n L home o w) : Tracked n L home o w' := by
  obtain ⟨step,same,delimiter⟩ := weave
  cases step with
  | specialize done => exact tracked.specialize grounded foreign done
  | inject known done => exact tracked.inject known done
  | implicit done => exact tracked.implicit grounded foreign done
  | choose place =>
    exact ⟨Step.sound (.choose place) tracked.sound,same.trans tracked.home_eq,delimiter,tracked.lineage,by rintro s ⟨⟩,
      tracked.view,by rintro r ⟨⟩⟩
  | read done =>
    -- what is read becomes a module of its own
    obtain ⟨⟨target,q⟩,linked,⟨⟩⟩ := Except.bind_eq_ok.mp done
    obtain ⟨rfl,-⟩ := Document.link_place tracked.sound.formed linked
    have place := tracked.sound.place
    rw [← same] at place
    exact absurd place (Nat.lt_irrefl _)

end Workbench
end Passes

end Loom
