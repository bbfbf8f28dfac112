import Mathlib.Logic.Relation
import Loom.Workbench
import Loom.Proofs.Requests

/-!
Passes in any order. Linking makes well-formed programs, and every pass that succeeds keeps them so: passes may be set up
anew or go on with what they know, also after other passes have changed the program.
-/
namespace Loom

open Specializer Resolver
open Program (Agree Keeps)

namespace Specializer

variable {w w' : Workspace Specializer} {source : TypeId} {argument : TypeRef} {e : Entry}

/-- The program is well-formed, and the clones in the registry stand in it. -/
structure Sound (w : Workspace Specializer) : Prop where
  formed : w.program.WellFormed
  place : w.own.home.index < w.program.modules.size
  stands : ∀ e ∈ Entry.flattenAll w.own.registry.entries, e.Stands w.program

theorem specialize_sound (sound : Sound w) (closed : w.program.Formed [] argument)
    (done : (specialize source argument).run w = (.ok e,w')) :
    (Sound w' ∧ w'.program.modules.size = w.program.modules.size) ∧ w.program.Extends w'.program := by
  rcases specialize_eq_ok done with ⟨rfl,-⟩ | ⟨q,cloned,rfl,own⟩
  · exact ⟨⟨sound,rfl⟩,.refl _⟩
  · obtain ⟨shells,specialized⟩ := Cloning.specialize_specialized sound.formed closed.declares cloned
    have size := (specialized.listed sound.place).size_eq
    refine ⟨⟨⟨specialized.wellFormed sound.formed closed sound.place,?_,fun c member => ?_⟩,size⟩,specialized.grown⟩
    · rw [own,size]
      exact sound.place
    · rw [own] at member
      obtain ⟨f,among,inner⟩ := Entry.mem_flattenAll.mp member
      rcases List.mem_append.mp among with known | new
      · exact (sound.stands c (Entry.mem_flattenAll.mpr ⟨f,known,inner⟩)).mono specialized.grown.signatures
      · rw [List.mem_singleton.mp new] at inner
        exact specialized.stands inner

theorem generate_sound {t : TypeId} (sound : Sound w) (inside : t.index < w.program.types.size)
    (done : (generate t).run w = (.ok (),w')) :
    (Sound w' ∧ w'.program.modules.size = w.program.modules.size) ∧ w.program.Extends w'.program := by
  refine generate_keeps (I := fun v => Sound v ∧ v.program.modules.size = w.program.modules.size)
    (fun _ _ _ _ holds _ closed ran => ?_) (sound.formed.types t inside).members ⟨sound,rfl⟩ done
  obtain ⟨⟨next,size⟩,grown⟩ := specialize_sound holds.1 closed ran
  exact ⟨⟨next,size.trans holds.2⟩,grown⟩

theorem run_sound {view : SealedRegistry} (sound : Sound w) (done : run.run w = (.ok view,w')) :
    (Sound w' ∧ w'.program.modules.size = w.program.modules.size) ∧ w.program.Extends w'.program ∧
      view.Fits w'.program := by
  obtain ⟨v,loop,rfl,rfl⟩ := run_eq_ok done
  have round (t : TypeId) (member : t ∈ (w.program.moduleAt w.own.home).types) (x y : Workspace Specializer)
      (holds : (Sound x ∧ x.program.modules.size = w.program.modules.size) ∧ w.program.Extends x.program)
      (ran : (generate t).run x = (.ok (),y)) :
      (Sound y ∧ y.program.modules.size = w.program.modules.size) ∧ w.program.Extends y.program := by
    have inside := Nat.lt_of_lt_of_le (sound.formed.listed.top _ t member) holds.2.types.size_le
    obtain ⟨⟨next,size⟩,more⟩ := generate_sound holds.1.1 inside ran
    exact ⟨⟨next,size.trans holds.1.2⟩,holds.2.trans more⟩
  obtain ⟨⟨after,size⟩,grown⟩ := Runs.forM_keeps round loop ⟨⟨sound,rfl⟩,.refl _⟩
  exact ⟨⟨⟨after.formed,after.place,after.stands⟩,size⟩,grown,after.stands⟩

end Specializer

namespace Workbench

variable {w w' : Workbench}
variable {view : SealedRegistry}

/-- The program of a workbench is well-formed, and what its passes know fits it. -/
structure Sound (w : Workbench) : Prop where
  formed : w.program.WellFormed
  place : w.home.index < w.program.modules.size
  specializer : ∀ s, w.specializer = some s → Specializer.Sound ⟨w.program,s,[]⟩
  view : ∀ v, w.view = some v → v.Fits w.program
  resolver : ∀ r, w.resolver = some r → r.Fits w.program

/-- One step of work: a pass that succeeds, or the choice of a module and a configuration with passes set up anew, or the
    reading of a module. -/
inductive Step : Workbench → Workbench → Prop
  | specialize {w : Workbench} {view : SealedRegistry} (done : w.specialize.result = .ok view) : Step w w.specialize.bench
  | inject {w : Workbench} {view : SealedRegistry} {types : Option (List TypeId)} {report : Injection}
      (known : w.view = some view) (done : (w.inject view types).result = .ok report) : Step w (w.inject view types).bench
  | implicit {w : Workbench} {bound : Nat} {report : TypeclassReport} (done : (w.implicit bound).result = .ok report) :
      Step w (w.implicit bound).bench
  | choose {w : Workbench} {home : ModuleId} {config : Config} (place : home.index < w.program.modules.size) :
      Step w { w with home, config, specializer := none, resolver := none }
  | read {w w' : Workbench} {doc : Document} (done : w.relink doc = .ok w') : Step w w'

theorem specialize_eq_ok (done : w.specialize.result = .ok view) :
    ∃ space, run.run ⟨w.program,w.specializer.getD (.start w.home w.config),[]⟩ = (.ok view,space) ∧
      w.specialize.bench = { w with program := space.program, specializer := some space.own, view := some view } := by
  rw [specialize,onSpecializer] at done ⊢
  rcases ran : run.run ⟨w.program,w.specializer.getD (.start w.home w.config),[]⟩ with ⟨r,space⟩
  rw [ran] at done
  cases r with
  | error f => cases done
  | ok v =>
    cases done
    exact ⟨space,rfl,rfl⟩

theorem inject_eq_ok {types : Option (List TypeId)} {report : Injection}
    (done : (w.inject view types).result = .ok report) : ∃ ts space,
      (Injection.rewire view ts).run ⟨w.program,(),[]⟩ = (.ok report,space) ∧
        (w.inject view types).bench = { w with program := space.program } := by
  cases types with
  | some ts =>
    refine ⟨ts,((Injection.rewire view ts).run ⟨w.program,(),[]⟩).2,?_,rfl⟩
    exact Prod.ext done rfl
  | none =>
    have ran : (Injection.run view w.home w.config).run ⟨w.program,(),[]⟩ =
        (.ok report,((Injection.run view w.home w.config).run ⟨w.program,(),[]⟩).2) := Prod.ext done rfl
    rw [Injection.run,Weaving.run_program_bind] at ran
    exact ⟨_,_,ran,rfl⟩

theorem implicit_eq_ok {bound : Nat} {report : TypeclassReport} (done : (w.implicit bound).result = .ok report) : ∃ space,
    (run bound).run ⟨w.program,w.resolver.getD (.start w.program w.home w.config),[]⟩ =
      (.ok (),space) ∧ (w.implicit bound).bench = { w with program := space.program, resolver := some space.own } := by
  let pass : Weaving Resolver TypeclassReport := do
    run bound
    let r ← Weaving.own
    return ⟨r.callSites,r.specializations⟩
  let start := w.resolver.getD (.start w.program w.home w.config)
  have ran : pass.run ⟨w.program,start,[]⟩ = (.ok report,(pass.run ⟨w.program,start,[]⟩).2) := Prod.ext done rfl
  obtain ⟨_,x,first,later⟩ := Runs.run_bind_eq_ok.mp ran
  rw [Weaving.run_own_bind] at later
  obtain ⟨-,same⟩ := Runs.run_pure_eq_ok.mp later
  refine ⟨x,first,?_⟩
  rw [same]
  rfl

theorem sound_start {p : Program} {home : ModuleId} {config : Config} (formed : p.WellFormed)
    (place : home.index < p.modules.size) : Sound { program := p, home, config } :=
  ⟨formed,place,nofun,nofun,nofun⟩

theorem Sound.specializing (sound : w.Sound) :
    Specializer.Sound ⟨w.program,w.specializer.getD (.start w.home w.config),[]⟩ := by
  cases known : w.specializer with
  | none => exact ⟨sound.formed,sound.place,nofun⟩
  | some s => exact sound.specializer s known

theorem Sound.resolving (sound : w.Sound) :
    Resolver.Sound ⟨w.program,w.resolver.getD (.start w.program w.home w.config),[]⟩ := by
  refine ⟨sound.formed,?_⟩
  cases known : w.resolver with
  | none => exact Resolver.start_fits sound.formed sound.place
  | some r => exact sound.resolver r known

theorem Sound.specialize (sound : w.Sound) (done : w.specialize.result = .ok view) : w.specialize.bench.Sound := by
  obtain ⟨space,ran,bench⟩ := specialize_eq_ok done
  obtain ⟨⟨after,size⟩,grown,fits⟩ := run_sound sound.specializing ran
  rw [bench]
  exact {
    formed := after.formed
    place := size ▸ sound.place
    specializer := by
      rintro s ⟨⟩
      exact ⟨after.formed,after.place,after.stands⟩
    view := by
      rintro v ⟨⟩
      exact fits
    resolver := fun r known => (sound.resolver r known).mono grown.types.size_le size }

theorem Sound.inject {types : Option (List TypeId)} {report : Injection} (sound : w.Sound) (known : w.view = some view)
    (done : (w.inject view types).result = .ok report) : (w.inject view types).bench.Sound := by
  obtain ⟨ts,space,ran,bench⟩ := inject_eq_ok done
  obtain ⟨formed,agree,modules⟩ := Injection.rewire_wellFormed sound.formed (sound.view view known) ran
  have size : space.program.modules.size = w.program.modules.size := congrArg Array.size modules
  rw [bench]
  exact {
    formed := formed
    place := size ▸ sound.place
    specializer := fun s known => by
      obtain ⟨-,place,stands⟩ := sound.specializer s known
      exact ⟨formed,size ▸ place,fun e member => (stands e member).mono agree.keeps⟩
    view := fun v known => (sound.view v known).mono agree.keeps
    resolver := fun r known => (sound.resolver r known).mono (Nat.le_of_eq agree.size_eq.symm) size }

theorem Sound.implicit {bound : Nat} {report : TypeclassReport} (sound : w.Sound)
    (done : (w.implicit bound).result = .ok report) : (w.implicit bound).bench.Sound := by
  obtain ⟨space,ran,bench⟩ := implicit_eq_ok done
  obtain ⟨⟨after,beside,-⟩,-⟩ := run_advances sound.resolving ran
  rw [bench]
  exact {
    formed := after.formed
    place := beside.modules ▸ sound.place
    specializer := fun s known => by
      obtain ⟨-,place,stands⟩ := sound.specializer s known
      exact ⟨after.formed,beside.modules ▸ place,fun e member => (stands e member).mono beside.signatures⟩
    view := fun v known => (sound.view v known).mono beside.signatures
    resolver := by
      rintro r ⟨⟩
      exact after.fits }

theorem Sound.relink {doc : Document} (sound : w.Sound) (done : w.relink doc = .ok w') : w'.Sound := by
  obtain ⟨⟨home,q⟩,linked,⟨⟩⟩ := Except.bind_eq_ok.mp done
  obtain ⟨rfl,size⟩ := Document.link_place sound.formed linked
  exact sound_start (Document.link_wellFormed sound.formed linked).1 (by rw [size]; exact Nat.lt_succ_self _)

theorem Step.sound (step : Step w w') (sound : w.Sound) : w'.Sound := by
  cases step with
  | specialize done => exact sound.specialize done
  | inject known done => exact sound.inject known done
  | implicit done => exact sound.implicit done
  | choose place => exact ⟨sound.formed,place,nofun,sound.view,nofun⟩
  | read done => exact sound.relink done

/-- Linking makes well-formed programs, and passes keep them well-formed in any order and number. -/
theorem wellFormed_of_steps : (∀ p, Linked p → p.WellFormed) ∧
      ∀ (p : Program) (home : ModuleId) (config : Config) (w : Workbench), p.WellFormed → home.index < p.modules.size →
        Relation.ReflTransGen Step { program := p, home, config } w → w.program.WellFormed := by
  refine ⟨fun p linked => linked.wellFormed,fun p home config w formed place steps => ?_⟩
  suffices sound : w.Sound from sound.formed
  induction steps with
  | refl => exact sound_start formed place
  | tail _ step ih => exact step.sound ih

/-- A box to be specialized, a typeclass, and a consumer of both. -/
def workshop : Document :=
  { moduleName := "Workshop"
    types :=
      [some (.typeclass "Show"),
       some { name := "ShowInt", interfaces := ["Show<System.Int32>"]
              methods := [{ name := ".ctor", params := [{ name := "value", type := "System.Int32" }] }] },
       some { name := "Box", generics := ["T"], attributes := [.generate "System.Int32"]
              fields := [{ name := "value", type := "!0" }]
              methods :=
                [{ name := ".ctor" },
                 { name := "Get", returns := "!0", body := ["ldarg 0","ldfld !0 Box<!0>::value","ret"] }] },
       some { name := "Main", attributes := [.inject]
              methods :=
                [{ name := "Run", flags := ["static"], returns := "System.Object", locals := ["Box<System.Int32>"]
                   body :=
                     ["newobj System.Void Box<System.Int32>::.ctor()","call !0 Box<System.Int32>::Get()",
                      "brfalse end",".label end","ldc.i4 1","box System.Int32",
                      "call !!0 Funweave.Implicitly::Resolve<Show<System.Int32>>(System.Object)","ret"] }] }] }

/-- The passes one after the other, and the first once more. -/
theorem workshop_steps : ∃ home p w, workshop.link Program.core [CoreLibrary.home] = .ok (home,p) ∧
    home.index < p.modules.size ∧ Relation.ReflTransGen Step { program := p, home } w ∧
    w.program.types.size = p.types.size + 1 ∧ w.program.code.size = p.code.size + 4 := by
  obtain ⟨home,p,linked,evaluated⟩ := workshop.link_passes (f := fun home p =>
    let w : Workbench := { program := p, home }
    Except.passes w.specialize.result fun view =>
      let v := w.specialize.bench.inject view none
      Except.passes v.result fun _ => Except.passes v.bench.implicit.result fun _ =>
      Except.passes v.bench.implicit.bench.specialize.result fun _ =>
        let x := v.bench.implicit.bench.specialize.bench.program
        decide (home.index < p.modules.size) && decide (x.types.size = p.types.size + 1) &&
          decide (x.code.size = p.code.size + 4)) (by decide +kernel)
  obtain ⟨view,generated,evaluated⟩ := Except.exists_of_passes evaluated
  obtain ⟨report,injected,evaluated⟩ := Except.exists_of_passes evaluated
  obtain ⟨resolution,resolved,evaluated⟩ := Except.exists_of_passes evaluated
  obtain ⟨again,repeated,evaluated⟩ := Except.exists_of_passes evaluated
  simp only [Bool.and_eq_true,decide_eq_true_eq] at evaluated
  obtain ⟨⟨place,types⟩,code⟩ := evaluated
  obtain ⟨space,-,bench⟩ := specialize_eq_ok generated
  have known : (Workbench.specialize { program := p, home }).bench.view = some view := by rw [bench]
  refine ⟨home,p,_,linked,place,?_,types,code⟩
  exact .tail (.tail (.tail (.tail .refl (.specialize generated)) (.inject known injected)) (.implicit resolved))
    (.specialize repeated)

theorem wellFormed_of_steps_workshop : ∃ home p w, workshop.link Program.core [CoreLibrary.home] = .ok (home,p) ∧
    p.WellFormed ∧ Relation.ReflTransGen Step { program := p, home } w ∧ w.program.types.size = p.types.size + 1 ∧
    w.program.code.size = p.code.size + 4 ∧ w.program.WellFormed := by
  obtain ⟨home,p,w,linked,place,steps,types,code⟩ := workshop_steps
  have formed := wellFormed_of_steps.1 p (Linked.core.link linked)
  exact ⟨home,p,w,linked,formed,steps,types,code,wellFormed_of_steps.2 p home {} w formed place steps⟩

end Workbench
end Loom
