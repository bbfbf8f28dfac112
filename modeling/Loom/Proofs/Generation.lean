import Loom.Specialization.Generation
import Loom.Proofs.Preservation

/-!
Generating specializations. Each entry of the registry was made by a specialization of a well-formed program that the
present one extends, so what is known of a specialization is known of every clone that the registry answers with.
-/
namespace Loom

open Runs Weaving
open Cloning (Specialized)

variable {entry : String} {u : Unit} {p : Program} {t : TypeId} {a : Attribute} {view : SealedRegistry}

namespace Weaving

variable {σ α β : Type} {w w' : Workspace σ}
variable {f : Unit → Weaving σ α}

theorem run_ofExcept_eq_ok {r : Except Failure α} {a : α} :
    (ofExcept r : Weaving σ α).run w = (.ok a,w') ↔ r = .ok a ∧ w = w' :=
  run_lift_eq_ok

theorem run_program_bind {f : Program → Weaving σ α} : (program >>= f).run w = (f w.program).run w := rfl

theorem run_own_bind {f : σ → Weaving σ α} : (own >>= f).run w = (f w.own).run w := rfl

theorem run_setProgram_bind : (setProgram p >>= f).run w = (f ()).run { w with program := p } := rfl

theorem run_setOwn_bind {s : σ} : (setOwn s >>= f).run w = (f ()).run { w with own := s } := rfl

theorem run_report_bind : (report entry >>= f).run w = (f ()).run { w with log := w.log ++ [entry] } := rfl

theorem run_ofExcept_bind_eq_ok {r : Except Failure α} {f : α → Weaving σ β} {b : β} :
    (ofExcept r >>= f).run w = (.ok b,w') ↔ ∃ a, r = .ok a ∧ (f a).run w = (.ok b,w') := by
  rw [run_bind_eq_ok]
  constructor
  · rintro ⟨a,_,lifted,later⟩
    obtain ⟨given,rfl⟩ := run_ofExcept_eq_ok.mp lifted
    exact ⟨a,given,later⟩
  · rintro ⟨a,given,later⟩
    exact ⟨a,w,run_ofExcept_eq_ok.mpr ⟨given,rfl⟩,later⟩

theorem run_cloning {c : Cloning α} :
    (cloning c : Weaving σ α).run w = ((c.run w.program).1,{ w with program := (c.run w.program).2 }) := rfl

theorem run_cloning_eq_ok {c : Cloning α} {a : α} : (cloning c : Weaving σ α).run w = (.ok a,w') ↔
      ∃ q, c.run w.program = (.ok a,q) ∧ { w with program := q } = w' := by
  rw [run_cloning]
  rcases c.run w.program with ⟨r,q⟩
  constructor
  · intro done
    cases done
    exact ⟨q,rfl,rfl⟩
  · rintro ⟨_,same,rfl⟩
    cases same
    rfl

end Weaving

theorem Registry.add_eq_ok {r r' : Registry} {e : Entry} :
    r.add p e = .ok r' ↔ r.isSealed = false ∧ r.repeated? p e = none ∧ r' = { r with entries := r.entries ++ [e] } := by
  rw [add]
  cases r.isSealed with
  | true => simp
  | false =>
    cases r.repeated? p e with
    | none => simp [eq_comm]
    | some c => simp

theorem Entry.mem_flattenAll {e : Entry} {es : List Entry} : e ∈ flattenAll es ↔ ∃ f ∈ es, e ∈ f.flatten := by
  induction es with
  | nil => simp [flattenAll]
  | cons f rest ih => simp [flattenAll,ih]

namespace Specializer

variable {w w' : Workspace Specializer} {p q : Program} {e : Entry} {source : TypeId} {argument : TypeRef}
  {style : CloneStyle} {home : ModuleId}

/-- An entry made by a specialization of a type of `p`, in a program between `p` and `q`. -/
inductive Registered (style : CloneStyle) (home : ModuleId) (p q : Program) (e : Entry) : Prop
  | intro {x y : Program} {shells : List Shell} (before : p.Extends x) (formed : x.WellFormed)
      (old : e.generic.index < p.types.size) (closed : x.Formed [] e.argument)
      (specialized : Specialized style home e.generic e.argument x y e shells) (after : y.Extends q)

theorem Registered.grow {r : Program} (registered : Registered style home p q e) (grown : q.Extends r) :
    Registered style home p r e := by
  obtain ⟨before,formed,old,closed,specialized,after⟩ := registered
  exact ⟨before,formed,old,closed,specialized,after.trans grown⟩

structure Generated (style : CloneStyle) (home : ModuleId) (p : Program) (w : Workspace Specializer) : Prop where
  formed : w.program.WellFormed
  grown : p.Extends w.program
  style_eq : w.own.style = style
  home_eq : w.own.home = home
  place : home.index < w.program.modules.size
  entries : ∀ e ∈ w.own.registry.entries, Registered style home p w.program e

theorem specialize_eq_ok (done : (specialize source argument).run w = (.ok e,w')) : (w' = w ∧ e ∈ w.own.memo) ∨
      ∃ q, (Cloning.specialize w.own.style w.own.home source argument).run w.program = (.ok e,q) ∧
        w'.program = q ∧ w'.own = { w.own with
          registry := { w.own.registry with entries := w.own.registry.entries ++ [e] }, memo := w.own.memo ++ [e] } := by
  rw [specialize,run_own_bind,run_program_bind] at done
  cases found : w.own.memo.find? fun e => w.program.isEntryFor e source argument with
  | some known =>
    simp only [found] at done
    obtain ⟨rfl,rfl⟩ := run_pure_eq_ok.mp done
    exact .inl ⟨rfl,List.mem_of_find?_eq_some found⟩
  | none =>
    simp only [found] at done
    obtain ⟨made,_,ran,done⟩ := run_bind_eq_ok.mp done
    obtain ⟨q,cloned,rfl⟩ := run_cloning_eq_ok.mp ran
    rw [run_program_bind] at done
    obtain ⟨registry,added,done⟩ := run_ofExcept_bind_eq_ok.mp done
    obtain ⟨-,-,rfl⟩ := Registry.add_eq_ok.mp added
    rw [run_setOwn_bind,run_report_bind] at done
    obtain ⟨rfl,rfl⟩ := run_pure_eq_ok.mp done
    exact .inr ⟨q,cloned,rfl,rfl⟩

theorem Generated.specialize (generated : Generated style home p w) (old : source.index < p.types.size)
    (closed : w.program.Formed [] argument) (done : (specialize source argument).run w = (.ok e,w')) :
    Generated style home p w' ∧ w.program.Extends w'.program := by
  rcases specialize_eq_ok done with ⟨rfl,-⟩ | ⟨q,cloned,program,own⟩
  · exact ⟨generated,.refl _⟩
  · rw [generated.style_eq,generated.home_eq] at cloned
    obtain ⟨shells,specialized⟩ := Cloning.specialize_specialized generated.formed closed.declares cloned
    have place := generated.place
    obtain ⟨rfl,rfl⟩ := specialized.root_eq
    refine ⟨?_,by rw [program]; exact specialized.grown⟩
    exact {
      formed := by rw [program]; exact specialized.wellFormed generated.formed closed place
      grown := by rw [program]; exact generated.grown.trans specialized.grown
      style_eq := by rw [own]; exact generated.style_eq
      home_eq := by rw [own]; exact generated.home_eq
      place := by rw [program,(specialized.listed place).size_eq]; exact place
      entries := fun f member => by
        rw [own] at member
        rw [program]
        rcases List.mem_append.mp member with known | new
        · exact (generated.entries f known).grow specialized.grown
        · obtain rfl := List.mem_singleton.mp new
          exact ⟨generated.grown,generated.formed,old,closed,specialized,.refl _⟩ }

theorem args_of_markerArgument (named : markerArgument p t a = .ok argument) : a.args = [.type argument] := by
  rw [markerArgument] at named
  split at named
  · next same =>
    cases named
    exact same
  · cases named
  · cases named

theorem generateOne_eq_ok {u : PUnit}
    (done : (do let argument ← Weaving.ofExcept (markerArgument p t a); discard (specialize t argument) :
      Weaving Specializer PUnit).run w = (.ok u,w')) :
    ∃ argument e, markerArgument p t a = .ok argument ∧ (specialize t argument).run w = (.ok e,w') := by
  obtain ⟨argument,named,done⟩ := Weaving.run_ofExcept_bind_eq_ok.mp done
  obtain ⟨e,_,ran,done⟩ := run_bind_eq_ok.mp done
  obtain ⟨-,rfl⟩ := run_pure_eq_ok.mp done
  exact ⟨argument,e,named,ran⟩

theorem generate_keeps {I : Workspace Specializer → Prop}
    (round : ∀ v v' argument e, I v → (∃ a ∈ (w.program.typeAt t).attributes, .type argument ∈ a.args) →
      v.program.Formed [] argument → (specialize t argument).run v = (.ok e,v') → I v' ∧ v.program.Extends v'.program)
    (members : w.program.MembersFormed t) (start : I w) (done : (generate t).run w = (.ok u,w')) :
    I w' ∧ w.program.Extends w'.program := by
  rw [Specializer.generate,Weaving.run_program_bind,Weaving.run_own_bind] at done
  -- a marker names a closed type of the program as it was when the type was taken up, and the program only grows
  refine forM_keeps (I := fun v => I v ∧ w.program.Extends v.program)
    (fun a member v v' holds round' => ?_) done ⟨start,.refl _⟩
  obtain ⟨argument,e,named,ran⟩ := generateOne_eq_ok round'
  have listed : a ∈ (w.program.typeAt t).attributes := (List.mem_filter.mp member).1
  have among : .type argument ∈ a.args := by
    rw [args_of_markerArgument named]
    exact .head _
  have closed : w.program.Formed [] argument := (members.attributes a listed).2 argument among
  obtain ⟨next,grown⟩ := round _ _ _ _ holds.1 ⟨a,listed,among⟩ (closed.mono holds.2.headers) ran
  exact ⟨next,holds.2.trans grown⟩

theorem Generated.generate (generated : Generated style home p w) (old : t.index < p.types.size)
    (done : (generate t).run w = (.ok u,w')) : Generated style home p w' := by
  have inside : t.index < w.program.types.size := Nat.lt_of_lt_of_le old generated.grown.types.size_le
  exact (generate_keeps (fun _ _ _ _ holds _ closed ran => holds.specialize old closed ran)
    (generated.formed.types t inside).members generated done).1

theorem run_eq_ok (done : Specializer.run.run w = (.ok view,w')) :
    ∃ v : Workspace Specializer, ((w.program.moduleAt w.own.home).types.forM generate).run w = (.ok (),v) ∧
      view = v.own.registry.close.1 ∧ w' = { v with own := { v.own with registry := v.own.registry.close.2 } } := by
  rw [run,run_program_bind,run_own_bind] at done
  obtain ⟨_,v,loop,done⟩ := run_bind_eq_ok.mp done
  rw [run_own_bind,run_setOwn_bind] at done
  obtain ⟨rfl,rfl⟩ := run_pure_eq_ok.mp done
  exact ⟨v,loop,rfl,rfl⟩

theorem run_generated {config : Config} {log : List String} (formed : p.WellFormed) (place : home.index < p.modules.size)
    (done : Specializer.run.run ⟨p,start home config,log⟩ = (.ok view,w)) :
    ∃ v, Generated (start home config).style home p v ∧ w.program = v.program ∧ view.entries = v.own.registry.entries := by
  obtain ⟨v,loop,rfl,rfl⟩ := run_eq_ok done
  refine ⟨v,?_,rfl,rfl⟩
  have initial : Generated (start home config).style home p ⟨p,start home config,log⟩ :=
    ⟨formed,.refl p,rfl,rfl,place,nofun⟩
  exact forM_keeps (fun t member _ _ holds round => holds.generate (formed.listed.top home t member) round) loop initial

end Specializer
end Loom
