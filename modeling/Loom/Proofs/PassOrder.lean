import Mathlib.Data.List.Permutation
import Mathlib.Data.List.Sublists
import Loom.Proofs.Linking
import Loom.Proofs.Runs
import Loom.Weave

/-!
The order of passes. A configuration lists passes, each once, and a run takes them in an order of its own: specialize,
inject, implicit. On every module this is the listed order exactly if the list keeps to that order.
-/
namespace Loom

open Pass (all)
open Loom.Except (bind_eq_ok)

variable {passes : List Pass} {c : Config}

namespace Pass

def stage : Pass → Stage
  | .specialize => .specialize
  | .inject => .inject
  | .implicit => .implicit

end Pass

namespace Weave

variable {job : Job} {w : Weave}

def perform (job : Job) (w : Weave) : Pass → Weave
  | .specialize => w.specialize job
  | .inject => w.inject job
  | .implicit => w.implicit job

/-- Runs passes in the order of a list, each as often as it stands there, and writes the module. The first failure ends
    it. -/
def follow (job : Job) : List Pass → Weave → Weave
  | [], w => if w.failure.isSome then w else w.emit job
  | pass :: rest, w => if w.failure.isSome then w else follow job rest (w.perform job pass)

/-- Loads the module, runs the passes in the order of a list, and writes the module. -/
def inOrder (job : Job) (passes : List Pass) (w : Weave) : Weave :=
  if w.failure.isSome then w else follow job passes (w.load job)

theorem run_cons (s : Stage) (rest : List Stage) : run job (s :: rest) w = run job rest (w.stage job s) := rfl

theorem run_of_failed {stages : List Stage} (failed : w.failure.isSome = true) : run job stages w = w := by
  induction stages with
  | nil => rfl
  | cons s rest ih => rw [run_cons,stage.eq_def,if_pos failed,ih]

theorem follow_of_failed (failed : w.failure.isSome = true) : follow job passes w = w := by
  cases passes with
  | nil => exact if_pos failed
  | cons pass rest => exact if_pos failed

theorem stage_of_pass (pass : Pass) (sound : ¬w.failure.isSome = true) :
    w.stage job pass.stage = if job.config.enabled pass then w.perform job pass else w := by
  rw [stage.eq_def,if_neg sound]
  cases pass <;> rfl

theorem run_passes (passes : List Pass) :
    run job (passes.map Pass.stage ++ [.emit]) w = follow job (passes.filter job.config.enabled) w := by
  by_cases failed : w.failure.isSome = true
  · rw [run_of_failed failed,follow_of_failed failed]
  induction passes generalizing w with
  | nil => rfl
  | cons pass rest ih =>
    rw [List.map_cons,List.cons_append,run_cons,stage_of_pass pass failed]
    cases enabled : job.config.enabled pass with
    | true =>
      rw [if_pos rfl,List.filter_cons_of_pos enabled,follow,if_neg failed]
      by_cases later : (w.perform job pass).failure.isSome = true
      · rw [run_of_failed later,follow_of_failed later]
      · exact ih later
    | false =>
      rw [if_neg Bool.false_ne_true,List.filter_cons_of_neg (by rw [enabled]; exact Bool.false_ne_true)]
      exact ih failed

theorem run_all : run job Stage.all w = inOrder job (all.filter job.config.enabled) w := by
  rw [inOrder]
  split
  · next failed => exact run_of_failed failed
  · next sound =>
    have loaded : w.stage job .load = w.load job := if_neg sound
    rw [← run_passes,← loaded]
    rfl

end Weave

namespace Config

/-- The configuration can be read from some data. -/
def Accepted (c : Config) : Prop := ∃ raw : Raw, raw.config = .ok c

theorem nodup_readPasses {i : Nat} {seen : List Pass} {names : List String}
    (read : readPasses i seen names = .ok passes) (distinct : seen.Nodup) : passes.Nodup := by
  induction names generalizing i seen with
  | nil =>
    cases read
    exact List.nodup_reverse.mpr distinct
  | cons name rest ih =>
    rw [readPasses] at read
    split at read
    · cases read
    · next pass _ =>
      split at read
      · cases read
      · next fresh => exact ih read (List.nodup_cons.mpr ⟨by simpa using fresh,distinct⟩)

/-- Passes that a configuration can list: each once, and injection only after specialization. -/
structure Listable (passes : List Pass) : Prop where
  distinct : passes.Nodup
  needs : .inject ∈ passes → .specialize ∈ passes
  after : .inject ∈ passes → passes.idxOf .specialize ≤ passes.idxOf .inject

instance (passes : List Pass) : Decidable (Listable passes) :=
  decidable_of_iff (passes.Nodup ∧ (.inject ∈ passes → .specialize ∈ passes) ∧
      (.inject ∈ passes → passes.idxOf .specialize ≤ passes.idxOf .inject))
    ⟨fun ⟨distinct,needs,after⟩ => ⟨distinct,needs,after⟩,fun ⟨distinct,needs,after⟩ => ⟨distinct,needs,after⟩⟩

theorem listable_of_check {u : Unit} (distinct : c.passes.Nodup) (checked : c.check = .ok u) : Listable c.passes := by
  have present : c.enabled .inject = true ↔ .inject ∈ c.passes := List.contains_iff_mem
  have needs : ¬(c.enabled .inject && !c.enabled .specialize) = true := by
    intro broken
    rw [check,if_pos broken] at checked
    cases checked
  have after : ¬(c.enabled .inject && decide (c.passes.idxOf .inject < c.passes.idxOf .specialize)) = true := by
    intro broken
    rw [check,if_neg needs,if_pos broken] at checked
    cases checked
  simp only [Bool.and_eq_true,Bool.not_eq_true',decide_eq_true_eq,not_and] at needs after
  refine ⟨distinct,fun member => ?_,fun member => ?_⟩
  · have given := needs (present.mpr member)
    simpa [enabled] using given
  · exact Nat.le_of_not_lt (after (present.mpr member))

theorem Accepted.listable (accepted : c.Accepted) : Listable c.passes := by
  obtain ⟨raw,read⟩ := accepted
  rw [Raw.config] at read
  dsimp only at read
  split at read
  · obtain ⟨passes,chosen,read⟩ := bind_eq_ok.mp read
    cases chosen
    obtain ⟨_,checked,⟨⟩⟩ := bind_eq_ok.mp read
    exact listable_of_check (show all.Nodup by decide) checked
  · obtain ⟨passes,chosen,read⟩ := bind_eq_ok.mp read
    obtain ⟨_,checked,⟨⟩⟩ := bind_eq_ok.mp read
    exact listable_of_check (nodup_readPasses chosen .nil) checked

/-- The lists that can be given, but do not keep to the order of the passes. -/
def swapped : List (List Pass) :=
  [[.implicit,.specialize],[.implicit,.specialize,.inject],[.specialize,.implicit,.inject]]

theorem Listable.mem_swapped (listable : Listable passes) (disorder : ¬passes.Sublist all) : passes ∈ swapped := by
  have every (pass : Pass) : pass ∈ all := by cases pass <;> decide
  obtain ⟨chosen,same,ordered⟩ := listable.distinct.subperm fun pass _ => every pass
  have known : ∀ chosen ∈ all.sublists, ∀ passes ∈ chosen.permutations', Listable passes →
      passes ∈ all.sublists ∨ passes ∈ swapped := by decide
  have cases_ := known chosen (List.mem_sublists.mpr ordered) passes (List.mem_permutations'.mpr same.symm) listable
  exact cases_.resolve_left fun listed => disorder (List.mem_sublists.mp listed)

def listing (passes : List Pass) : Raw := { passes := passes.map Pass.name }

theorem config_listing (member : passes ∈ swapped) : (listing passes).config = .ok { passes } := by
  have evaluated : ∀ passes ∈ swapped, Except.passes (listing passes).config (· == { passes }) = true := by
    decide +kernel
  obtain ⟨c,read,same⟩ := Except.exists_of_passes (evaluated passes member)
  rw [read,eq_of_beq same]

theorem filter_enabled (ordered : c.passes.Sublist all) : all.filter c.enabled = c.passes := by
  have known : ∀ passes ∈ all.sublists, all.filter passes.contains = passes := by decide
  exact known c.passes (List.mem_sublists.mpr ordered)

end Config

namespace Weave

/-- A type to specialize that requests a typeclass for its parameter, and an implementation that is to be injected and
    refers to that type at a parameter of its own. -/
def shop : Document :=
  { moduleName := "Shop"
    types :=
      [some (.typeclass "Show"),
       some { name := "Box", generics := ["T"], attributes := [.generate "System.Int32"]
              methods :=
                [{ name := ".ctor" },
                 .static "Get" "System.Object"
                   [resolving "Show<System.Collections.Generic.List<!0>>","ret"]] },
       some { name := "ShowList", generics := ["T"], interfaces := ["Show<System.Collections.Generic.List<!0>>"]
              attributes := [.inject]
              methods :=
                [{ name := ".ctor" },.static "Make" "System.Object" ["newobj System.Void Box<!0>::.ctor()","ret"]] }] }

def bodyLines (d : Document) : List String := (d.types.filterMap id).flatMap fun t => t.methods.flatMap fun m => m.body

/-- The work with the default names and the given passes. -/
def plainJob (passes : List Pass) : Job := { path := "", config := { passes } }

theorem exists_unlike (member : passes ∈ Config.swapped) : ∃ home p, Linked p ∧
    home.index < p.modules.size ∧ (run (plainJob passes) Stage.all { loaded := some (p,home) }).written ≠
      (inOrder (plainJob passes) passes { loaded := some (p,home) }).written := by
  obtain ⟨home,p,linked,evaluated⟩ := shop.link_passes (f := fun home p =>
    decide (home.index < p.modules.size) && Config.swapped.all fun passes =>
      (run (plainJob passes) Stage.all { loaded := some (p,home) }).written.map bodyLines !=
        (inOrder (plainJob passes) passes { loaded := some (p,home) }).written.map bodyLines) (by decide +kernel)
  obtain ⟨place,each⟩ := Bool.and_eq_true_iff.mp evaluated
  refine ⟨home,p,Linked.core.link linked,of_decide_eq_true place,fun same => ?_⟩
  have differ := List.all_eq_true.mp each passes member
  rw [same] at differ
  exact absurd rfl (bne_iff_ne.mp differ)

/-- For every configuration that is accepted, a run takes the passes that it lists, each once, in the order specialize,
    inject, implicit, up to the first failure. On every module this is the order of the list exactly if the list keeps
    to it. -/
theorem listed_order_iff {raw : Config.Raw} {config : Config} (accepted : raw.config = .ok config) :
    (∀ job w, job.config.passes = config.passes → run job Stage.all w = inOrder job (Pass.all.filter config.enabled) w) ∧
      ((∀ job home p, job.config.Accepted → job.config.passes = config.passes → Linked p → home.index < p.modules.size →
          (run job Stage.all { loaded := some (p,home) }).written =
            (inOrder job config.passes { loaded := some (p,home) }).written) ↔
        config.passes.Sublist Pass.all) := by
  have all (job : Job) (w : Weave) (same : job.config.passes = config.passes) :
      run job Stage.all w = inOrder job (Pass.all.filter config.enabled) w := by
    have enabled : job.config.enabled = config.enabled := by
      funext pass
      rw [Config.enabled,same,Config.enabled]
    rw [run_all,enabled]
  refine ⟨all,fun followed => ?_,fun ordered job home p _ same _ _ => ?_⟩
  · by_contra disorder
    have listable : Config.Listable config.passes := Config.Accepted.listable ⟨raw,accepted⟩
    have member := listable.mem_swapped disorder
    obtain ⟨home,p,linked,place,unlike⟩ := exists_unlike member
    exact unlike (followed (plainJob config.passes) home p ⟨_,Config.config_listing member⟩ rfl linked place)
  · rw [all job _ same,Config.filter_enabled ordered]

theorem listed_order_iff_implicit_first : ∃ config, (Config.listing [.implicit,.specialize]).config = .ok config ∧
    config.passes = [.implicit,.specialize] ∧ (∀ job w, job.config.passes = [.implicit,.specialize] →
      run job Stage.all w = inOrder job [.specialize,.implicit] w) ∧
    ¬∀ job home p, job.config.Accepted → job.config.passes = [.implicit,.specialize] → Linked p →
      home.index < p.modules.size → (run job Stage.all { loaded := some (p,home) }).written =
        (inOrder job [.implicit,.specialize] { loaded := some (p,home) }).written := by
  have member : [.implicit,.specialize] ∈ Config.swapped := by decide
  have accepted := Config.config_listing member
  obtain ⟨taken,followed⟩ := listed_order_iff accepted
  exact ⟨_,accepted,rfl,taken,fun all => absurd (followed.mp all) (by decide)⟩

end Weave
end Loom
