import Loom.Proofs.Formation
import Loom.Proofs.Runs
import Loom.Specialization.Scope

/-!
Redirection to clones. Erasure maps each clone of a family back to the application it stands for. A redirected reference
erases to the reference it came from, and no application that a clone stands for is left in it.
-/
namespace Loom

open List TypeRef Scope

variable {r t : TypeRef} {f : GenericParam → TypeRef}

namespace Scope

mutual
/-- The reference with the clones of a family taken back: each becomes its original applied to the argument and to what
    the clone was applied to. -/
def erase (family : List Scope) : TypeRef → TypeRef
  | .decl t => match family.find? (·.produced == t) with
    | some s => .applied s.owner [s.target]
    | none => .decl t
  | .applied t args => match family.find? (·.produced == t) with
    | some s => .applied s.owner (s.target :: eraseList family args)
    | none => .applied t (eraseList family args)
  | t => t
def eraseList (family : List Scope) : List TypeRef → List TypeRef
  | [] => []
  | a :: as => erase family a :: eraseList family as
end

variable {family : List Scope} {s : Scope} {d : TypeId} {t : TypeRef} {args : List TypeRef}

theorem eraseList_eq (args : List TypeRef) : eraseList family args = args.map (erase family) := by
  induction args with
  | nil => rfl
  | cons a rest ih => rw [eraseList,ih,map_cons]

@[simp] theorem erase_absent : erase family .absent = .absent := by rw [erase] <;> exact nofun

@[simp] theorem erase_param (g : GenericParam) : erase family (.param g) = .param g := by rw [erase] <;> exact nofun

theorem erase_decl_of_none (none : family.find? (·.produced == d) = none) : erase family (.decl d) = .decl d := by
  rw [erase,none]

theorem erase_applied_of_none (none : family.find? (·.produced == d) = none) :
    erase family (.applied d args) = .applied d (args.map (erase family)) := by
  rw [erase,none,eraseList_eq]

theorem erase_decl_of_some (found : family.find? (·.produced == d) = some s) :
    erase family (.decl d) = .applied s.owner [s.target] := by
  rw [erase,found]

theorem erase_applied_of_some (found : family.find? (·.produced == d) = some s) :
    erase family (.applied d args) = .applied s.owner (s.target :: args.map (erase family)) := by
  rw [erase,found,eraseList_eq]

def Avoids (family : List Scope) (t : TypeRef) : Prop :=
  ∀ u ∈ t.parts, ∀ d, u.element? = some d → ∀ s ∈ family, s.produced ≠ d

theorem find?_eq_none_of_avoids (avoids : Avoids family t) (element : t.element? = some d) :
    family.find? (·.produced == d) = none := by
  rw [find?_eq_none]
  intro s member
  rw [beq_iff_eq]
  exact avoids t (mem_parts_self t) d element s member

theorem erase_of_avoids (avoids : Avoids family t) : erase family t = t := by
  induction t with
  | absent => exact erase_absent
  | decl d => exact erase_decl_of_none (find?_eq_none_of_avoids avoids rfl)
  | param g => exact erase_param g
  | applied d args ih =>
    rw [erase_applied_of_none (find?_eq_none_of_avoids avoids rfl)]
    congr 1
    refine (map_congr_left fun a member => ih a member fun u within => ?_).trans (map_id _)
    exact avoids u (mem_parts_applied.mpr (.inr ⟨a,member,within⟩))

theorem erase_mapParams (closed : ∀ s ∈ family, s.target.isOpen = false)
    (plain : ∀ g, erase family (f g) = f g) (t : TypeRef) :
    erase family (t.mapParams f) = (erase family t).mapParams f := by
  induction t with
  | absent => rfl
  | decl d =>
    rw [mapParams_decl]
    cases found : family.find? (·.produced == d) with
    | none => rw [erase_decl_of_none found,mapParams_decl]
    | some s =>
      rw [erase_decl_of_some found,mapParams_applied,map_cons,map_nil,
        mapParams_of_closed (closed s (mem_of_find?_eq_some found))]
  | param g =>
    rw [mapParams_param,plain,erase_param,mapParams_param]
  | applied d args ih =>
    have rest : (args.map (mapParams f)).map (erase family) = (args.map (erase family)).map (mapParams f) := by
      rw [map_map,map_map]
      exact map_congr_left ih
    rw [mapParams_applied]
    cases found : family.find? (·.produced == d) with
    | none => rw [erase_applied_of_none found,erase_applied_of_none found,mapParams_applied,rest]
    | some s =>
      rw [erase_applied_of_some found,erase_applied_of_some found,mapParams_applied,map_cons,rest,
        mapParams_of_closed (closed s (mem_of_find?_eq_some found))]

end Scope

namespace Program

variable {p : Program} {family : List Scope}

theorem redirectList_eq_ok {args rs : List TypeRef} :
    p.redirectList family args = .ok rs ↔ Forall₂ (fun a r => p.redirect family a = .ok r) args rs := by
  rw [← Except.mapM_eq_ok]
  induction args generalizing rs with
  | nil => rw [redirectList,mapM_nil]; rfl
  | cons a rest ih =>
    simp only [redirectList,mapM_cons,Except.bind_eq_ok,ih]

/-- The scope takes the place of its owner applied to those arguments. -/
structure Replaces (p : Program) (s : Scope) (args : List TypeRef) (r : TypeRef) : Prop where
  same : ∃ first, args.head? = some first ∧ p.same first s.target = true
  count : (p.typeAt s.produced).generics.length = args.tail.length
  result : r = .applied s.produced args.tail ∨ args.tail = [] ∧ r = .decl s.produced

theorem redirectApplied_eq_ok {element : TypeId} {args : List TypeRef}
    (done : p.redirectApplied element args family = .ok r) : (r = .applied element args ∧
        ∀ s ∈ family, s.owner = element → ∃ first, args.head? = some first ∧ p.same first s.target = false) ∨
      ∃ s ∈ family, s.owner = element ∧ p.Replaces s args r := by
  induction family with
  | nil =>
    cases done
    exact .inl ⟨rfl,nofun⟩
  | cons s rest ih =>
    have later (unlike : s.owner = element → ∃ first, args.head? = some first ∧ p.same first s.target = false)
        (done : p.redirectApplied element args rest = .ok r) :
        (r = .applied element args ∧
            ∀ c ∈ s :: rest, c.owner = element → ∃ first, args.head? = some first ∧ p.same first c.target = false) ∨
          ∃ c ∈ s :: rest, c.owner = element ∧ p.Replaces c args r := by
      rcases ih done with ⟨same,others⟩ | ⟨c,member,replaced⟩
      · exact .inl ⟨same,forall_mem_cons.mpr ⟨unlike,others⟩⟩
      · exact .inr ⟨c,.tail _ member,replaced⟩
    by_cases owner : s.owner = element
    · cases args with
      | nil => rw [redirectApplied,if_pos owner] at done; cases done
      | cons first trailing =>
        rw [redirectApplied,if_pos owner] at done
        split at done
        · next same =>
          refine .inr ⟨s,.head _,owner,?_⟩
          split at done
          · next plain =>
            cases done
            have none : trailing = [] := by simpa using (Bool.and_eq_true_iff.mp plain).1
            have free : (p.typeAt s.produced).generics = [] := by
              simpa [TypeDecl.isGeneric] using (Bool.and_eq_true_iff.mp plain).2
            exact ⟨⟨first,rfl,same⟩,by simp [free,none],.inr ⟨none,rfl⟩⟩
          · obtain ⟨count,rfl⟩ := applyType_eq_ok.mp (Except.mapError_eq_ok.mp done)
            exact ⟨⟨first,rfl,same⟩,count,.inl rfl⟩
        · next unlike => exact later (fun _ => ⟨first,rfl,Bool.eq_false_iff.mpr unlike⟩) done
    · refine later (fun same => absurd same owner) ?_
      cases args with
      | nil => rwa [redirectApplied,if_neg owner] at done
      | cons first trailing => rwa [redirectApplied,if_neg owner] at done

/-- A family of clones beyond the first `n` types: all for one closed argument among those types, each with one parameter
    less than its original, and none named like a part of the argument. -/
structure Family (p : Program) (n : Nat) (argument : TypeRef) (family : List Scope) : Prop where
  target : ∀ s ∈ family, s.target = argument
  old : ∀ s ∈ family, s.owner.index < n
  new : ∀ s ∈ family, n ≤ s.produced.index ∧ s.produced.index < p.types.size
  distinct : (family.map Scope.produced).Nodup
  closed : argument.isOpen = false
  named : ∀ s ∈ family, ∀ u ∈ argument.parts, ∀ d, u.element? = some d → p.fullName d ≠ p.fullName s.produced

variable {n : Nat} {argument : TypeRef}

section

variable (grown : p.Family n argument family)
include grown

theorem Family.congr {q : Program} (agree : Agree TypeDecl.header p q) : q.Family n argument family where
  target := grown.target
  old := grown.old
  new s member := by rw [agree.size_eq]; exact grown.new s member
  distinct := grown.distinct
  closed := grown.closed
  named := by rw [agree.fullName_eq]; exact grown.named

theorem Family.closed_target : ∀ s ∈ family, s.target.isOpen = false := by
  intro s member
  rw [grown.target s member]
  exact grown.closed

theorem Family.find?_produced {s : Scope} (member : s ∈ family) : family.find? (·.produced == s.produced) = some s := by
  have distinct := grown.distinct
  clear grown
  induction family with
  | nil => cases member
  | cons c rest ih =>
    obtain ⟨fresh,distinct⟩ := nodup_cons.mp distinct
    rcases mem_cons.mp member with rfl | later
    · exact find?_cons_of_pos (beq_self_eq_true _)
    · have other : ¬(c.produced == s.produced) = true := by
        rw [beq_iff_eq]
        intro same
        exact fresh (same ▸ mem_map_of_mem later)
      exact (find?_cons_of_neg (p := fun x : Scope => x.produced == s.produced) other).trans (ih later distinct)

theorem Family.avoids_of_same (same : p.same t argument = true) : Avoids family t := by
  intro u within d element s member produced
  obtain ⟨v,inside,e,element',names⟩ := exists_part_of_canonical_eq (same_iff.mp same) within element
  exact grown.named s member v inside e element' (names.trans (by rw [produced]))

theorem Family.avoids_of_old (old : ∀ u ∈ t.parts, ∀ d, u.element? = some d → d.index < n) : Avoids family t := by
  intro u within d element s member produced
  have before := old u within d element
  have after := (grown.new s member).1
  rw [produced] at after
  omega

theorem Family.canonical_erase_redirect (avoids : Avoids family t) (done : p.redirect family t = .ok r) :
    p.canonical (erase family r) = p.canonical t := by
  induction t generalizing r with
  | absent => cases done; rfl
  | decl d => cases done; rw [erase_of_avoids avoids]
  | param g => cases done; rw [erase_param]
  | applied d args ih =>
    rw [redirect] at done
    obtain ⟨rs,inner,outer⟩ := Except.bind_eq_ok.mp done
    have all := redirectList_eq_ok.mp inner
    have args_eq : rs.map (fun r => p.canonical (erase family r)) = args.map p.canonical := by
      refine ext_getElem (by rw [length_map,length_map,all.length_eq]) fun i before after => ?_
      rw [getElem_map,getElem_map]
      rw [length_map] at before after
      refine ih _ (getElem_mem after) (fun u within => avoids u ?_) (all.get after before)
      exact mem_parts_applied.mpr (.inr ⟨_,getElem_mem after,within⟩)
    rcases redirectApplied_eq_ok outer with ⟨rfl,-⟩ | ⟨s,member,rfl,replaced⟩
    · rw [erase_applied_of_none (find?_eq_none_of_avoids avoids rfl),canonical_applied,canonical_applied,
        map_map]
      exact congrArg _ args_eq
    · -- the first argument is the same as the argument of the family, so it erases to itself
      obtain ⟨first,head,same⟩ := replaced.same
      rw [grown.target s member] at same
      obtain ⟨trailing,rfl⟩ : ∃ trailing, rs = first :: trailing := head?_eq_some_iff.mp head
      have whole : p.canonical (erase family r) = .applied (p.representative s.owner)
          (p.canonical argument :: trailing.map fun r => p.canonical (erase family r)) := by
        rcases replaced.result with rfl | ⟨none,rfl⟩
        · rw [erase_applied_of_some (grown.find?_produced member),canonical_applied,map_cons,map_map,
            grown.target s member]
          rfl
        · obtain rfl : trailing = [] := none
          rw [erase_decl_of_some (grown.find?_produced member),canonical_applied,grown.target s member]
          rfl
      rw [whole,canonical_applied,← args_eq,map_cons,erase_of_avoids (grown.avoids_of_same same),
        same_iff.mp same]

end

/-- No application that a clone of the family stands for is part of the reference. -/
def Redirected (p : Program) (family : List Scope) (t : TypeRef) : Prop :=
  ∀ s ∈ family, ∀ first trailing, .applied s.owner (first :: trailing) ∈ t.parts → p.same first s.target = false

section

variable (grown : p.Family n argument family)
include grown

theorem Family.redirected (done : p.redirect family t = .ok r) :
    p.Redirected family r := by
  induction t generalizing r with
  | absent => cases done; simp [Redirected]
  | decl d => cases done; simp [Redirected]
  | param g => cases done; simp [Redirected]
  | applied d args ih =>
    rw [redirect] at done
    obtain ⟨rs,inner,outer⟩ := Except.bind_eq_ok.mp done
    have all := redirectList_eq_ok.mp inner
    have deeper : ∀ a ∈ rs, p.Redirected family a := by
      intro a member
      obtain ⟨b,among,done⟩ := left_of_forall₂ all member
      exact ih b among done
    intro c family_member first trailing within
    rcases redirectApplied_eq_ok outer with ⟨rfl,unlike⟩ | ⟨s,member,rfl,replaced⟩
    · rcases mem_parts_applied.mp within with same | ⟨a,among,within⟩
      · obtain ⟨rfl,rfl⟩ := applied.inj same
        obtain ⟨other,head,unlike⟩ := unlike c family_member rfl
        cases head
        exact unlike
      · exact deeper a among c family_member first trailing within
    · rcases replaced.result with rfl | ⟨-,rfl⟩
      · rcases mem_parts_applied.mp within with same | ⟨a,among,within⟩
        · have before := grown.old c family_member
          have after := (grown.new s member).1
          rw [(applied.inj same).1] at before
          omega
        · exact deeper a (mem_of_mem_tail among) c family_member first trailing within
      · cases mem_parts_decl.mp within

theorem Family.redirected_mapParams
    (moves : ∀ g, ∃ h, f g = .param h) (redirected : p.Redirected family t) : p.Redirected family (t.mapParams f) := by
  intro s member first trailing within
  rw [Bool.eq_false_iff]
  intro same
  rcases mem_parts_mapParams within with ⟨u,inner,-,image⟩ | ⟨g,-,deep⟩
  · cases u with
    | applied d args =>
      rw [mapParams_applied] at image
      obtain ⟨rfl,args_eq⟩ := applied.inj image
      cases args with
      | nil => cases args_eq
      | cons a rest =>
        obtain ⟨rfl,-⟩ := cons.inj args_eq
        -- the first argument is closed like the one it is the same as, so no parameter of it was moved
        have closed : (a.mapParams f).isOpen = false := by
          rw [← p.isOpen_canonical,same_iff.mp same,p.isOpen_canonical]
          exact grown.closed_target s member
        rw [mapParams_of_closed (closed_of_mapParams moves closed)] at same
        exact Bool.eq_false_iff.mp (redirected s member a rest inner) same
    | absent => cases image
    | decl d => cases image
    | param g => obtain ⟨h,move⟩ := moves g; rw [mapParams_param,move] at image; cases image
  · obtain ⟨h,move⟩ := moves g
    rw [move] at deep
    cases mem_parts_param.mp deep

theorem Family.formed_redirect {scope : List GenericParam}
    (formed : p.Formed scope t) (done : p.redirect family t = .ok r) : p.Formed scope r := by
  induction t generalizing r with
  | absent => cases done; exact formed
  | decl d => cases done; exact formed
  | param g => cases done; exact formed
  | applied d args ih =>
    rw [redirect] at done
    obtain ⟨rs,inner,outer⟩ := Except.bind_eq_ok.mp done
    have all := redirectList_eq_ok.mp inner
    have deeper : ∀ a ∈ rs, p.Formed scope a := by
      intro a member
      obtain ⟨b,among,done⟩ := left_of_forall₂ all member
      exact ih b among (formed.part (mem_parts_applied.mpr (.inr ⟨b,among,mem_parts_self b⟩))) done
    rcases redirectApplied_eq_ok outer with ⟨rfl,-⟩ | ⟨s,member,rfl,replaced⟩
    · obtain ⟨inside,count⟩ := formed _ (mem_parts_self _)
      exact formed_applied inside (count.trans all.length_eq) deeper
    · rcases replaced.result with rfl | ⟨-,rfl⟩
      · exact formed_applied (grown.new s member).2 replaced.count fun a among => deeper a (mem_of_mem_tail among)
      · exact formed_decl (grown.new s member).2

end

end Program

end Loom
