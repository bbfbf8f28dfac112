import Loom.Proofs.Completion

/-!
What redirection leaves alone. A reference stays exactly where it mentions none of the types that are cloned, at the
argument they are cloned for; where it does, it gets smaller, and is not the same type any more.
-/
namespace Loom

open List TypeRef

variable {a r t : TypeRef} {d : TypeId} {args : List TypeRef}

namespace TypeRef

theorem length_parts_applied (d : TypeId) (args : List TypeRef) :
    (parts (.applied d args)).length = (args.flatMap parts).length + 1 := by
  rw [parts,partsList_eq,length_cons]

theorem length_parts_pos (t : TypeRef) : 0 < t.parts.length := length_pos_of_mem (mem_parts_self t)

theorem length_parts_relabel (h : TypeId → TypeId) (k : GenericParam → GenericParam) (t : TypeRef) :
    (relabel h k t).parts.length = t.parts.length := by
  induction t with
  | absent => rfl
  | decl d => rfl
  | param g => rfl
  | applied d args ih =>
    rw [relabel_applied,length_parts_applied,length_parts_applied]
    congr 1
    induction args with
    | nil => rfl
    | cons a rest more =>
      rw [map_cons,flatMap_cons,flatMap_cons,length_append,length_append,ih a (.head _),
        more fun b member => ih b (.tail _ member)]

end TypeRef

namespace Program

variable {p : Program}

theorem length_parts_of_same {b : TypeRef} (same : p.same a b = true) : a.parts.length = b.parts.length := by
  rw [← length_parts_relabel p.representative GenericParam.bare a,
    ← length_parts_relabel p.representative GenericParam.bare b]
  exact congrArg (fun t => t.parts.length) (same_iff.mp same)

variable {family : List Scope}

theorem Redirected.arg (redirected : p.Redirected family (.applied d args))
    (member : a ∈ args) : p.Redirected family a := fun s scope first trailing within =>
  redirected s scope first trailing (mem_parts_applied.mpr (.inr ⟨a,member,within⟩))

theorem redirect_of_redirected (redirected : p.Redirected family t) (done : p.redirect family t = .ok r) : r = t := by
  induction t generalizing r with
  | absent => cases done; rfl
  | decl d => cases done; rfl
  | param g => cases done; rfl
  | applied d args ih =>
    rw [redirect] at done
    obtain ⟨rs,inner,outer⟩ := Except.bind_eq_ok.mp done
    have same : args = rs := by
      rw [← forall₂_eq_eq_eq]
      exact forall₂_imp_of_mem (redirectList_eq_ok.mp inner) fun a member _ done =>
        (ih a member (redirected.arg member) done).symm
    subst same
    rcases redirectApplied_eq_ok outer with ⟨rfl,-⟩ | ⟨s,member,rfl,replaced⟩
    · rfl
    · obtain ⟨first,head,alike⟩ := replaced.same
      obtain ⟨trailing,rfl⟩ := head?_eq_some_iff.mp head
      rw [redirected s member first trailing (mem_parts_self _)] at alike
      cases alike

/-- The reference is not larger than the one it came from, and smaller where that mentions a cloned type. -/
structure Shrinks (p : Program) (family : List Scope) (t r : TypeRef) : Prop where
  le : r.parts.length ≤ t.parts.length
  lt : ¬p.Redirected family t → r.parts.length < t.parts.length

theorem shrinks_all {rs : List TypeRef} (all : Forall₂ (p.Shrinks family) args rs) :
    (rs.flatMap parts).length ≤ (args.flatMap parts).length ∧ ((∃ a ∈ args, ¬p.Redirected family a) →
        (rs.flatMap parts).length < (args.flatMap parts).length) := by
  induction all with
  | nil => exact ⟨Nat.le_refl _,nofun⟩
  | cons shrinks _ ih =>
    have first := shrinks.le
    have later := ih.1
    simp only [flatMap_cons,length_append]
    refine ⟨by omega,?_⟩
    rintro ⟨a,member,mentions⟩
    rcases mem_cons.mp member with rfl | among
    · have less := shrinks.lt mentions
      omega
    · have less := ih.2 ⟨a,among,mentions⟩
      omega

/-- A clone takes the place of an application together with the first argument. -/
theorem Replaces.length_parts_lt {s : Scope}
    (replaced : p.Replaces s args r) : r.parts.length < (parts (.applied d args)).length := by
  obtain ⟨first,head,-⟩ := replaced.same
  obtain ⟨trailing,rfl⟩ := head?_eq_some_iff.mp head
  have positive := first.length_parts_pos
  rw [length_parts_applied,flatMap_cons,length_append]
  rcases replaced.result with rfl | ⟨-,rfl⟩
  · rw [length_parts_applied,tail_cons]
    omega
  · have single : (parts (.decl s.produced)).length = 1 := rfl
    omega

theorem redirect_shrinks (done : p.redirect family t = .ok r) : p.Shrinks family t r := by
  induction t generalizing r with
  | absent => cases done; exact ⟨Nat.le_refl _,fun mentions => absurd (by simp [Redirected]) mentions⟩
  | decl d => cases done; exact ⟨Nat.le_refl _,fun mentions => absurd (by simp [Redirected]) mentions⟩
  | param g => cases done; exact ⟨Nat.le_refl _,fun mentions => absurd (by simp [Redirected]) mentions⟩
  | applied d args ih =>
    rw [redirect] at done
    obtain ⟨rs,inner,outer⟩ := Except.bind_eq_ok.mp done
    have each := redirectList_eq_ok.mp inner
    obtain ⟨le,lt⟩ := shrinks_all (forall₂_imp_of_mem each fun a member _ done => ih a member done)
    have whole : (parts (.applied d rs)).length ≤ (parts (.applied d args)).length := by
      rw [length_parts_applied,length_parts_applied]
      omega
    rcases redirectApplied_eq_ok outer with ⟨rfl,unlike⟩ | ⟨s,member,rfl,replaced⟩
    · refine ⟨whole,fun mentions => ?_⟩
      suffices inside : ∃ a ∈ args, ¬p.Redirected family a by
        have less := lt inside
        rw [length_parts_applied,length_parts_applied]
        omega
      -- if only the application itself were mentioned, its first argument would have stayed, and a clone stood for it
      by_contra none
      have kept : ∀ a ∈ args, p.Redirected family a := by simpa using none
      refine mentions fun s scope first trailing within => ?_
      rcases mem_parts_applied.mp within with self | ⟨a,member,within⟩
      · obtain ⟨rfl,rfl⟩ := applied.inj self
        obtain ⟨other,head,differs⟩ := unlike s scope rfl
        cases each with
        | cons brought _ =>
          cases head
          rwa [redirect_of_redirected (kept first (.head _)) brought] at differs
      · exact kept a member s scope first trailing within
    · have less : r.parts.length < (parts (.applied s.owner rs)).length := replaced.length_parts_lt
      exact ⟨by omega,fun _ => by omega⟩

/-- A redirected reference is the same type as before exactly where no cloned type is mentioned at its argument. -/
theorem same_redirect_iff (done : p.redirect family t = .ok r) : p.same r t = true ↔ p.Redirected family t := by
  constructor
  · intro same
    by_contra mentions
    exact Nat.ne_of_lt ((redirect_shrinks done).lt mentions) (length_parts_of_same same)
  · intro redirected
    rw [redirect_of_redirected redirected done]
    exact same_iff.mpr rfl

end Program
end Loom
