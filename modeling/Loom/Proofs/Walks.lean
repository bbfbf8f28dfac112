import Mathlib.Data.List.Nodup
import Mathlib.Data.List.Perm.Subperm
import Mathlib.Logic.Relation
import Loom.Proofs.Formation

/-!
Walks through nested types. Names get longer from a type to those nested in it, so a walk meets no type twice and ends
before it has met more types than there are; a bound on its depth changes nothing.
-/
namespace Loom.Program

open List
open Relation (ReflTransGen)

variable {p q : Program} {t : TypeId} {n k : Nat}
variable {home : ModuleId}

/-- Nested types are declared, each in the type that lists it. -/
def Nests (p : Program) : Prop :=
  ∀ t : TypeId, t.index < p.types.size → ∀ n ∈ (p.typeAt t).nested, n.index < p.types.size ∧ (p.typeAt n).declaring = some t

theorem WellFormed.nests (formed : p.WellFormed) : p.Nests := fun t inside => (formed.types t inside).nested

/-- Types stand nested in each other below a type, down to the given depth. -/
def Deep (p : Program) : Nat → TypeId → Prop
  | 0, _ => True
  | n + 1, t => ∃ u ∈ (p.typeAt t).nested, p.Deep n u

theorem withNested_stable (shallow : ¬p.Deep n t) (deeper : n ≤ k) : p.withNested k t = p.withNested n t := by
  induction n generalizing t k with
  | zero => exact absurd trivial shallow
  | succ n ih =>
    obtain ⟨k,rfl⟩ : ∃ j, k = j + 1 := ⟨k - 1,by omega⟩
    rw [withNested,withNested]
    congr 1
    refine flatMap_congr fun u member => ?_
    exact ih (fun deep => shallow ⟨u,member,deep⟩) (by omega)

theorem Grounded.fullName_nested (grounded : p.Grounded) (nests : p.Nests) (inside : t.index < p.types.size) {u : TypeId}
    (member : u ∈ (p.typeAt t).nested) : (p.fullName t).length < (p.fullName u).length := by
  obtain ⟨declared,declaring⟩ := nests t inside u member
  rw [fullName_of_declaring (grounded.ends u declared) declaring]
  simp only [String.length_append]
  have slash : "/".length = 1 := rfl
  omega

theorem Deep.descent (deep : p.Deep n t) (grounded : p.Grounded) (nests : p.Nests) (inside : t.index < p.types.size) :
    ∃ path : List TypeId, path.length = n ∧ (t :: path).Pairwise (fun u v => (p.fullName u).length < (p.fullName v).length) ∧
      ∀ u ∈ t :: path, u.index < p.types.size := by
  induction n generalizing t with
  | zero => exact ⟨[],rfl,by simp,by simpa using inside⟩
  | succ n ih =>
    obtain ⟨u,member,deep⟩ := deep
    obtain ⟨path,length,longer,declared⟩ := ih deep (nests t inside u member).1
    have first := grounded.fullName_nested nests inside member
    refine ⟨u :: path,by rw [length_cons,length],pairwise_cons.mpr ⟨fun v among => ?_,longer⟩,?_⟩
    · rcases mem_cons.mp among with rfl | later
      · exact first
      · exact Nat.lt_trans first (rel_of_pairwise_cons longer later)
    · exact forall_mem_cons.mpr ⟨inside,declared⟩

theorem not_deep (grounded : p.Grounded) (nests : p.Nests) (inside : t.index < p.types.size) : ¬p.Deep p.types.size t := by
  intro deep
  obtain ⟨path,length,longer,declared⟩ := deep.descent grounded nests inside
  have distinct : (t :: path).Nodup := longer.imp fun less same => by rw [same] at less; exact Nat.lt_irrefl _ less
  have among : (t :: path) ⊆ (range p.types.size).map TypeId.mk := fun u member =>
    mem_map.mpr ⟨u.index,mem_range.mpr (declared u member),rfl⟩
  have bound := (distinct.subperm among).length_le
  rw [length_cons,length,length_map,length_range] at bound
  omega

theorem mem_withNested_succ {u v : TypeId} (member : u ∈ p.withNested n t) (nested : v ∈ (p.typeAt u).nested) :
    v ∈ p.withNested (n + 1) t := by
  induction n generalizing t with
  | zero => cases member
  | succ n ih =>
    rw [withNested] at member ⊢
    refine mem_cons_of_mem _ (mem_flatMap.mpr ?_)
    rcases mem_cons.mp member with rfl | deeper
    · exact ⟨v,nested,.head _⟩
    · obtain ⟨w,inside,below⟩ := mem_flatMap.mp deeper
      exact ⟨w,inside,ih below⟩

theorem mem_allTypes_of_nested {u v : TypeId} (grounded : p.Grounded) (nests : p.Nests) (listed : p.Listed)
    (member : u ∈ p.allTypes home) (nested : v ∈ (p.typeAt u).nested) : v ∈ p.allTypes home := by
  obtain ⟨top,first,below⟩ := mem_flatMap.mp member
  refine mem_flatMap.mpr ⟨top,first,?_⟩
  rw [← withNested_stable (not_deep grounded nests (listed.top home top first)) (Nat.le_succ _)]
  exact mem_withNested_succ below nested

/-- Every type of a module is listed at the top, or it comes after a type of the module that it is nested in. -/
theorem sublist_allTypes_cases (member : t ∈ p.allTypes home) :
    t ∈ (p.moduleAt home).types ∨ ∃ u, [u,t].Sublist (p.allTypes home) ∧ t ∈ (p.typeAt u).nested := by
  have part {n : Nat} {rs : List TypeId} {r : TypeId} (among : r ∈ rs) :
      (p.withNested n r).Sublist (rs.flatMap (p.withNested n)) := sublist_flatten_of_mem (mem_map_of_mem among)
  have below (n : Nat) (r : TypeId) (inner : t ∈ p.withNested n r) :
      t = r ∨ ∃ u, [u,t].Sublist (p.withNested n r) ∧ t ∈ (p.typeAt u).nested := by
    induction n generalizing r with
    | zero => cases inner
    | succ n ih =>
      rw [withNested] at inner ⊢
      rcases mem_cons.mp inner with rfl | deeper
      · exact .inl rfl
      · obtain ⟨v,nested,lower⟩ := mem_flatMap.mp deeper
        rcases ih v lower with rfl | ⟨u,among,inside⟩
        · exact .inr ⟨r,(singleton_sublist.mpr deeper).cons_cons r,nested⟩
        · exact .inr ⟨u,(among.trans (part nested)).cons r,inside⟩
  obtain ⟨r,top,inner⟩ := mem_flatMap.mp member
  rcases below _ r inner with rfl | ⟨u,among,inside⟩
  · exact .inl top
  · exact .inr ⟨u,among.trans (part top),inside⟩

theorem mem_allTypes_of_top (listed : p.Listed) (member : t ∈ (p.moduleAt home).types) : t ∈ p.allTypes home := by
  refine mem_flatMap.mpr ⟨t,member,?_⟩
  obtain ⟨n,size⟩ : ∃ n, p.types.size = n + 1 := ⟨p.types.size - 1,by have := listed.top home t member; omega⟩
  rw [size,withNested]
  exact .head _

/-- The way up from a type through the types that it is nested in. -/
def Upward (p : Program) (t u : TypeId) : Prop := t.index < p.types.size ∧ (p.typeAt t).declaring = some u

theorem Upward.unique : Relator.RightUnique p.Upward := fun _ _ _ first second =>
  Option.some.inj (first.2.symm.trans second.2)

theorem Grounded.fullName_upward (grounded : p.Grounded) {u : TypeId} (up : ReflTransGen p.Upward t u) :
    (p.fullName u).length ≤ (p.fullName t).length := by
  induction up with
  | refl => exact Nat.le_refl _
  | @tail v w _ step ih =>
    have longer := congrArg String.length (fullName_of_declaring (grounded.ends v step.1) step.2)
    simp only [String.length_append] at longer
    omega

theorem upward_of_mem_withNested (nests : p.Nests) (inside : t.index < p.types.size) {u : TypeId}
    (member : u ∈ p.withNested n t) : ReflTransGen p.Upward u t := by
  induction n generalizing t with
  | zero => cases member
  | succ n ih =>
    rw [withNested] at member
    rcases mem_cons.mp member with rfl | deeper
    · exact .refl
    · obtain ⟨v,nested,below⟩ := mem_flatMap.mp deeper
      obtain ⟨declared,declaring⟩ := nests t inside v nested
      exact (ih declared below).tail ⟨declared,declaring⟩

theorem Grounded.not_upward (grounded : p.Grounded) {u v : TypeId} (first : p.Upward u t) (second : p.Upward v t)
    (different : u ≠ v) : ¬ReflTransGen p.Upward u v := by
  intro up
  rcases ReflTransGen.cases_head up with same | ⟨w,step,rest⟩
  · exact different same
  · obtain rfl := Upward.unique step first
    have shorter := grounded.fullName_upward rest
    have longer := congrArg String.length (fullName_of_declaring (grounded.ends v second.1) second.2)
    have slash : "/".length = 1 := rfl
    simp only [String.length_append] at longer
    omega

theorem withNested_nodup (grounded : p.Grounded) (nests : p.Nests)
    (distinct : ∀ t : TypeId, t.index < p.types.size → (p.typeAt t).nested.Nodup) (inside : t.index < p.types.size)
    (n : Nat) : (p.withNested n t).Nodup := by
  induction n generalizing t with
  | zero => exact nodup_nil
  | succ n ih =>
    rw [withNested]
    refine nodup_cons.mpr ⟨fun member => ?_,nodup_flatMap.mpr ⟨fun u nested => ?_,?_⟩⟩
    · obtain ⟨u,nested,below⟩ := mem_flatMap.mp member
      have shorter := grounded.fullName_upward (upward_of_mem_withNested nests (nests t inside u nested).1 below)
      have longer := grounded.fullName_nested nests inside nested
      omega
    · exact ih (nests t inside u nested).1
    · refine (distinct t inside).imp_of_mem fun {u v} first second different => ?_
      intro w left right
      have upU := nests t inside u first
      have upV := nests t inside v second
      -- both lie on the way up from a type nested in both
      rcases ReflTransGen.total_of_right_unique Upward.unique (upward_of_mem_withNested nests upU.1 left)
          (upward_of_mem_withNested nests upV.1 right) with up | up
      · exact grounded.not_upward upU upV different up
      · exact grounded.not_upward upV upU different.symm up

theorem withNested_keeps (kept : ∀ t : TypeId, t.index < p.types.size → (q.typeAt t).nested = (p.typeAt t).nested)
    (nests : p.Nests) (inside : t.index < p.types.size) (n : Nat) : q.withNested n t = p.withNested n t := by
  induction n generalizing t with
  | zero => rfl
  | succ n ih =>
    rw [withNested,withNested,kept t inside]
    congr 1
    exact flatMap_congr fun u member => ih (nests t inside u member).1

theorem withNested_grow (grounded : p.Grounded) (nests : p.Nests)
    (kept : ∀ t : TypeId, t.index < p.types.size → (q.typeAt t).nested = (p.typeAt t).nested)
    (size_le : p.types.size ≤ q.types.size) (inside : t.index < p.types.size) :
    q.withNested q.types.size t = p.withNested p.types.size t := by
  rw [withNested_keeps kept nests inside,withNested_stable (not_deep grounded nests inside) size_le]

theorem allTypes_kept (grounded : p.Grounded) (nests : p.Nests) (listed : p.Listed) (kept : Keeps TypeDecl.header p q)
    (same : q.moduleAt home = p.moduleAt home) : q.allTypes home = p.allTypes home := by
  rw [allTypes,allTypes,same]
  exact flatMap_congr fun t member =>
    withNested_grow grounded nests (kept.map TypeDecl.nested).view_eq kept.size_le (listed.top home t member)

theorem allTypes_grow {new : List TypeId} (grounded : p.Grounded) (nests : p.Nests) (listed : p.Listed)
    (kept : ∀ t : TypeId, t.index < p.types.size → (q.typeAt t).nested = (p.typeAt t).nested)
    (size_le : p.types.size ≤ q.types.size) (added : ListedIn home p q new)
    (leaves : ∀ t ∈ new, (q.typeAt t).nested = []) (declared : ∀ t ∈ new, t.index < q.types.size) :
    q.allTypes home = p.allTypes home ++ new := by
  have old : (p.moduleAt home).types.flatMap (q.withNested q.types.size) = p.allTypes home :=
    flatMap_congr fun t member => withNested_grow grounded nests kept size_le (listed.top home t member)
  have single : new.flatMap (q.withNested q.types.size) = new := by
    calc new.flatMap (q.withNested q.types.size) = new.flatMap fun t => [t] := by
          refine flatMap_congr fun t member => ?_
          obtain ⟨n,same⟩ : ∃ n, q.types.size = n + 1 := ⟨q.types.size - 1,by have := declared t member; omega⟩
          rw [same,withNested,leaves t member,flatMap_nil]
      _ = new := flatMap_singleton' new
  rw [allTypes,added.here]
  show ((p.moduleAt home).types ++ new).flatMap _ = _
  rw [flatMap_append,old,single]

end Loom.Program
