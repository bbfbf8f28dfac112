import Mathlib.Data.List.Forall2
import Mathlib.Data.List.Nodup

/-!
Lists and tables of pairs: related lists, look-ups by key, and places in a list.
-/
namespace Loom

open List
open Prod (fst snd map_apply)

variable {α β γ : Type}

/-! ### Related lists -/

section

variable {R : α → β → Prop} {xs : List α} {ys : List β}

theorem left_of_forall₂ (all : Forall₂ R xs ys) {y : β} (member : y ∈ ys) : ∃ x ∈ xs, R x y := by
  induction all with
  | nil => cases member
  | cons related _ ih =>
    rcases mem_cons.mp member with rfl | later
    · exact ⟨_,.head _,related⟩
    · obtain ⟨x,among,related⟩ := ih later
      exact ⟨x,.tail _ among,related⟩

theorem right_of_forall₂ (all : Forall₂ R xs ys) {x : α} (member : x ∈ xs) : ∃ y ∈ ys, R x y :=
  left_of_forall₂ (Forall₂.flip (R := fun y x => R x y) all) member

theorem getElem?_of_forall₂ (all : Forall₂ R xs ys) {k : Nat} {a : α} {b : β} (first : xs[k]? = some a)
    (second : ys[k]? = some b) : R a b := by
  obtain ⟨before,rfl⟩ := List.getElem?_eq_some_iff.mp first
  obtain ⟨after,rfl⟩ := List.getElem?_eq_some_iff.mp second
  exact all.get before after

theorem forall₂_imp_of_mem {S : α → β → Prop} (all : Forall₂ R xs ys) (imp : ∀ x ∈ xs, ∀ y, R x y → S x y) :
    Forall₂ S xs ys := by
  induction all with
  | nil => exact .nil
  | cons related _ ih =>
    exact .cons (imp _ (.head _) _ related) (ih fun x member => imp x (.tail _ member))

theorem exists_forall₂ (each : ∀ a ∈ xs, ∃ b, R a b) : ∃ ys, Forall₂ R xs ys := by
  induction xs with
  | nil => exact ⟨[],.nil⟩
  | cons a rest ih =>
    obtain ⟨b,first⟩ := each a (.head _)
    obtain ⟨ys,later⟩ := ih fun a member => each a (.tail _ member)
    exact ⟨b :: ys,.cons first later⟩

theorem map_eq_of_forall₂ {f : α → γ} {g : β → γ} (each : Forall₂ (fun a b => g b = f a) xs ys) :
    ys.map g = xs.map f := by
  induction each with
  | nil => rfl
  | cons first _ ih => rw [map_cons,map_cons,first,ih]

theorem split_of_forall₂ {front back : List β} {y : β} (each : Forall₂ R xs ys)
    (split : ys = front ++ y :: back) :
    ∃ x first later, xs = first ++ x :: later ∧ first.length = front.length ∧ R x y := by
  induction front generalizing xs ys with
  | nil =>
    subst split
    cases each with
    | cons related _ => exact ⟨_,[],_,rfl,rfl,related⟩
  | cons z rest ih =>
    subst split
    cases each with
    | cons _ more =>
      obtain ⟨x,first,later,rfl,length,related⟩ := ih more rfl
      exact ⟨x,_ :: first,later,rfl,congrArg (· + 1) length,related⟩

theorem forall₂_of_map_eq {f : α → γ} {g : β → γ} (same : ys.map g = xs.map f) : Forall₂ (fun x y => g y = f x) xs ys := by
  have each : Forall₂ Eq (ys.map g) (xs.map f) := by
    rw [forall₂_eq_eq_eq]
    exact same
  rw [forall₂_map_left_iff,forall₂_map_right_iff] at each
  exact each.flip

theorem forall₂_zipIdx {n : Nat} : Forall₂ (fun (x : α × Nat) y => R x.1 y) (xs.zipIdx n) ys ↔ Forall₂ R xs ys := by
  induction xs generalizing n ys with
  | nil => simp
  | cons x rest ih =>
    rw [zipIdx_cons,forall₂_cons_left_iff,forall₂_cons_left_iff]
    simp only [ih]

end

theorem map_eq_map_of {as bs : List α} {f : α → β} {g : α → γ}
    (each : ∀ a ∈ as, ∀ b ∈ bs, f a = f b → g a = g b) (same : as.map f = bs.map f) : as.map g = bs.map g := by
  induction as generalizing bs with
  | nil => rw [map_eq_nil_iff.mp same.symm]
  | cons a rest ih =>
    obtain ⟨b,others,rfl,head,tail⟩ := map_eq_cons_iff.mp same.symm
    rw [map_cons,map_cons,each a (.head _) b (.head _) head.symm,
      ih (fun x member y among => each x (.tail _ member) y (.tail _ among)) tail.symm]

theorem map_zipIdx_congr {δ : Type} {f : α × Nat → δ} {g : β × Nat → δ} {x : α → γ} {y : β → γ} (line : γ → Nat → δ)
    (left : ∀ a i, f (a,i) = line (x a) i) (right : ∀ b i, g (b,i) = line (y b) i) {xs : List α} {ys : List β}
    (same : ys.map y = xs.map x) : ys.zipIdx.map g = xs.zipIdx.map f := by
  have lines {ε : Type} {h : ε × Nat → δ} {z : ε → γ} (each : ∀ e i, h (e,i) = line (z e) i) (zs : List ε) :
      zs.zipIdx.map h = (zs.map z).zipIdx.map fun e => line e.1 e.2 := by
    rw [zipIdx_map,map_map]
    exact map_congr_left fun e _ => each e.1 e.2
  rw [lines left,lines right,same]

/-! ### Tables -/

theorem mem_of_lookup [BEq α] [LawfulBEq α] {l : List (α × β)} {a : α} {b : β} (found : l.lookup a = some b) :
    (a,b) ∈ l := by
  obtain ⟨_,_,rfl,-⟩ := lookup_eq_some_iff.mp found
  exact mem_append_right _ (.head _)

theorem isSome_lookup {l : List (String × β)} {name : String} : (l.lookup name).isSome = true ↔ name ∈ l.map fst := by
  rw [lookup_isSome_iff,mem_map]
  exact exists_congr fun x => and_congr_right fun _ => beq_iff_eq.trans eq_comm

theorem lookup_map {f : α → String} {g : α → β} {xs : List α} {a : α} (member : a ∈ xs)
    (injective : ∀ c ∈ xs, f a = f c → a = c) : (xs.map fun a => (f a,g a)).lookup (f a) = some (g a) := by
  induction xs with
  | nil => cases member
  | cons c rest ih =>
    rw [map_cons,lookup_cons]
    by_cases same : f a = f c
    · rw [← injective c (.head _) same,beq_self_eq_true]
    · rw [beq_eq_false_iff_ne.mpr same]
      exact ih ((mem_cons.mp member).resolve_left fun here => same (by rw [here]))
        fun d among => injective d (.tail _ among)

theorem lookup_of_mem {l : List (String × β)} {x : String × β} (distinct : (l.map fst).Nodup) (member : x ∈ l) :
    l.lookup x.1 = some x.2 := by
  have found := lookup_map (f := fst) (g := snd) member fun y among => inj_on_of_nodup_map distinct member among
  rwa [show l.map (fun x => (x.1,x.2)) = l from map_id l] at found

theorem lookup_map_snd [BEq α] (f : β → γ) (key : α) (xs : List (α × β)) :
    (xs.map (Prod.map id f)).lookup key = (xs.lookup key).map f := by
  induction xs with
  | nil => rfl
  | cons x rest ih =>
    rw [map_cons,map_apply,id_eq,lookup_cons,lookup_cons,ih]
    cases key == x.1 <;> rfl

/-! ### Places -/

theorem findSome?_congr {f g : α → Option β} {xs : List α} (agree : ∀ a ∈ xs, f a = g a) :
    xs.findSome? f = xs.findSome? g := by
  induction xs with
  | nil => rfl
  | cons a rest ih =>
    rw [findSome?_cons,findSome?_cons,agree a (.head _),ih fun b member => agree b (.tail _ member)]

theorem append_cons_inj_of_not_mem {c : α} {xs ys us vs : List α} (left : c ∉ xs) (right : c ∉ ys)
    (same : xs ++ c :: us = ys ++ c :: vs) : xs = ys ∧ us = vs := by
  induction xs generalizing ys with
  | nil =>
    cases ys with
    | nil => exact ⟨rfl,(List.cons.inj same).2⟩
    | cons y rest => exact absurd (.head _) ((List.cons.inj same).1 ▸ right)
  | cons x rest ih =>
    cases ys with
    | nil => exact absurd (.head _) ((List.cons.inj same).1 ▸ left)
    | cons y others =>
      obtain ⟨rfl,tail⟩ := List.cons.inj same
      obtain ⟨rfl,rest⟩ := ih (fun member => left (.tail _ member)) (fun member => right (.tail _ member)) tail
      exact ⟨rfl,rest⟩

theorem insertIdx_length (pre post : List α) (a : α) :
    (pre ++ post).insertIdx pre.length a = pre ++ a :: post := by
  induction pre with
  | nil => rfl
  | cons b rest ih => exact congrArg (b :: ·) ih

theorem foldlM_flatMap {f : γ → β → Option γ} {g : α → List β} (xs : List α) (c : γ) :
    (xs.flatMap g).foldlM f c = xs.foldlM (fun c x => (g x).foldlM f c) c := by
  induction xs generalizing c with
  | nil => rfl
  | cons x rest ih =>
    rw [flatMap_cons,foldlM_append,foldlM_cons]
    exact congrArg _ (funext ih)

theorem mem_front_of_sublist {a b : α} {front back : List α} (distinct : (front ++ b :: back).Nodup)
    (before : [a,b].Sublist (front ++ b :: back)) : a ∈ front := by
  obtain ⟨left,right,split,first,second⟩ := sublist_append_iff.mp before
  have single : b ∉ back := (nodup_cons.mp (nodup_append.mp distinct).2.1).1
  cases left with
  | cons x rest =>
    obtain ⟨rfl,-⟩ := cons.inj split
    exact first.subset (.head _)
  | nil =>
    rw [nil_append] at split
    subst split
    cases second with
    | cons _ later => exact absurd (later.subset (.tail _ (.head _))) single
    | cons_cons _ later => exact absurd (later.subset (.head _)) single

end Loom
