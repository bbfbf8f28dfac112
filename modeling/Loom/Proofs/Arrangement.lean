import Loom.Proofs.Likeness
import Loom.Proofs.Moving

/-!
What names find in the types of a document. A name finds the type of the document that has it, or else a type that was there
before, so it finds the same in two programs that have the same types seated in the same way, in whatever order they were
declared.
-/
namespace Loom

open Option List Program
open TypeDoc (Seat)

/-- The first type with the given full name in the modules that a module refers to, itself left out. -/
def Program.foreign? (p : Program) (home : ModuleId) (name : String) : Option TypeId :=
  (p.moduleAt home).references.findSome? fun h => if h = home then none else p.findOwnType? h name

namespace Document

variable {home : ModuleId} {p s s' : Program} {pending pending' : List PendingType} {seats seats' : List Seat}
  {name : String}

/-- The types of a document are declared, and stand as the seats say. -/
structure Seated (home : ModuleId) (p s : Program) (pending : List PendingType) (seats : List Seat) : Prop where
  kept : Keeps TypeDecl.header p s
  listedIn : ∃ roots, ListedIn home p s roots
  walk : s.allTypes home = pending.map PendingType.id
  blank : ∀ x ∈ pending, Blank home s x
  titled : List.Forall₂ (Titled s) pending seats

section

variable (seated : Seated home p s pending seats)
include seated

theorem Seated.exists_pending {e : Seat} (member : e ∈ seats) :
    ∃ x ∈ pending, Titled s x e := by
  obtain ⟨x,among,titled⟩ := left_of_forall₂ seated.titled member
  exact ⟨x,among,titled⟩

theorem Seated.findOwnType?_eq_none :
    s.findOwnType? home name = none ↔ ∀ e ∈ seats, e.full ≠ name := by
  rw [findOwnType?,seated.walk,find?_eq_none]
  constructor
  · intro absent e member same
    obtain ⟨x,among,titled⟩ := seated.exists_pending member
    exact absent x.id (mem_map_of_mem among) (by rw [titled.full,same,beq_self_eq_true])
  · intro absent t among
    obtain ⟨x,here,rfl⟩ := mem_map.mp among
    obtain ⟨e,member,titled⟩ := right_of_forall₂ seated.titled here
    rw [titled.full,beq_iff_eq]
    exact absent e member

theorem Seated.findType?_own (distinct : (seats.map Seat.full).Nodup)
    {e : Seat} (member : e ∈ seats) : ∃ x ∈ pending, s.findType? home e.full = some x.id ∧ Titled s x e := by
  cases own : s.findOwnType? home e.full with
  | none => exact absurd rfl (seated.findOwnType?_eq_none.mp own e member)
  | some t =>
    have among := mem_of_find?_eq_some own
    rw [seated.walk] at among
    obtain ⟨x,here,rfl⟩ := mem_map.mp among
    obtain ⟨f,there,titled⟩ := right_of_forall₂ seated.titled here
    have full : f.full = e.full := by
      rw [← titled.full]
      exact fullName_of_findOwnType? own
    obtain rfl := inj_on_of_nodup_map distinct there member full
    exact ⟨x,here,by rw [findType?,own]; rfl,titled⟩

end

section

variable (formed : p.WellFormed)
include formed

theorem foreign?_inside {d : TypeId} (found : p.foreign? home name = some d) : d.index < p.types.size := by
  obtain ⟨h,-,own⟩ := exists_of_findSome?_eq_some found
  split at own
  · cases own
  · exact formed.listed.allTypes (mem_of_find?_eq_some own)

variable (seated : Seated home p s pending seats)
include seated

theorem Seated.findOwnType?_elsewhere {h : ModuleId} (different : h ≠ home) :
    s.findOwnType? h name = p.findOwnType? h name := by
  obtain ⟨roots,listedIn⟩ := seated.listedIn
  rw [findOwnType?,findOwnType?,
    allTypes_kept formed.grounded formed.nests formed.listed seated.kept (listedIn.elsewhere h different)]
  refine find?_congr fun t among => ?_
  rw [seated.kept.fullName_eq formed.grounded (formed.listed.allTypes among)]

theorem Seated.findType?_foreign (absent : ∀ e ∈ seats, e.full ≠ name) : s.findType? home name = p.foreign? home name := by
  have own := seated.findOwnType?_eq_none.mpr absent
  obtain ⟨roots,listedIn⟩ := seated.listedIn
  have references : (s.moduleAt home).references = (p.moduleAt home).references := by rw [listedIn.here]
  rw [findType?,own,none_or,references,foreign?]
  congr 1
  funext h
  split
  · next same => rw [same,own]
  · next different => exact seated.findOwnType?_elsewhere formed different

theorem Seated.isSome_findType? : (s.findType? home name).isSome = true ↔
    (∃ e ∈ seats, e.full = name) ∨ (p.foreign? home name).isSome = true := by
  by_cases present : ∃ e ∈ seats, e.full = name
  · obtain ⟨e,member,full⟩ := present
    refine iff_of_true ?_ (.inl ⟨e,member,full⟩)
    cases own : s.findOwnType? home name with
    | none => exact absurd full (seated.findOwnType?_eq_none.mp own e member)
    | some t => rw [findType?,own]; rfl
  · have absent : ∀ e ∈ seats, e.full ≠ name := fun e member full => present ⟨e,member,full⟩
    rw [seated.findType?_foreign formed absent]
    exact ⟨.inr,fun found => found.resolve_left present⟩

end

theorem headersAlike_of_titled {x y : PendingType} {e : Seat} (first : Titled s x e) (second : Titled s' y e)
    (blank : Blank home s x) (blank' : Blank home s' y) : HeadersAlike s s' x.id y.id := by
  have doc : y.doc = x.doc := second.doc.symm.trans first.doc
  refine ⟨second.full.trans first.full.symm,?_,by rw [blank.generics,blank'.generics,doc]⟩
  have flags := blank'.flags
  rw [doc,blank.flags] at flags
  exact (Except.ok.inj flags).symm

theorem kin_of_seated (formed : p.WellFormed) (first : Seated home p s pending seats)
    (second : Seated home p s' pending' seats') (same : seats'.Perm seats)
    (distinct : (seats.map Seat.full).Nodup) : Kin home s s' := by
  have distinct' : (seats'.map Seat.full).Nodup := (same.map Seat.full).nodup_iff.mpr distinct
  refine ⟨fun name d found => ?_,fun name missing => ?_⟩
  · by_cases present : ∃ e ∈ seats, e.full = name
    · obtain ⟨e,member,rfl⟩ := present
      obtain ⟨x,among,here,titled⟩ := first.findType?_own distinct member
      obtain ⟨y,among',there,titled'⟩ := second.findType?_own distinct' (same.mem_iff.mpr member)
      rw [here] at found
      cases found
      exact ⟨y.id,there,(headersAlike_of_titled titled titled' (first.blank x among) (second.blank y among')).generics⟩
    · have absent : ∀ e ∈ seats, e.full ≠ name := fun e member full => present ⟨e,member,full⟩
      rw [first.findType?_foreign formed absent] at found
      have inside := foreign?_inside formed found
      refine ⟨d,?_,by rw [first.kept.generics inside,second.kept.generics inside]⟩
      rw [second.findType?_foreign formed fun e member => absent e (same.mem_iff.mp member),found]
  · rw [← not_isSome_iff_eq_none,first.isSome_findType? formed] at missing
    rw [← not_isSome_iff_eq_none,second.isSome_findType? formed]
    simpa only [same.mem_iff] using missing

end Document
end Loom
