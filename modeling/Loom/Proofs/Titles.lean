import Mathlib.Data.List.Perm.Subperm
import Loom.Proofs.Linking

/-!
The names of the types of a document, told from the document. What is declared from the document of a top-level type is
a tree; its root may be moved into a type that it names, and wherever it is moved, the full names in the tree follow.
-/
namespace Loom

open Linkage List Program

namespace Program

variable {p : Program} {t : TypeId} {n : Nat}

theorem length_le_of_declared {seen : List TypeId} (distinct : seen.Nodup) (inside : ∀ u ∈ seen, u.index < p.types.size) :
    seen.length ≤ p.types.size := by
  have within : seen ⊆ (range p.types.size).map TypeId.mk := fun u among =>
    mem_map.mpr ⟨u.index,mem_range.mpr (inside u among),rfl⟩
  simpa using (distinct.subperm within).length_le

/-- A declaring chain that ends has no type twice, so it is no longer than the list of declarations. -/
theorem chainEnds_of_within (ends : p.chainEndsWithin n t = true) : p.chainEnds t = true := by
  -- The types seen so far have chains that are longer than what is left of this one, so it does not come back to them.
  have bounded : ∀ (n : Nat) (seen : List TypeId) (t : TypeId), p.chainEndsWithin n t = true → seen.Nodup →
      (∀ u ∈ seen, u.index < p.types.size ∧ p.chainEndsWithin n u = false) →
      p.chainEndsWithin (p.types.size - seen.length + 1) t = true := by
    intro n
    induction n with
    | zero => intro _ _ ends; cases ends
    | succ n ih =>
      intro seen t ends distinct longer
      have still : ∀ u ∈ seen, u.index < p.types.size ∧ p.chainEndsWithin n u = false := fun u among =>
        ⟨(longer u among).1,Bool.eq_false_iff.mpr fun early => Bool.eq_false_iff.mp (longer u among).2
          (chainEndsWithin_mono early (Nat.le_succ n))⟩
      by_cases sooner : p.chainEndsWithin n t = true
      · exact ih seen t sooner distinct still
      · rw [chainEndsWithin] at ends ⊢
        cases declaring : (p.typeAt t).declaring with
        | none => rfl
        | some outer =>
          rw [declaring] at ends
          have inside : t.index < p.types.size := by
            refine Nat.lt_of_not_le fun outside => ?_
            rw [typeAt_of_le outside] at declaring
            cases declaring
          have new : t ∉ seen := fun among => by
            have beyond := (longer t among).2
            rw [chainEndsWithin,declaring] at beyond
            exact Bool.eq_false_iff.mp beyond ends
          have distinct' : (t :: seen).Nodup := nodup_cons.mpr ⟨new,distinct⟩
          have still' := forall_mem_cons.mpr ⟨⟨inside,Bool.eq_false_iff.mpr sooner⟩,still⟩
          have bound := length_le_of_declared distinct' fun u among => (still' u among).1
          have rest := ih (t :: seen) outer ends distinct' still'
          rw [length_cons] at bound rest
          rwa [show p.types.size - (seen.length + 1) + 1 = p.types.size - seen.length by omega] at rest
  have whole := bounded n [] t ends .nil (by simp)
  rwa [length_nil,Nat.sub_zero] at whole

end Program

/-- The full name of a type inside another one, or at the top level. -/
def TypeDoc.nameIn (outer : Option String) (space name : String) : String :=
  match outer with
  | some o => o ++ "/" ++ name
  | none => if space.isEmpty then name else space ++ "." ++ name

/-- A type as a document arranges it: the name of the type around it, its own name and its document. -/
structure TypeDoc.Seat where
  outer : Option String
  full : String
  doc : TypeDoc

mutual
/-- The types of the document of a type that stands inside another one or at the top level. -/
def TypeDoc.seats (outer : Option String) : TypeDoc → List Seat
  | ⟨space,name,declaredBy,flagNames,generics,base,interfaces,attributes,fields,methods,nested⟩ =>
    ⟨outer,nameIn outer space name,
      ⟨space,name,declaredBy,flagNames,generics,base,interfaces,attributes,fields,methods,nested⟩⟩ ::
      nestedSeats (nameIn outer space name) nested
def TypeDoc.nestedSeats (outer : String) : List (Option TypeDoc) → List Seat
  | [] => []
  | none :: rest => nestedSeats outer rest
  | some doc :: rest => TypeDoc.seats (some outer) doc ++ nestedSeats outer rest
end

theorem TypeDoc.seats_eq (outer : Option String) (doc : TypeDoc) : doc.seats outer =
    ⟨outer,nameIn outer doc.space doc.name,doc⟩ :: nestedSeats (nameIn outer doc.space doc.name) doc.nested := by
  cases doc
  rw [seats]

namespace Document

open TypeDoc (Seat nameIn nestedSeats)

variable {home : ModuleId} {p q r : Program}

/-- A declared type stands as an seat says. -/
structure Titled (r : Program) (t : PendingType) (e : Seat) : Prop where
  doc : e.doc = t.doc
  full : r.fullName t.id = e.full
  outer : (r.typeAt t.id).declaring.map r.fullName = e.outer

theorem fullName_eq_nameIn {t : TypeId} (ends : r.chainEnds t = true) :
    r.fullName t = nameIn ((r.typeAt t).declaring.map r.fullName) (r.typeAt t).space (r.typeAt t).name := by
  cases declaring : (r.typeAt t).declaring with
  | none => exact fullName_of_top declaring
  | some outer => exact fullName_of_declaring ends declaring

/-- The type is declared with the name that its document gives it, and its declaring chain ends. -/
structure Placed (r : Program) (t : PendingType) : Prop where
  ends : r.chainEnds t.id = true
  space : (r.typeAt t.id).space = t.doc.space
  name : (r.typeAt t.id).name = t.doc.name

mutual

/-- The types of a document stand as its seats say, wherever the outermost one stands. -/
theorem declareType_titled (doc : TypeDoc) {o : Option TypeId} {p q : Program} {pending : List PendingType}
    (done : (declareType home o doc).run p = .ok (pending,q)) (placed : ∀ t ∈ pending, Placed r t)
    (inner : ∀ t ∈ pending.tail, (r.typeAt t.id).declaring = (q.typeAt t.id).declaring) {outer : Option String}
    (around : (r.typeAt ⟨p.types.size⟩).declaring.map r.fullName = outer) :
    Forall₂ (Titled r) pending (doc.seats outer) := by
  obtain ⟨flags,later,named,flagsRead,nestedRun,rfl⟩ := declareType_eq_ok done
  have inside : p.types.size < (opened p (declarationOf home o doc flags)).types.size := lt_size_opened
  have here := placed _ (.head _)
  have name : r.fullName ⟨p.types.size⟩ = nameIn outer doc.space doc.name := by
    rw [fullName_eq_nameIn here.ends,around,here.space,here.name]
  rw [TypeDoc.seats_eq]
  refine .cons ⟨rfl,name,around⟩ ?_
  rw [← name]
  match doc, nestedRun with
  | ⟨_,_,_,_,_,_,_,_,_,_,nested⟩, nestedRun =>
    exact declareNested_titled nested inside nestedRun (fun t among => placed t (.tail _ among)) inner

theorem declareNested_titled (docs : List (Option TypeDoc)) {outer : TypeId} {p q : Program} {pending : List PendingType}
    (inside : outer.index < p.types.size) (done : (declareNested home outer docs).run p = .ok (pending,q))
    (placed : ∀ t ∈ pending, Placed r t)
    (inner : ∀ t ∈ pending, (r.typeAt t.id).declaring = (q.typeAt t.id).declaring) :
    Forall₂ (Titled r) pending (nestedSeats (r.fullName outer) docs) := by
  match docs with
  | [] =>
    rw [declareNested] at done
    obtain ⟨rfl,rfl⟩ := run_pure_eq_ok.mp done
    rw [nestedSeats]
    exact .nil
  | none :: rest =>
    obtain ⟨_,_,_,_,⟨⟩,-⟩ := declareNested_cons_eq_ok done
  | some doc :: rest =>
    obtain ⟨_,first,s,later,⟨⟩,plain,firstRun,laterRun,rfl⟩ := declareNested_cons_eq_ok done
    have outside : ∀ t, some outer = some t → t.index < p.types.size := by rintro t ⟨⟩; exact inside
    obtain ⟨early,others,rfl,-⟩ := declareType_planted doc outside firstRun
    obtain ⟨⟨roots,late⟩,-⟩ := declareNested_planted rest (Nat.lt_of_lt_of_le inside early.size_le) laterRun
    have early_eq : ∀ t ∈ ⟨doc,⟨p.types.size⟩⟩ :: others, (r.typeAt t.id).declaring = (s.typeAt t.id).declaring :=
      fun t among => by
        rw [inner t (mem_append_left _ among),late.declaring_eq (early.mem_ids among).2]
    have around : (r.typeAt ⟨p.types.size⟩).declaring.map r.fullName = some (r.fullName outer) := by
      rw [early_eq ⟨doc,⟨p.types.size⟩⟩ (.head _),(early.roots_new _ (.head _)).2.2]
      rfl
    rw [nestedSeats]
    exact rel_append (declareType_titled doc firstRun (fun t among => placed t (mem_append_left _ among))
        (fun t among => early_eq t (.tail _ among)) around)
      (declareNested_titled rest (Nat.lt_of_lt_of_le inside early.size_le) laterRun
        (fun t among => placed t (mem_append_right _ among)) (fun t among => inner t (mem_append_right _ among)))

end

mutual

theorem declareType_inner (doc : TypeDoc) {o : Option TypeId} {p q : Program} {pending : List PendingType}
    (done : (declareType home o doc).run p = .ok (pending,q)) :
    ∀ t ∈ pending.tail, ∃ u ∈ pending, (q.typeAt t.id).declaring = some u.id ∧ u.id.index < t.id.index := by
  obtain ⟨flags,later,-,-,nestedRun,rfl⟩ := declareType_eq_ok done
  have inside : p.types.size < (opened p (declarationOf home o doc flags)).types.size := lt_size_opened
  intro t among
  match doc, nestedRun with
  | ⟨_,_,_,_,_,_,_,_,_,_,nested⟩, nestedRun =>
    rcases declareNested_inner nested inside nestedRun t among with root | ⟨u,member,declaring⟩
    · obtain ⟨⟨roots,inner⟩,-⟩ := declareNested_planted nested inside nestedRun
      exact ⟨_,.head _,root,Nat.lt_of_lt_of_le inside (inner.mem_ids among).1⟩
    · exact ⟨u,.tail _ member,declaring⟩

theorem declareNested_inner (docs : List (Option TypeDoc)) {outer : TypeId} {p q : Program} {pending : List PendingType}
    (inside : outer.index < p.types.size) (done : (declareNested home outer docs).run p = .ok (pending,q)) :
    ∀ t ∈ pending, (q.typeAt t.id).declaring = some outer ∨
      ∃ u ∈ pending, (q.typeAt t.id).declaring = some u.id ∧ u.id.index < t.id.index := by
  match docs with
  | [] =>
    rw [declareNested] at done
    obtain ⟨rfl,rfl⟩ := run_pure_eq_ok.mp done
    exact forall_mem_nil _
  | none :: rest =>
    obtain ⟨_,_,_,_,⟨⟩,-⟩ := declareNested_cons_eq_ok done
  | some doc :: rest =>
    obtain ⟨_,first,s,later,⟨⟩,-,firstRun,laterRun,rfl⟩ := declareNested_cons_eq_ok done
    obtain ⟨early,others,rfl,-⟩ := declareType_planted doc (by rintro t ⟨⟩; exact inside) firstRun
    have within := Nat.lt_of_lt_of_le inside early.size_le
    obtain ⟨⟨roots,late⟩,-⟩ := declareNested_planted rest within laterRun
    refine forall_mem_append.mpr ⟨fun t among => ?_,fun t among => ?_⟩
    · rw [late.declaring_eq (early.mem_ids among).2]
      rcases mem_cons.mp among with rfl | below
      · exact .inl (early.roots_new _ (.head _)).2.2
      · obtain ⟨u,member,declaring⟩ := declareType_inner doc firstRun t below
        exact .inr ⟨u,mem_append_left _ member,declaring⟩
    · refine (declareNested_inner rest within laterRun t among).imp id ?_
      rintro ⟨u,member,declaring⟩
      exact ⟨u,mem_append_right _ member,declaring⟩

end

/-- What is declared from the document of a top-level type. -/
structure Tree where
  doc : TypeDoc
  root : TypeId
  rest : List PendingType

def Tree.pending (tree : Tree) : List PendingType := ⟨tree.doc,tree.root⟩ :: tree.rest

structure Tree.Grown (b : Program) (tree : Tree) : Prop where
  top : (b.typeAt tree.root).declaring = none
  plain : ∀ t ∈ tree.rest, t.doc.declaring = ""
  inner : ∀ t ∈ tree.rest, ∃ u ∈ tree.pending, (b.typeAt t.id).declaring = some u.id ∧ u.id.index < t.id.index
  titled : ∀ (r : Program) (outer : Option String), (∀ t ∈ tree.pending, Placed r t) →
    (∀ t ∈ tree.rest, (r.typeAt t.id).declaring = (b.typeAt t.id).declaring) →
    (r.typeAt tree.root).declaring.map r.fullName = outer → List.Forall₂ (Titled r) tree.pending (tree.doc.seats outer)

theorem Tree.Grown.mono {b c : Program} {tree : Tree} (grown : tree.Grown b)
    (same : ∀ t ∈ tree.pending, (c.typeAt t.id).declaring = (b.typeAt t.id).declaring) : tree.Grown c where
  top := by rw [same ⟨tree.doc,tree.root⟩ (.head _)]; exact grown.top
  plain := grown.plain
  inner t among := by rw [same t (.tail _ among)]; exact grown.inner t among
  titled r outer placed inner around := by
    refine grown.titled r outer placed (fun t among => ?_) around
    rw [inner t among,same t (.tail _ among)]

theorem Tree.Grown.ends {b : Program} {tree : Tree} (grown : tree.Grown b)
    (inner : ∀ t ∈ tree.rest, (r.typeAt t.id).declaring = (b.typeAt t.id).declaring)
    (root : r.chainEnds tree.root = true) : ∀ t ∈ tree.pending, r.chainEnds t.id = true := by
  intro t among
  induction index : t.id.index using Nat.strongRecOn generalizing t with
  | ind k ih =>
    rcases mem_cons.mp among with rfl | below
    · exact root
    · obtain ⟨u,member,declaring,earlier⟩ := grown.inner t below
      have outer := ih u.id.index (by omega) u member rfl
      refine chainEnds_of_within (n := r.types.size + 1 + 1) ?_
      rw [chainEndsWithin,inner t below,declaring]
      exact outer

theorem declareTypes_trees {docs : List (Option TypeDoc)} {pending : List PendingType} (inside : home.index < p.modules.size)
    (done : (declareTypes home docs).run p = .ok (pending,q)) : ∃ trees : List Tree,
    docs = trees.map (fun tree => some tree.doc) ∧ pending = trees.flatMap Tree.pending ∧ ∀ tree ∈ trees, tree.Grown q := by
  induction docs generalizing p pending with
  | nil =>
    rw [declareTypes] at done
    obtain ⟨rfl,rfl⟩ := run_pure_eq_ok.mp done
    exact ⟨[],rfl,rfl,forall_mem_nil _⟩
  | cons doc docs ih =>
    obtain ⟨d,first,s,later,rfl,firstRun,laterRun,rfl⟩ := declareTypes_cons_eq_ok done
    obtain ⟨early,others,rfl,plain⟩ := declareType_planted d (by simp) firstRun
    have size : (s.addTopLevel ⟨p.types.size⟩).modules.size = p.modules.size := by
      rw [← early.modules_eq]
      simp [addTopLevel,modifyModule]
    have within : home.index < (s.addTopLevel ⟨p.types.size⟩).modules.size := by rw [size]; exact inside
    obtain ⟨trees,rfl,rfl,grown⟩ := ih within laterRun
    obtain ⟨roots,late,-,-⟩ := declareTypes_planted within laterRun
    let tree : Tree := ⟨d,⟨p.types.size⟩,others⟩
    have here : tree.Grown s := ⟨(early.roots_new _ (.head _)).2.2,plain,declareType_inner d firstRun,
      fun r outer placed inner around => declareType_titled d firstRun placed inner around⟩
    refine ⟨tree :: trees,rfl,rfl,forall_mem_cons.mpr ⟨here.mono fun t among => ?_,grown⟩⟩
    exact late.declaring_eq (early.mem_ids among).2

mutual

theorem declareType_again (doc : TypeDoc) {o : Option TypeId} {p q : Program} {pending : List PendingType}
    (done : (declareType home o doc).run p = .ok (pending,q)) (o' : Option TypeId) (p' : Program) :
    ∃ result, (declareType home o' doc).run p' = .ok result := by
  obtain ⟨flags,later,named,flagsRead,nestedRun,-⟩ := declareType_eq_ok done
  have inner : ∃ result, (declareNested home ⟨p'.types.size⟩ doc.nested).run (opened p' (declarationOf home o' doc flags)) =
      .ok result := by
    match doc, nestedRun with
    | ⟨_,_,_,_,_,_,_,_,_,_,nested⟩, nestedRun =>
      exact declareNested_again nested nestedRun _ _
  obtain ⟨⟨others,q'⟩,run⟩ := inner
  exact ⟨_,declareType_ok named flagsRead run⟩

theorem declareNested_again (docs : List (Option TypeDoc)) {outer : TypeId} {p q : Program} {pending : List PendingType}
    (done : (declareNested home outer docs).run p = .ok (pending,q)) (outer' : TypeId) (p' : Program) :
    ∃ result, (declareNested home outer' docs).run p' = .ok result := by
  match docs with
  | [] =>
    rw [declareNested]
    exact ⟨_,rfl⟩
  | none :: rest =>
    obtain ⟨_,_,_,_,⟨⟩,-⟩ := declareNested_cons_eq_ok done
  | some doc :: rest =>
    obtain ⟨_,first,s,later,⟨⟩,plain,firstRun,laterRun,-⟩ := declareNested_cons_eq_ok done
    obtain ⟨⟨early,s'⟩,firstAgain⟩ := declareType_again doc firstRun (some outer') p'
    obtain ⟨⟨late,q'⟩,laterAgain⟩ := declareNested_again rest laterRun outer' s'
    exact ⟨_,declareNested_cons_ok plain firstAgain laterAgain⟩

end

theorem declareTypes_again {docs docs' : List (Option TypeDoc)} {result : List PendingType × Program}
    (within : ∀ doc ∈ docs', doc ∈ docs) (done : (declareTypes home docs).run p = .ok result) (p' : Program) :
    ∃ result', (declareTypes home docs').run p' = .ok result' := by
  have each : ∀ doc ∈ docs, ∃ d, doc = some d ∧ ∃ s result, (declareType home none d).run s = .ok result := by
    clear within
    induction docs generalizing p result with
    | nil => exact forall_mem_nil _
    | cons doc rest ih =>
      obtain ⟨d,first,s,later,rfl,firstRun,laterRun,-⟩ := declareTypes_cons_eq_ok done
      exact forall_mem_cons.mpr ⟨⟨d,rfl,_,_,firstRun⟩,ih laterRun⟩
  induction docs' generalizing p' with
  | nil =>
    rw [declareTypes]
    exact ⟨_,rfl⟩
  | cons doc rest ih =>
    obtain ⟨d,rfl,s,⟨pending,q⟩,run⟩ := each doc (within doc (.head _))
    obtain ⟨⟨first,s'⟩,firstRun⟩ := declareType_again d run none p'
    obtain ⟨⟨later,q'⟩,laterRun⟩ := ih (fun doc among => within doc (.tail _ among)) (s'.addTopLevel ⟨p'.types.size⟩)
    exact ⟨_,declareTypes_cons_ok firstRun laterRun⟩

end Document
end Loom
