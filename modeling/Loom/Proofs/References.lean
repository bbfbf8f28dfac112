import Loom.TypeRef

/-!
Type references as trees: induction over them, the parts of a reference, and how replacing parameters acts on both.
What holds of a reference as a whole is said of each of its parts.
-/
namespace Loom

open List

namespace GenericParam

theorem getElem?_declare (owner : Owner) (names : List String) (k : Nat) :
    (declare owner names)[k]? = names[k]?.map fun name => ⟨owner,k,name⟩ := by
  simp [declare,getElem?_zipIdx,Function.comp_def]

theorem mem_declare {owner : Owner} {names : List String} {g : GenericParam} :
    g ∈ declare owner names ↔ g.owner = owner ∧ names[g.position]? = some g.name := by
  rw [mem_iff_getElem?]
  simp only [getElem?_declare,Option.map_eq_some_iff]
  constructor
  · rintro ⟨k,name,at_,rfl⟩
    exact ⟨rfl,at_⟩
  · rintro ⟨rfl,at_⟩
    exact ⟨g.position,g.name,at_,rfl⟩

end GenericParam

namespace TypeRef

variable {u t : TypeRef} {f : GenericParam → TypeRef}

/-- Induction on references: an applied type has what all its arguments have. -/
@[induction_eliminator]
theorem induct {motive : TypeRef → Prop} (absent : motive .absent) (decl : ∀ t, motive (.decl t))
    (param : ∀ g, motive (.param g))
    (applied : ∀ t args, (∀ a ∈ args, motive a) → motive (.applied t args)) (t : TypeRef) : motive t :=
  @TypeRef.rec motive (fun args => ∀ a ∈ args, motive a) absent decl param
    (fun t args ih => applied t args ih) (fun a member => by cases member)
    (fun a args first rest b member => by
      rcases mem_cons.mp member with same | later
      · subst same; exact first
      · exact rest b later)
    t

theorem mapParamsList_eq (f : GenericParam → TypeRef) (args : List TypeRef) :
    mapParamsList f args = args.map (mapParams f) := by
  induction args with
  | nil => rfl
  | cons a rest ih => rw [mapParamsList,ih,map_cons]

@[simp] theorem mapParams_absent (f : GenericParam → TypeRef) : mapParams f .absent = .absent := rfl

@[simp] theorem mapParams_decl (f : GenericParam → TypeRef) (t : TypeId) : mapParams f (.decl t) = .decl t := rfl

@[simp] theorem mapParams_param (f : GenericParam → TypeRef) (g : GenericParam) : mapParams f (.param g) = f g := rfl

@[simp] theorem mapParams_applied (f : GenericParam → TypeRef) (t : TypeId) (args : List TypeRef) :
    mapParams f (.applied t args) = .applied t (args.map (mapParams f)) := by
  rw [mapParams,mapParamsList_eq]

theorem isOpenList_eq (args : List TypeRef) : isOpenList args = args.any isOpen := by
  induction args with
  | nil => rfl
  | cons a rest ih => rw [isOpenList,ih,any_cons]

@[simp] theorem isOpen_applied (t : TypeId) (args : List TypeRef) : isOpen (.applied t args) = args.any isOpen := by
  rw [isOpen,isOpenList_eq]

mutual
/-- A reference with the references that stand in it. -/
def parts : TypeRef → List TypeRef
  | .applied t args => .applied t args :: partsList args
  | t => [t]
def partsList : List TypeRef → List TypeRef
  | [] => []
  | a :: as => parts a ++ partsList as
end

theorem partsList_eq (args : List TypeRef) : partsList args = args.flatMap parts := by
  induction args with
  | nil => rfl
  | cons a rest ih => rw [partsList,ih,flatMap_cons]

theorem mem_parts_self (t : TypeRef) : t ∈ t.parts := by
  cases t <;> simp [parts]

@[simp] theorem mem_parts_absent : u ∈ parts .absent ↔ u = .absent := by simp [parts]

@[simp] theorem mem_parts_decl {t : TypeId} : u ∈ parts (.decl t) ↔ u = .decl t := by simp [parts]

@[simp] theorem mem_parts_param {g : GenericParam} : u ∈ parts (.param g) ↔ u = .param g := by
  simp [parts]

@[simp] theorem mem_parts_applied {t : TypeId} {args : List TypeRef} :
    u ∈ parts (.applied t args) ↔ u = .applied t args ∨ ∃ a ∈ args, u ∈ parts a := by
  simp [parts,partsList_eq]

theorem mem_parts_trans {v : TypeRef} (inner : u ∈ v.parts) (outer : v ∈ t.parts) : u ∈ t.parts := by
  induction t with
  | absent => rw [mem_parts_absent] at outer; subst outer; exact inner
  | decl d => rw [mem_parts_decl] at outer; subst outer; exact inner
  | param g => rw [mem_parts_param] at outer; subst outer; exact inner
  | applied d args ih =>
    rcases mem_parts_applied.mp outer with same | ⟨a,member,within⟩
    · subst same; exact inner
    · exact mem_parts_applied.mpr (.inr ⟨a,member,ih a member within⟩)

theorem isOpen_iff : t.isOpen = true ↔ ∃ g, .param g ∈ t.parts := by
  induction t with
  | absent => simp [isOpen]
  | decl d => simp [isOpen]
  | param g => simp [isOpen]
  | applied d args ih =>
    rw [isOpen_applied,any_eq_true]
    constructor
    · rintro ⟨a,member,open_⟩
      obtain ⟨g,within⟩ := (ih a member).mp open_
      exact ⟨g,mem_parts_applied.mpr (.inr ⟨a,member,within⟩)⟩
    · rintro ⟨g,within⟩
      rcases mem_parts_applied.mp within with same | ⟨a,member,within⟩
      · cases same
      · exact ⟨a,member,(ih a member).mpr ⟨g,within⟩⟩

theorem mapParams_of_closed (closed : t.isOpen = false) (f : GenericParam → TypeRef) : t.mapParams f = t := by
  induction t with
  | absent => rfl
  | decl d => rfl
  | param g => cases closed
  | applied d args ih =>
    rw [isOpen_applied,any_eq_false] at closed
    rw [mapParams_applied]
    congr 1
    exact (map_congr_left fun a member => ih a member (by simpa using closed a member)).trans (map_id _)

theorem mapParams_congr {h : GenericParam → TypeRef} (agree : ∀ g, .param g ∈ t.parts → f g = h g) :
    t.mapParams f = t.mapParams h := by
  induction t with
  | absent => rfl
  | decl d => rfl
  | param g => exact agree g (mem_parts_self _)
  | applied d args ih =>
    rw [mapParams_applied,mapParams_applied]
    congr 1
    exact map_congr_left fun a member =>
      ih a member fun g within => agree g (mem_parts_applied.mpr (.inr ⟨a,member,within⟩))

theorem mapParams_mapParams (t : TypeRef) (f h : GenericParam → TypeRef) :
    (t.mapParams f).mapParams h = t.mapParams fun g => (f g).mapParams h := by
  induction t with
  | absent => rfl
  | decl d => rfl
  | param g => rfl
  | applied d args ih =>
    simp only [mapParams_applied,map_map]
    congr 1
    exact map_congr_left fun a member => ih a member

theorem mapParams_id (t : TypeRef) : t.mapParams .param = t := by
  induction t with
  | absent => rfl
  | decl d => rfl
  | param g => rfl
  | applied d args ih =>
    rw [mapParams_applied]
    congr 1
    exact (map_congr_left ih).trans (map_id _)

theorem mem_parts_mapParams (within : u ∈ (t.mapParams f).parts) :
    (∃ v ∈ t.parts, (∀ g, v ≠ .param g) ∧ u = v.mapParams f) ∨ ∃ g, .param g ∈ t.parts ∧ u ∈ (f g).parts := by
  induction t with
  | absent => exact .inl ⟨.absent,mem_parts_self _,nofun,by simpa using within⟩
  | decl d => exact .inl ⟨.decl d,mem_parts_self _,nofun,by simpa using within⟩
  | param g => exact .inr ⟨g,mem_parts_self _,within⟩
  | applied d args ih =>
    rw [mapParams_applied] at within
    rcases mem_parts_applied.mp within with same | ⟨b,image,within⟩
    · exact .inl ⟨.applied d args,mem_parts_self _,nofun,by rw [same,mapParams_applied]⟩
    · obtain ⟨a,member,rfl⟩ := mem_map.mp image
      rcases ih a member within with ⟨v,inner,shape,same⟩ | ⟨g,inner,within⟩
      · exact .inl ⟨v,mem_parts_applied.mpr (.inr ⟨a,member,inner⟩),shape,same⟩
      · exact .inr ⟨g,mem_parts_applied.mpr (.inr ⟨a,member,inner⟩),within⟩

theorem closed_of_mapParams (moves : ∀ g, ∃ h, f g = .param h) (closed : (t.mapParams f).isOpen = false) :
    t.isOpen = false := by
  induction t with
  | absent => rfl
  | decl d => rfl
  | param g =>
    obtain ⟨h,move⟩ := moves g
    rw [mapParams_param,move] at closed
    cases closed
  | applied d args ih =>
    rw [mapParams_applied,isOpen_applied,any_map,any_eq_false] at closed
    rw [isOpen_applied,any_eq_false]
    intro a member
    rw [ih a member (Bool.eq_false_iff.mpr (closed a member))]
    exact Bool.false_ne_true

end TypeRef
end Loom
