import Mathlib.Logic.Relation
import Loom.Proofs.Allocation

/-!
Values that are copied and compared. A copy is made of new objects as far as value types reach, so that stores into it
leave the original alone, and it equals the original. Objects of one type have the same fields, so equality is an
equivalence.
-/
namespace Loom.Machine

open List
open Relation (ReflTransGen)

variable {p : Program} {h g k : Heap} {a b c v w : Value} {o : ObjectId} {n m : Nat}

namespace Heap

def isInline (p : Program) (h : Heap) (o : ObjectId) : Bool := (p.typeAt (h.objectAt o).type).isValueType

/-- The objects of value types that a value leads to through such objects alone. -/
inductive Reaches (p : Program) (h : Heap) : Value → ObjectId → Prop
  | self {o : ObjectId} (inline : h.isInline p o = true) : Reaches p h (.object o) o
  | field {o x : ObjectId} {f : String × Value} (inline : h.isInline p o = true) (member : f ∈ (h.objectAt o).fields)
      (later : Reaches p h f.2 x) : Reaches p h (.object o) x

/-- A field of one of the given objects is set. -/
def Stores (into : ObjectId → Prop) (h g : Heap) : Prop := ∃ o name v, into o ∧ g = h.setField o name v

/-- Whatever was in the store is there as it was. -/
structure Kept (h g : Heap) : Prop where
  size_le : h.objects.size ≤ g.objects.size
  object : ∀ o : ObjectId, o.index < h.objects.size → g.objectAt o = h.objectAt o
  rest : { g with objects := h.objects } = h

/-- The values are found equal, with a bound that is large enough. -/
def Equal (p : Program) (h : Heap) (a b : Value) : Prop := ∃ n, h.equalWithin p n a b = some true

/-- What can be seen of a value: of an object of a value type, its fields. -/
inductive View where
  | plain (v : Value)
  | object (t : TypeId) (fields : List (String × View))

/-- Objects of value types are nested at most so deep in a value, and all are in the store. -/
def isNested (p : Program) (h : Heap) : Nat → Value → Bool
  | 0, _ => false
  | n + 1, .object o =>
    decide (o.index < h.objects.size) && (!h.isInline p o || (h.objectAt o).fields.all fun f => isNested p h n f.2)
  | _ + 1, _ => true

/-- The value is in the store, and no object of a value type in it holds itself, at any depth. -/
def Acyclic (p : Program) (h : Heap) (v : Value) : Prop := ∃ n, h.isNested p n v = true

theorem isNested_object : h.isNested p (n + 1) (.object o) = true ↔ o.index < h.objects.size ∧
    (h.isInline p o = true → ∀ f ∈ (h.objectAt o).fields, h.isNested p n f.2 = true) := by
  rw [isNested,Bool.and_eq_true,decide_eq_true_eq,Bool.or_eq_true,all_eq_true,Bool.not_eq_true',← Bool.not_eq_true,
    ← imp_iff_not_or]

theorem isNested_mono (nested : h.isNested p n v = true) (le : n ≤ m) : h.isNested p m v = true := by
  induction n generalizing v m with
  | zero => cases nested
  | succ n ih =>
    obtain ⟨m,rfl⟩ : ∃ j, m = j + 1 := ⟨m - 1,by omega⟩
    cases v with
    | object o =>
      obtain ⟨present,fields⟩ := isNested_object.mp nested
      exact isNested_object.mpr ⟨present,fun inline f member => ih (fields inline f member) (by omega)⟩
    | _ => rfl

theorem Kept.refl (h : Heap) : Kept h h := ⟨Nat.le_refl _,fun _ _ => rfl,rfl⟩

theorem Kept.trans (early : Kept h g) (late : Kept g k) : Kept h k where
  size_le := Nat.le_trans early.size_le late.size_le
  object o present := (late.object o (Nat.lt_of_lt_of_le present early.size_le)).trans (early.object o present)
  rest := by
    have rest := early.rest
    rwa [← late.rest] at rest

theorem objectAt_addObject (d : Object) : (h.addObject d).2.objectAt ⟨h.objects.size⟩ = d := by
  simp [addObject,objectAt]

theorem kept_addObject (d : Object) : Kept h (h.addObject d).2 where
  size_le := by simp [addObject]
  object o present := by rw [objectAt,objectAt,addObject,Array.getElem?_push_lt present,Array.getElem?_eq_getElem present]
  rest := rfl

theorem objectAt_setField (o x : ObjectId) (name : String) (v : Value) : (h.setField o name v).objectAt x =
    if o = x ∧ x.index < h.objects.size then
      { h.objectAt x with fields := (h.objectAt x).fields.map fun f => (f.1,if f.1 = name then v else f.2) }
    else h.objectAt x := by
  rw [setField,objectAt,objectAt,Array.getElem?_modify]
  by_cases present : x.index < h.objects.size
  · by_cases same : o = x
    · simp [same,present]
    · have other : o.index ≠ x.index := fun index => same (by cases o; cases x; cases index; rfl)
      simp [same,other]
  · simp [present]

theorem names_setField (o x : ObjectId) (name : String) (v : Value) :
    ((h.setField o name v).objectAt x).type = (h.objectAt x).type ∧
      ((h.setField o name v).objectAt x).fields.map Prod.fst = (h.objectAt x).fields.map Prod.fst := by
  rw [objectAt_setField]
  split
  · simp
  · exact ⟨rfl,rfl⟩

theorem Kept.stores {into : ObjectId → Prop} (kept : Kept h g) (new : ∀ o, into o → h.objects.size ≤ o.index)
    (stores : ReflTransGen (Stores into) g k) : Kept h k := by
  induction stores with
  | refl => exact kept
  | tail _ last ih =>
    obtain ⟨o,name,v,among,rfl⟩ := last
    refine ⟨by simpa [setField] using ih.size_le,fun x present => ?_,ih.rest⟩
    rw [objectAt_setField,if_neg,ih.object x present]
    rintro ⟨rfl,-⟩
    exact absurd present (Nat.not_lt_of_le (new o among))

theorem Kept.isInline_eq (kept : Kept h g) (present : o.index < h.objects.size) : g.isInline p o = h.isInline p o := by
  rw [isInline,kept.object o present,isInline]

theorem Kept.isNested (kept : Kept h g) (nested : h.isNested p n v = true) : g.isNested p n v = true := by
  induction n generalizing v with
  | zero => cases nested
  | succ n ih =>
    cases v with
    | object o =>
      obtain ⟨present,fields⟩ := isNested_object.mp nested
      rw [isNested_object,kept.isInline_eq present,kept.object o present]
      exact ⟨Nat.lt_of_lt_of_le present kept.size_le,fun inline f member => ih (fields inline f member)⟩
    | _ => rfl

/-- The names of the fields that an object of a type has beside those that are there already. Arguments can give it a base
    in the place of a parameter. -/
inductive Names (p : Program) : TypeId → List String → List String → Prop
  | last {t : TypeId} {done : List String} (none : (p.typeAt t).base.element? = none) :
      Names p t done (done ++ (Plan.fields p ⟨t,[],done⟩).map FieldDecl.name)
  | base {t b : TypeId} {done all : List String}
      (above : (p.typeAt t).base.element? = some b ∨ ∃ g, (p.typeAt t).base = .param g)
      (rest : Names p b (done ++ (Plan.fields p ⟨t,[],done⟩).map FieldDecl.name) all) : Names p t done all

/-- No type has a parameter as its base. -/
def Rooted (p : Program) : Prop := ∀ d g, (p.typeAt d).base ≠ .param g

theorem Names.unique {t : TypeId} {done all others : List String} (rooted : Rooted p) (names : Names p t done all)
    (names' : Names p t done others) : all = others := by
  have declared {t b : TypeId} (above : (p.typeAt t).base.element? = some b ∨ ∃ g, (p.typeAt t).base = .param g) :
      (p.typeAt t).base.element? = some b := by
    refine above.resolve_right ?_
    rintro ⟨g,same⟩
    exact rooted t g same
  induction names with
  | last none =>
    cases names' with
    | last => rfl
    | base above => cases none.symm.trans (declared above)
  | base above _ ih =>
    cases names' with
    | last none => cases none.symm.trans (declared above)
    | base above' rest =>
      cases (declared above).symm.trans (declared above')
      exact ih rest

theorem nodup_firstFields {fields : List FieldDecl} {names : List String} (nodup : names.Nodup) :
    (names ++ (firstFields fields names).map FieldDecl.name).Nodup := by
  induction fields generalizing names with
  | nil => simpa [firstFields] using nodup
  | cons f rest ih =>
    rw [firstFields]
    split
    · exact ih nodup
    · next new =>
      have fresh : (names ++ [f.name]).Nodup := by simp [nodup_append,nodup]; exact fun a among same => new (same ▸ among)
      simpa using ih fresh

theorem Names.nodup {t : TypeId} {done all : List String} (names : Names p t done all) (nodup : done.Nodup) : all.Nodup := by
  induction names with
  | last => exact nodup_firstFields nodup
  | base _ _ ih => exact ih (nodup_firstFields nodup)

/-- The property holds of the type of every object and the names of its fields. -/
def Shaped (P : TypeId → List String → Prop) (h : Heap) : Prop := ∀ o : ObjectId, o.index < h.objects.size →
  P (h.objectAt o).type ((h.objectAt o).fields.map Prod.fst)

/-- Every object has the fields of its type. -/
def Regular (p : Program) : Heap → Prop := Shaped fun t names => Names p t [] names

/-- No object has two fields of one name. -/
def Distinct : Heap → Prop := Shaped fun _ names => names.Nodup

theorem Regular.distinct (regular : Regular p h) : h.Distinct := fun o present => (regular o present).nodup nodup_nil

theorem Distinct.nodup (distinct : h.Distinct) (o : ObjectId) : ((h.objectAt o).fields.map Prod.fst).Nodup := by
  by_cases present : o.index < h.objects.size
  · exact distinct o present
  · rw [objectAt,Array.getElem?_eq_none (Nat.le_of_not_lt present)]
    exact nodup_nil

theorem Shaped.addObject {P : TypeId → List String → Prop} (shaped : Shaped P h) {d : Object}
    (new : P d.type (d.fields.map Prod.fst)) : Shaped P (h.addObject d).2 := by
  intro o present
  by_cases old : o.index < h.objects.size
  · rw [(kept_addObject d).object o old]
    exact shaped o old
  · obtain rfl : o = ⟨h.objects.size⟩ := by
      cases o
      simp [Heap.addObject] at present old
      exact congrArg ObjectId.mk (by omega)
    rwa [objectAt_addObject]

theorem addFields_regular {z : TypeRef → Heap → Option (Value × Heap)}
    (zero : ∀ t h r, z t h = some r → Regular p h → Regular p r.2) {fields : List FieldDecl} {done : List (String × Value)}
    {r : List (String × Value) × Heap} (made : addFields z fields done h = some r) (regular : Regular p h) : Regular p r.2 := by
  induction fields generalizing done h with
  | nil => cases made; exact regular
  | cons f rest ih =>
    rw [addFields] at made
    split at made
    · exact ih made regular
    · obtain ⟨x,first,later⟩ := Option.bind_eq_some_iff.mp made
      exact ih later (zero _ _ _ first regular)

theorem zero_regular (p : Program) (n : Nat) : (∀ t h r, zeroWithin p n t h = some r → Regular p h → Regular p r.2) ∧
    (∀ t args h r, newObjectWithin p n t args h = some r → Regular p h → Regular p r.2) ∧
    ∀ t args done h r, zeroFieldsWithin p n t args done h = some r → Regular p h →
      Regular p r.2 ∧ Names p t (done.map Prod.fst) (r.1.map Prod.fst) := by
  induction n with
  | zero =>
    refine ⟨fun t h r made => ?_,fun t args h r made => ?_,fun t args done h r made => ?_⟩
    all_goals cases made
  | succ n ih =>
    obtain ⟨zero,object,fields⟩ := ih
    refine ⟨fun t h r made regular => ?_,fun t args h r made regular => ?_,fun t args done h r made regular => ?_⟩
    · rw [zeroWithin] at made
      repeat' split at made
      all_goals first | (cases made; exact regular) | exact object _ _ _ _ made regular
    · rw [newObjectWithin] at made
      obtain ⟨x,set,⟨⟩⟩ := Option.bind_eq_some_iff.mp made
      obtain ⟨after,names⟩ := fields _ _ _ _ _ set regular
      exact after.addObject names
    · rw [zeroFieldsWithin] at made
      obtain ⟨⟨set,k⟩,added,later⟩ := Option.bind_eq_some_iff.mp made
      have after := addFields_regular (fun _ _ _ => zero _ _ _) added regular
      have named := (addFields_eq_some added).1
      have above : (p.typeAt t).base.element? = (base? p t args).map Prod.fst ∨ ∃ g, (p.typeAt t).base = .param g := by
        rw [base?,Context.subst]
        cases (p.typeAt t).base with
        | param g => exact .inr ⟨g,rfl⟩
        | applied d us => rw [TypeRef.mapParams_applied]; exact .inl rfl
        | _ => exact .inl rfl
      dsimp only at later
      split at later
      · next up =>
        obtain ⟨regular,names⟩ := fields _ _ _ _ _ later after
        rw [named] at names
        rw [up] at above
        exact ⟨regular,.base above names⟩
      · next up =>
        cases later
        rw [up] at above
        refine ⟨after,?_⟩
        rw [named]
        refine .last (above.elim id ?_)
        rintro ⟨g,same⟩
        rw [same]
        rfl

end Heap

/-- Numbers stand for themselves, and truth values for numbers. -/
def Value.plainly (v : Value) : Value := (v.int?.map Value.int).getD v

theorem Value.isSame_iff : a.isSame b = true ↔ a.plainly = b.plainly := by
  rw [isSame]
  cases a <;> cases b <;> simp [int?,plainly] <;> exact eq_comm

theorem Value.plainly_object : a.plainly = .object o ↔ a = .object o := by
  cases a <;> simp [int?,plainly]

namespace Heap

theorem foldlM_eq_true {α : Type} {f : α → Option Bool} {xs : List α} :
    xs.foldlM (fun equal x => if equal then f x else some false) true = some true ↔ ∀ x ∈ xs, f x = some true := by
  have stuck (xs : List α) : xs.foldlM (fun equal x => if equal then f x else some false) false = some false := by
    induction xs with
    | nil => rfl
    | cons x rest ih => rw [foldlM_cons]; exact ih
  induction xs with
  | nil => simp
  | cons x rest ih =>
    rw [foldlM_cons,forall_mem_cons,if_pos rfl]
    cases found : f x with
    | none => simp
    | some r => cases r <;> simp [stuck,ih]

/-- Objects of value types are equal field by field, all else if it is one number, one text or one object. -/
theorem equalWithin_iff : h.equalWithin p (n + 1) a b = some true ↔
    (∃ x y, a = .object x ∧ b = .object y ∧ h.isInline p x = true ∧ (h.objectAt x).type = (h.objectAt y).type ∧
      ∀ f ∈ (h.objectAt x).fields, h.equalWithin p n f.2 (((h.objectAt y).fields.lookup f.1).getD .null) = some true) ∨
    (a.plainly = b.plainly ∧ ∀ x, a = .object x → h.isInline p x = false) := by
  by_cases both : ∃ x y, a = .object x ∧ b = .object y
  · obtain ⟨x,y,rfl,rfl⟩ := both
    rw [equalWithin]
    by_cases inline : h.isInline p x = true
    · rw [if_pos (show (p.typeAt (h.objectAt x).type).isValueType = true from inline)]
      by_cases same : (h.objectAt x).type = (h.objectAt y).type
      · rw [if_pos same]
        refine foldlM_eq_true.trans ?_
        simp [inline,same]
      · simp [inline,same]
    · rw [if_neg (show ¬(p.typeAt (h.objectAt x).type).isValueType = true from inline)]
      simp [inline,Value.plainly,Value.int?]
  · have plain : h.equalWithin p (n + 1) a b = some (a.isSame b) := by
      cases a with
      | object x =>
        cases b with
        | object y => exact absurd ⟨x,y,rfl,rfl⟩ both
        | _ => rfl
      | _ => rfl
    rw [plain,Option.some.injEq,Value.isSame_iff]
    have single (same : a.plainly = b.plainly) (x : ObjectId) (left : a = .object x) : b = .object x :=
      Value.plainly_object.mp (by rw [← same,left]; rfl)
    constructor
    · exact fun same => .inr ⟨same,fun x left => absurd ⟨x,x,left,single same x left⟩ both⟩
    · rintro (⟨x,y,left,right,-⟩ | ⟨same,-⟩)
      · exact absurd ⟨x,y,left,right⟩ both
      · exact same

theorem equalWithin_mono (found : h.equalWithin p n a b = some true) (le : n ≤ m) : h.equalWithin p m a b = some true := by
  induction n generalizing a b m with
  | zero => cases found
  | succ n ih =>
    obtain ⟨m,rfl⟩ : ∃ j, m = j + 1 := ⟨m - 1,by omega⟩
    rw [equalWithin_iff] at found ⊢
    refine found.imp_left ?_
    rintro ⟨x,y,left,right,inline,same,each⟩
    exact ⟨x,y,left,right,inline,same,fun f member => ih (each f member) (by omega)⟩

/-- What can be seen of a value down to a bounded depth. -/
def view (p : Program) (h : Heap) : Nat → Value → View
  | n + 1, .object o =>
    if h.isInline p o then .object (h.objectAt o).type ((h.objectAt o).fields.map fun f => (f.1,view p h n f.2))
    else .plain (.object o)
  | _, v => .plain v.plainly

theorem view_plain (plain : ∀ x, a = .object x → h.isInline p x = false) : h.view p n a = .plain a.plainly := by
  cases n with
  | zero => cases a <;> rfl
  | succ n =>
    cases a with
    | object x =>
      rw [view,plain x rfl]
      rfl
    | _ => rfl

theorem equalWithin_of_view (distinct : h.Distinct) (nested : h.isNested p n a = true) (same : h.view p n a = h.view p n b) :
    h.equalWithin p n a b = some true := by
  induction n generalizing a b with
  | zero => cases nested
  | succ n ih =>
    rw [equalWithin_iff]
    have cases_of (v : Value) : (∃ x, v = .object x ∧ h.isInline p x = true) ∨ ∀ x, v = .object x → h.isInline p x = false := by
      grind
    rcases cases_of a with ⟨x,rfl,inline⟩ | plain
    · rw [view,if_pos inline] at same
      rcases cases_of b with ⟨y,rfl,inline'⟩ | plain'
      · rw [view,if_pos inline'] at same
        obtain ⟨type,fields⟩ := View.object.inj same
        refine .inl ⟨x,y,rfl,rfl,inline,type,fun f member => ?_⟩
        have seen : (f.1,h.view p n f.2) ∈ (h.objectAt x).fields.map fun f => (f.1,h.view p n f.2) := mem_map_of_mem member
        rw [fields] at seen
        obtain ⟨e,among,equal⟩ := mem_map.mp seen
        obtain ⟨name,equal⟩ := Prod.mk.inj equal
        rw [← name,lookup_of_mem (distinct.nodup y) among]
        exact ih ((isNested_object.mp nested).2 inline f member) equal.symm
      · rw [view_plain plain'] at same
        cases same
    · rw [view_plain plain] at same
      rcases cases_of b with ⟨y,rfl,inline'⟩ | plain'
      · rw [view,if_pos inline'] at same
        cases same
      · rw [view_plain plain'] at same
        exact .inr ⟨View.plain.inj same,plain⟩

/-- Of equal values the same can be seen, where objects of one type have the same fields. -/
theorem view_of_equalWithin (regular : Regular p h) (rooted : Rooted p)
    (left : h.isNested p n a = true) (right : h.isNested p n b = true) (equal : h.equalWithin p n a b = some true) :
    h.view p n a = h.view p n b := by
  induction n generalizing a b with
  | zero => cases equal
  | succ n ih =>
    rcases equalWithin_iff.mp equal with ⟨x,y,rfl,rfl,inline,type,each⟩ | ⟨same,plain⟩
    · have inline' : h.isInline p y = true := by rwa [isInline,← type]
      obtain ⟨present,inner⟩ := isNested_object.mp left
      obtain ⟨present',inner'⟩ := isNested_object.mp right
      have names := (regular x present).unique rooted (type ▸ regular y present')
      let seen (name : String) := (name,h.view p n (((h.objectAt y).fields.lookup name).getD .null))
      rw [view,view,if_pos inline,if_pos inline',type]
      congr 1
      calc (h.objectAt x).fields.map (fun f => (f.1,h.view p n f.2))
        _ = (h.objectAt x).fields.map (seen ∘ Prod.fst) := by
          refine map_congr_left fun f member => congrArg (Prod.mk f.1) ?_
          obtain ⟨e,among,name⟩ := mem_map.mp (names ▸ mem_map_of_mem (f := Prod.fst) member)
          have equal := each f member
          rw [← name,lookup_of_mem (regular.distinct.nodup y) among] at equal ⊢
          exact ih (inner inline f member) (inner' inline' e among) equal
        _ = (h.objectAt y).fields.map (seen ∘ Prod.fst) := by rw [← map_map,names,map_map]
        _ = _ := by
          refine map_congr_left fun f member => ?_
          show (f.1,_) = _
          rw [lookup_of_mem (regular.distinct.nodup y) member]
          rfl
    · have plain' (x : ObjectId) (there : b = .object x) := plain x (Value.plainly_object.mp (by rw [same,there]; rfl))
      rw [view_plain plain,view_plain plain',same]

/-- What is known of a copy, in every store in which it is still there. -/
structure CopyOf (p : Program) (n : Nat) (h : Heap) (v w : Value) (g : Heap) : Prop where
  kept : Kept h g
  shaped : ∀ P, Shaped P h → Shaped P g
  new : ∀ k, Kept g k → ∀ o, Reaches p k w o → h.objects.size ≤ o.index
  seen : ∀ k, Kept g k → k.view p n w = k.view p n v

theorem mapFields_copied {f : Heap → Value → Option (Value × Heap)} {fields : List (String × Value)}
    (each : ∀ x ∈ fields, ∀ k, Kept h k → ∃ w g, f k x.2 = some (w,g) ∧ CopyOf p n k x.2 w g) :
    ∃ copies g, mapFields f fields h = some (copies,g) ∧ Kept h g ∧ (∀ P, Shaped P h → Shaped P g) ∧
      Forall₂ (fun x y => y.1 = x.1 ∧ ∃ k, Kept h k ∧ ∃ k', Kept k' g ∧ CopyOf p n k x.2 y.2 k') fields copies := by
  induction fields generalizing h with
  | nil => exact ⟨[],h,rfl,.refl h,fun _ => id,.nil⟩
  | cons x rest ih =>
    obtain ⟨first,others⟩ := forall_mem_cons.mp each
    obtain ⟨w,k,made,copied⟩ := first h (.refl h)
    obtain ⟨copies,g,later,kept,shaped,all⟩ := ih fun y member k' kept => others y member k' (copied.kept.trans kept)
    refine ⟨(x.1,w) :: copies,g,?_,copied.kept.trans kept,fun P => shaped P ∘ copied.shaped P,
      .cons ⟨rfl,h,.refl h,k,kept,copied⟩ ?_⟩
    · rw [mapFields,made]
      simp [later]
    · refine all.imp ?_
      rintro x y ⟨name,k₁,early,rest⟩
      exact ⟨name,k₁,copied.kept.trans early,rest⟩

theorem copyWithin_copied (nested : h.isNested p n v = true) : ∃ w g, copyWithin p n h v = some (w,g) ∧ CopyOf p n h v w g := by
  induction n generalizing h v with
  | zero => cases nested
  | succ n ih =>
    have unchanged (plain : ∀ x, v = .object x → x.index < h.objects.size ∧ h.isInline p x = false) :
        CopyOf p (n + 1) h v v h := by
      refine ⟨.refl h,fun _ => id,fun k kept o reached => ?_,fun _ _ => rfl⟩
      cases reached with
      | self inline => rw [kept.isInline_eq (plain _ rfl).1,(plain _ rfl).2] at inline; cases inline
      | field inline => rw [kept.isInline_eq (plain _ rfl).1,(plain _ rfl).2] at inline; cases inline
    cases v with
    | object o =>
      obtain ⟨present,fields⟩ := isNested_object.mp nested
      by_cases inline : h.isInline p o = true
      · obtain ⟨copies,g,made,kept,shaped,all⟩ := mapFields_copied (p := p) (n := n) (f := copyWithin p n)
          fun x member k kept => ih (kept.isNested (fields inline x member))
        have names : copies.map Prod.fst = (h.objectAt o).fields.map Prod.fst :=
          map_eq_of_forall₂ (all.imp fun x y both => both.1)
        have done : copyWithin p (n + 1) h (.object o) = some (g.addObject { h.objectAt o with fields := copies }) := by
          rw [copyWithin,if_pos (show (p.typeAt (h.objectAt o).type).isValueType = true from inline),made]
          rfl
        have here (k : Heap) (after : Kept (g.addObject { h.objectAt o with fields := copies }).2 k) :=
          (after.object ⟨g.objects.size⟩ (by simp [addObject])).trans (objectAt_addObject _)
        refine ⟨_,_,done,kept.trans (kept_addObject _),fun P before => ?_,fun k after x reached => ?_,fun k after => ?_⟩
        · refine (shaped P before).addObject ?_
          rw [names]
          exact before o present
        · cases reached with
          | self => exact kept.size_le
          | field _ member later =>
            rw [here k after] at member
            obtain ⟨_,_,_,k₁,early,k₂,late,copied⟩ := left_of_forall₂ all member
            exact Nat.le_trans early.size_le (copied.new k ((late.trans (kept_addObject _)).trans after) x later)
        · have old := ((kept.trans (kept_addObject _)).trans after).object o present
          rw [view,view,if_pos (by rw [isInline,here k after]; exact inline),if_pos (by rw [isInline,old]; exact inline),
            here k after,old]
          refine congrArg _ (map_eq_of_forall₂ (all.imp ?_))
          rintro x y ⟨name,k₁,early,k₂,late,copied⟩
          rw [name,copied.seen k ((late.trans (kept_addObject _)).trans after)]
      · refine ⟨_,_,?_,unchanged fun x same => ?_⟩
        · rw [copyWithin,if_neg (show ¬(p.typeAt (h.objectAt o).type).isValueType = true from inline)]
        · cases same
          exact ⟨present,Bool.eq_false_iff.mpr inline⟩
    | _ => exact ⟨_,_,rfl,unchanged (by rintro x ⟨⟩)⟩

/-- The stores that come from an empty one by fresh objects, copies and field stores. -/
inductive Built (p : Program) : Heap → Prop
  | empty : Built p {}
  | object {h g : Heap} {n : Nat} {t : TypeId} {args : List TypeRef} {v : Value} (built : Built p h)
      (made : newObjectWithin p n t args h = some (v,g)) : Built p g
  | copy {h g : Heap} {n : Nat} {v w : Value} (built : Built p h) (nested : h.isNested p n v = true)
      (made : copyWithin p n h v = some (w,g)) : Built p g
  | store {h : Heap} (built : Built p h) (o : ObjectId) (name : String) (v : Value) : Built p (h.setField o name v)
  | beside {h g : Heap} (built : Built p h) (objects : g.objects = h.objects) : Built p g

theorem Built.regular (built : Built p h) : Regular p h := by
  induction built with
  | empty => exact fun o present => absurd present (Nat.not_lt_zero _)
  | object _ made ih => exact (zero_regular p _).2.1 _ _ _ _ made ih
  | copy _ nested made ih =>
    obtain ⟨w,g,done,copied⟩ := copyWithin_copied nested
    cases done.symm.trans made
    exact copied.shaped _ ih
  | @store h _ o name v ih =>
    intro x present
    rw [setField,Array.size_modify] at present
    obtain ⟨type,names⟩ := names_setField (h := h) o x name v
    rw [type,names]
    exact ih x present
  | beside _ objects ih =>
    intro o present
    rw [objectAt,objects]
    exact ih o (objects ▸ present)

/-- Values are equal exactly if the same can be seen of them, however deep one looks from some depth on. -/
theorem equal_iff_view (regular : Regular p h) (rooted : Rooted p) (left : h.Acyclic p a) (right : h.Acyclic p b) :
    h.Equal p a b ↔ ∃ n, ∀ m ≥ n, h.view p m a = h.view p m b := by
  obtain ⟨i,left⟩ := left
  obtain ⟨j,right⟩ := right
  constructor
  · rintro ⟨n,equal⟩
    refine ⟨i + j + n,fun m large => view_of_equalWithin regular rooted ?_ ?_ (equalWithin_mono equal (by omega))⟩
    · exact isNested_mono left (by omega)
    · exact isNested_mono right (by omega)
  · rintro ⟨n,same⟩
    exact ⟨i + n,equalWithin_of_view regular.distinct (isNested_mono left (by omega)) (same _ (by omega))⟩

/-- A copy equals the value that it was made of and shares no object of a value type with it. All other values are equal
    as numbers or as one and the same thing. Equality is by what can be seen of values, and an equivalence. -/
theorem values_copied_and_compared (p : Program) (h : Heap) :
    (h.Distinct → ∀ v, h.Acyclic p v → ∃ n, ∀ m ≥ n, ∃ w g, copyWithin p m h v = some (w,g) ∧ g.Equal p v w ∧
      (∀ o, g.Reaches p w o → h.objects.size ≤ o.index) ∧ ∀ k, ReflTransGen (Stores (g.Reaches p w)) g k → h.Kept k) ∧
    (∀ a b, (∀ x, a = .object x → h.isInline p x = false) → (h.Equal p a b ↔ a.plainly = b.plainly)) ∧
    (h.Built p → Rooted p →
      (∀ a b, h.Acyclic p a → h.Acyclic p b → (h.Equal p a b ↔ ∃ n, ∀ m ≥ n, h.view p m a = h.view p m b)) ∧
      (∀ a, h.Acyclic p a → h.Equal p a a) ∧ (∀ a b, h.Acyclic p a → h.Acyclic p b → h.Equal p a b → h.Equal p b a) ∧
      ∀ a b c, h.Acyclic p a → h.Acyclic p b → h.Acyclic p c → h.Equal p a b → h.Equal p b c → h.Equal p a c) := by
  refine ⟨fun distinct v acyclic => ?_,fun a b plain => ⟨?_,fun same => ⟨1,?_⟩⟩,fun built rooted => ?_⟩
  · obtain ⟨n,nested⟩ := acyclic
    refine ⟨n,fun m large => ?_⟩
    have nested := isNested_mono nested large
    obtain ⟨w,g,made,copied⟩ := copyWithin_copied nested
    have new := copied.new g (.refl g)
    have equal := equalWithin_of_view (copied.shaped _ distinct) (copied.kept.isNested nested) (copied.seen g (.refl g)).symm
    exact ⟨w,g,made,⟨m,equal⟩,new,fun k => copied.kept.stores new⟩
  · rintro ⟨n,found⟩
    cases n with
    | zero => cases found
    | succ n =>
      rcases equalWithin_iff.mp found with ⟨x,y,same,-,inline,-⟩ | ⟨same,-⟩
      · rw [plain x same] at inline
        cases inline
      · exact same
  · exact equalWithin_iff.mpr (.inr ⟨same,plain⟩)
  · have seen (a b : Value) (left : h.Acyclic p a) (right : h.Acyclic p b) :=
      equal_iff_view built.regular rooted left right
    refine ⟨seen,fun a acyclic => (seen a a acyclic acyclic).mpr ⟨0,fun _ _ => rfl⟩,?_,?_⟩
    · intro a b left right equal
      obtain ⟨n,same⟩ := (seen a b left right).mp equal
      exact (seen b a right left).mpr ⟨n,fun m large => (same m large).symm⟩
    · intro a b c first second third equal equal'
      obtain ⟨n,same⟩ := (seen a b first second).mp equal
      obtain ⟨k,same'⟩ := (seen b c second third).mp equal'
      exact (seen a c first third).mpr ⟨n + k,fun m large => (same m (by omega)).trans (same' m (by omega))⟩

/-- A value type with two fields of another. -/
def drawing : Document :=
  { moduleName := "Drawing"
    types :=
      [some { name := "Point", flags := ["valuetype"], fields := [{ name := "x", type := "System.Int32" }] },
       some { name := "Line", flags := ["valuetype"]
              fields := [{ name := "a", type := "Point" },{ name := "b", type := "Point" }] }] }

theorem values_copied_and_compared_drawing : ∃ (home : ModuleId) (p : Program) (v w : Value) (h g : Heap),
    drawing.link Program.core [CoreLibrary.home] = .ok (home,p) ∧ h.Built p ∧ h.Acyclic p v ∧ Rooted p ∧
    h.objects.size = 3 ∧ v = .object ⟨2⟩ ∧ h.isInline p ⟨2⟩ = true ∧ g.Equal p v w ∧
    (∀ o, g.Reaches p w o → 3 ≤ o.index) ∧ h.Equal p v v := by
  obtain ⟨home,p,linked,evaluated⟩ := drawing.link_passes (f := fun home p =>
    isLayered p && (p.allTypes home).any fun d =>
      (newObjectWithin p 9 d [] {}).any fun r => r.1 == .object ⟨2⟩ && r.2.isInline p ⟨2⟩ && r.2.isNested p 3 r.1 &&
        r.2.objects.size == 3) (by decide +kernel)
  obtain ⟨layered,evaluated⟩ := Bool.and_eq_true_iff.mp evaluated
  have rooted : Rooted p := fun d => (isLayered_at layered d).1
  obtain ⟨d,-,evaluated⟩ := any_eq_true.mp evaluated
  obtain ⟨⟨v,h⟩,made,evaluated⟩ := (Option.any_eq_true _ _).mp evaluated
  simp only [Bool.and_eq_true,beq_iff_eq] at evaluated
  obtain ⟨⟨⟨object,inline⟩,nested⟩,size⟩ := evaluated
  have built : h.Built p := .object .empty made
  obtain ⟨copies,-,compared⟩ := values_copied_and_compared p h
  have acyclic : h.Acyclic p v := ⟨3,nested⟩
  obtain ⟨n,copies⟩ := copies built.regular.distinct v acyclic
  obtain ⟨w,g,-,equal,new,-⟩ := copies n (Nat.le_refl n)
  exact ⟨home,p,v,w,h,g,linked,built,acyclic,rooted,size,object,inline,equal,size ▸ new,(compared built rooted).2.1 v acyclic⟩

end Heap
end Loom.Machine
