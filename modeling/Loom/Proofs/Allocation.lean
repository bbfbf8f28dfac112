import Mathlib.Data.Fintype.EquivFin
import Loom.Machine.Memory
import Loom.Proofs.Linking

/-!
Whether allocation ends. A fresh object has the fields of its type and of the bases above it, and a field of a value
type holds an object of its own. The walk over them ends exactly if it is well founded, and it is if no declaration
holds itself: by its base, or by a value type that stands in the open in the type of a field.
-/
namespace Loom.Machine

open Option Prod List TypeRef
open Program (core)

variable {p : Program} {d e : TypeId} {t : TypeRef} {args : List TypeRef} {h : Heap} {n : Nat}

/-- A zero value of the type is an object of its own. -/
def embeds (p : Program) (d : TypeId) : Bool :=
  (p.typeAt d).isValueType && !(["System.Int32","System.Boolean","System.Void"].contains (p.fullName d))

theorem isSome_zeroWithin : (zeroWithin p (n + 1) t h).isSome = true ↔
    ∀ d, t.element? = some d → embeds p d = true → (newObjectWithin p n d t.arguments h).isSome = true := by
  rw [zeroWithin]
  cases t.element? with
  | none => simp
  | some d =>
    simp only [some.injEq,forall_eq']
    split <;> simp_all [embeds]
    split <;> simp_all

theorem isSome_newObjectWithin :
    (newObjectWithin p (n + 1) d args h).isSome = true ↔ (zeroFieldsWithin p n d args [] h).isSome = true := by
  rw [newObjectWithin]
  cases zeroFieldsWithin p n d args [] h with
  | none => rfl
  | some made => exact ⟨fun _ => rfl,fun _ => rfl⟩

def firstFields : List FieldDecl → List String → List FieldDecl
  | [], _ => []
  | f :: rest, names => if f.name ∈ names then firstFields rest names else f :: firstFields rest (names ++ [f.name])

theorem mem_of_mem_firstFields {fields : List FieldDecl} {names : List String} {f : FieldDecl}
    (member : f ∈ firstFields fields names) : f ∈ fields := by
  induction fields generalizing names with
  | nil => cases member
  | cons g rest ih =>
    rw [firstFields] at member
    split at member
    · exact .tail _ (ih member)
    · rcases mem_cons.mp member with rfl | later
      · exact .head _
      · exact .tail _ (ih later)

section

variable {z : TypeRef → Heap → Option (Value × Heap)} {fields : List FieldDecl} {done : List (String × Value)}

theorem addFields_eq_some {r : List (String × Value) × Heap} (made : addFields z fields done h = some r) :
    r.1.map fst = done.map fst ++ (firstFields fields (done.map fst)).map FieldDecl.name ∧
      ∀ f ∈ firstFields fields (done.map fst), ∃ h', (z f.type h').isSome = true := by
  induction fields generalizing done h with
  | nil =>
    cases made
    simp [firstFields]
  | cons f rest ih =>
    rw [addFields] at made
    rw [firstFields]
    by_cases known : f.name ∈ done.map fst
    · rw [if_pos (isSome_lookup.mpr known)] at made
      rw [if_pos known]
      exact ih made
    · rw [if_neg fun found => known (isSome_lookup.mp found)] at made
      rw [if_neg known]
      obtain ⟨⟨v,h'⟩,first,later⟩ := bind_eq_some_iff.mp made
      obtain ⟨names,each⟩ := ih later
      rw [map_append,map_singleton] at names each
      refine ⟨by rw [names,append_assoc]; rfl,forall_mem_cons.mpr ⟨⟨h,by rw [first]; rfl⟩,each⟩⟩

theorem addFields_isSome (each : ∀ f ∈ firstFields fields (done.map fst), ∀ h, (z f.type h).isSome = true) :
    (addFields z fields done h).isSome = true := by
  induction fields generalizing done h with
  | nil => rfl
  | cons f rest ih =>
    rw [firstFields] at each
    rw [addFields]
    by_cases known : f.name ∈ done.map fst
    · rw [if_pos known] at each
      rw [if_pos (isSome_lookup.mpr known)]
      exact ih each
    · rw [if_neg known,forall_mem_cons] at each
      rw [if_neg fun found => known (isSome_lookup.mp found)]
      obtain ⟨⟨v,h'⟩,first⟩ := isSome_iff_exists.mp (each.1 h)
      rw [first]
      refine ih ?_
      rw [map_append,map_singleton]
      exact each.2

end

/-- A type whose fields are to be set: with its arguments, and the names of the fields that are there already. -/
structure Plan where
  type : TypeId
  args : List TypeRef
  names : List String

namespace Plan

/-- A type in the declaration, with the arguments put in place. -/
def subst (x : Plan) (t : TypeRef) : TypeRef := ({ typeArgs := x.args } : Context).subst t

def fields (p : Program) (x : Plan) : List FieldDecl := firstFields ((p.typeAt x.type).fields.filter (!·.isStatic)) x.names

/-- What has to be done for a type: the objects of its fields are made, and the fields of its base are set. -/
inductive Visits (p : Program) : Plan → Plan → Prop
  | field {x : Plan} {f : FieldDecl} {d : TypeId} (new : f ∈ x.fields p) (element : (x.subst f.type).element? = some d)
      (embedded : embeds p d = true) : Visits p x ⟨d,(x.subst f.type).arguments,[]⟩
  | base {x : Plan} {b : TypeId} {args : List TypeRef} (above : base? p x.type x.args = some (b,args)) :
      Visits p x ⟨b,args,x.names ++ (x.fields p).map FieldDecl.name⟩

abbrev Ends (p : Program) (x : Plan) : Prop := Acc (fun y x => Visits p x y) x

theorem ends_of_isSome {done : List (String × Value)} (made : (zeroFieldsWithin p n d args done h).isSome = true) :
    Ends p ⟨d,args,done.map Prod.fst⟩ := by
  induction n using Nat.strongRecOn generalizing d args done h with
  | ind n ih =>
    cases n with
    | zero => cases made
    | succ n =>
      rw [zeroFieldsWithin] at made
      obtain ⟨r,made⟩ := Option.isSome_iff_exists.mp made
      obtain ⟨⟨done',h'⟩,added,later⟩ := Option.bind_eq_some_iff.mp made
      obtain ⟨names,each⟩ := addFields_eq_some added
      refine ⟨_,fun y visits => ?_⟩
      cases visits with
      | field new element embedded =>
        obtain ⟨h₁,zero⟩ := each _ new
        obtain ⟨k,rfl⟩ : ∃ k, n = k + 1 := ⟨n - 1,by cases n <;> [cases zero; rfl]⟩
        have object := isSome_zeroWithin.mp zero _ element embedded
        obtain ⟨j,rfl⟩ : ∃ j, k = j + 1 := ⟨k - 1,by cases k <;> [cases object; rfl]⟩
        exact ih j (by omega) (isSome_newObjectWithin.mp object)
      | base above =>
        have above : base? p d args = some (_,_) := above
        rw [above] at later
        have rest := ih n (Nat.lt_succ_self n) (Option.isSome_iff_exists.mpr ⟨_,later⟩)
        rw [names] at rest
        exact rest

theorem Ends.isSome {x : Plan} (ends : Ends p x) : ∃ n, ∀ m ≥ n, ∀ done h, done.map fst = x.names →
    (zeroFieldsWithin p m x.type x.args done h).isSome = true := by
  induction ends with
  | intro x _ ih =>
    have each : ∀ f ∈ x.fields p, ∃ n, ∀ m ≥ n, ∀ h, (zeroWithin p m (x.subst f.type) h).isSome = true := by
      intro f new
      by_cases object : ∃ d, (x.subst f.type).element? = some d ∧ embeds p d = true
      · obtain ⟨d,element,embedded⟩ := object
        obtain ⟨n,rest⟩ := ih _ (.field new element embedded)
        refine ⟨n + 2,fun m large h => ?_⟩
        obtain ⟨k,rfl⟩ : ∃ k, m = k + 2 := ⟨m - 2,by omega⟩
        refine isSome_zeroWithin.mpr fun d' same _ => isSome_newObjectWithin.mpr ?_
        cases element.symm.trans same
        exact rest k (by omega) [] h rfl
      · refine ⟨1,fun m large h => ?_⟩
        obtain ⟨k,rfl⟩ : ∃ k, m = k + 1 := ⟨m - 1,by omega⟩
        exact isSome_zeroWithin.mpr fun d element embedded => absurd ⟨d,element,embedded⟩ object
    obtain ⟨n,zeros⟩ : ∃ n, ∀ m ≥ n, ∀ f ∈ x.fields p, ∀ h, (zeroWithin p m (x.subst f.type) h).isSome = true := by
      revert each
      generalize x.fields p = fields
      intro each
      induction fields with
      | nil => exact ⟨0,fun _ _ => forall_mem_nil _⟩
      | cons f rest ihf =>
        obtain ⟨a,first⟩ := each f (.head _)
        obtain ⟨b,others⟩ := ihf fun g member => each g (.tail _ member)
        exact ⟨a + b,fun m large => forall_mem_cons.mpr ⟨first m (by omega),others m (by omega)⟩⟩
    obtain ⟨k,bases⟩ : ∃ k, ∀ m ≥ k, ∀ b args, base? p x.type x.args = some (b,args) → ∀ done h,
        done.map fst = x.names ++ (x.fields p).map FieldDecl.name → (zeroFieldsWithin p m b args done h).isSome = true := by
      cases above : base? p x.type x.args with
      | none => exact ⟨0,fun _ _ _ _ same => by cases same⟩
      | some base =>
        obtain ⟨k,rest⟩ := ih _ (.base above)
        refine ⟨k,fun m large b args same => ?_⟩
        cases same
        exact rest m large
    refine ⟨n + k + 1,fun m large done h names => ?_⟩
    obtain ⟨m,rfl⟩ : ∃ j, m = j + 1 := ⟨m - 1,by omega⟩
    rw [zeroFieldsWithin]
    have fields := zeros m (by omega)
    rw [Plan.fields,← names] at fields
    obtain ⟨⟨done',h'⟩,added⟩ := isSome_iff_exists.mp (addFields_isSome
      (z := fun t => zeroWithin p m (x.subst t)) (h := h) fields)
    have after := (addFields_eq_some added).1
    rw [show addFields (fun t => zeroWithin p m (({ typeArgs := x.args } : Context).subst t)) _ done h = _ from added]
    cases above : base? p x.type x.args with
    | none => rfl
    | some base => exact bases m (by omega) _ _ above done' h' (by rw [after,names]; rfl)

end Plan

theorem newObject_ends_iff : (∃ n, (newObjectWithin p n d args h).isSome = true) ↔ Plan.Ends p ⟨d,args,[]⟩ := by
  constructor
  · rintro ⟨n,made⟩
    cases n with
    | zero => cases made
    | succ n => exact Plan.ends_of_isSome (isSome_newObjectWithin.mp made)
  · intro ends
    obtain ⟨n,made⟩ := ends.isSome
    exact ⟨n + 1,isSome_newObjectWithin.mpr (made n (Nat.le_refl n) [] h rfl)⟩

/-- The value types that stand in a type in the open: not as an argument of a type whose values are references. -/
inductive Exposed (p : Program) : TypeRef → TypeId → Prop
  | self {t : TypeRef} {d : TypeId} (element : t.element? = some d) (embedded : embeds p d = true) : Exposed p t d
  | argument {t a : TypeRef} {d e : TypeId} (element : t.element? = some d) (embedded : embeds p d = true)
      (member : a ∈ t.arguments) (exposed : Exposed p a e) : Exposed p t e

/-- A declaration holds its base, the value types in the open in the arguments of its base and those in the types of its
    fields. -/
def Holds (p : Program) (d e : TypeId) : Prop :=
  (p.typeAt d).base.element? = some e ∨ (∃ a ∈ (p.typeAt d).base.arguments, Exposed p a e) ∨
    ∃ f ∈ (p.typeAt d).fields, f.isStatic = false ∧ Exposed p f.type e

/-- The walk over a type ends, and so do those over its arguments that stand in the open. -/
inductive Bounded (p : Program) : TypeRef → Prop
  | plain {t : TypeRef} (flat : ∀ d, t.element? = some d → embeds p d = false) : Bounded p t
  | object {t : TypeRef} {d : TypeId} (element : t.element? = some d) (ends : Plan.Ends p ⟨d,t.arguments,[]⟩)
      (args : ∀ a ∈ t.arguments, Bounded p a) : Bounded p t

section

variable (bases : ∀ d g, (p.typeAt d).base ≠ .param g)
include bases

/-- The walk over a declaration ends if those over what it holds do, whatever bounded arguments it has. -/
theorem ends_of_acc (held : Acc (fun e d => Holds p d e) d) (bounded : ∀ a ∈ args, Bounded p a) (names : List String) :
    Plan.Ends p ⟨d,args,names⟩ := by
  induction held generalizing args names with
  | intro d _ ih =>
    -- Putting bounded arguments in place keeps a type bounded, since its own value types are held.
    have put (t : TypeRef) (below : ∀ e, Exposed p t e → Holds p d e) :
        Bounded p (({ typeArgs := args } : Context).subst t) := by
      rw [Context.subst]
      induction t with
      | absent => exact .plain fun d same => by cases same
      | param g =>
        rw [mapParams_param,Context.param]
        split
        · exact .plain fun d same => by cases same
        · cases at_ : args[g.position]? with
          | none => exact .plain fun d same => by cases same
          | some a => exact bounded a (mem_of_getElem? at_)
      | decl e =>
        by_cases embedded : embeds p e = true
        · exact .object rfl (ih e (below e (.self rfl embedded)) (forall_mem_nil _) []) (forall_mem_nil _)
        · refine .plain fun e' same => ?_
          cases same
          exact Bool.eq_false_iff.mpr embedded
      | applied e us ihs =>
        rw [mapParams_applied]
        by_cases embedded : embeds p e = true
        · have inner : ∀ a ∈ us.map (mapParams ({ typeArgs := args } : Context).param), Bounded p a := by
            refine forall_mem_map.mpr fun a member => ihs a member fun e' exposed => ?_
            exact below e' (.argument rfl embedded member exposed)
          exact .object rfl (ih e (below e (.self rfl embedded)) inner []) inner
        · refine .plain fun e' same => ?_
          cases same
          exact Bool.eq_false_iff.mpr embedded
    refine ⟨_,fun y visits => ?_⟩
    cases visits with
    | @field f e new element embedded =>
      have member := mem_filter.mp (mem_of_mem_firstFields new)
      have field := put f.type fun e exposed => .inr (.inr ⟨f,member.1,by simpa using member.2,exposed⟩)
      cases field with
      | plain flat =>
        have flat := flat e element
        rw [embedded] at flat
        cases flat
      | object element' ends _ =>
        cases element.symm.trans element'
        exact ends
    | @base b us above =>
      have above : base? p d args = some (b,us) := above
      rw [base?,Context.subst] at above
      cases base : (p.typeAt d).base with
      | absent =>
        rw [base] at above
        cases above
      | param g => exact absurd base (bases d g)
      | decl e =>
        rw [base] at above
        cases above
        exact ih _ (.inl (by rw [base]; rfl)) (forall_mem_nil _) _
      | applied e us =>
        rw [base,mapParams_applied] at above
        cases above
        refine ih _ (.inl (by rw [base]; rfl)) (forall_mem_map.mpr fun a member => ?_) _
        exact put a fun e exposed => .inr (.inl ⟨a,by rw [base]; exact member,exposed⟩)

theorem bounded_of_acc (held : ∀ d, Acc (fun e d => Holds p d e) d) (t : TypeRef) : Bounded p t := by
  have object {t : TypeRef} {d : TypeId} (element : t.element? = some d) (args : ∀ a ∈ t.arguments, Bounded p a) : Bounded p t :=
    .object element (ends_of_acc bases (held d) args []) args
  induction t with
  | absent => exact .plain fun d same => by cases same
  | param g => exact .plain fun d same => by cases same
  | decl d => exact object rfl (forall_mem_nil _)
  | applied d us ih => exact object rfl ih

end

/-- Declarations of which none holds itself, in one step or in more, are accessible: there are finitely many. -/
theorem acc_of_acyclic (acyclic : ∀ d, ¬Relation.TransGen (Holds p) d d) (d : TypeId) : Acc (fun e d => Holds p d e) d := by
  have outside {d : TypeId} (beyond : ¬d.index < p.types.size) : Acc (fun e d => Holds p d e) d := by
    refine ⟨_,fun e holds => ?_⟩
    rw [Holds,Program.typeAt_of_le (Nat.le_of_not_lt beyond)] at holds
    rcases holds with base | ⟨a,member,-⟩ | ⟨f,member,-⟩
    · cases base
    · cases member
    · cases member
  let Declared := { d : TypeId // d.index < p.types.size }
  have finite : Finite Declared := by
    refine Finite.of_injective (fun d : Declared => (⟨d.1.index,d.2⟩ : Fin p.types.size)) fun d e same => ?_
    exact Subtype.ext (congrArg TypeId.mk (Fin.mk.inj same))
  let below (e d : Declared) : Prop := Relation.TransGen (Holds p) d.1 e.1
  have : IsTrans Declared below := ⟨fun _ _ _ first second => second.trans first⟩
  have : Std.Irrefl below := ⟨fun d => acyclic d.1⟩
  have founded := Finite.wellFounded_of_trans_of_irrefl below
  have inner (x : Declared) : Acc (fun e d => Holds p d e) x.1 := by
    induction x using founded.induction with
    | _ x ih =>
      refine ⟨_,fun e holds => ?_⟩
      by_cases inside : e.index < p.types.size
      · exact ih ⟨e,inside⟩ (.single holds)
      · exact outside inside
  by_cases inside : d.index < p.types.size
  · exact inner ⟨d,inside⟩
  · exact outside inside

/-- A fresh object is made exactly if the walk over its type is well founded, and a zero value is there exactly if it is no
    object or can be made. Where no declaration holds itself and no base is a parameter, both end for all types. -/
theorem allocation_ends (p : Program) :
    (∀ d args h, (∃ n, (newObjectWithin p n d args h).isSome = true) ↔ Plan.Ends p ⟨d,args,[]⟩) ∧
    (∀ t h, (∃ n, (zeroWithin p n t h).isSome = true) ↔
      ∀ d, t.element? = some d → embeds p d = true → Plan.Ends p ⟨d,t.arguments,[]⟩) ∧
    ((∀ d, ¬Relation.TransGen (Holds p) d d) → (∀ d g, (p.typeAt d).base ≠ .param g) →
      (∀ d args h, ∃ n, (newObjectWithin p n d args h).isSome = true) ∧ ∀ t h, ∃ n, (zeroWithin p n t h).isSome = true) := by
  have zero (t : TypeRef) (h : Heap) : (∃ n, (zeroWithin p n t h).isSome = true) ↔
      ∀ d, t.element? = some d → embeds p d = true → Plan.Ends p ⟨d,t.arguments,[]⟩ := by
    constructor
    · rintro ⟨n,made⟩ d element embedded
      cases n with
      | zero => cases made
      | succ n => exact newObject_ends_iff.mp ⟨n,isSome_zeroWithin.mp made d element embedded⟩
    · intro ends
      by_cases object : ∃ d, t.element? = some d ∧ embeds p d = true
      · obtain ⟨d,element,embedded⟩ := object
        obtain ⟨n,made⟩ := newObject_ends_iff (h := h).mpr (ends d element embedded)
        refine ⟨n + 1,isSome_zeroWithin.mpr fun d' same _ => ?_⟩
        cases element.symm.trans same
        exact made
      · exact ⟨1,isSome_zeroWithin.mpr fun d element embedded => absurd ⟨d,element,embedded⟩ object⟩
  refine ⟨fun d args h => newObject_ends_iff,zero,fun acyclic bases => ?_⟩
  have held := acc_of_acyclic acyclic
  have ends (d : TypeId) (args : List TypeRef) : Plan.Ends p ⟨d,args,[]⟩ :=
    ends_of_acc bases (held d) (fun a _ => bounded_of_acc bases held a) []
  exact ⟨fun d args h => newObject_ends_iff.mpr (ends d args),fun t h => (zero t h).mpr fun d _ _ => ends d t.arguments⟩

/-- The declarations in a type stand before a place. -/
def isBefore (i : Nat) (t : TypeRef) : Bool := t.parts.all fun u => u.element?.all fun e => decide (e.index < i)

/-- What the types of a program hold is declared before them, and no base is a parameter. -/
def isLayered (p : Program) : Bool := (range p.types.size).all fun i => !(p.typeAt ⟨i⟩).base matches .param _ &&
  isBefore i (p.typeAt ⟨i⟩).base && (p.typeAt ⟨i⟩).fields.all fun f => isBefore i f.type

theorem isLayered_at (layered : isLayered p = true) (d : TypeId) : (∀ g, (p.typeAt d).base ≠ .param g) ∧
    isBefore d.index (p.typeAt d).base = true ∧ ∀ f ∈ (p.typeAt d).fields, isBefore d.index f.type = true := by
  by_cases inside : d.index < p.types.size
  · have here := all_eq_true.mp layered d.index (mem_range.mpr inside)
    simp only [Bool.and_eq_true,List.all_eq_true] at here
    obtain ⟨⟨base,before⟩,fields⟩ := here
    refine ⟨fun g same => ?_,before,fields⟩
    rw [same] at base
    cases base
  · rw [Program.typeAt_of_le (Nat.le_of_not_lt inside)]
    exact ⟨nofun,rfl,nofun⟩

theorem lt_of_isBefore (before : isBefore n t = true) (element : t.element? = some d) : d.index < n := by
  have here := all_eq_true.mp before t (mem_parts_self t)
  rw [element] at here
  exact of_decide_eq_true here

theorem isBefore_argument {a : TypeRef} (before : isBefore n t = true) (member : a ∈ t.arguments) : isBefore n a = true := by
  cases t with
  | applied d args =>
    exact all_eq_true.mpr fun u within => all_eq_true.mp before u (mem_parts_applied.mpr (.inr ⟨a,member,within⟩))
  | _ => cases member

theorem lt_of_exposed (before : isBefore n t = true) (exposed : Exposed p t e) : e.index < n := by
  induction exposed with
  | self element => exact lt_of_isBefore before element
  | argument _ _ member _ ih => exact ih (isBefore_argument before member)

theorem lt_of_holds (layered : isLayered p = true) (holds : Holds p d e) : e.index < d.index := by
  obtain ⟨-,base,fields⟩ := isLayered_at layered d
  rcases holds with element | ⟨a,member,exposed⟩ | ⟨f,member,-,exposed⟩
  · exact lt_of_isBefore base element
  · exact lt_of_exposed (isBefore_argument base member) exposed
  · exact lt_of_exposed (fields f member) exposed

theorem acyclic_of_isLayered (layered : isLayered p = true) (d : TypeId) : ¬Relation.TransGen (Holds p) d d := by
  have down {e : TypeId} (held : Relation.TransGen (Holds p) d e) : e.index < d.index := by
    induction held with
    | single holds => exact lt_of_holds layered holds
    | tail _ holds ih => exact Nat.lt_trans (lt_of_holds layered holds) ih
  exact fun loop => Nat.lt_irrefl _ (down loop)

theorem Plan.not_ends_of_visits {x : Plan} (loop : Visits p x x) : ¬Ends p x := by
  intro ends
  induction ends with
  | intro x _ ih => exact ih x loop loop

def coil : Document :=
  { moduleName := "Coil"
    types := [some { name := "Coil", flags := ["valuetype"], fields := [{ name := "inner", type := "Coil" }] }] }

/-- A type with a generic base that has a value type in a field, and in that another one. -/
def chest : Document :=
  { moduleName := "Chest"
    types :=
      [some { name := "Lock", flags := ["valuetype"], fields := [{ name := "key", type := "System.Int32" }] },
       some { name := "Drawer", generics := ["T"], flags := ["valuetype"]
              fields := [{ name := "lock", type := "Lock" },{ name := "item", type := "!0" }] },
       some { name := "Stand", generics := ["T"], fields := [{ name := "top", type := "Drawer<!0>" }] },
       some { name := "Chest", base := "Stand<Drawer<System.Int32>>" }] }

theorem allocation_ends_coil : (∃ home p, chest.link Program.core [CoreLibrary.home] = .ok (home,p) ∧
      (∃ d ∈ p.allTypes home, ∃ e, (p.typeAt d).base.element? = some e ∧ (p.typeAt d).base.arguments ≠ [] ∧
        ∃ f ∈ (p.typeAt e).fields, ∃ i, f.type.element? = some i ∧ embeds p i = true ∧
          ∃ g ∈ (p.typeAt i).fields, ∃ j, g.type.element? = some j ∧ embeds p j = true) ∧
      (∀ d args h, ∃ n, (newObjectWithin p n d args h).isSome = true) ∧ ∀ t h, ∃ n, (zeroWithin p n t h).isSome = true) ∧
    ∃ home q, coil.link Program.core [CoreLibrary.home] = .ok (home,q) ∧
      ∃ d ∈ q.allTypes home, (∀ n h, newObjectWithin q n d [] h = none) ∧ ∀ n h, zeroWithin q n (.decl d) h = none := by
  constructor
  · obtain ⟨home,p,linked,evaluated⟩ := chest.link_passes (f := fun home p => isLayered p &&
      (p.allTypes home).any fun d => (p.typeAt d).base.element?.any fun e => !(p.typeAt d).base.arguments.isEmpty &&
        (p.typeAt e).fields.any fun f => f.type.element?.any fun i => embeds p i &&
          (p.typeAt i).fields.any fun g => g.type.element?.any (embeds p)) (by decide +kernel)
    simp only [Bool.and_eq_true,List.any_eq_true,Option.any_eq_true,Bool.not_eq_true',isEmpty_eq_false_iff] at evaluated
    obtain ⟨layered,deep⟩ := evaluated
    exact ⟨home,p,linked,deep,
      (allocation_ends p).2.2 (acyclic_of_isLayered layered) fun d => (isLayered_at layered d).1⟩
  obtain ⟨home,q,linked,evaluated⟩ := coil.link_passes (f := fun home q =>
    (q.allTypes home).any fun d => embeds q d && (Plan.fields q ⟨d,[],[]⟩).any (·.type == .decl d)) (by decide +kernel)
  obtain ⟨d,member,coiled⟩ := List.any_eq_true.mp evaluated
  obtain ⟨embedded,inner⟩ := Bool.and_eq_true_iff.mp coiled
  obtain ⟨⟨_,type,_⟩,new,same⟩ := List.any_eq_true.mp inner
  cases type with
  | decl e =>
    obtain rfl : e = d := beq_iff_eq.mp same
    have loop : Plan.Visits q ⟨e,[],[]⟩ ⟨e,[],[]⟩ := .field new rfl embedded
    have endless := Plan.not_ends_of_visits loop
    obtain ⟨object,zero,-⟩ := allocation_ends q
    refine ⟨home,q,linked,e,member,fun n h => ?_,fun n h => ?_⟩
    · refine Option.not_isSome_iff_eq_none.mp fun made => endless ((object e [] h).mp ⟨n,made⟩)
    · refine Option.not_isSome_iff_eq_none.mp fun made => endless ((zero (.decl e) h).mp ⟨n,made⟩ e rfl embedded)
  | _ => cases same

end Loom.Machine
