import Loom.Document.Build
import Loom.Proofs.Skeleton
import Loom.Proofs.Walks
import Mathlib.Data.List.Pairwise

/-!
The types of a written module, declared again. Every type of the module gets a copy with the same name; nested types
stand in the copies of the types that they were nested in.
-/
namespace Loom

open List Program

variable {o t u : TypeId} {k n : Nat} {others sources : List TypeId} {later pending : List PendingType}
  {R : TypeId → TypeId → Prop} {s : Program}

/-! ### Flags -/

theorem and_or_distrib (x a b : UInt32) : (x ||| a) &&& b = (x &&& b) ||| (a &&& b) := by
  apply UInt32.toBitVec_inj.1
  simp only [UInt32.toBitVec_and,UInt32.toBitVec_or]
  ext i
  simp [Bool.and_or_distrib_right]

theorem or_and_self (x a : UInt32) : (x ||| a) &&& a = a := by
  apply UInt32.toBitVec_inj.1
  simp only [UInt32.toBitVec_and,UInt32.toBitVec_or]
  ext i
  simp only [BitVec.getElem_and,BitVec.getElem_or]
  cases x.toBitVec[i] <;> cases a.toBitVec[i] <;> rfl

theorem bit_or_ne_zero {x a b : UInt32} (apart : a ≠ b → a &&& b = 0) (some : b ≠ 0) :
    ((x ||| a) &&& b != 0) = (x &&& b != 0 || decide (a = b)) := by
  by_cases same : a = b
  · subst same
    simp [or_and_self,some]
  · simp [and_or_distrib,apart same,same]

theorem foldlM_map_ok {σ α β : Type} {step : σ → β → Except Failure σ} {name : α → β} (insert : σ → α → σ)
    (each : ∀ s a, step s (name a) = .ok (insert s a)) (listed : List α) (start : σ) :
    (listed.map name).foldlM step start = .ok (listed.foldl insert start) := by
  induction listed generalizing start with
  | nil => rfl
  | cons a rest ih =>
    rw [map_cons,foldlM_cons,each]
    exact ih _

theorem has_foldl {σ α : Type} [DecidableEq α] {has : σ → α → Bool} {insert : σ → α → σ}
    (has_insert : ∀ s a b, has (insert s b) a = (has s a || decide (b = a))) (s : σ) (listed : List α) (a : α) :
    has (listed.foldl insert s) a = (has s a || decide (a ∈ listed)) := by
  induction listed generalizing s with
  | nil => simp
  | cons b rest ih => simp [ih,has_insert,Bool.or_assoc,eq_comm]

namespace TypeFlags

theorem has_insert (fs : TypeFlags) (f g : TypeFlag) : (fs.insert g).has f = (fs.has f || decide (g = f)) := by
  have bits : ∀ f g : TypeFlag, (g.bit ≠ f.bit → g.bit &&& f.bit = 0) ∧ f.bit ≠ 0 ∧ (g.bit = f.bit ↔ g = f) := by
    intro f g
    cases f <;> cases g <;> decide
  obtain ⟨apart,some,same⟩ := bits f g
  rw [has,has,insert,bit_or_ne_zero apart some]
  simp only [same]

theorem read_names (site : String) (fs : TypeFlags) :
    ∃ gs, Document.readTypeFlags site fs.names = .ok gs ∧ ∀ f, gs.has f = fs.has f := by
  rw [Document.readTypeFlags,names]
  refine ⟨_,foldlM_map_ok insert (fun flags f => ?_) (TypeFlag.all.filter fs.has) _,fun f => ?_⟩
  · rw [show TypeFlag.ofName? f.name = some f by cases f <;> rfl]
  · have unset : ({} : TypeFlags).has f = false := by cases f <;> decide
    have listed : f ∈ TypeFlag.all := by cases f <;> decide
    simp [has_foldl has_insert,unset,mem_filter,listed]

theorem names_congr {fs gs : TypeFlags} (same : ∀ f, gs.has f = fs.has f) : gs.names = fs.names := by
  rw [names,names,funext same]

end TypeFlags

namespace MethodFlags

theorem has_insert (fs : MethodFlags) (f g : MethodFlag) : (fs.insert g).has f = (fs.has f || decide (g = f)) := by
  have bits : ∀ f g : MethodFlag, (g.bit ≠ f.bit → g.bit &&& f.bit = 0) ∧ f.bit ≠ 0 ∧ (g.bit = f.bit ↔ g = f) := by
    intro f g
    cases f <;> cases g <;> decide
  obtain ⟨apart,some,same⟩ := bits f g
  rw [has,has,insert,bit_or_ne_zero apart some]
  simp only [same]

theorem read_names (site : String) (fs : MethodFlags) :
    ∃ gs, Document.readMethodFlags site fs.names = .ok gs ∧ ∀ f, gs.has f = fs.has f := by
  rw [Document.readMethodFlags,names]
  refine ⟨_,foldlM_map_ok insert (fun flags f => ?_) (MethodFlag.all.filter fs.has) _,fun f => ?_⟩
  · rw [show MethodFlag.ofName? f.name = some f by cases f <;> rfl]
  · have unset : ({} : MethodFlags).has f = false := by cases f <;> decide
    have listed : f ∈ MethodFlag.all := by cases f <;> decide
    simp [has_foldl has_insert,unset,mem_filter,listed]

theorem names_congr {fs gs : MethodFlags} (same : ∀ f, gs.has f = fs.has f) : gs.names = fs.names := by
  rw [names,names,funext same]

end MethodFlags

/-! ### Outlines -/

namespace Program

variable {p q : Program} {home : ModuleId} {t : TypeId}

/-- How a document names the declaring type: only types on the list of the module name it. -/
def declaringText (p : Program) (home : ModuleId) (t : TypeId) : String :=
  if t ∈ (p.moduleAt home).types then ((p.typeAt t).declaring.map p.fullName).getD "" else ""

/-- How a document gives the namespace: a type that names its declaring type has none. -/
def spaceText (p : Program) (home : ModuleId) (t : TypeId) : String :=
  if t ∈ (p.moduleAt home).types ∧ (p.typeAt t).declaring.isSome = true then "" else (p.typeAt t).space

def baseText (p : Program) (home : ModuleId) (t : TypeId) : String :=
  if (p.typeAt t).base.isAbsent || p.same (p.typeAt t).base (p.defaultBase home t) then "" else (p.typeAt t).base.text p

/-- What a document says of a type and its members. -/
structure Outlines (p : Program) (home : ModuleId) (t : TypeId) (doc : TypeDoc) : Prop where
  name : doc.name = (p.typeAt t).name
  flags : doc.flags = (p.typeAt t).flags.names
  generics : doc.generics = (p.typeAt t).generics
  base : doc.base = p.baseText home t
  interfaces : doc.interfaces = (p.typeAt t).interfaces.map (·.text p)
  attributes : doc.attributes = (p.typeAt t).attributes.map fun a => ⟨p.fullName a.type,a.args.map (·.written p)⟩
  fields : doc.fields = (p.typeAt t).fields.map fun f => ⟨f.name,f.type.text p,f.isStatic⟩
  methods : doc.methods = (p.typeAt t).methods.map p.buildMethod

/-- A document of a type, apart from the types nested in it. -/
structure Entered (p : Program) (home : ModuleId) (t : TypeId) (doc : TypeDoc) : Prop extends Outlines p home t doc where
  space : doc.space = p.spaceText home t
  declaring : doc.declaring = p.declaringText home t

theorem entered_buildType (inner : t ∉ (p.moduleAt home).types) (k : Nat) : Entered p home t (p.buildType home (k + 1) t) where
  toOutlines := ⟨rfl,rfl,rfl,rfl,rfl,rfl,rfl,rfl⟩
  space := by rw [spaceText,if_neg fun both => inner both.1]; rfl
  declaring := by rw [declaringText,if_neg inner]; rfl

theorem entered_buildTopLevel (top : t ∈ (p.moduleAt home).types) : Entered p home t (p.buildTopLevel home t) := by
  unfold buildTopLevel
  cases declaring : (p.typeAt t).declaring with
  | none => exact {
      toOutlines := ⟨rfl,rfl,rfl,rfl,rfl,rfl,rfl,rfl⟩
      space := by rw [spaceText,if_neg (by simp [declaring])]; rfl
      declaring := by rw [declaringText,if_pos top,declaring]; rfl }
  | some outer => exact {
      toOutlines := ⟨rfl,rfl,rfl,rfl,rfl,rfl,rfl,rfl⟩
      space := by rw [spaceText,if_pos ⟨top,by rw [declaring]; rfl⟩]
      declaring := by rw [declaringText,if_pos top,declaring]; rfl }

theorem fullName_ne_empty (named : (p.typeAt t).name ≠ "") : p.fullName t ≠ "" := by
  intro empty
  have length := length_name_le_fullName p (t := t)
  rw [empty] at length
  exact named (String.length_eq_zero_iff.mp (Nat.le_zero.mp length))

theorem Deep.pred (deep : p.Deep (n + 1) t) : p.Deep n t := by
  induction n generalizing t with
  | zero => trivial
  | succ n ih =>
    obtain ⟨u,member,deeper⟩ := deep
    exact ⟨u,member,ih deeper⟩

/-- Two types with related types nested in them, down to where nothing is nested. -/
def Shaped (p q : Program) (R : TypeId → TypeId → Prop) : Nat → TypeId → TypeId → Prop
  | 0, _, _ => False
  | k + 1, t, u => R t u ∧ List.Forall₂ (Shaped p q R k) (p.typeAt t).nested (q.typeAt u).nested

theorem Shaped.mono {S : TypeId → TypeId → Prop} (wider : ∀ t u, R t u → S t u)
    (shaped : Shaped p q R k t u) : Shaped p q S k t u := by
  induction k generalizing t u with
  | zero => exact shaped
  | succ k ih => exact ⟨wider t u shaped.1,shaped.2.imp fun _ _ inner => ih inner⟩

end Program

/-! ### Declaring types -/

namespace Document

variable {p : Program} {home target : ModuleId}

/-- A type and the copy that was declared from its document. -/
def CopiedIn (sources : List TypeId) (pending : List PendingType) (t u : TypeId) : Prop :=
  ∃ pd, (t,pd) ∈ sources.zip pending ∧ pd.id = u

/-- The nested types of the later program are those of the earlier one where types were declared in between. -/
def NestedAlike (s q r : Program) : Prop :=
  ∀ t : TypeId, s.types.size ≤ t.index → t.index < q.types.size → (r.typeAt t).nested = (q.typeAt t).nested

theorem CopiedIn.append_left (copied : CopiedIn sources pending t u) (length : sources.length = pending.length) :
    CopiedIn (sources ++ others) (pending ++ later) t u := by
  obtain ⟨pd,member,id⟩ := copied
  exact ⟨pd,by rw [zip_append length]; exact mem_append_left _ member,id⟩

theorem CopiedIn.append_right (copied : CopiedIn others later t u) (length : sources.length = pending.length) :
    CopiedIn (sources ++ others) (pending ++ later) t u := by
  obtain ⟨pd,member,id⟩ := copied
  exact ⟨pd,by rw [zip_append length]; exact mem_append_right _ member,id⟩

/-- A document of a type is declared as a copy of it. The types nested in it come from the documents inside. -/
def Redeclares (p : Program) (home target : ModuleId) (k : Nat) : Prop :=
  ∀ (t : TypeId) (o : Option TypeId) (s : Program) (doc : TypeDoc), ¬p.Deep k t → t.index < p.types.size →
    Entered p home t doc → doc.nested = (p.typeAt t).nested.map (fun u => some (p.buildType home (k - 1) u)) →
    (∀ t, o = some t → t.index < s.types.size) →
    ∃ pending q, (declareType target o doc).run s = .ok (pending,q) ∧
      List.Forall₂ (fun t pd => Entered p home t pd.doc) (p.withNested k t) pending ∧
      ∀ r, NestedAlike s q r → Shaped p r (CopiedIn (p.withNested k t) pending) k t ⟨s.types.size⟩

theorem Redeclares.nested (each : Redeclares p home target k) {us : List TypeId}
    (declared : ∀ u ∈ us, u.index < p.types.size ∧ ¬p.Deep k u ∧ u ∉ (p.moduleAt home).types)
    (inside : o.index < s.types.size) :
    ∃ pending q roots, (declareNested target o (us.map fun u => some (p.buildType home k u))).run s = .ok (pending,q) ∧
      Planted target (some o) s q pending roots ∧
      Forall₂ (fun t pd => Entered p home t pd.doc) (us.flatMap (p.withNested k)) pending ∧
      ∀ r, NestedAlike s q r → Forall₂ (Shaped p r (CopiedIn (us.flatMap (p.withNested k)) pending) k) us roots := by
  induction us generalizing s with
  | nil => exact ⟨[],s,[],by rw [map_nil,declareNested]; rfl,.nil _ _ _,.nil,fun _ _ => .nil⟩
  | cons u rest ih =>
    obtain ⟨known,shallow,unlisted⟩ := declared u (.head _)
    obtain ⟨k,rfl⟩ : ∃ j, k = j + 1 := by
      cases k with
      | zero => exact absurd trivial shallow
      | succ j => exact ⟨j,rfl⟩
    have entered := entered_buildType unlisted k
    have outside : ∀ t, some o = some t → t.index < s.types.size := by rintro t ⟨⟩; exact inside
    obtain ⟨first,m,firstRun,firstEntered,firstShaped⟩ := each u (some o) s _ shallow known entered rfl outside
    obtain ⟨early,-⟩ := declareType_planted _ outside firstRun
    obtain ⟨later,q,roots,laterRun,late,laterEntered,laterShaped⟩ :=
      ih (fun v member => declared v (.tail _ member)) (Nat.lt_of_lt_of_le inside early.size_le)
    have plain : (p.buildType home (k + 1) u).declaring = "" := rfl
    refine ⟨first ++ later,q,⟨s.types.size⟩ :: roots,declareNested_cons_ok plain firstRun laterRun,
      early.append late outside,rel_append firstEntered laterEntered,fun r alike => .cons ?_ ?_⟩
    · refine (firstShaped r fun t from_ inner => ?_).mono fun _ _ copied => copied.append_left firstEntered.length_eq
      rw [alike t from_ (Nat.lt_of_lt_of_le inner late.size_le),late.kept t inner]
      rintro ⟨⟩
      exact absurd inside (Nat.not_lt_of_le from_)
    · refine (laterShaped r fun t from_ inner => alike t (Nat.le_trans early.size_le from_) inner).imp fun _ _ shaped => ?_
      exact shaped.mono fun _ _ copied => copied.append_right firstEntered.length_eq

theorem redeclares (target : ModuleId) (formed : p.WellFormed)
    (inner : ∀ u : TypeId, u.index < p.types.size → ∀ n ∈ (p.typeAt u).nested, n ∉ (p.moduleAt home).types) (k : Nat) :
    Redeclares p home target k := by
  induction k with
  | zero => exact fun _ _ _ _ shallow => absurd trivial shallow
  | succ k ih =>
    intro t o s doc shallow known entered nested outside
    obtain ⟨flags,read,-⟩ := TypeFlags.read_names doc.name (p.typeAt t).flags
    rw [← entered.flags] at read
    have named : doc.name ≠ "" := by
      rw [entered.name]
      exact (formed.types t known).named
    have size : (opened s (declarationOf target o doc flags)).types.size = s.types.size + 1 := size_opened
    obtain ⟨later,q,roots,run,planted,laterEntered,laterShaped⟩ := ih.nested
      (fun u member => ⟨(formed.nests t known u member).1,fun deep => shallow ⟨u,member,deep⟩,
        inner t known u member⟩) (o := ⟨s.types.size⟩) (s := opened s (declarationOf target o doc flags))
      (by rw [size]; exact Nat.lt_succ_self _)
    have done : (declareType target o doc).run s = .ok (⟨doc,⟨s.types.size⟩⟩ :: later,q) :=
      declareType_ok named read (by rw [nested]; exact run)
    refine ⟨_,q,done,.cons entered laterEntered,fun r alike => ⟨⟨_,.head _,rfl⟩,?_⟩⟩
    have root : (q.typeAt ⟨s.types.size⟩).nested = roots := by
      rw [planted.outer ⟨s.types.size⟩ (by rw [size]; exact Nat.lt_succ_self _) rfl,typeAt_opened_new outside]
      rfl
    have bound : s.types.size < q.types.size := by
      have grown := planted.size_le
      omega
    rw [alike ⟨s.types.size⟩ (Nat.le_refl _) bound,root]
    refine (laterShaped r fun u from_ inside => alike u (by omega) inside).imp fun _ _ shaped => ?_
    exact shaped.mono fun _ _ copied => copied.append_right
      (show [t].length = [(⟨doc,⟨s.types.size⟩⟩ : PendingType)].length from rfl)

theorem declareTypes_built (formed : p.WellFormed)
    (inner : ∀ u : TypeId, u.index < p.types.size → ∀ n ∈ (p.typeAt u).nested, n ∉ (p.moduleAt home).types)
    {ts : List TypeId} (tops : ts ⊆ (p.moduleAt home).types) (inside : target.index < s.modules.size) :
    ∃ pending q roots, (declareTypes target (ts.map fun t => some (p.buildTopLevel home t))).run s = .ok (pending,q) ∧
      ListedIn target s q roots ∧
      Forall₂ (fun t pd => Entered p home t pd.doc) (ts.flatMap (p.withNested p.types.size)) pending ∧
      ∀ r, NestedAlike s q r → Forall₂
        (Shaped p r (CopiedIn (ts.flatMap (p.withNested p.types.size)) pending) (p.types.size + 1)) ts roots := by
  induction ts generalizing s with
  | nil => exact ⟨[],s,[],by rw [map_nil,declareTypes]; rfl,.of_eq rfl,.nil,fun _ _ => .nil⟩
  | cons t rest ih =>
    have top : t ∈ (p.moduleAt home).types := tops (.head _)
    have known := formed.listed.top home t top
    have shallow := not_deep formed.grounded formed.nests known
    obtain ⟨first,m,firstRun,firstEntered,firstShaped⟩ := redeclares target formed inner (p.types.size + 1) t none s
      (p.buildTopLevel home t) (fun deep => shallow deep.pred) known (entered_buildTopLevel top)
      (by unfold buildTopLevel; split <;> rfl) (by simp)
    obtain ⟨early,-⟩ := declareType_planted _ (by simp) firstRun
    have home_eq : (m.typeAt ⟨s.types.size⟩).home = target := by
      obtain ⟨-,others,rfl,-⟩ := declareType_planted _ (by simp) firstRun
      exact (early.blank _ (.head _)).home_eq
    have listed : ListedIn target s (m.addTopLevel ⟨s.types.size⟩) [⟨s.types.size⟩] :=
      (ListedIn.of_eq early.modules_eq).trans (.addTopLevel home_eq (by rw [early.modules_eq]; exact inside))
    obtain ⟨later,q,roots,laterRun,lateListed,laterEntered,laterShaped⟩ :=
      ih (fun u member => tops (.tail _ member)) (s := m.addTopLevel ⟨s.types.size⟩) (by rw [listed.size_eq]; exact inside)
    obtain ⟨_,late,-⟩ := declareTypes_planted (by rw [listed.size_eq]; exact inside) laterRun
    have size_le : m.types.size ≤ q.types.size := late.size_le
    rw [withNested_stable shallow (Nat.le_succ _)] at firstEntered firstShaped
    refine ⟨first ++ later,q,⟨s.types.size⟩ :: roots,declareTypes_cons_ok firstRun laterRun,listed.trans lateListed,
      rel_append firstEntered laterEntered,fun r alike => .cons ?_ ?_⟩
    · refine (firstShaped r fun u from_ inner => ?_).mono fun _ _ copied => copied.append_left firstEntered.length_eq
      have kept : q.typeAt u = m.typeAt u := late.kept u inner (by simp)
      rw [alike u from_ (Nat.lt_of_lt_of_le inner size_le),kept]
    · refine (laterShaped r fun u from_ inner => alike u (Nat.le_trans early.size_le from_) inner).imp fun _ _ shaped => ?_
      exact shaped.mono fun _ _ copied => copied.append_right firstEntered.length_eq

end Document

/-! ### Copies -/

namespace Program

variable {p q : Program} {home target : ModuleId} {t : TypeId}

/-- The copy of a type of the module: copies come after all types, in the order of the module. -/
def copy (p : Program) (home : ModuleId) (t : TypeId) : TypeId := ⟨p.types.size + (p.allTypes home).idxOf t⟩

theorem copy_inj (member : t ∈ p.allTypes home) (same : p.copy home t = p.copy home u) : t = u := by
  have index : (p.allTypes home).idxOf t = (p.allTypes home).idxOf u := Nat.add_left_cancel (congrArg TypeId.index same)
  exact (idxOf_inj member).mp index

/-- Full names are distinct, every declaring type belongs to the module, and it stands before what it declares. -/
structure Orderly (p : Program) (home : ModuleId) : Prop where
  formed : p.WellFormed
  names : ((p.allTypes home).map p.fullName).Nodup
  before : ∀ front t back, p.allTypes home = front ++ t :: back → ∀ o, (p.typeAt t).declaring = some o → o ∈ front

namespace Orderly

variable (orderly : Orderly p home)
include orderly

theorem nodup : (p.allTypes home).Nodup := .of_map _ orderly.names

theorem inside (member : t ∈ p.allTypes home) : t.index < p.types.size := orderly.formed.listed.allTypes member

theorem declaring_mem (member : t ∈ p.allTypes home) (declaring : (p.typeAt t).declaring = some o) :
    o ∈ p.allTypes home := by
  obtain ⟨front,back,split⟩ := append_of_mem member
  rw [split]
  exact mem_append_left _ (orderly.before front t back split o declaring)

theorem idxOf_declaring_lt (member : t ∈ p.allTypes home) (declaring : (p.typeAt t).declaring = some o) :
    (p.allTypes home).idxOf o < (p.allTypes home).idxOf t := by
  obtain ⟨front,back,split⟩ := append_of_mem member
  have early := orderly.before front t back split o declaring
  have absent : t ∉ front := by
    have distinct := orderly.nodup
    rw [split] at distinct
    exact fun early => (disjoint_of_nodup_append distinct) early (.head _)
  rw [split,idxOf_append_of_mem early,idxOf_append_of_notMem absent]
  have bound := idxOf_lt_length_iff.mpr early
  omega

theorem nested_not_top (known : t.index < p.types.size) {n : TypeId} (nested : n ∈ (p.typeAt t).nested) :
    n ∉ (p.moduleAt home).types := by
  intro top
  obtain ⟨declared,declaring⟩ := orderly.formed.nests t known n nested
  have member := mem_allTypes_of_top orderly.formed.listed top
  obtain ⟨r,listed,below⟩ := mem_flatMap.mp (orderly.declaring_mem member declaring)
  have again : n ∈ p.withNested p.types.size r := by
    rw [← withNested_stable (not_deep orderly.formed.grounded orderly.formed.nests (orderly.formed.listed.top home r listed))
      (Nat.le_succ _)]
    exact mem_withNested_succ below nested
  have self : n ∈ p.withNested p.types.size n := by
    obtain ⟨k,size⟩ : ∃ k, p.types.size = k + 1 := ⟨p.types.size - 1,by omega⟩
    rw [size,withNested]
    exact .head _
  by_cases same : r = n
  · subst same
    have up := orderly.formed.grounded.fullName_upward (upward_of_mem_withNested orderly.formed.nests declared below)
    have longer := orderly.formed.grounded.fullName_nested orderly.formed.nests known nested
    omega
  · have apart := (nodup_flatMap.mp (show ((p.moduleAt home).types.flatMap (p.withNested p.types.size)).Nodup from
      orderly.nodup)).2
    have symmetric : Std.Symm (Function.onFun Disjoint (p.withNested p.types.size)) := ⟨fun _ _ h _ right left => h left right⟩
    exact (apart.forall listed top same) again self

end Orderly
end Program

namespace Document

variable {p q r : Program} {home target : ModuleId} {pending : List PendingType} {t u : TypeId}

/-- The types of a module are declared again, each type inside the copy of the type that it was nested in. -/
structure Copied (p : Program) (home target : ModuleId) (q : Program) (pending : List PendingType) : Prop where
  size_eq : q.types.size = p.types.size + (p.allTypes home).length
  old : ∀ t : TypeId, t.index < p.types.size → q.typeAt t = p.typeAt t
  each : List.Forall₂ (fun t pd => pd.id = p.copy home t ∧ Entered p home t pd.doc) (p.allTypes home) pending
  blank : ∀ pd ∈ pending, Blank target q pd
  nested : ∀ t ∈ p.allTypes home, (q.typeAt (p.copy home t)).nested = (p.typeAt t).nested.map (p.copy home)
  tops : (q.moduleAt target).types = (p.moduleAt home).types.map (p.copy home)
  loose : ∀ t ∈ (p.moduleAt home).types, (q.typeAt (p.copy home t)).declaring = none

theorem ids_eq_copies (distinct : (p.allTypes home).Nodup) (length : (p.allTypes home).length = pending.length)
    (ids : pending.map PendingType.id = (range' p.types.size pending.length).map TypeId.mk) :
    pending.map PendingType.id = (p.allTypes home).map (p.copy home) := by
  rw [ids]
  refine ext_getElem (by simp [length]) fun i first second => ?_
  simp only [getElem_map,getElem_range',copy,TypeId.mk.injEq]
  rw [distinct.idxOf_getElem]
  omega

theorem CopiedIn.eq_copy (ids : pending.map PendingType.id = (p.allTypes home).map (p.copy home))
    (copied : CopiedIn (p.allTypes home) pending t u) : t ∈ p.allTypes home ∧ u = p.copy home t := by
  obtain ⟨pd,member,rfl⟩ := copied
  refine ⟨(of_mem_zip member).1,?_⟩
  obtain ⟨i,inside,same⟩ := getElem_of_mem member
  rw [length_zip] at inside
  rw [getElem_zip,Prod.mk.injEq] at same
  have at_ := congrArg (fun ids => ids[i]?) ids
  simp only [getElem?_map,getElem?_eq_getElem (show i < pending.length by omega),
    getElem?_eq_getElem (show i < (p.allTypes home).length by omega),Option.map_some,Option.some.injEq,same.1,
    same.2] at at_
  exact at_

theorem Shaped.nested_eq {f : TypeId → TypeId} (only : ∀ t u, R t u → u = f t)
    (shaped : Shaped p q R k t u) {v : TypeId} (member : v ∈ p.withNested n t) :
    (q.typeAt (f v)).nested = (p.typeAt v).nested.map f := by
  induction n generalizing t u k with
  | zero => cases member
  | succ n ih =>
    cases k with
    | zero => exact shaped.elim
    | succ k =>
      obtain ⟨here,inner⟩ := shaped
      rw [withNested] at member
      rcases mem_cons.mp member with rfl | deeper
      · rw [← only v u here]
        have related : Forall₂ (fun t u => u = f t) (p.typeAt v).nested (q.typeAt u).nested :=
          inner.imp fun t u shaped => by
            cases k with
            | zero => exact shaped.elim
            | succ k => exact only t u shaped.1
        rw [← map_eq_of_forall₂ (g := id) related,map_id]
      · obtain ⟨w,nested,below⟩ := mem_flatMap.mp deeper
        obtain ⟨x,-,shaped⟩ := right_of_forall₂ inner nested
        exact ih shaped below

theorem declareTypes_copied (target : ModuleId) (orderly : Orderly p home) (types : s.types = p.types)
    (inside : target.index < s.modules.size) (empty : (s.moduleAt target).types = []) :
    ∃ pending q, (declareTypes target ((p.moduleAt home).types.map fun t => some (p.buildTopLevel home t))).run s =
      .ok (pending,q) ∧ Copied p home target q pending ∧ q.code = s.code ∧
      ListedIn target s q ((p.moduleAt home).types.map (p.copy home)) := by
  obtain ⟨pending,q,roots,run,listed,entered,shaped⟩ := declareTypes_built orderly.formed
    (fun u known n nested => orderly.nested_not_top known nested) (Subset.refl _) inside
  obtain ⟨roots',planted,listed',-⟩ := declareTypes_planted inside run
  have size : s.types.size = p.types.size := congrArg Array.size types
  have ids := ids_eq_copies orderly.nodup entered.length_eq (by rw [← size]; exact planted.ids)
  have only : ∀ t u, CopiedIn (p.allTypes home) pending t u → u = p.copy home t := fun t u copied => (copied.eq_copy ids).2
  have shaped := shaped q fun _ _ _ => rfl
  have related : roots = (p.moduleAt home).types.map (p.copy home) := by
    have copies : Forall₂ (fun t u => u = p.copy home t) (p.moduleAt home).types roots :=
      shaped.imp fun t u shaped => only t u shaped.1
    rw [← map_eq_of_forall₂ (g := id) copies,map_id]
  have same : roots' = roots := by
    have here := listed'.here
    rw [listed.here] at here
    simpa [empty] using (congrArg ModuleDecl.types here).symm
  refine ⟨pending,q,run,⟨?_,fun t inside => ?_,?_,fun pd member => ?_,fun t member => ?_,?_,fun t member => ?_⟩,
    planted.code_eq,by rw [← related]; exact listed⟩
  · have grown : q.types.size = s.types.size + pending.length := planted.size_eq
    have length := entered.length_eq
    rw [grown,size]
    exact congrArg _ length.symm
  · have kept : q.typeAt t = s.typeAt t := planted.kept t (by rw [size]; exact inside) (by simp)
    rw [kept,typeAt,types]
    rfl
  · refine forall₂_iff_zip.mpr ⟨entered.length_eq,fun {t pd} member => ⟨only t pd.id ⟨pd,member,rfl⟩,?_⟩⟩
    exact (forall₂_iff_zip.mp entered).2 member
  · have blank := planted.blank pd member
    exact ⟨blank.blank,blank.space,blank.name,blank.named,blank.flags,blank.generics,blank.home_eq,blank.nested,
      blank.distinct,blank.declaring⟩
  · obtain ⟨top,first,below⟩ := mem_flatMap.mp member
    obtain ⟨root,-,shaped⟩ := right_of_forall₂ shaped first
    exact Shaped.nested_eq only shaped below
  · rw [listed.here,empty,nil_append,related]
  · refine (planted.roots_new (p.copy home t) ?_).2.2
    rw [same,related]
    exact mem_map_of_mem member

namespace Copied

variable (copied : Copied p home target q pending)
include copied

theorem pending_of_mem (member : t ∈ p.allTypes home) :
    ∃ pd ∈ pending, pd.id = p.copy home t ∧ Entered p home t pd.doc := right_of_forall₂ copied.each member

theorem name_eq (member : t ∈ p.allTypes home) : (q.typeAt (p.copy home t)).name = (p.typeAt t).name := by
  obtain ⟨pd,among,id,entered⟩ := copied.pending_of_mem member
  rw [← id,(copied.blank pd among).name,entered.name]

theorem space_eq (member : t ∈ p.allTypes home) : (q.typeAt (p.copy home t)).space = p.spaceText home t := by
  obtain ⟨pd,among,id,entered⟩ := copied.pending_of_mem member
  rw [← id,(copied.blank pd among).space,entered.space]

theorem declaring_eq (orderly : Orderly p home) (member : t ∈ p.allTypes home) (unlisted : t ∉ (p.moduleAt home).types) :
    (q.typeAt (p.copy home t)).declaring = (p.typeAt t).declaring.map (p.copy home) := by
  have parent : ∀ n (u : TypeId), u ∈ p.allTypes home → t ∈ p.withNested n u →
    t = u ∨ ∃ o ∈ p.allTypes home, t ∈ (p.typeAt o).nested := by
    intro n
    induction n with
    | zero => intro u _ below; cases below
    | succ n ih =>
      intro u among below
      rw [withNested] at below
      rcases mem_cons.mp below with same | deeper
      · exact .inl same
      · obtain ⟨v,nested,below⟩ := mem_flatMap.mp deeper
        have inner := mem_allTypes_of_nested orderly.formed.grounded orderly.formed.nests orderly.formed.listed among nested
        rcases ih v inner below with rfl | found
        · exact .inr ⟨u,among,nested⟩
        · exact .inr found
  obtain ⟨top,listed,below⟩ := mem_flatMap.mp member
  rcases parent _ top (mem_allTypes_of_top orderly.formed.listed listed) below with rfl | ⟨o,among,nested⟩
  · exact absurd listed unlisted
  · obtain ⟨pd,present,id,-⟩ := copied.pending_of_mem among
    have inner : p.copy home t ∈ (q.typeAt pd.id).nested := by
      rw [id,copied.nested o among]
      exact mem_map_of_mem nested
    rw [((copied.blank pd present).nested _ inner).2,id,(orderly.formed.nests o (orderly.inside among) t nested).2]
    rfl

end Copied
end Document
end Loom
