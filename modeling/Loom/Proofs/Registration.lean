import Mathlib.Data.List.Flatten
import Mathlib.Data.List.Pairwise
import Loom.Proofs.Rewiring
import Loom.Proofs.Walks

/-!
The registry of a generation. A request that fails may leave clones without members behind, so what every request keeps
is said of names and nesting alone. That is enough for one entry for each type and argument.
-/
namespace Loom

open List
open Runs Weaving Cloning Entry Program
open CoreLibrary (int32 string)
open TypeDecl (header)

variable {p q : Program} {shells : List Shell} {r : Except Failure PUnit} {es : List Entry} {entry : Entry}
  {log : List String}

/-! ### What requests keep -/

namespace Program

variable {p q : Program}

/-- Declaring chains end, and every nested type is listed once, by its declaring type. -/
structure Arranged (p : Program) : Prop where
  grounded : p.Grounded
  nests : p.Nests
  distinct : ∀ t : TypeId, t.index < p.types.size → (p.typeAt t).nested.Nodup

theorem WellFormed.arranged (formed : p.WellFormed) : p.Arranged :=
  ⟨formed.grounded,formed.nests,fun t inside => (formed.types t inside).distinct⟩

theorem Arranged.of_agree (arranged : p.Arranged) (agree : Agree header p q) : q.Arranged where
  grounded := arranged.grounded.of_agree agree
  nests t inside n member := by
    rw [agree.size_eq] at inside ⊢
    rw [agree.nested_eq] at member
    rw [agree.declaring_eq]
    exact arranged.nests t inside n member
  distinct t inside := by
    rw [agree.nested_eq]
    exact arranged.distinct t (agree.size_eq ▸ inside)

end Program

namespace Cloning

variable {style : CloneStyle} {home : ModuleId} {argument : TypeRef} {p₀ p q : Program} {source : TypeId}
  {family : List Scope} {shell : Shell} {n : Nat} {outer : List Scope} {parent : Option TypeId}

theorem arranged_opened {d : TypeDecl} (arranged : p.Arranged) (leaf : d.nested = [])
    (below : ∀ o, d.declaring = some o → o.index < p.types.size) : (opened p d).Arranged := by
  have cases_ : ∀ t : TypeId, t.index < (opened p d).types.size → t.index < p.types.size ∨ t = ⟨p.types.size⟩ := by
    intro t inside
    rw [size_opened] at inside
    rcases Nat.lt_succ_iff_lt_or_eq.mp inside with old | new
    · exact .inl old
    · exact .inr (by cases t; cases new; rfl)
  refine ⟨arranged.grounded.grow ((opened_keeps d).map header) ?_,?_,?_⟩
  · intro t new inside o declaring
    obtain rfl := (cases_ t inside).resolve_left (Nat.not_lt.mpr new)
    rw [typeAt_opened_new] at declaring
    exact below o declaring
  · intro t inside n member
    rcases cases_ t inside with old | rfl
    · rw [typeAt_opened_old old] at member
      obtain ⟨declared,declaring⟩ := arranged.nests t old n member
      rw [typeAt_opened_old declared,size_opened]
      exact ⟨Nat.lt_succ_of_lt declared,declaring⟩
    · rw [typeAt_opened_new,leaf] at member
      cases member
  · intro t inside
    rcases cases_ t inside with old | rfl
    · rw [typeAt_opened_old old]
      exact arranged.distinct t old
    · rw [typeAt_opened_new,leaf]
      exact nodup_nil

theorem declaring_outline (arranged : p.Arranged) (declared : ∀ c ∈ parent, c.index < p.types.size) :
    ∀ o, (outline style home argument p parent source).declaring = some o → o.index < p.types.size := by
  intro o declaring
  cases parent with
  | some c => exact declared o declaring
  | none =>
    have original : (p.typeAt source).declaring = some o := declaring
    by_cases inside : source.index < p.types.size
    · exact arranged.grounded.inside source inside o original
    · rw [typeAt_of_le (Nat.le_of_not_lt inside)] at original
      cases original

/-- Clones may have been declared since. -/
structure Opening (p q : Program) : Prop where
  kept : Keeps id p q
  arranged : q.Arranged

theorem Opening.trans {r : Program} (early : Opening p q) (late : Opening q r) : Opening p r :=
  ⟨early.kept.trans late.kept,late.arranged⟩

theorem declareShell_opening (style : CloneStyle) (home : ModuleId) (argument : TypeRef) (n : Nat) (outer : List Scope)
    (parent : Option TypeId) (source : TypeId) (arranged : p.Arranged) (declared : ∀ c ∈ parent, c.index < p.types.size) :
    Opening p ((declareShell style home argument n outer parent source).run p).2 := by
  induction n generalizing p outer parent source with
  | zero => exact ⟨.refl id p,arranged⟩
  | succ n ih =>
    have fresh : (opened p (outline style home argument p parent source)).Arranged :=
      arranged_opened arranged (nested_outline _ _ _ _ _ _) (declaring_outline arranged declared)
    rw [declareShell,run_get_bind]
    refine after_bind_ok (I := Opening p) (a := (⟨p.types.size⟩ : TypeId))
      (t := (p.declareType (outline style home argument p parent source)).2) ?_ ?_
    · cases parent <;> rfl
    refine after_bind_ok (I := Opening p) (t := opened p (outline style home argument p parent source)) (a := ⟨⟩) rfl ?_
    refine after_bind (I := Opening p) (.trans ⟨opened_keeps _,fresh⟩ ?_) fun _ _ _ holds => holds
    refine after_mapM (fun t _ x holds => holds.trans (ih _ _ t holds.arranged ?_)) ⟨.refl id _,fresh⟩
    intro c same
    cases same
    exact Nat.lt_of_lt_of_le (lt_size_opened _) holds.kept.size_le

theorem declareMethod_agree (m : MethodId) : Agree header p ((declareMethod family shell m).run p).2 := by
  rw [declareMethod,run_get_bind]
  refine after_bind (I := Agree header p) (.modifyType fun _ => rfl) fun _ _ _ holds => ?_
  refine after_bind (I := Agree header p) holds fun _ _ _ holds => ?_
  refine after_bind (I := Agree header p) (holds.trans (.modifyType fun _ => rfl)) fun _ _ _ holds => ?_
  refine after_forM (I := Agree header p) (fun _ _ _ holds => ?_) holds
  exact after_bind (I := Agree header p) holds fun _ _ _ holds => holds.trans (.modifyType fun _ => rfl)

theorem declareMembers_agree : Agree header p ((declareMembers style family shell).run p).2 := by
  rw [declareMembers,run_get_bind]
  refine after_bind (I := Agree header p) (.refl _ p) fun _ _ _ holds => ?_
  refine after_bind (I := Agree header p) (holds.trans (.modifyType fun _ => rfl)) fun _ _ _ holds => ?_
  refine after_bind (I := Agree header p) (after_forM (fun _ _ _ holds => ?_) holds) fun _ _ _ holds => ?_
  · exact after_bind (I := Agree header p) holds fun _ _ _ holds => holds.trans (.modifyType fun _ => rfl)
  refine after_bind (I := Agree header p) (holds.trans (.modifyType fun _ => rfl)) fun _ _ _ holds => ?_
  refine after_bind (I := Agree header p) (after_forM (fun _ _ _ holds => ?_) holds) fun _ _ _ holds => ?_
  · exact after_bind (I := Agree header p) holds fun _ _ _ holds => holds.trans (.modifyType fun _ => rfl)
  refine after_bind (I := Agree header p) holds fun _ _ _ holds => ?_
  exact after_forM (I := Agree header p) (fun m _ _ holds => holds.trans (declareMethod_agree m)) holds

theorem types_cloneBody {site : CloneSite} {b c : Body} (done : p.cloneBody site b = .ok (q,c)) : q.types = p.types := by
  rw [cloneBody] at done
  obtain ⟨_,_,done⟩ := Except.bind_eq_ok.mp done
  obtain ⟨_,_,done⟩ := Except.bind_eq_ok.mp done
  obtain ⟨_,_,⟨⟩⟩ := Except.bind_eq_ok.mp done
  rfl

theorem fillBody_agree (m : MethodId) : Agree header p ((fillBody family shell m).run p).2 := by
  rw [fillBody,run_get_bind]
  dsimp only
  split
  · refine after_bind (I := Agree header p) (.refl _ p) fun made _ ran _ => ?_
    obtain ⟨brought,rfl⟩ := run_bring_eq_ok.mp ran
    exact (Agree.of_types_eq (types_cloneBody brought)).trans (.modifyType fun _ => rfl)
  · exact .refl _ p

theorem declareAllMembers_agree (ran : (shells.forM (declareMembers style family)).run p = (r,q)) : Agree header p q := by
  have agree : Agree header p ((shells.forM (declareMembers style family)).run p).2 :=
    after_forM (fun _ _ _ holds => holds.trans declareMembers_agree) (.refl _ p)
  rwa [ran] at agree

theorem fillBodies_agree (ran : (shells.forM fun shell => (do
    ((← get).methodsOf shell.source).forM (fillBody family shell) : Cloning PUnit)).run p = (r,q)) : Agree header p q := by
  have agree : Agree header p ((shells.forM fun shell => (do
      ((← get).methodsOf shell.source).forM (fillBody family shell) : Cloning PUnit)).run p).2 := by
    refine after_forM (fun _ _ x holds => ?_) (.refl _ p)
    rw [run_get_bind]
    exact after_forM (fun m _ _ holds => holds.trans (fillBody_agree m)) holds
  rwa [ran] at agree

theorem specialize_arranged (style : CloneStyle) (home : ModuleId) (source : TypeId) (argument : TypeRef)
    (arranged : p.Arranged) : Keeps header p ((specialize style home source argument).run p).2 ∧
      ((specialize style home source argument).run p).2.Arranged := by
  have settled {q r : Program} (opening : Opening p q) (agree : Agree header q r) : Keeps header p r ∧ r.Arranged :=
    ⟨(opening.kept.map header).trans agree.keeps,opening.arranged.of_agree agree⟩
  have unchanged : Opening p p := ⟨.refl id p,arranged⟩
  rw [specialize,run_get_bind]
  cases refusal? p source argument with
  | some failure => exact settled unchanged (.refl _ p)
  | none =>
    have opening := declareShell_opening style home argument (p.types.size + 1) [] none source arranged (by rintro _ ⟨⟩)
    refine after_bind (I := fun r => Keeps header p r ∧ r.Arranged) (settled opening (.refl _ _)) ?_
    rintro ⟨entry,shells⟩ x ran -
    rw [ran] at opening
    -- from here on only members and bodies are added
    refine settled opening (after_bind (I := Agree header x) (declareAllMembers_agree rfl) fun _ _ _ holds => ?_)
    exact after_bind (I := Agree header x) (holds.trans (fillBodies_agree rfl)) fun _ _ _ holds => holds

/-! ### The entries of one request -/

structure Filed (argument : TypeRef) (e : Entry) : Prop where
  argument_eq : e.argument = argument
  owners : ∀ m c, e.method? m = some c → m.owner = e.generic

/-- The entries are for types among those given, in their order. -/
def FiledFor (argument : TypeRef) (ts : List TypeId) (es : List Entry) : Prop :=
  (es.map Entry.generic).Sublist ts ∧ ∀ e ∈ es, Filed argument e

theorem mapM_entries {R : TypeId → Entry → Program → Prop} {c : TypeId} {sources : List TypeId}
    {results : List (Entry × List Shell)} (stable : ∀ {t e x y}, Opening p₀ x → Opening x y → R t e x → R t e y)
    (single : ∀ t ∈ sources, ∀ {x y entry shells}, Opening p₀ x → c.index < x.types.size →
      (declareShell style home argument n outer (some c) t).run x = (.ok (entry,shells),y) → R t entry y)
    (opening : Opening p₀ p) (within : c.index < p.types.size)
    (done : (sources.mapM (declareShell style home argument n outer (some c))).run p = (.ok results,q)) :
    Forall₂ (fun t r => R t r.1 q) sources results ∧ Opening p q := by
  induction sources generalizing p results with
  | nil =>
    obtain ⟨rfl,rfl⟩ := run_pure_eq_ok.mp done
    exact ⟨.nil,.refl id p,opening.arranged⟩
  | cons t rest ih =>
    obtain ⟨⟨entry,shells⟩,x,others,first,later,rfl⟩ := run_mapM_cons_eq_ok.mp done
    have moved := declareShell_opening style home argument n outer (some c) t opening.arranged fun d same => by
      cases same
      exact within
    rw [first] at moved
    obtain ⟨each,onward⟩ := ih (fun u member => single u (.tail _ member)) (opening.trans moved)
      (Nat.lt_of_lt_of_le within moved.kept.size_le) later
    have here := single t (.head _) opening within first
    exact ⟨.cons (stable (opening.trans moved) onward here) each,moved.trans onward⟩

theorem FiledFor.flatMap {f : TypeId → List TypeId} {ts : List TypeId}
    (all : Forall₂ (fun t e => FiledFor argument (f t) e.flatten) ts es) :
    FiledFor argument (ts.flatMap f) (flattenAll es) := by
  induction all with
  | nil => exact ⟨.slnil,nofun⟩
  | cons first _ ih =>
    rw [flattenAll,FiledFor,map_append,flatMap_cons]
    exact ⟨first.1.append ih.1,forall_mem_append.mpr ⟨first.2,ih.2⟩⟩

theorem declareShell_filed (arranged : p₀.Arranged) (opening : Opening p₀ p)
    (old : source.index < p₀.types.size) (declared : ∀ c ∈ parent, c.index < p.types.size)
    (done : (declareShell style home argument n outer parent source).run p = (.ok (entry,shells),q)) :
    FiledFor argument (p₀.withNested n source) entry.flatten := by
  induction n generalizing p outer parent source entry shells q with
  | zero => exact absurd done run_throw_ne_ok
  | succ n ih =>
    obtain ⟨nested,ran,rfl,-⟩ := declareShell_eq_ok done
    have same : p.typeAt source = p₀.typeAt source := opening.kept.view_eq source old
    have fresh : Opening p₀ (opened p (outline style home argument p parent source)) :=
      opening.trans ⟨opened_keeps _,arranged_opened opening.arranged (nested_outline _ _ _ _ _ _)
        (declaring_outline opening.arranged declared)⟩
    have each := (mapM_entries (R := fun t e _ => FiledFor argument (p₀.withNested n t) e.flatten) (fun _ _ filed => filed)
      (fun t member {_ _ _ _} opening within done => by
        rw [same] at member
        refine ih opening (arranged.nests source old t (mem_filter.mp member).1).1 (fun d same => ?_) done
        cases same
        exact within) fresh (lt_size_opened _) ran).1
    have deeper := FiledFor.flatMap (forall₂_map_right_iff.mpr each)
    rw [Entry.flatten,withNested,FiledFor,map_cons]
    refine ⟨(deeper.1.trans ?_).cons_cons _,forall_mem_cons.mpr ⟨⟨rfl,fun m c recorded => ?_⟩,deeper.2⟩⟩
    · rw [same]
      exact Sublist.flatMap filter_sublist _
    · have record : ∀ ns, Records argument p (.mk source argument ⟨p.types.size⟩
          ((p.methodsOf source).map fun m => (m,⟨⟨p.types.size⟩,m.position⟩)) ns) ⟨source,⟨p.types.size⟩,[]⟩ :=
        fun _ => ⟨rfl,rfl,rfl,rfl⟩
      exact (mem_methodsOf.mp ((record _).method?_eq_some.mp recorded).1).1

/-- The entries of one request are for different types, and the first is for the type that was asked for. -/
theorem specialize_filed (arranged : p.Arranged) (done : (specialize style home source argument).run p = (.ok entry,q)) :
    entry.generic = source ∧ (entry.flatten.map generic).Nodup ∧ ∀ e ∈ entry.flatten, Filed argument e := by
  obtain ⟨shells,x,-,accepted,outlines,-,-⟩ := specialize_phases done
  have old := index_of_accepted accepted
  obtain ⟨walk,filed⟩ := declareShell_filed arranged ⟨.refl id p,arranged⟩ old (by simp) outlines
  obtain ⟨_,-,rfl,-⟩ := declareShell_eq_ok outlines
  exact ⟨rfl,walk.nodup (withNested_nodup arranged.grounded arranged.nests arranged.distinct old _),filed⟩

end Cloning

/-! ### Requests -/

namespace Program

variable {p q : Program} {e f : Entry} {t : TypeId} {a : TypeRef}

theorem isEntryFor_iff : p.isEntryFor e t a = true ↔ e.generic = t ∧ p.same e.argument a = true := by
  rw [isEntryFor,Bool.and_eq_true,beq_iff_eq]

/-- No type at an argument has both entries. -/
def Apart (p : Program) (e f : Entry) : Prop := ∀ t a, ¬(p.isEntryFor e t a = true ∧ p.isEntryFor f t a = true)

theorem apart_iff : p.Apart e f ↔ ¬p.isEntryFor e f.generic f.argument = true := by
  simp only [Apart,isEntryFor_iff,same_iff]
  constructor
  · intro apart matched
    exact apart f.generic f.argument ⟨matched,rfl,rfl⟩
  · rintro different t a ⟨⟨rfl,left⟩,same,right⟩
    exact different ⟨same.symm,left.trans right.symm⟩

instance (p : Program) : Std.Symm p.Apart := ⟨fun _ _ apart t a both => apart t a both.symm⟩

theorem Apart.keeps (apart : p.Apart e f) (kept : Keeps header p q) (grounded : p.Grounded)
    (left : p.Declares e.argument) (right : p.Declares f.argument) : q.Apart e f := by
  rw [apart_iff,isEntryFor_iff] at apart ⊢
  rw [kept.same_eq grounded left right]
  exact apart

theorem eq_of_apart (apart : es.Pairwise p.Apart) (left : e ∈ es) (right : f ∈ es)
    (first : p.isEntryFor e t a = true) (second : p.isEntryFor f t a = true) : e = f := by
  by_contra different
  exact apart.forall left right different t a ⟨first,second⟩

end Program

theorem Entry.flattenAll_append (es fs : List Entry) : flattenAll (es ++ fs) = flattenAll es ++ flattenAll fs := by
  induction es with
  | nil => rfl
  | cons e rest ih => rw [cons_append,flattenAll,flattenAll,ih,append_assoc]

theorem Registry.repeated?_eq_none {r : Registry} {e : Entry} :
    r.repeated? p e = none ↔ ∀ c ∈ e.flatten, ∀ known ∈ flattenAll r.entries, p.Apart known c := by
  simp [repeated?,apart_iff]

namespace SealedRegistry

variable {s : SealedRegistry} {p : Program} {t : TypeId} {a : TypeRef} {m c : MethodId} {e : Entry}

theorem exists_only {α : Type} {xs : List α} (tooMany : Failure) (apart : xs.Pairwise fun _ _ => False) :
    ∃ r, only? tooMany xs = .ok r := by
  match xs with
  | [] => exact ⟨none,rfl⟩
  | [a] => exact ⟨some a,rfl⟩
  | a :: b :: rest => exact (rel_of_pairwise_cons apart (.head _)).elim

theorem exists_lookup (apart : s.flat.Pairwise p.Apart) (t : TypeId) (a : TypeRef) : ∃ r, s.lookup p t a = .ok r := by
  refine exists_only _ ((apart.filter _).imp_of_mem fun left right apart => ?_)
  exact apart t a ⟨(mem_filter.mp left).2,(mem_filter.mp right).2⟩

theorem lookup_eq_some_iff (apart : s.flat.Pairwise p.Apart) :
    s.lookup p t a = .ok (some e) ↔ e ∈ s.flat ∧ p.isEntryFor e t a = true := by
  constructor
  · intro found
    obtain ⟨member,answers⟩ := lookup_eq_some found
    exact ⟨member,isEntryFor_iff.mpr answers⟩
  · rintro ⟨member,answers⟩
    obtain ⟨r,found⟩ := exists_lookup apart t a
    have among : e ∈ s.flat.filter fun e => p.isEntryFor e t a := mem_filter.mpr ⟨member,answers⟩
    rw [only?_eq_ok.mp found,Option.mem_toList] at among
    rw [found,among]

section Methods

variable (apart : s.flat.Pairwise p.Apart) (owners : ∀ e ∈ s.flat, ∀ m c, e.method? m = some c → m.owner = e.generic)
include apart owners

theorem exists_lookupMethod (m : MethodId) (a : TypeRef) : ∃ r, s.lookupMethod p m a = .ok r := by
  refine exists_only _ (pairwise_filterMap.mpr ((apart.filter _).imp_of_mem ?_))
  intro e f left right apart x first y second
  obtain ⟨c,recorded,-⟩ := Option.map_eq_some_iff.mp first
  obtain ⟨d,recorded',-⟩ := Option.map_eq_some_iff.mp second
  obtain ⟨flat,same⟩ := mem_filter.mp left
  obtain ⟨flat',same'⟩ := mem_filter.mp right
  refine apart m.owner a ⟨isEntryFor_iff.mpr ⟨?_,same⟩,isEntryFor_iff.mpr ⟨?_,same'⟩⟩
  · exact (owners e flat m c recorded).symm
  · exact (owners f flat' m d recorded').symm

theorem lookupMethod_eq_some_iff : s.lookupMethod p m a = .ok (some (c,e)) ↔
    e ∈ s.flat ∧ p.isEntryFor e m.owner a = true ∧ e.method? m = some c := by
  constructor
  · intro found
    obtain ⟨member,same,recorded⟩ := lookupMethod_eq_some found
    exact ⟨member,isEntryFor_iff.mpr ⟨(owners e member m c recorded).symm,same⟩,recorded⟩
  · rintro ⟨member,answers,recorded⟩
    obtain ⟨r,found⟩ := exists_lookupMethod apart owners m a
    have among : (c,e) ∈ (s.flat.filter fun e => p.same e.argument a).filterMap fun e => (e.method? m).map (·,e) :=
      mem_filterMap.mpr ⟨e,mem_filter.mpr ⟨member,(isEntryFor_iff.mp answers).2⟩,by rw [recorded]; rfl⟩
    rw [only?_eq_ok.mp found,Option.mem_toList] at among
    rw [found,among]

end Methods

end SealedRegistry

namespace Specializer

variable {w w' : Workspace Specializer} {source : TypeId} {argument : TypeRef} {e : Entry}

/-- What comes of a request. -/
inductive Served (w : Workspace Specializer) (source : TypeId) (argument : TypeRef) :
    Except Failure Entry × Workspace Specializer → Prop
  | known {e : Entry} (found : w.own.memo.find? (fun e => w.program.isEntryFor e source argument) = some e) :
      Served w source argument (.ok e,w)
  | refused {failure : Failure} {q : Program}
      (missing : w.own.memo.find? (fun e => w.program.isEntryFor e source argument) = none)
      (stopped : (Cloning.specialize w.own.style w.own.home source argument).run w.program = (.error failure,q)) :
      Served w source argument (.error failure,{ w with program := q })
  | rejected {failure : Failure} {e : Entry} {q : Program}
      (missing : w.own.memo.find? (fun e => w.program.isEntryFor e source argument) = none)
      (cloned : (Cloning.specialize w.own.style w.own.home source argument).run w.program = (.ok e,q))
      (rejected : w.own.registry.add q e = .error failure) :
      Served w source argument (.error failure,{ w with program := q })
  | made {e : Entry} {q : Program} {registry : Registry} {log : List String}
      (missing : w.own.memo.find? (fun e => w.program.isEntryFor e source argument) = none)
      (cloned : (Cloning.specialize w.own.style w.own.home source argument).run w.program = (.ok e,q))
      (added : w.own.registry.add q e = .ok registry) :
      Served w source argument (.ok e,⟨q,{ w.own with registry, memo := w.own.memo ++ [e] },log⟩)

theorem served (w : Workspace Specializer) (source : TypeId) (argument : TypeRef) :
    Served w source argument ((specialize source argument).run w) := by
  rw [specialize,run_own_bind,run_program_bind]
  cases found : w.own.memo.find? fun e => w.program.isEntryFor e source argument with
  | some e => exact .known found
  | none =>
    refine run_bind_cases (R := Served w source argument) (fun e failed => ?_) fun entry _ ran => ?_
    · exact .refused found (Prod.ext failed rfl)
    obtain ⟨q,cloned,rfl⟩ := run_cloning_eq_ok.mp ran
    rw [run_program_bind]
    refine run_bind_cases (R := Served w source argument) (fun e failed => ?_) fun registry _ ran => ?_
    · exact .rejected found cloned failed
    obtain ⟨added,rfl⟩ := run_ofExcept_eq_ok.mp ran
    exact .made found cloned added

/-- The registry holds the entries that are remembered, at most one for each type and argument. -/
structure Consistent (w : Workspace Specializer) : Prop where
  arranged : w.program.Arranged
  memo : w.own.memo = w.own.registry.entries
  declared : ∀ e ∈ flattenAll w.own.registry.entries, w.program.Declares e.argument
  owners : ∀ e ∈ flattenAll w.own.registry.entries, ∀ m c, e.method? m = some c → m.owner = e.generic
  apart : (flattenAll w.own.registry.entries).Pairwise w.program.Apart

/-- The program has grown, and so has the registry. -/
structure Onward (w w' : Workspace Specializer) : Prop where
  kept : Keeps header w.program w'.program
  entries : ∀ e ∈ w.own.registry.entries, e ∈ w'.own.registry.entries

theorem Consistent.grow (consistent : Consistent w)
    (kept : Keeps header w.program q) (arranged : q.Arranged) : Consistent ⟨q,w.own,log⟩ where
  arranged := arranged
  memo := consistent.memo
  declared e member := (consistent.declared e member).mono kept
  owners := consistent.owners
  apart := consistent.apart.imp_of_mem fun left right apart =>
    apart.keeps kept consistent.arranged.grounded (consistent.declared _ left) (consistent.declared _ right)

theorem Consistent.add {own : Specializer} {later : List String} (consistent : Consistent ⟨q,own,log⟩)
    (declared : q.Declares argument) (distinct : (e.flatten.map generic).Nodup)
    (filed : ∀ c ∈ e.flatten, Filed argument c) (fresh : own.registry.repeated? q e = none) : Consistent ⟨q,{ own with
      registry := { own.registry with entries := own.registry.entries ++ [e] }, memo := own.memo ++ [e] },later⟩ := by
  have flat : flattenAll (own.registry.entries ++ [e]) = flattenAll own.registry.entries ++ e.flatten := by
    rw [flattenAll_append,flattenAll,flattenAll,append_nil]
  refine ⟨consistent.arranged,congrArg (· ++ [e]) consistent.memo,?_,?_,?_⟩
  · rw [flat]
    refine forall_mem_append.mpr ⟨consistent.declared,fun c member => ?_⟩
    rw [(filed c member).argument_eq]
    exact declared
  · rw [flat]
    exact forall_mem_append.mpr ⟨consistent.owners,fun c member => (filed c member).owners⟩
  · rw [flat]
    refine pairwise_append.mpr ⟨consistent.apart,?_,fun known member c new =>
      Registry.repeated?_eq_none.mp fresh c new known member⟩
    -- the entries of one request are for different types
    refine (pairwise_map.mp distinct).imp fun different t a both => ?_
    exact different ((isEntryFor_iff.mp both.1).1.trans (isEntryFor_iff.mp both.2).1.symm)

theorem Consistent.serve (consistent : Consistent w) (declared : w.program.Declares argument)
    {r : Except Failure Entry × Workspace Specializer} (served : Served w source argument r) :
    Consistent r.2 ∧ Onward w r.2 := by
  obtain ⟨kept,arranged⟩ :=
    specialize_arranged w.own.style w.own.home source argument consistent.arranged
  cases served with
  | known found => exact ⟨consistent,.refl _ _,fun _ member => member⟩
  | refused missing stopped =>
    rw [stopped] at kept arranged
    exact ⟨consistent.grow kept arranged,kept,fun _ member => member⟩
  | rejected missing cloned rejected =>
    rw [cloned] at kept arranged
    exact ⟨consistent.grow kept arranged,kept,fun _ member => member⟩
  | @made e q registry log missing cloned added =>
    obtain ⟨-,fresh,rfl⟩ := Registry.add_eq_ok.mp added
    obtain ⟨-,distinct,filed⟩ := specialize_filed consistent.arranged cloned
    rw [cloned] at kept arranged
    have grown : Consistent ⟨q,w.own,w.log⟩ := consistent.grow kept arranged
    refine ⟨grown.add (declared.mono kept) distinct filed fresh,kept,?_⟩
    exact fun _ member => mem_append_left _ member

theorem Consistent.met (consistent : Consistent w) (done : (specialize source argument).run w = (.ok e,w')) :
    e ∈ w'.own.registry.entries ∧ w'.program.isEntryFor e source argument = true := by
  have outcome := served w source argument
  rw [done] at outcome
  cases outcome with
  | known found =>
    rw [← consistent.memo]
    exact ⟨mem_of_find?_eq_some found,(find?_some found :)⟩
  | made missing cloned added =>
    obtain ⟨-,-,rfl⟩ := Registry.add_eq_ok.mp added
    obtain ⟨generic,-,filed⟩ := specialize_filed consistent.arranged cloned
    refine ⟨by simp,isEntryFor_iff.mpr ⟨generic,?_⟩⟩
    rw [(filed e e.mem_flatten_self).argument_eq]
    exact same_iff.mpr rfl

theorem Consistent.again (consistent : Consistent w) (member : e ∈ w.own.registry.entries)
    (answers : w.program.isEntryFor e source argument = true) : (specialize source argument).run w = (.ok e,w) := by
  have outcome := served w source argument
  have present : w.own.memo.find? (fun e => w.program.isEntryFor e source argument) ≠ none := fun missing =>
    find?_eq_none.mp missing e (consistent.memo ▸ member) answers
  generalize (specialize source argument).run w = r at outcome
  cases outcome with
  | refused missing _ => exact absurd missing present
  | rejected missing _ _ => exact absurd missing present
  | made missing _ _ => exact absurd missing present
  | @known f found =>
    have other : f ∈ w.own.registry.entries := consistent.memo ▸ mem_of_find?_eq_some found
    have same : e = f := eq_of_apart consistent.apart (mem_flattenAll.mpr ⟨e,member,e.mem_flatten_self⟩)
      (mem_flattenAll.mpr ⟨f,other,f.mem_flatten_self⟩) answers (find?_some found :)
    rw [same]

/-- One request, whatever comes of it. -/
inductive Asks : Workspace Specializer → Workspace Specializer → Prop
  | ask {w : Workspace Specializer} (source : TypeId) (argument : TypeRef) (declared : w.program.Declares argument) :
      Asks w ((specialize source argument).run w).2

theorem Consistent.asked (consistent : Consistent w) (asked : Relation.ReflTransGen Asks w w') :
    Consistent w' ∧ Onward w w' := by
  induction asked with
  | refl => exact ⟨consistent,.refl _ _,fun _ member => member⟩
  | tail _ step ih =>
    obtain ⟨before,early⟩ := ih
    cases step with
    | ask source argument declared =>
      obtain ⟨after,late⟩ := before.serve declared (served _ _ _)
      exact ⟨after,early.kept.trans late.kept,fun f member => late.entries f (early.entries f member)⟩

/-- The registry gives unique answers, whatever was asked for before and whether or not it was met: no two entries are for
    one type at one argument, a request that was met is met again by the same entry with nothing done, and the sealed view
    finds the entry for a type, or for one of its methods, exactly where there is one. -/
theorem answers_unique {p : Program} {home : ModuleId} {config : Config} {log : List String} (formed : p.WellFormed)
    (asked : Relation.ReflTransGen Asks ⟨p,start home config,log⟩ w) :
    (Entry.flattenAll w.own.registry.entries).Pairwise w.program.Apart ∧
    (∀ source argument e w₁ w₂, w.program.Declares argument → (specialize source argument).run w = (.ok e,w₁) →
      Relation.ReflTransGen Asks w₁ w₂ → ∀ again, w₂.program.same argument again = true →
        (specialize source again).run w₂ = (.ok e,w₂)) ∧ (∀ t a, ∃ r, w.own.registry.close.1.lookup w.program t a = .ok r ∧
      ∀ e, r = some e ↔ e ∈ Entry.flattenAll w.own.registry.entries ∧ w.program.isEntryFor e t a = true) ∧
    ∀ m a, ∃ r, w.own.registry.close.1.lookupMethod w.program m a = .ok r ∧
      ∀ c e, r = some (c,e) ↔ e ∈ Entry.flattenAll w.own.registry.entries ∧
        w.program.isEntryFor e m.owner a = true ∧ e.method? m = some c := by
  have initial : Consistent ⟨p,start home config,log⟩ := ⟨formed.arranged,rfl,nofun,nofun,.nil⟩
  have consistent := (initial.asked asked).1
  have flat : w.own.registry.close.1.flat = Entry.flattenAll w.own.registry.entries := rfl
  have apart : w.own.registry.close.1.flat.Pairwise w.program.Apart := consistent.apart
  refine ⟨consistent.apart,fun source argument e w₁ w₂ declared done later again same => ?_,fun t a => ?_,fun m a => ?_⟩
  · have outcome := served w source argument
    rw [done] at outcome
    obtain ⟨after,onward⟩ := consistent.serve declared outcome
    obtain ⟨member,answers⟩ := consistent.met done
    obtain ⟨last,rest⟩ := after.asked later
    refine last.again (rest.entries e member) (Program.isEntryFor_iff.mpr ?_)
    obtain ⟨generic,matched⟩ := Program.isEntryFor_iff.mp answers
    have known := after.declared e (Entry.mem_flattenAll.mpr ⟨e,member,e.mem_flatten_self⟩)
    rw [← rest.kept.same_eq after.arranged.grounded known (declared.mono onward.kept)] at matched
    exact ⟨generic,Program.same_iff.mpr ((Program.same_iff.mp matched).trans (Program.same_iff.mp same))⟩
  · obtain ⟨r,found⟩ := SealedRegistry.exists_lookup apart t a
    refine ⟨r,found,fun e => ?_⟩
    rw [← flat,← SealedRegistry.lookup_eq_some_iff apart,found,Except.ok.injEq]
  · obtain ⟨r,found⟩ := SealedRegistry.exists_lookupMethod apart consistent.owners m a
    refine ⟨r,found,fun c e => ?_⟩
    rw [← flat,← SealedRegistry.lookupMethod_eq_some_iff apart consistent.owners,found,Except.ok.injEq]

theorem declares_core_of_asked {home : ModuleId} {config : Config} (linked : Linked p)
    (asked : Relation.ReflTransGen Asks ⟨p,start home config,log⟩ w) {t : TypeId}
    (core : t.index < core.types.size) : w.program.Declares (.decl t) := by
  have initial : Consistent ⟨p,start home config,log⟩ := ⟨linked.wellFormed.arranged,rfl,nofun,nofun,.nil⟩
  exact (linked.declares_core core).mono (initial.asked asked).2.kept

/-- A generic type inside another. -/
def cabinet : Document :=
  { moduleName := "Cabinet"
    types :=
      [some { name := "Cabinet", generics := ["T"]
              nested := [some { name := "Drawer", generics := ["T"], methods := [{ name := "Open" }] }] }] }

/-- The drawer is asked for first, so the cabinet at the same argument is refused after its clones were declared. -/
theorem cabinet_asked : ∃ home p w, cabinet.link core [CoreLibrary.home] = .ok (home,p) ∧
    Relation.ReflTransGen Asks ⟨p,start home {},[]⟩ w ∧ w.program.types.size = p.types.size + 3 ∧
    (flattenAll w.own.registry.entries).length = 1 ∧
    ∃ e v, (specialize ⟨13⟩ (.decl string)).run w = (.ok e,v) ∧ v.program.types.size = p.types.size + 5 := by
  obtain ⟨home,p,linked,evaluated⟩ := cabinet.link_passes (f := fun home p =>
    let first := (specialize ⟨14⟩ (.decl int32)).run ⟨p,start home {},[]⟩
    let second := (specialize ⟨13⟩ (.decl int32)).run first.2
    decide (second.2.program.types.size = p.types.size + 3) &&
      decide ((flattenAll second.2.own.registry.entries).length = 1) &&
      passes ((specialize ⟨13⟩ (.decl string)).run second.2) fun _ v =>
        decide (v.program.types.size = p.types.size + 5)) (by decide +kernel)
  simp only [Bool.and_eq_true,decide_eq_true_eq] at evaluated
  obtain ⟨⟨size,count⟩,evaluated⟩ := evaluated
  obtain ⟨e,v,done,later⟩ := exists_of_passes evaluated
  have built := Linked.core.link linked
  have drawer : Asks ⟨p,start home {},[]⟩ ((specialize ⟨14⟩ (.decl int32)).run ⟨p,start home {},[]⟩).2 :=
    .ask _ _ (declares_core_of_asked built .refl (by decide))
  have both := (Relation.ReflTransGen.single drawer).tail
    (.ask ⟨13⟩ (.decl int32) (declares_core_of_asked built (.single drawer) (by decide)))
  exact ⟨home,p,_,linked,both,size,count,e,v,done,of_decide_eq_true later⟩

theorem answers_unique_cabinet : ∃ home p w w' e, cabinet.link Program.core [CoreLibrary.home] = .ok (home,p) ∧
    p.WellFormed ∧ Relation.ReflTransGen Asks ⟨p,start home {},[]⟩ w ∧ w.program.types.size = p.types.size + 3 ∧
    (Entry.flattenAll w.own.registry.entries).Pairwise w.program.Apart ∧
    (specialize ⟨13⟩ (.decl CoreLibrary.string)).run w = (.ok e,w') ∧ w'.program.types.size = p.types.size + 5 ∧
    (specialize ⟨13⟩ (.decl CoreLibrary.string)).run w' = (.ok e,w') ∧
    (∃ f, w.own.registry.close.1.lookup w.program f.generic f.argument = .ok (some f)) := by
  obtain ⟨home,p,w,linked,asked,size,count,e,w',done,later⟩ := cabinet_asked
  have built := Linked.core.link linked
  obtain ⟨apart,again,lookups,-⟩ := answers_unique built.wellFormed asked
  have declared := declares_core_of_asked built asked (t := CoreLibrary.string) (by decide)
  refine ⟨home,p,w,w',e,linked,built.wellFormed,asked,size,apart,done,later,?_,?_⟩
  · exact again _ _ e w' w' declared done .refl _ (Program.same_iff.mpr rfl)
  · obtain ⟨f,flat⟩ := List.length_eq_one_iff.mp count
    obtain ⟨r,found,answers⟩ := lookups f.generic f.argument
    refine ⟨f,?_⟩
    rw [found,(answers f).mpr ⟨by rw [flat]; exact .head _,Program.isEntryFor_iff.mpr ⟨rfl,Program.same_iff.mpr rfl⟩⟩]

end Specializer
end Loom
