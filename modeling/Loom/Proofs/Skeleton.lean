import Loom.Document.Link
import Loom.Proofs.Reading

/-!
The types of a document. Declaring them adds one blank declaration for each, in the order of a walk over the nested
types; only generated types are then given the declaring types that they name.
-/
namespace Loom

open Linkage List Program

variable {outer t : TypeId} {name : String} {seen : List String}

namespace Document

variable {home : ModuleId} {o : Option TypeId} {p q r : Program} {pending later : List PendingType}
  {roots others : List TypeId}
variable {doc : TypeDoc} {docs : List (Option TypeDoc)} {ts : List TypeId}

/-- A type as it is declared from its document, without members. -/
structure Blank (home : ModuleId) (p : Program) (t : PendingType) : Prop where
  blank : (p.typeAt t.id).header = p.typeAt t.id
  space : (p.typeAt t.id).space = t.doc.space
  name : (p.typeAt t.id).name = t.doc.name
  named : t.doc.name ≠ ""
  flags : readTypeFlags t.doc.name t.doc.flags = .ok (p.typeAt t.id).flags
  generics : (p.typeAt t.id).generics = t.doc.generics
  home_eq : (p.typeAt t.id).home = home
  nested : ∀ n ∈ (p.typeAt t.id).nested, n.index < p.types.size ∧ (p.typeAt n).declaring = some t.id
  distinct : (p.typeAt t.id).nested.Nodup
  declaring : ∀ d, (p.typeAt t.id).declaring = some d → d.index < p.types.size

/-- The types of some documents are declared inside `o`. The roots are the types that stand directly in it. -/
structure Planted (home : ModuleId) (o : Option TypeId) (p q : Program) (pending : List PendingType)
    (roots : List TypeId) : Prop where
  code_eq : q.code = p.code
  modules_eq : q.modules = p.modules
  size_eq : q.types.size = p.types.size + pending.length
  ids : pending.map PendingType.id = (List.range' p.types.size pending.length).map TypeId.mk
  kept : ∀ t : TypeId, t.index < p.types.size → o ≠ some t → q.typeAt t = p.typeAt t
  outer : ∀ t : TypeId, t.index < p.types.size → o = some t →
    q.typeAt t = { p.typeAt t with nested := (p.typeAt t).nested ++ roots }
  blank : ∀ t ∈ pending, Blank home q t
  roots_new : ∀ t ∈ roots, p.types.size ≤ t.index ∧ t.index < q.types.size ∧ (q.typeAt t).declaring = o
  roots_distinct : roots.Nodup
  walk : ∀ r : Program, (∀ t : TypeId, p.types.size ≤ t.index → t.index < q.types.size →
      (r.typeAt t).nested = (q.typeAt t).nested) →
    ∀ n, pending.length ≤ n → roots.flatMap (r.withNested n) = pending.map PendingType.id

theorem Planted.nil (home : ModuleId) (o : Option TypeId) (p : Program) : Planted home o p p [] [] where
  code_eq := rfl
  modules_eq := rfl
  size_eq := rfl
  ids := rfl
  kept _ _ _ := rfl
  outer t _ _ := by simp
  blank := by simp
  roots_new := by simp
  roots_distinct := by simp
  walk _ _ _ _ := rfl

section

variable (planted : Planted home o p q pending roots)
include planted

theorem Planted.size_le : p.types.size ≤ q.types.size := by
  rw [planted.size_eq]
  exact Nat.le_add_right _ _

theorem Planted.mem_ids {t : PendingType} (member : t ∈ pending) :
    p.types.size ≤ t.id.index ∧ t.id.index < q.types.size := by
  have among : t.id ∈ pending.map PendingType.id := mem_map_of_mem member
  rw [planted.ids,mem_map] at among
  obtain ⟨i,range,same⟩ := among
  rw [mem_range'_1] at range
  rw [← same,planted.size_eq]
  exact range

theorem Planted.declaring_eq (inside : t.index < p.types.size) : (q.typeAt t).declaring = (p.typeAt t).declaring := by
  by_cases same : o = some t
  · rw [planted.outer t inside same]
  · rw [planted.kept t inside same]

end

theorem Blank.mono {t : PendingType} (blank : Blank home p t)
    (kept : q.typeAt t.id = p.typeAt t.id) (size_le : p.types.size ≤ q.types.size)
    (declaring : ∀ n : TypeId, n.index < p.types.size → (q.typeAt n).declaring = (p.typeAt n).declaring) :
    Blank home q t where
  blank := by rw [kept]; exact blank.blank
  space := by rw [kept]; exact blank.space
  name := by rw [kept]; exact blank.name
  named := blank.named
  flags := by rw [kept]; exact blank.flags
  generics := by rw [kept]; exact blank.generics
  home_eq := by rw [kept]; exact blank.home_eq
  nested n member := by
    rw [kept] at member
    obtain ⟨within,outer⟩ := blank.nested n member
    exact ⟨Nat.lt_of_lt_of_le within size_le,by rw [declaring n within,outer]⟩
  distinct := by rw [kept]; exact blank.distinct
  declaring d outer := by
    rw [kept] at outer
    exact Nat.lt_of_lt_of_le (blank.declaring d outer) size_le

theorem Planted.append (early : Planted home o p q pending roots) (late : Planted home o q r later others)
    (outside : ∀ t, o = some t → t.index < p.types.size) :
    Planted home o p r (pending ++ later) (roots ++ others) where
  code_eq := late.code_eq.trans early.code_eq
  modules_eq := late.modules_eq.trans early.modules_eq
  size_eq := by rw [late.size_eq,early.size_eq,length_append,Nat.add_assoc]
  ids := by
    rw [map_append,early.ids,late.ids,early.size_eq,length_append,← map_append,← range'_append_1]
  kept t inside different :=
    (late.kept t (Nat.lt_of_lt_of_le inside early.size_le) different).trans (early.kept t inside different)
  outer t inside same := by
    rw [late.outer t (Nat.lt_of_lt_of_le inside early.size_le) same,early.outer t inside same,append_assoc]
  blank t member := by
    rcases mem_append.mp member with first | second
    · obtain ⟨from_,inside⟩ := early.mem_ids first
      refine (early.blank t first).mono (late.kept t.id inside fun same => ?_) late.size_le
        fun n within => late.declaring_eq within
      exact absurd (outside t.id same) (Nat.not_lt_of_le from_)
    · exact late.blank t second
  roots_new t member := by
    rcases mem_append.mp member with first | second
    · obtain ⟨from_,inside,declaring⟩ := early.roots_new t first
      exact ⟨from_,Nat.lt_of_lt_of_le inside late.size_le,by rw [late.declaring_eq inside,declaring]⟩
    · obtain ⟨from_,inside,declaring⟩ := late.roots_new t second
      exact ⟨Nat.le_trans early.size_le from_,inside,declaring⟩
  roots_distinct := by
    refine nodup_append.mpr ⟨early.roots_distinct,late.roots_distinct,fun t first u second same => ?_⟩
    have below := (early.roots_new t first).2.1
    have above := (late.roots_new u second).1
    rw [same] at below
    omega
  walk s agree n enough := by
    rw [flatMap_append,map_append]
    rw [length_append] at enough
    congr 1
    · refine early.walk s (fun t from_ inside => ?_) n (by omega)
      rw [agree t from_ (Nat.lt_of_lt_of_le inside late.size_le),late.kept t inside fun same => ?_]
      exact absurd (outside t same) (Nat.not_lt_of_le from_)
    · exact late.walk s (fun t from_ inside => agree t (Nat.le_trans early.size_le from_) inside) n (by omega)

/-- The program with a blank type, listed among the types nested in its declaring type. -/
def opened (p : Program) (d : TypeDecl) : Program :=
  match d.declaring with
  | some outer => (p.declareType d).2.modifyType outer fun o => { o with nested := o.nested ++ [⟨p.types.size⟩] }
  | none => (p.declareType d).2

section Opened

variable {d : TypeDecl}

theorem size_opened : (opened p d).types.size = p.types.size + 1 := by
  unfold opened
  split <;> simp

theorem lt_size_opened : p.types.size < (opened p d).types.size := by
  rw [size_opened]
  exact Nat.lt_succ_self _

theorem typeAt_opened_new (outside : ∀ t, d.declaring = some t → t.index < p.types.size) :
    (opened p d).typeAt ⟨p.types.size⟩ = d := by
  unfold opened
  split
  · next outer declaring =>
    have different : (⟨p.types.size⟩ : TypeId) ≠ outer := by
      rintro rfl
      exact absurd (outside _ declaring) (Nat.lt_irrefl _)
    rw [typeAt_modifyType_of_ne different]
    exact typeAt_declareType_new d
  · exact typeAt_declareType_new d

theorem typeAt_opened_kept (inside : t.index < p.types.size) (different : d.declaring ≠ some t) :
    (opened p d).typeAt t = p.typeAt t := by
  unfold opened
  split
  · next outer declaring =>
    have apart : t ≠ outer := by rintro rfl; exact different declaring
    rw [typeAt_modifyType_of_ne apart]
    exact typeAt_declareType_old inside d
  · exact typeAt_declareType_old inside d

theorem typeAt_opened_outer (inside : t.index < p.types.size) (same : d.declaring = some t) :
    (opened p d).typeAt t = { p.typeAt t with nested := (p.typeAt t).nested ++ [⟨p.types.size⟩] } := by
  unfold opened
  rw [same]
  simp only
  rw [typeAt_modifyType_self (by simp; omega),typeAt_declareType_old inside]

theorem code_opened : (opened p d).code = p.code := by
  unfold opened
  split <;> rfl

theorem modules_opened : (opened p d).modules = p.modules := by
  unfold opened
  split <;> rfl

end Opened

theorem Planted.node {d : TypeDecl} (blank : d.header = d) (nested : d.nested = []) (space : d.space = doc.space)
    (name : d.name = doc.name) (named : doc.name ≠ "")
    (flags : readTypeFlags doc.name doc.flags = .ok d.flags) (generics : d.generics = doc.generics)
    (home_eq : d.home = home) (outside : ∀ t, d.declaring = some t → t.index < p.types.size)
    (inner : Planted home (some ⟨p.types.size⟩) (opened p d) q pending roots) :
    Planted home d.declaring p q (⟨doc,⟨p.types.size⟩⟩ :: pending) [⟨p.types.size⟩] := by
  have size : q.types.size = p.types.size + (pending.length + 1) := by
    rw [inner.size_eq,size_opened]; omega
  have kept : ∀ t : TypeId, t.index < p.types.size → q.typeAt t = (opened p d).typeAt t := fun t inside =>
    inner.kept t (by rw [size_opened]; omega) (by rintro ⟨⟩; exact absurd inside (Nat.lt_irrefl _))
  have root : q.typeAt ⟨p.types.size⟩ = { d with nested := roots } := by
    rw [inner.outer ⟨p.types.size⟩ lt_size_opened rfl,typeAt_opened_new outside,nested,nil_append]
  constructor
  · exact inner.code_eq.trans code_opened
  · exact inner.modules_eq.trans modules_opened
  · exact size
  · rw [map_cons,inner.ids,size_opened]
    rfl
  · intro t inside different
    rw [kept t inside,typeAt_opened_kept inside different]
  · intro t inside same
    rw [kept t inside,typeAt_opened_outer inside same]
  · intro t member
    rcases mem_cons.mp member with rfl | later
    · constructor
      · rw [root]
        have same : ({ d with nested := roots } : TypeDecl).header = { d.header with nested := roots } := rfl
        rw [same,blank]
      · rw [root]; exact space
      · rw [root]; exact name
      · exact named
      · rw [root]; exact flags
      · rw [root]; exact generics
      · rw [root]; exact home_eq
      · intro n among
        rw [root] at among
        exact ⟨(inner.roots_new n among).2.1,(inner.roots_new n among).2.2⟩
      · rw [root]; exact inner.roots_distinct
      · intro o declaring
        rw [root] at declaring
        exact Nat.lt_of_lt_of_le (outside o declaring) (by rw [size]; exact Nat.le_add_right _ _)
    · exact inner.blank t later
  · intro t member
    rw [mem_singleton.mp member]
    exact ⟨Nat.le_refl _,by rw [size]; show p.types.size < _; omega,by rw [root]⟩
  · simp
  · intro s agree n enough
    obtain ⟨n,rfl⟩ : ∃ k, n = k + 1 := ⟨n - 1,by simp at enough; omega⟩
    have here : (s.typeAt ⟨p.types.size⟩).nested = roots := by
      rw [agree ⟨p.types.size⟩ (Nat.le_refl _) (by rw [size]; show p.types.size < _; omega),root]
    rw [flatMap_singleton,withNested,here,map_cons]
    congr 1
    refine inner.walk s (fun t from_ inside => agree t ?_ inside) n (by simpa using enough)
    rw [size_opened] at from_
    omega

def declarationOf (home : ModuleId) (o : Option TypeId) (doc : TypeDoc) (flags : TypeFlags) : TypeDecl :=
  { space := doc.space, name := doc.name, flags, generics := doc.generics, declaring := o, home }

theorem declareType_eq_ok (done : (declareType home o doc).run p = .ok (pending,q)) :
    ∃ flags later, doc.name ≠ "" ∧ readTypeFlags doc.name doc.flags = .ok flags ∧
      (declareNested home ⟨p.types.size⟩ doc.nested).run (opened p (declarationOf home o doc flags)) = .ok (later,q) ∧
      pending = ⟨doc,⟨p.types.size⟩⟩ :: later := by
  obtain ⟨space,name,declaredBy,flagNames,generics,base,interfaces,attributes,fields,methods,nested⟩ := doc
  rw [declareType] at done
  simp only at done
  split at done
  · exact absurd done run_throw_bind_ne_ok
  · next named =>
    obtain ⟨flags,flagsRead,done⟩ := run_lift_bind_eq_ok.mp done
    obtain ⟨id,s,declared,done⟩ := run_bind_eq_ok.mp done
    have declared := run_modifyGet_eq_ok.mp declared
    cases declared
    have named : name ≠ "" := by simpa using named
    cases o with
    | none =>
      obtain ⟨later,s,nestedRun,done⟩ := run_bind_eq_ok.mp done
      obtain ⟨rfl,rfl⟩ := run_pure_eq_ok.mp done
      exact ⟨flags,later,named,flagsRead,nestedRun,rfl⟩
    | some outer =>
      rw [run_modify_bind] at done
      obtain ⟨later,s,nestedRun,done⟩ := run_bind_eq_ok.mp done
      obtain ⟨rfl,rfl⟩ := run_pure_eq_ok.mp done
      exact ⟨flags,later,named,flagsRead,nestedRun,rfl⟩

theorem declareNested_cons_eq_ok {doc : Option TypeDoc}
    (done : (declareNested home outer (doc :: docs)).run p = .ok (pending,q)) :
    ∃ d first r later, doc = some d ∧ d.declaring = "" ∧ (declareType home (some outer) d).run p = .ok (first,r) ∧
      (declareNested home outer docs).run r = .ok (later,q) ∧ pending = first ++ later := by
  cases doc with
  | none =>
    rw [declareNested] at done
    exact absurd done run_throw_ne_ok
  | some d =>
    rw [declareNested] at done
    simp only at done
    split at done
    · next plain =>
      obtain ⟨first,r,firstRun,done⟩ := run_bind_eq_ok.mp done
      obtain ⟨later,s,laterRun,done⟩ := run_bind_eq_ok.mp done
      obtain ⟨rfl,rfl⟩ := run_pure_eq_ok.mp done
      exact ⟨d,first,r,later,rfl,by simpa using plain,firstRun,laterRun,rfl⟩
    · exact absurd done run_throw_bind_ne_ok

mutual

theorem declareType_planted (doc : TypeDoc) {o : Option TypeId} {p q : Program} {pending : List PendingType}
    (outside : ∀ t, o = some t → t.index < p.types.size)
    (done : (declareType home o doc).run p = .ok (pending,q)) :
    Planted home o p q pending [⟨p.types.size⟩] ∧
      ∃ later, pending = ⟨doc,⟨p.types.size⟩⟩ :: later ∧ ∀ t ∈ later, t.doc.declaring = "" := by
  obtain ⟨flags,later,named,flagsRead,nestedRun,rfl⟩ := declareType_eq_ok done
  have inside : p.types.size < (opened p (declarationOf home o doc flags)).types.size := lt_size_opened
  match doc, nestedRun with
  | ⟨_,_,_,_,_,_,_,_,_,_,nested⟩, nestedRun =>
    obtain ⟨⟨roots,inner⟩,plain⟩ := declareNested_planted nested inside nestedRun
    have node := Planted.node (d := declarationOf home o _ flags) rfl rfl rfl rfl named flagsRead rfl rfl outside inner
    exact ⟨node,later,rfl,plain⟩

theorem declareNested_planted (docs : List (Option TypeDoc)) {outer : TypeId} {p q : Program}
    {pending : List PendingType} (inside : outer.index < p.types.size)
    (done : (declareNested home outer docs).run p = .ok (pending,q)) :
    (∃ roots, Planted home (some outer) p q pending roots) ∧ ∀ t ∈ pending, t.doc.declaring = "" := by
  match docs with
  | [] =>
    rw [declareNested] at done
    obtain ⟨rfl,rfl⟩ := run_pure_eq_ok.mp done
    exact ⟨⟨[],.nil home _ p⟩,by simp⟩
  | none :: rest =>
    obtain ⟨_,_,_,_,⟨⟩,-⟩ := declareNested_cons_eq_ok done
  | some doc :: rest =>
    obtain ⟨_,first,r,later,⟨⟩,plain,firstRun,laterRun,rfl⟩ := declareNested_cons_eq_ok done
    have outside : ∀ t, some outer = some t → t.index < p.types.size := by rintro t ⟨⟩; exact inside
    obtain ⟨early,others,rfl,unnamed⟩ := declareType_planted doc outside firstRun
    obtain ⟨⟨roots,late⟩,restPlain⟩ := declareNested_planted rest (Nat.lt_of_lt_of_le inside early.size_le) laterRun
    refine ⟨⟨_,early.append late outside⟩,fun t member => ?_⟩
    rcases mem_append.mp member with among | among
    · rcases mem_cons.mp among with rfl | among
      · exact plain
      · exact unnamed t among
    · exact restPlain t among

end

/-! ### Top-level types -/

theorem Planted.withModules (planted : Planted home o p q pending roots) (modules : Array ModuleDecl) :
    Planted home o { p with modules } { q with modules } pending roots where
  code_eq := planted.code_eq
  modules_eq := rfl
  size_eq := planted.size_eq
  ids := planted.ids
  kept := planted.kept
  outer := planted.outer
  blank t member :=
    have blank := planted.blank t member
    ⟨blank.blank,blank.space,blank.name,blank.named,blank.flags,blank.generics,blank.home_eq,blank.nested,
      blank.distinct,blank.declaring⟩
  roots_new := planted.roots_new
  roots_distinct := planted.roots_distinct
  walk := planted.walk

theorem declareTypes_cons_eq_ok {doc : Option TypeDoc} (done : (declareTypes home (doc :: docs)).run p = .ok (pending,q)) :
    ∃ d first r later, doc = some d ∧ (declareType home none d).run p = .ok (first,r) ∧
      (declareTypes home docs).run (r.addTopLevel ⟨p.types.size⟩) = .ok (later,q) ∧ pending = first ++ later := by
  cases doc with
  | none =>
    rw [declareTypes] at done
    exact absurd done run_throw_ne_ok
  | some d =>
    rw [declareTypes] at done
    obtain ⟨first,r,firstRun,done⟩ := run_bind_eq_ok.mp done
    obtain ⟨-,others,rfl,-⟩ := declareType_planted d (by simp) firstRun
    simp only [head?_cons] at done
    rw [run_modify_bind] at done
    obtain ⟨later,s,laterRun,done⟩ := run_bind_eq_ok.mp done
    obtain ⟨rfl,rfl⟩ := run_pure_eq_ok.mp done
    exact ⟨d,_,r,later,rfl,firstRun,laterRun,rfl⟩

theorem declareType_ok {flags : TypeFlags} (named : doc.name ≠ "") (read : readTypeFlags doc.name doc.flags = .ok flags)
    (nested : (declareNested home ⟨p.types.size⟩ doc.nested).run (opened p (declarationOf home o doc flags)) =
      .ok (later,q)) : (declareType home o doc).run p = .ok (⟨doc,⟨p.types.size⟩⟩ :: later,q) := by
  obtain ⟨space,name,declaredBy,flagNames,generics,base,interfaces,attributes,fields,methods,inner⟩ := doc
  rw [declareType]
  simp only
  rw [if_neg (by simpa using named)]
  refine run_lift_bind_eq_ok.mpr ⟨flags,read,?_⟩
  refine run_bind_eq_ok.mpr ⟨_,_,run_modifyGet_eq_ok.mpr rfl,?_⟩
  cases o with
  | none => exact run_bind_eq_ok.mpr ⟨later,q,nested,run_pure_eq_ok.mpr ⟨rfl,rfl⟩⟩
  | some outer =>
    rw [run_modify_bind]
    exact run_bind_eq_ok.mpr ⟨later,q,nested,run_pure_eq_ok.mpr ⟨rfl,rfl⟩⟩

theorem declareNested_cons_ok (plain : doc.declaring = "")
    (firstRun : (declareType home (some outer) doc).run p = .ok (pending,r))
    (laterRun : (declareNested home outer docs).run r = .ok (later,q)) :
    (declareNested home outer (some doc :: docs)).run p = .ok (pending ++ later,q) := by
  rw [declareNested]
  simp only
  rw [if_pos (by simp [plain])]
  refine run_bind_eq_ok.mpr ⟨pending,r,firstRun,?_⟩
  exact run_bind_eq_ok.mpr ⟨later,q,laterRun,run_pure_eq_ok.mpr ⟨rfl,rfl⟩⟩

theorem declareTypes_cons_ok (firstRun : (declareType home none doc).run p = .ok (pending,r))
    (laterRun : (declareTypes home docs).run (r.addTopLevel ⟨p.types.size⟩) = .ok (later,q)) :
    (declareTypes home (some doc :: docs)).run p = .ok (pending ++ later,q) := by
  obtain ⟨-,others,rfl,-⟩ := declareType_planted doc (by simp) firstRun
  rw [declareTypes]
  refine run_bind_eq_ok.mpr ⟨_,r,firstRun,?_⟩
  simp only [head?_cons]
  rw [run_modify_bind]
  exact run_bind_eq_ok.mpr ⟨later,q,laterRun,run_pure_eq_ok.mpr ⟨rfl,rfl⟩⟩

theorem declareTypes_planted (inside : home.index < p.modules.size)
    (done : (declareTypes home docs).run p = .ok (pending,q)) :
    ∃ roots, Planted home none p { q with modules := p.modules } pending roots ∧ ListedIn home p q roots ∧
      ∀ t ∈ pending, t.doc.declaring ≠ "" → t.id ∈ roots := by
  induction docs generalizing p pending with
  | nil =>
    rw [declareTypes] at done
    obtain ⟨rfl,rfl⟩ := run_pure_eq_ok.mp done
    exact ⟨[],.nil home _ p,.of_eq rfl,by simp⟩
  | cons doc docs ih =>
    obtain ⟨d,first,r,later,rfl,firstRun,laterRun,rfl⟩ := declareTypes_cons_eq_ok done
    obtain ⟨early,others,rfl,plain⟩ := declareType_planted d (by simp) firstRun
    have home_eq : (r.typeAt ⟨p.types.size⟩).home = home := (early.blank _ (.head _)).home_eq
    have listed : ListedIn home p (r.addTopLevel ⟨p.types.size⟩) [⟨p.types.size⟩] :=
      (ListedIn.of_eq early.modules_eq).trans (.addTopLevel home_eq (by rw [early.modules_eq]; exact inside))
    obtain ⟨roots,late,lateListed,named⟩ := ih (by rw [listed.size_eq]; exact inside) laterRun
    have late : Planted home none r { q with modules := r.modules } later roots := late.withModules r.modules
    rw [early.modules_eq] at late
    refine ⟨_,early.append late (by simp),listed.trans lateListed,fun t member declaring => ?_⟩
    rcases mem_append.mp member with among | among
    · rcases mem_cons.mp among with rfl | among
      · exact mem_append_left _ (.head _)
      · exact absurd (plain t among) declaring
    · exact mem_append_right _ (named t among declaring)

/-! ### Declaring types by name -/

def Offered (home : ModuleId) (p : Program) (t : TypeId) : Prop :=
  t ∈ p.allTypes home ∨ ∃ h ∈ (p.moduleAt home).references, t ∈ p.allTypes h

theorem allTypes_of_nested (size_eq : q.types.size = p.types.size)
    (nested : ∀ t, (q.typeAt t).nested = (p.typeAt t).nested) (modules_eq : q.modules = p.modules) (h : ModuleId) :
    q.allTypes h = p.allTypes h := by
  have walks (n : Nat) (u : TypeId) : q.withNested n u = p.withNested n u := by
    induction n generalizing u with
    | zero => rfl
    | succ n ih => rw [withNested,withNested,nested,flatMap_congr fun v _ => ih v]
  have modules : q.moduleAt h = p.moduleAt h := by rw [moduleAt,modules_eq]; rfl
  rw [allTypes,allTypes,modules,size_eq]
  exact flatMap_congr fun v _ => walks _ v

theorem Offered.congr (offered : Offered home p t) (size_eq : q.types.size = p.types.size)
    (nested : ∀ t, (q.typeAt t).nested = (p.typeAt t).nested) (modules_eq : q.modules = p.modules) : Offered home q t := by
  have modules (h : ModuleId) : q.moduleAt h = p.moduleAt h := by rw [moduleAt,modules_eq]; rfl
  simpa only [Offered,allTypes_of_nested size_eq nested modules_eq,modules] using offered

theorem offered_of_findType? (found : p.findType? home name = some t) : Offered home p t := by
  rcases Option.or_eq_some_iff.mp found with own | ⟨-,other⟩
  · exact .inl (mem_of_find?_eq_some own)
  · obtain ⟨h,among,found⟩ := exists_of_findSome?_eq_some other
    exact .inr ⟨h,among,mem_of_find?_eq_some found⟩

theorem Offered.inside (offered : Offered home p t) (listed : p.Listed) : t.index < p.types.size := by
  rcases offered with own | ⟨h,-,other⟩
  · exact listed.allTypes own
  · exact listed.allTypes other

/-- Some of the given types have got a declaring type that the module offers; all else is as it was. -/
structure Bound (home : ModuleId) (pending : List PendingType) (p q : Program) : Prop where
  code_eq : q.code = p.code
  modules_eq : q.modules = p.modules
  size_eq : q.types.size = p.types.size
  type_eq : ∀ t, q.typeAt t = p.typeAt t ∨ ∃ pd ∈ pending, pd.id = t ∧ pd.doc.declaring ≠ "" ∧
    ∃ outer : TypeId, Offered home p outer ∧ q.typeAt t = { p.typeAt t with declaring := some outer }

theorem Bound.refl (home : ModuleId) (pending : List PendingType) (p : Program) : Bound home pending p p :=
  ⟨rfl,rfl,rfl,fun _ => .inl rfl⟩

theorem Bound.nested_eq (bound : Bound home pending p q) (t : TypeId) : (q.typeAt t).nested = (p.typeAt t).nested := by
  rcases bound.type_eq t with same | ⟨-,-,-,-,outer,-,same⟩ <;> rw [same]

theorem Bound.trans (early : Bound home pending p q) (late : Bound home pending q r) : Bound home pending p r where
  code_eq := late.code_eq.trans early.code_eq
  modules_eq := late.modules_eq.trans early.modules_eq
  size_eq := late.size_eq.trans early.size_eq
  type_eq t := by
    rcases late.type_eq t with same | ⟨pd,member,id,named,outer,offered,same⟩
    · rw [same]
      exact early.type_eq t
    · have offered := offered.congr early.size_eq.symm (fun u => (early.nested_eq u).symm) early.modules_eq.symm
      refine .inr ⟨pd,member,id,named,outer,offered,?_⟩
      rcases early.type_eq t with before | ⟨-,-,-,-,other,-,before⟩
      · rw [same,before]
      · rw [same,before]

theorem findNamed_mem (found : findNamed p name ts = .ok (some t)) : t ∈ ts := by
  induction ts with
  | nil => cases found
  | cons u rest ih =>
    rw [findNamed] at found
    split at found
    · cases found
    · split at found
      · cases found
        exact .head _
      · exact .tail _ (ih found)

theorem bindDeclaring_bound {pd : PendingType} (member : pd ∈ pending)
    (done : (bindDeclaring home pd).run p = .ok ((),q)) : Bound home pending p q := by
  rw [bindDeclaring] at done
  split at done
  · obtain ⟨-,rfl⟩ := run_pure_eq_ok.mp done
    exact .refl home pending p
  · next named =>
    obtain ⟨s,_,state,done⟩ := run_bind_eq_ok.mp done
    obtain ⟨rfl,rfl⟩ := run_get_eq_ok.mp state
    obtain ⟨own,ownRead,done⟩ := run_lift_bind_eq_ok.mp done
    split at done
    · next outer found =>
      obtain rfl := run_modify_eq_ok.mp done
      have offered : Offered home p outer := by
        rcases Option.or_eq_some_iff.mp found with rfl | ⟨-,other⟩
        · exact .inl (findNamed_mem ownRead)
        · obtain ⟨h,among,found⟩ := exists_of_findSome?_eq_some other
          exact .inr ⟨h,among,mem_of_find?_eq_some found⟩
      refine ⟨rfl,rfl,by simp,fun t => ?_⟩
      by_cases same : t = pd.id
      · subst same
        by_cases within : pd.id.index < p.types.size
        · refine .inr ⟨pd,member,rfl,by simpa using named,outer,offered,?_⟩
          rw [typeAt_modifyType_self within]
        · left
          rw [typeAt_of_le (by simpa using within),typeAt_of_le (by simpa using within)]
      · exact .inl (typeAt_modifyType_of_ne same _)
    · exact absurd done run_throw_ne_ok

theorem bindDeclaring_all {pending : List PendingType} (done : (pending.forM (bindDeclaring home)).run p = .ok ((),q)) :
    Bound home pending p q :=
  forM_keeps (I := Bound home pending p) (fun _ member _ _ early round => early.trans (bindDeclaring_bound member round))
    done (.refl home pending p)

/-! ### Names -/

theorem checkNames_ends (checked : checkNames p seen ts = .ok ()) (member : t ∈ ts) : p.chainEnds t = true := by
  induction ts generalizing seen with
  | nil => cases member
  | cons u rest ih =>
    rw [checkNames] at checked
    split at checked
    · cases checked
    · next ends =>
      simp only at checked
      split at checked
      · cases checked
      · rcases mem_cons.mp member with rfl | later
        · simpa using ends
        · exact ih checked later

theorem checkNames_nodup (checked : checkNames p seen ts = .ok ()) :
    (ts.map p.fullName).Nodup ∧ ∀ t ∈ ts, p.fullName t ∉ seen := by
  induction ts generalizing seen with
  | nil => exact ⟨nodup_nil,nofun⟩
  | cons u rest ih =>
    rw [checkNames] at checked
    split at checked
    · cases checked
    · simp only at checked
      split at checked
      · cases checked
      · next fresh =>
        obtain ⟨distinct,unseen⟩ := ih checked
        have first : p.fullName u ∉ rest.map p.fullName := by
          intro member
          obtain ⟨t,later,same⟩ := mem_map.mp member
          exact unseen t later (by rw [same]; exact .head _)
        refine ⟨nodup_cons.mpr ⟨first,distinct⟩,forall_mem_cons.mpr ⟨by simpa using fresh,fun t later => ?_⟩⟩
        exact fun known => unseen t later (.tail _ known)

/-! ### Skeletons -/

/-- The types of a document are declared, without members and with names that were checked. -/
structure Sketched (home : ModuleId) (p q : Program) (pending : List PendingType) : Prop where
  grown : p.Extends q
  grounded : q.Grounded
  listed : q.Listed
  code_eq : q.code = p.code
  size_eq : q.types.size = p.types.size + pending.length
  ids : pending.map PendingType.id = (List.range' p.types.size pending.length).map TypeId.mk
  blank : ∀ t ∈ pending, Blank home q t
  walk : q.allTypes home = pending.map PendingType.id
  names : ((q.allTypes home).map q.fullName).Nodup
  listedIn : ∃ roots, ListedIn home p q roots
  outer : ∀ t ∈ (q.moduleAt home).types, ∀ d, (q.typeAt t).declaring = some d → Offered home q d

section

variable (sketched : Sketched home p q pending)
include sketched

theorem Sketched.mem_ids (from_ : p.types.size ≤ t.index) (inside : t.index < q.types.size) :
    ∃ pd ∈ pending, pd.id = t := by
  have among : t ∈ pending.map PendingType.id := by
    rw [sketched.ids,mem_map]
    exact ⟨t.index,by rw [mem_range'_1,← sketched.size_eq]; exact ⟨from_,inside⟩,rfl⟩
  exact mem_map.mp among

theorem Sketched.id_new {t : PendingType} (member : t ∈ pending) :
    p.types.size ≤ t.id.index ∧ t.id.index < q.types.size := by
  have among : t.id ∈ pending.map PendingType.id := mem_map_of_mem member
  rw [sketched.ids,mem_map] at among
  obtain ⟨i,range,same⟩ := among
  rw [← same,sketched.size_eq]
  exact mem_range'_1.mp range

theorem Sketched.header_eq (from_ : p.types.size ≤ t.index) : (q.typeAt t).header = q.typeAt t := by
  by_cases inside : t.index < q.types.size
  · obtain ⟨pd,member,rfl⟩ := sketched.mem_ids from_ inside
    exact (sketched.blank pd member).blank
  · rw [typeAt_of_le (Nat.le_of_not_lt inside)]
    rfl

theorem Sketched.mem_allTypes : t ∈ q.allTypes home ↔ p.types.size ≤ t.index ∧ t.index < q.types.size := by
  rw [sketched.walk]
  constructor
  · intro member
    obtain ⟨pd,among,rfl⟩ := mem_map.mp member
    exact sketched.id_new among
  · rintro ⟨from_,inside⟩
    obtain ⟨pd,member,rfl⟩ := sketched.mem_ids from_ inside
    exact mem_map_of_mem member

end

theorem moduleAt_addModule_new (m : ModuleDecl) : (p.addModule m).2.moduleAt (p.addModule m).1 = m := by
  rw [moduleAt,addModule,Array.getElem?_push_size]
  rfl

theorem moduleAt_addModule_old (m : ModuleDecl) {h : ModuleId} (different : h ≠ (p.addModule m).1) :
    (p.addModule m).2.moduleAt h = p.moduleAt h := by
  have apart : h.index ≠ p.modules.size := fun same => different (by cases h; cases same; rfl)
  rw [moduleAt,addModule,moduleAt,Array.getElem?_push,if_neg apart]

theorem listed_addModule (listed : p.Listed) {m : ModuleDecl} (empty : m.types = []) : (p.addModule m).2.Listed where
  top h t member := by
    by_cases same : h = (p.addModule m).1
    · rw [same,moduleAt_addModule_new,empty] at member
      cases member
    · rw [moduleAt_addModule_old m same] at member
      exact listed.top h t member
  distinct h := by
    by_cases same : h = (p.addModule m).1
    · rw [same,moduleAt_addModule_new,empty]
      exact nodup_nil
    · rw [moduleAt_addModule_old m same]
      exact listed.distinct h
  nested := listed.nested

theorem Planted.listed (planted : Planted home none p { q with modules := p.modules } pending roots)
    (listedIn : ListedIn home p q roots) (listed : p.Listed) : q.Listed where
  top h t member := by
    by_cases same : h = home
    · rw [same,listedIn.here] at member
      rcases mem_append.mp member with old | new
      · exact Nat.lt_of_lt_of_le (listed.top home t old) planted.size_le
      · exact (planted.roots_new t new).2.1
    · rw [listedIn.elsewhere h same] at member
      exact Nat.lt_of_lt_of_le (listed.top h t member) planted.size_le
  distinct h := listedIn.distinct listed planted.roots_distinct (fun t member => (planted.roots_new t member).1) h
  nested t inside n member := by
    by_cases old : t.index < p.types.size
    · have kept : q.typeAt t = p.typeAt t := planted.kept t old (by simp)
      rw [kept] at member
      exact Nat.lt_of_lt_of_le (listed.nested t old n member) planted.size_le
    · have among : t ∈ pending.map PendingType.id := by
        rw [planted.ids,mem_map]
        exact ⟨t.index,by rw [mem_range'_1,← planted.size_eq]; exact ⟨Nat.le_of_not_lt old,inside⟩,rfl⟩
      obtain ⟨pd,present,rfl⟩ := mem_map.mp among
      exact ((planted.blank pd present).nested n member).1

theorem sketched_of_planted (listed : p.Listed) (grounded : p.Grounded) (empty : (p.moduleAt home).types = [])
    (planted : Planted home none p { q with modules := p.modules } pending roots) (listedIn : ListedIn home p q roots)
    (named : ∀ t ∈ pending, t.doc.declaring ≠ "" → t.id ∈ roots) (bound : Bound home pending q r)
    (checked : checkNames r [] (r.allTypes home) = .ok ()) : Sketched home p r pending := by
  have old : ∀ t : TypeId, t.index < p.types.size → r.typeAt t = p.typeAt t := by
    intro t inside
    have kept : q.typeAt t = p.typeAt t := planted.kept t inside (by simp)
    rcases bound.type_eq t with same | ⟨pd,member,rfl,-⟩
    · rw [same,kept]
    · exact absurd inside (Nat.not_lt_of_le (planted.mem_ids member).1)
  -- A type that stands inside another is no root, so it keeps its declaring type.
  have inner : ∀ n outer, (q.typeAt n).declaring = some outer → (r.typeAt n).declaring = some outer := by
    intro n outer declaring
    rcases bound.type_eq n with same | ⟨pd,member,rfl,declared,-⟩
    · rw [same,declaring]
    · have top : (q.typeAt pd.id).declaring = none := (planted.roots_new pd.id (named pd member declared)).2.2
      rw [top] at declaring
      cases declaring
  have blank : ∀ t ∈ pending, Blank home r t := by
    intro t member
    have before := planted.blank t member
    have size : r.types.size = q.types.size := bound.size_eq
    have nested : ∀ n ∈ (r.typeAt t.id).nested, n.index < r.types.size ∧ (r.typeAt n).declaring = some t.id := by
      intro n among
      rw [bound.nested_eq] at among
      obtain ⟨inside,outer⟩ := before.nested n among
      exact ⟨by rw [size]; exact inside,inner n t.id outer⟩
    have distinct : (r.typeAt t.id).nested.Nodup := by
      rw [bound.nested_eq]
      exact before.distinct
    -- Binding changes nothing of the type but where it is declared.
    obtain ⟨outer,same,declared⟩ : ∃ outer, r.typeAt t.id = { q.typeAt t.id with declaring := outer } ∧
        ∀ d, outer = some d → d.index < q.types.size := by
      rcases bound.type_eq t.id with same | ⟨-,-,-,-,outer,offered,same⟩
      · exact ⟨_,same,before.declaring⟩
      · exact ⟨some outer,same,by rintro d ⟨⟩; exact offered.inside (planted.listed listedIn listed)⟩
    have unchanged := congrArg (fun d : TypeDecl => { d with declaring := outer }) before.blank
    rw [← size] at declared
    refine ⟨?_,?_,?_,before.named,?_,?_,?_,nested,distinct,?_⟩
    all_goals rw [same]
    exacts [unchanged,before.space,before.name,before.flags,before.generics,before.home_eq,declared]
  have here : (r.moduleAt home).types = roots := by
    rw [moduleAt,bound.modules_eq]
    show (q.moduleAt home).types = roots
    rw [listedIn.here,empty,nil_append]
  have walk : r.allTypes home = pending.map PendingType.id := by
    rw [allTypes,here]
    refine planted.walk r (fun t _ _ => bound.nested_eq t) _ ?_
    rw [bound.size_eq]
    show _ ≤ q.types.size
    rw [show q.types.size = p.types.size + pending.length from planted.size_eq]
    exact Nat.le_add_left _ _
  have size : r.types.size = p.types.size + pending.length := bound.size_eq.trans planted.size_eq
  have grown : p.Extends r :=
    ⟨⟨by omega,old⟩,⟨by rw [bound.code_eq]; exact Nat.le_of_eq (congrArg Array.size planted.code_eq).symm,
      fun i _ => by rw [instructionAt,bound.code_eq,show q.code = p.code from planted.code_eq]; rfl⟩⟩
  have among : ∀ t : TypeId, p.types.size ≤ t.index → t.index < r.types.size → ∃ pd ∈ pending, pd.id = t := by
    intro t from_ inside
    have member : t ∈ pending.map PendingType.id := by
      rw [planted.ids,mem_map]
      exact ⟨t.index,by rw [mem_range'_1,← size]; exact ⟨from_,inside⟩,rfl⟩
    exact mem_map.mp member
  refine ⟨grown,⟨fun t inside => ?_,fun t inside outer declaring => ?_⟩,?_,?_,size,planted.ids,blank,walk,
    (checkNames_nodup checked).1,⟨_,listedIn.trans (.of_eq bound.modules_eq)⟩,fun t top d declaring => ?_⟩
  · by_cases before : t.index < p.types.size
    · exact grown.headers.chainEnds grounded before
    · obtain ⟨pd,member,rfl⟩ := among t (Nat.le_of_not_lt before) inside
      exact checkNames_ends checked (by rw [walk]; exact mem_map_of_mem member)
  · by_cases before : t.index < p.types.size
    · rw [old t before] at declaring
      exact Nat.lt_of_lt_of_le (grounded.inside t before outer declaring) grown.types.size_le
    · obtain ⟨pd,member,rfl⟩ := among t (Nat.le_of_not_lt before) inside
      exact (blank pd member).declaring outer declaring
  · exact (planted.listed listedIn listed).congr bound.size_eq bound.nested_eq bound.modules_eq
  · exact bound.code_eq.trans planted.code_eq
  · rw [here] at top
    rcases bound.type_eq t with same | ⟨-,-,-,-,outer,offered,same⟩
    · have root : (q.typeAt t).declaring = none := (planted.roots_new t top).2.2
      rw [same,root] at declaring
      cases declaring
    · rw [same] at declaring
      cases declaring
      exact offered.congr bound.size_eq bound.nested_eq bound.modules_eq

end Document
end Loom
