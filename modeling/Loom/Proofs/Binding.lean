import Loom.Proofs.Copies
import Loom.Proofs.Spelling

/-!
Declaring types given by name. A declaring type stands before what it declares, so when a copy is bound to the type that
it names, all names up to there are final and the right one is found. Then every copy has the full name of its original.
-/
namespace Loom

open Linkage List Program

namespace Document

variable {p q r s : Program} {home target : ModuleId} {pending : List PendingType} {t : TypeId}

theorem findNamed_first {name : String} {front back : List TypeId} (ends : s.chainEnds t = true) (named : s.fullName t = name)
    (others : ∀ u ∈ front, s.chainEnds u = true ∧ s.fullName u ≠ name) :
    findNamed s name (front ++ t :: back) = .ok (some t) := by
  induction front with
  | nil => simp [findNamed,ends,named]
  | cons u rest ih =>
    obtain ⟨known,different⟩ := others u (.head _)
    rw [cons_append,findNamed,if_neg (by simp [known]),if_neg (by simpa using different)]
    exact ih fun v member => others v (.tail _ member)

theorem checkNames_ok {seen : List String} {ts : List TypeId} (ends : ∀ t ∈ ts, s.chainEnds t = true)
    (distinct : (ts.map s.fullName).Nodup) (fresh : ∀ t ∈ ts, s.fullName t ∉ seen) : checkNames s seen ts = .ok () := by
  induction ts generalizing seen with
  | nil => rfl
  | cons t rest ih =>
    obtain ⟨apart,distinct⟩ := nodup_cons.mp distinct
    have new : s.fullName t ∉ seen := fresh t (.head _)
    rw [checkNames,if_neg (by simp [ends t (.head _)])]
    simp only
    rw [if_neg (by simpa using new)]
    refine ih (fun u member => ends u (.tail _ member)) distinct fun u member known => ?_
    rcases mem_cons.mp known with same | known
    · exact apart (same ▸ mem_map_of_mem member)
    · exact fresh u (.tail _ member) known

/-- The copies of the types in front are bound to the copies of their declaring types. -/
structure BoundUpTo (p : Program) (home : ModuleId) (q : Program) (front : List TypeId) (s : Program) : Prop where
  code_eq : s.code = q.code
  modules_eq : s.modules = q.modules
  size_eq : s.types.size = q.types.size
  frame : ∀ t, s.typeAt t = { q.typeAt t with declaring := (s.typeAt t).declaring }
  elsewhere : ∀ t : TypeId, t.index < p.types.size → s.typeAt t = q.typeAt t
  done : ∀ t ∈ front, (s.typeAt (p.copy home t)).declaring = (p.typeAt t).declaring.map (p.copy home)
  rest : ∀ t ∈ p.allTypes home, t ∉ front → (s.typeAt (p.copy home t)).declaring = (q.typeAt (p.copy home t)).declaring

theorem BoundUpTo.start (p : Program) (home : ModuleId) (q : Program) : BoundUpTo p home q [] q :=
  ⟨rfl,rfl,rfl,fun _ => rfl,fun _ _ => rfl,nofun,fun _ _ _ => rfl⟩

namespace BoundUpTo

variable {front back : List TypeId} (bound : BoundUpTo p home q front s) (copied : Copied p home target q pending)
  (orderly : Orderly p home) (split : p.allTypes home = front ++ back)
include bound copied orderly

theorem declaring_cases (member : t ∈ p.allTypes home) : (s.typeAt (p.copy home t)).declaring = none ∨
    ∃ o, (p.typeAt t).declaring = some o ∧ (s.typeAt (p.copy home t)).declaring = some (p.copy home o) := by
  have mapped : (s.typeAt (p.copy home t)).declaring = (p.typeAt t).declaring.map (p.copy home) →
      (s.typeAt (p.copy home t)).declaring = none ∨
        ∃ o, (p.typeAt t).declaring = some o ∧ (s.typeAt (p.copy home t)).declaring = some (p.copy home o) := by
    intro same
    cases declaring : (p.typeAt t).declaring with
    | none => exact .inl (by rw [same,declaring]; rfl)
    | some o => exact .inr ⟨o,rfl,by rw [same,declaring]; rfl⟩
  by_cases early : t ∈ front
  · exact mapped (bound.done t early)
  · by_cases top : t ∈ (p.moduleAt home).types
    · exact .inl ((bound.rest t member early).trans (copied.loose t top))
    · exact mapped ((bound.rest t member early).trans (copied.declaring_eq orderly member top))

theorem chainEnds (member : t ∈ p.allTypes home) : s.chainEnds (p.copy home t) = true := by
  have within : ∀ n t, t ∈ p.allTypes home → (p.allTypes home).idxOf t < n → s.chainEndsWithin n (p.copy home t) = true := by
    intro n
    induction n with
    | zero => intro t _ below; cases below
    | succ n ih =>
      intro t member below
      rw [chainEndsWithin]
      rcases bound.declaring_cases copied orderly member with none | ⟨o,declaring,copy⟩
      · rw [none]
      · have earlier := orderly.idxOf_declaring_lt member declaring
        rw [copy]
        exact ih o (orderly.declaring_mem member declaring) (by omega)
  refine within _ t member ?_
  have index := idxOf_lt_length_iff.mpr member
  have room := bound.size_eq.trans copied.size_eq
  omega

include split in
theorem fullName_eq (early : t ∈ front) : s.fullName (p.copy home t) = p.fullName t := by
  have all : ∀ n t, (p.allTypes home).idxOf t < n → t ∈ front → s.fullName (p.copy home t) = p.fullName t := by
    intro n
    induction n with
    | zero => intro t below; cases below
    | succ n ih =>
      intro t below early
      have member : t ∈ p.allTypes home := by rw [split]; exact mem_append_left _ early
      have name : (s.typeAt (p.copy home t)).name = (p.typeAt t).name := by
        rw [bound.frame]
        exact copied.name_eq member
      cases declaring : (p.typeAt t).declaring with
      | none =>
        have top : (s.typeAt (p.copy home t)).declaring = none := by rw [bound.done t early,declaring]; rfl
        have space : (s.typeAt (p.copy home t)).space = (p.typeAt t).space := by
          rw [bound.frame]
          refine (copied.space_eq member).trans ?_
          rw [spaceText,if_neg (by simp [declaring])]
        rw [fullName_of_top top,fullName_of_top declaring,name,space]
      | some o =>
        have outer : (s.typeAt (p.copy home t)).declaring = some (p.copy home o) := by
          rw [bound.done t early,declaring]
          rfl
        obtain ⟨first,later,parts⟩ := append_of_mem early
        have before : o ∈ first := orderly.before first t (later ++ back) (by rw [split,parts]; simp) o declaring
        have index := orderly.idxOf_declaring_lt member declaring
        rw [fullName_of_declaring (bound.chainEnds copied orderly member) outer,
          fullName_of_declaring (orderly.formed.grounded.ends t (orderly.inside member)) declaring,name,
          ih o (by omega) (by rw [parts]; exact mem_append_left _ before)]
  exact all _ t (Nat.lt_succ_self _) early

omit orderly in
theorem nested_eq (member : t ∈ p.allTypes home) :
    (s.typeAt (p.copy home t)).nested = (p.typeAt t).nested.map (p.copy home) := by
  rw [bound.frame]
  exact copied.nested t member

theorem withNested_copy (n : Nat) (member : t ∈ p.allTypes home) :
    s.withNested n (p.copy home t) = (p.withNested n t).map (p.copy home) := by
  induction n generalizing t with
  | zero => rfl
  | succ n ih =>
    rw [withNested,withNested,bound.nested_eq copied member,map_cons,flatMap_map,map_flatMap]
    congr 1
    refine flatMap_congr fun u nested => ih ?_
    exact mem_allTypes_of_nested orderly.formed.grounded orderly.formed.nests orderly.formed.listed member nested

theorem allTypes_eq : s.allTypes target = (p.allTypes home).map (p.copy home) := by
  have tops : (s.moduleAt target).types = (p.moduleAt home).types.map (p.copy home) := by
    rw [moduleAt,bound.modules_eq]
    exact copied.tops
  have size : p.types.size ≤ s.types.size := by
    rw [bound.size_eq,copied.size_eq]
    exact Nat.le_add_right _ _
  rw [allTypes,tops,flatMap_map,allTypes,map_flatMap]
  refine flatMap_congr fun t top => ?_
  have shallow := not_deep orderly.formed.grounded orderly.formed.nests (orderly.formed.listed.top home t top)
  rw [bound.withNested_copy copied orderly _ (mem_allTypes_of_top orderly.formed.listed top),
    withNested_stable shallow size]

theorem findNamed_eq (split : p.allTypes home = front ++ back) {o : TypeId} (early : o ∈ front) :
    findNamed s (p.fullName o) (s.allTypes target) = .ok (some (p.copy home o)) := by
  obtain ⟨first,later,parts⟩ := append_of_mem early
  have whole : p.allTypes home = first ++ o :: (later ++ back) := by rw [split,parts]; simp
  have member : ∀ u ∈ front, u ∈ p.allTypes home := fun u among => by
    rw [split]
    exact mem_append_left _ among
  rw [bound.allTypes_eq copied orderly,whole,map_append,map_cons]
  refine findNamed_first (bound.chainEnds copied orderly (member o early)) (bound.fullName_eq copied orderly split early) ?_
  intro v among
  obtain ⟨u,inFirst,rfl⟩ := mem_map.mp among
  have before : u ∈ front := by rw [parts]; exact mem_append_left _ inFirst
  refine ⟨bound.chainEnds copied orderly (member u before),?_⟩
  rw [bound.fullName_eq copied orderly split before]
  have distinct := orderly.names
  rw [whole,map_append,map_cons] at distinct
  exact fun same => (disjoint_of_nodup_append distinct) (mem_map_of_mem inFirst) (same ▸ .head _)

omit copied orderly in
theorem skip (already : (s.typeAt (p.copy home t)).declaring = (p.typeAt t).declaring.map (p.copy home)) :
    BoundUpTo p home q (front ++ [t]) s :=
  { bound with
    done := fun u member => by
      rcases mem_append.mp member with early | here
      · exact bound.done u early
      · rw [mem_singleton.mp here]
        exact already
    rest := fun u member absent => bound.rest u member fun early => absent (mem_append_left _ early) }

omit copied orderly in
theorem bind (split : p.allTypes home = front ++ t :: back) (inside : (p.copy home t).index < s.types.size)
    {o : TypeId} (declaring : (p.typeAt t).declaring = some o) :
    BoundUpTo p home q (front ++ [t]) (s.modifyType (p.copy home t) fun d => { d with declaring := some (p.copy home o) }) := by
  have here : t ∈ p.allTypes home := by rw [split]; simp
  have apart : ∀ u ∈ p.allTypes home, u ≠ t → p.copy home u ≠ p.copy home t := fun u member different same =>
    different (copy_inj member same)
  refine ⟨bound.code_eq,bound.modules_eq,by rw [← bound.size_eq]; simp,fun u => ?_,fun u old => ?_,fun u member => ?_,
    fun u member absent => ?_⟩
  · by_cases same : u = p.copy home t
    · rw [same,typeAt_modifyType_self inside,bound.frame]
    · rw [typeAt_modifyType_of_ne same,← bound.frame]
  · rw [typeAt_modifyType_of_ne,bound.elsewhere u old]
    rintro rfl
    exact absurd old (Nat.not_lt_of_le (Nat.le_add_right _ _))
  · by_cases same : u = t
    · rw [same,typeAt_modifyType_self inside,declaring]
      rfl
    · have early : u ∈ front := (mem_append.mp member).resolve_right fun at_ => same (mem_singleton.mp at_)
      rw [typeAt_modifyType_of_ne (apart u (by rw [split]; exact mem_append_left _ early) same),bound.done u early]
  · have different : u ≠ t := fun same => absent (mem_append_right _ (mem_singleton.mpr same))
    rw [typeAt_modifyType_of_ne (apart u member different)]
    exact bound.rest u member fun early => absent (mem_append_left _ early)

theorem step (split : p.allTypes home = front ++ t :: back) {pd : PendingType} (id : pd.id = p.copy home t)
    (entered : Entered p home t pd.doc) :
    ∃ s', (bindDeclaring target pd).run s = .ok (⟨⟩,s') ∧ BoundUpTo p home q (front ++ [t]) s' := by
  have member : t ∈ p.allTypes home := by rw [split]; simp
  have later : t ∉ front := by
    have distinct := orderly.nodup
    rw [split] at distinct
    exact fun early => (disjoint_of_nodup_append distinct) early (.head _)
  have kept := bound.rest t member later
  rw [bindDeclaring,entered.declaring,declaringText]
  by_cases top : t ∈ (p.moduleAt home).types
  · rw [if_pos top]
    cases declaring : (p.typeAt t).declaring with
    | none => exact ⟨s,rfl,bound.skip (by rw [kept,copied.loose t top,declaring]; rfl)⟩
    | some o =>
      have early : o ∈ front := orderly.before front t back split o declaring
      have named : p.fullName o ≠ "" := by
        have owner : o ∈ p.allTypes home := by rw [split]; exact mem_append_left _ early
        exact fullName_ne_empty (orderly.formed.types o (orderly.inside owner)).named
      have inside : (p.copy home t).index < s.types.size := by
        rw [bound.size_eq,copied.size_eq]
        exact Nat.add_lt_add_left (idxOf_lt_length_iff.mpr member) _
      refine ⟨_,?_,bound.bind split inside declaring⟩
      simp only [Option.map_some,Option.getD_some]
      rw [if_neg (by simpa using named),run_get_bind]
      refine run_bind_eq_ok.mpr ⟨some (p.copy home o),s,
        run_lift_eq_ok.mpr ⟨bound.findNamed_eq copied orderly split early,rfl⟩,?_⟩
      rw [id]
      exact run_modify_eq_ok.mpr rfl
  · rw [if_neg top]
    exact ⟨s,rfl,bound.skip (by rw [kept,copied.declaring_eq orderly member top])⟩

end BoundUpTo

theorem bindDeclaring_copied (copied : Copied p home target q pending) (orderly : Orderly p home) :
    ∃ r, (pending.forM (bindDeclaring target)).run q = .ok (⟨⟩,r) ∧ BoundUpTo p home q (p.allTypes home) r ∧
      checkNames r [] (r.allTypes target) = .ok () := by
  obtain ⟨r,ran,bound⟩ := forM_runs (f := bindDeclaring target) (s := q)
    (I := fun front s => BoundUpTo p home q ((p.allTypes home).take front.length) s) pending
    (fun front pd back s parts bound => by
      obtain ⟨t,first,later,split,length,id,entered⟩ := split_of_forall₂ copied.each parts
      have before : (p.allTypes home).take front.length = first := by rw [split,← length,take_left']; rfl
      have after : (p.allTypes home).take (front ++ [pd]).length = first ++ [t] := by
        rw [split,length_append,length_singleton,← length]
        simp [take_append,take_of_length_le]
      rw [before] at bound
      rw [after]
      exact bound.step copied orderly split id entered)
    (.start p home q)
  rw [← copied.each.length_eq,take_length] at bound
  have split : p.allTypes home = p.allTypes home ++ [] := (append_nil _).symm
  refine ⟨r,ran,bound,?_⟩
  rw [bound.allTypes_eq copied orderly]
  have names : ∀ t ∈ p.allTypes home, r.fullName (p.copy home t) = p.fullName t := fun t member =>
    bound.fullName_eq copied orderly split member
  refine checkNames_ok (fun u member => ?_) ?_ (fun _ _ => not_mem_nil)
  · obtain ⟨t,among,rfl⟩ := mem_map.mp member
    exact bound.chainEnds copied orderly among
  · rw [map_map,map_congr_left (f := r.fullName ∘ p.copy home) names]
    exact orderly.names

end Document

namespace Program

variable {p s s' : Program} {home target : ModuleId} {t : TypeId}

/-- The type in the place of another: the copy of a type of the module, and any other type itself. -/
def place (p : Program) (home : ModuleId) (t : TypeId) : TypeId := if t ∈ p.allTypes home then p.copy home t else t

/-- The copies of the types of a module have the headers of their originals, and stand in a module of their own that refers
    to the same modules. -/
structure Mirrors (p : Program) (home target : ModuleId) (s : Program) : Prop where
  size_le : p.types.size ≤ s.types.size
  inside : ∀ t ∈ p.allTypes home, (p.copy home t).index < s.types.size
  old : ∀ t : TypeId, t.index < p.types.size → s.typeAt t = p.typeAt t
  oldNames : ∀ t : TypeId, t.index < p.types.size → s.fullName t = p.fullName t
  names : ∀ t ∈ p.allTypes home, s.fullName (p.copy home t) = p.fullName t
  name : ∀ t ∈ p.allTypes home, (s.typeAt (p.copy home t)).name = (p.typeAt t).name
  space : ∀ t ∈ p.allTypes home, (s.typeAt (p.copy home t)).space = p.spaceText home t
  flags : ∀ t ∈ p.allTypes home, ∀ f, (s.typeAt (p.copy home t)).flags.has f = (p.typeAt t).flags.has f
  generics : ∀ t ∈ p.allTypes home, (s.typeAt (p.copy home t)).generics = (p.typeAt t).generics
  declaring : ∀ t ∈ p.allTypes home, (s.typeAt (p.copy home t)).declaring = (p.typeAt t).declaring.map (p.copy home)
  nested : ∀ t ∈ p.allTypes home, (s.typeAt (p.copy home t)).nested = (p.typeAt t).nested.map (p.copy home)
  tops : (s.moduleAt target).types = (p.moduleAt home).types.map (p.copy home)
  walk : s.allTypes target = (p.allTypes home).map (p.copy home)
  references : (s.moduleAt target).references = (p.moduleAt home).references
  others : ∀ h ∈ (p.moduleAt home).references, s.allTypes h = p.allTypes h

namespace Mirrors

variable (mirrors : Mirrors p home target s)
include mirrors

theorem keep (agree : Agree TypeDecl.header s s') (modules : s'.modules = s.modules)
    (old : ∀ t : TypeId, t.index < p.types.size → s'.typeAt t = s.typeAt t) : Mirrors p home target s' := by
  have walks := agree.allTypes_eq modules
  exact {
    size_le := by rw [agree.size_eq]; exact mirrors.size_le
    inside := fun t member => by rw [agree.size_eq]; exact mirrors.inside t member
    old := fun t inside => (old t inside).trans (mirrors.old t inside)
    oldNames := fun t inside => by rw [agree.fullName_eq]; exact mirrors.oldNames t inside
    names := fun t member => by rw [agree.fullName_eq]; exact mirrors.names t member
    name := fun t member => (agree.name_eq _).trans (mirrors.name t member)
    space := fun t member => (agree.space_eq _).trans (mirrors.space t member)
    flags := fun t member f => by
      rw [show (s'.typeAt (p.copy home t)).flags = _ from (agree.map TypeDecl.flags).view_eq _]
      exact mirrors.flags t member f
    generics := fun t member => (agree.generics_eq _).trans (mirrors.generics t member)
    declaring := fun t member => (agree.declaring_eq _).trans (mirrors.declaring t member)
    nested := fun t member => (agree.nested_eq _).trans (mirrors.nested t member)
    tops := by rw [moduleAt,modules]; exact mirrors.tops
    walk := by rw [walks,mirrors.walk]
    references := by rw [moduleAt,modules]; exact mirrors.references
    others := fun h member => by rw [walks,mirrors.others h member] }

theorem findOwnType?_eq (name : String) : s.findOwnType? target name = (p.findOwnType? home name).map (p.copy home) := by
  rw [findOwnType?,findOwnType?,mirrors.walk,find?_map]
  congr 1
  refine find?_congr fun t member => ?_
  rw [Function.comp_apply,mirrors.names t member]

theorem findType?_eq (listed : p.Listed) (name : String) :
    s.findType? target name = (p.findType? home name).map (p.place home) := by
  have others : (s.moduleAt target).references.findSome? (s.findOwnType? · name) =
      (p.moduleAt home).references.findSome? (p.findOwnType? · name) := by
    rw [mirrors.references]
    refine findSome?_congr fun h member => ?_
    rw [findOwnType?,findOwnType?,mirrors.others h member]
    exact find?_congr fun t among => by rw [mirrors.oldNames t (listed.allTypes among)]
  rw [findType?,findType?,mirrors.findOwnType?_eq,others]
  cases own : p.findOwnType? home name with
  | some d =>
    have member : d ∈ p.allTypes home := mem_of_find?_eq_some own
    simp [place,member]
  | none =>
    rw [Option.map_none,Option.none_or]
    cases found : (p.moduleAt home).references.findSome? (p.findOwnType? · name) with
    | none => rfl
    | some d =>
      have absent : d ∉ p.allTypes home := by
        obtain ⟨h,-,among⟩ := exists_of_findSome?_eq_some found
        intro member
        have different := find?_eq_none.mp own d member
        exact different (by simp [fullName_of_findOwnType? among])
      simp [place,absent]

theorem fullName_place (inside : t.index < p.types.size) : s.fullName (p.place home t) = p.fullName t := by
  rw [place]
  split
  · next member => exact mirrors.names t member
  · exact mirrors.oldNames t inside

theorem generics_place (inside : t.index < p.types.size) :
    (s.typeAt (p.place home t)).generics = (p.typeAt t).generics := by
  rw [place]
  split
  · next member => exact mirrors.generics t member
  · rw [mirrors.old t inside]

end Mirrors
end Program

namespace Document

variable {p q r s : Program} {home target : ModuleId} {pending : List PendingType}

theorem BoundUpTo.mirrors (bound : BoundUpTo p home q (p.allTypes home) r) (copied : Copied p home target q pending)
    (orderly : Orderly p home) (references : (q.moduleAt target).references = (p.moduleAt home).references)
    (others : ∀ h ∈ (p.moduleAt home).references, (q.moduleAt h).types = (p.moduleAt h).types) :
    Mirrors p home target r := by
  have split : p.allTypes home = p.allTypes home ++ [] := (append_nil _).symm
  have size : r.types.size = p.types.size + (p.allTypes home).length := bound.size_eq.trans copied.size_eq
  have old : ∀ t : TypeId, t.index < p.types.size → r.typeAt t = p.typeAt t := fun t inside =>
    (bound.elsewhere t inside).trans (copied.old t inside)
  have kept : Keeps TypeDecl.header p r := ⟨by omega,fun t inside => by rw [old t inside]⟩
  exact {
    size_le := by omega
    inside := fun t member => by
      rw [size]
      exact Nat.add_lt_add_left (idxOf_lt_length_iff.mpr member) _
    old := old
    oldNames := fun t inside => kept.fullName_eq orderly.formed.grounded inside
    names := fun t member => bound.fullName_eq copied orderly split member
    name := fun t member => by rw [bound.frame]; exact copied.name_eq member
    space := fun t member => by rw [bound.frame]; exact copied.space_eq member
    flags := fun t member f => by
      obtain ⟨pd,among,id,entered⟩ := copied.pending_of_mem member
      obtain ⟨flags,read,same⟩ := TypeFlags.read_names pd.doc.name (p.typeAt t).flags
      have known := (copied.blank pd among).flags
      rw [entered.flags,read,id] at known
      cases known
      rw [bound.frame]
      exact same f
    generics := fun t member => by
      obtain ⟨pd,among,id,entered⟩ := copied.pending_of_mem member
      have known := (copied.blank pd among).generics
      rw [id,entered.generics] at known
      rw [bound.frame]
      exact known
    declaring := bound.done
    nested := fun t member => bound.nested_eq copied member
    tops := by rw [moduleAt,bound.modules_eq]; exact copied.tops
    walk := bound.allTypes_eq copied orderly
    references := by rw [moduleAt,bound.modules_eq]; exact references
    others := fun h member => by
      rw [allTypes,moduleAt,bound.modules_eq]
      show (q.moduleAt h).types.flatMap _ = _
      rw [others h member]
      refine flatMap_congr fun t listed => ?_
      exact withNested_grow orderly.formed.grounded orderly.formed.nests (fun u inside => by rw [old u inside])
        (by omega) (orderly.formed.listed.top h t listed) }

/-- The types of a written module are read back: they are declared, bound and named as they were. -/
theorem types_read (orderly : Orderly p home) (known : ∀ h ∈ (p.moduleAt home).references, h.index < p.modules.size)
    {m : ModuleDecl} (empty : m.types = []) (references : m.references = (p.moduleAt home).references) :
    ∃ pending q r, (declareTypes (p.addModule m).1
        ((p.moduleAt home).types.map fun t => some (p.buildTopLevel home t))).run (p.addModule m).2 = .ok (pending,q) ∧
      (pending.forM (bindDeclaring (p.addModule m).1)).run q = .ok (⟨⟩,r) ∧
      checkNames r [] (r.allTypes (p.addModule m).1) = .ok () ∧ Mirrors p home (p.addModule m).1 r ∧
      Forall₂ (fun t pd => pd.id = p.copy home t ∧ Entered p home t pd.doc) (p.allTypes home) pending ∧
      r.moduleAt (p.addModule m).1 = { m with types := (p.moduleAt home).types.map (p.copy home) } := by
  have new := moduleAt_addModule_new (p := p) m
  obtain ⟨pending,q,declared,copied,-,listed⟩ := declareTypes_copied (p.addModule m).1 orderly
    (s := (p.addModule m).2) rfl (by simp [addModule]) (by rw [new,empty])
  obtain ⟨r,ran,bound,checked⟩ := bindDeclaring_copied copied orderly
  have here : q.moduleAt (p.addModule m).1 = { m with types := (p.moduleAt home).types.map (p.copy home) } := by
    rw [listed.here,new,empty,nil_append]
  refine ⟨pending,q,r,declared,ran,checked,bound.mirrors copied orderly ?_ fun h member => ?_,copied.each,?_⟩
  · rw [here]
    exact references
  · have apart : h ≠ (p.addModule m).1 := by
      rintro rfl
      exact Nat.lt_irrefl _ (known _ member)
    rw [listed.elsewhere h apart,moduleAt_addModule_old m apart]
  · rw [moduleAt,bound.modules_eq]
    exact here

end Document
end Loom
