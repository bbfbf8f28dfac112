import Loom.Proofs.Origins
import Loom.Proofs.Rebuilding

/-!
Written modules. A module that comes from a document with plain names can be written and read again after any passes
over it, if its names tell its types apart and its types stand in an order in which they can be declared.
-/
namespace Loom

open List Program TypeDecl
open Relation (TransGen)
open Document (link_module link_place link_wellFormed)

variable {n : Nat} {home : ModuleId} {o p q : Program} {references : List ModuleId} {t : TypeId}

namespace Program

theorem typeRefs_forall {P : TypeRef → Prop} (base : P (p.typeAt t).base) (interfaces : ∀ u ∈ (p.typeAt t).interfaces, P u)
    (fields : ∀ f ∈ (p.typeAt t).fields, P f.type)
    (attributes : ∀ a ∈ (p.typeAt t).attributes, P (.decl a.type) ∧ ∀ u, .type u ∈ a.args → P u)
    (signatures : ∀ m : MethodId, m.owner = t → P (p.methodAt m).returns ∧ ∀ u ∈ (p.methodAt m).paramTypes, P u)
    (bodies : ∀ m b, m.owner = t → (p.methodAt m).body = some b →
      (∀ u ∈ b.locals, P u) ∧ ∀ i ∈ b.code, ∀ u ∈ (p.instructionAt i).operand.refs, P u) : ∀ u ∈ p.typeRefs t, P u := by
  intro u member
  simp only [typeRefs,mem_append,mem_cons,mem_map,mem_flatMap,mem_filterMap] at member
  rcases member with (((rfl | among) | ⟨f,among,rfl⟩) | ⟨a,among,rfl | ⟨arg,listed,same⟩⟩) | ⟨d,among,inner⟩
  · exact base
  · exact interfaces u among
  · exact fields f among
  · exact (attributes a among).1
  · split at same
    · cases same
      exact (attributes a among).2 _ listed
    · cases same
  · rw [← methods_eq] at among
    obtain ⟨m,owned,rfl⟩ := mem_map.mp among
    have owner := (mem_methodsOf.mp owned).1
    rw [methodRefs] at inner
    rcases mem_append.mp inner with signature | body
    · rcases mem_cons.mp signature with rfl | param
      · exact (signatures m owner).1
      · exact (signatures m owner).2 u param
    · cases filled : (p.methodAt m).body with
      | none =>
        rw [filled] at body
        cases body
      | some b =>
        rw [filled] at body
        obtain ⟨locals,code⟩ := bodies m b owner filled
        rcases mem_append.mp body with listed | operand
        · exact locals u listed
        · obtain ⟨i,stands,inside⟩ := mem_flatMap.mp operand
          exact code i stands u inside

theorem MethodRefFormed.declares {scope : List GenericParam} {r : MethodRef} {d : TypeId} (formed : p.MethodRefFormed scope r d) :
    ∀ u ∈ r.declaring :: r.returns :: r.params, p.Declares u := by
  refine forall_mem_cons.mpr ⟨formed.declaring.declares,forall_mem_cons.mpr ⟨formed.returns.declares,?_⟩⟩
  exact fun u member => (formed.params u member).declares

theorem OperandFormed.declares {scope : List GenericParam} {b : Body} {x : Operand} (formed : p.OperandFormed scope b x) :
    ∀ u ∈ x.refs, p.Declares u := by
  cases x with
  | type t => exact forall_mem_singleton.mpr (Formed.declares formed)
  | method m =>
    cases m with
    | plain r =>
      obtain ⟨d,reference⟩ := formed
      exact reference.declares
    | applied r args =>
      obtain ⟨⟨d,reference⟩,-,each⟩ := formed
      show ∀ u ∈ (r.declaring :: r.returns :: r.params) ++ args, p.Declares u
      exact forall_mem_append.mpr ⟨reference.declares,fun u arg => (each u arg).declares⟩
  | field f =>
    obtain ⟨d,reference⟩ := formed
    exact forall_mem_cons.mpr ⟨reference.declaring.declares,forall_mem_singleton.mpr reference.fieldType.declares⟩
  | _ => exact forall_mem_nil _

theorem WellFormed.declares_refs (formed : p.WellFormed) (inside : t.index < p.types.size) :
    ∀ u ∈ p.typeRefs t, p.Declares u := by
  have members := (formed.types t inside).members
  refine typeRefs_forall members.base.declares (fun u member => (members.interfaces u member).declares)
    (fun f member => (members.fields f member).declares) (fun a member => ?_) (fun m owner => ?_) (fun m b owner body => ?_)
  · obtain ⟨type,args⟩ := members.attributes a member
    exact ⟨TypeRef.mentions_decl type,fun u among => (args u among).declares⟩
  · obtain ⟨returns,params⟩ := members.methods m owner
    exact ⟨returns.declares,fun u member => (params u member).declares⟩
  · have whole := formed.body body
    exact ⟨fun u member => (whole.locals u member).declares,fun i member => (whole.operands i member).declares⟩

theorem Traced.mentions_refs {K : TypeId → Prop} (traced : p.Traced n K) (new : n ≤ t.index) :
    ∀ u ∈ p.typeRefs t, u.Mentions K := by
  have type := traced.types t new
  refine typeRefs_forall type.base type.interfaces (fun f member => (type.fields f member).type) (fun a member => ?_)
    (fun m owner => ?_) (fun m b owner body => ?_)
  · have marker := type.attributes a member
    exact ⟨TypeRef.mentions_decl marker.type,marker.types⟩
  · have method := traced.method (owner ▸ new : n ≤ m.owner.index)
    exact ⟨method.returns,method.params⟩
  · have whole := traced.bodies m b (owner ▸ new) body
    exact ⟨whole.locals,fun i member => (whole.code i member).mentions⟩

def occurring (p : Program) (home : ModuleId) : List TypeRef :=
  ((p.allTypes home).flatMap p.typeRefs).flatMap TypeRef.parts

theorem mem_occurring {u v : TypeRef} (member : t ∈ p.allTypes home) (among : u ∈ p.typeRefs t) (within : v ∈ u.parts) :
    v ∈ p.occurring home :=
  mem_flatMap.mpr ⟨u,mem_flatMap.mpr ⟨t,member,among⟩,within⟩

/-- Names tell the types of a module apart, and its types can be declared in their order. -/
structure Unmistakable (p : Program) (home : ModuleId) : Prop where
  names : ((p.allTypes home).map p.fullName).Nodup
  applied : ∀ d args, .applied d args ∈ p.occurring home → p.findType? home ((TypeRef.applied d args).text p) = none
  /-- No type of the module has the name of another one that the module mentions. -/
  unshadowed : ∀ v ∈ p.occurring home, ∀ d, v.element? = some d → '$' ∈ (p.fullName d).toList →
    ∀ e ∈ p.allTypes home, p.fullName e = p.fullName d → e = d
  declaring : ∀ t ∈ p.allTypes home, ∀ d, (p.typeAt t).declaring = some d → d ∈ p.allTypes home
  /-- The listed types on the declaring chain of a listed type come before it. -/
  order : ∀ front t back, (p.moduleAt home).types = front ++ t :: back →
    ∀ r ∈ (p.moduleAt home).types, TransGen p.Upward t r → r ∈ front
  filled : ∀ m b, m.owner ∈ p.allTypes home → (p.methodAt m).body = some b → b.locals ≠ [] ∨ b.code ≠ []

/-- A machine word can count the parameters and hold the numbers of a module. -/
structure Sized (p : Program) (home : ModuleId) : Prop where
  generics : ∀ t : TypeId, ((p.typeAt t).generics.length : Int) < arityLimit
  methodGenerics : ∀ m : MethodId, ((p.methodAt m).generics.length : Int) < arityLimit
  numbers : ∀ m b, m.owner ∈ p.allTypes home → (p.methodAt m).body = some b → ∀ i ∈ b.code, ∀ k : Int,
    (p.instructionAt i).operand = .int k → -0x8000000000000000 ≤ k ∧ k < 0x8000000000000000

theorem Unmistakable.orderly (unmistakable : p.Unmistakable home) (formed : p.WellFormed) : Orderly p home := by
  refine ⟨formed,unmistakable.names,fun front t back split d declaring => ?_⟩
  have distinct : (p.allTypes home).Nodup := .of_map _ unmistakable.names
  have member : t ∈ p.allTypes home := by
    rw [split]
    exact mem_append_right _ (.head _)
  rw [split] at distinct
  refine mem_front_of_sublist distinct (split ▸ ?_)
  rcases sublist_allTypes_cases member with top | ⟨u,before,nested⟩
  · -- The declaring type stands below a listed type, and that one comes before.
    obtain ⟨r,listed,below⟩ := mem_flatMap.mp (unmistakable.declaring t member d declaring)
    obtain ⟨early,late,cut⟩ := append_of_mem top
    have up := upward_of_mem_withNested formed.nests (formed.listed.top home r listed) below
    have first : p.Upward t d := ⟨formed.listed.allTypes member,declaring⟩
    have inFront := unmistakable.order early t late cut r listed (TransGen.head' first up)
    rw [allTypes,cut,flatMap_append,flatMap_cons]
    have outer : [d].Sublist (early.flatMap (p.withNested p.types.size)) :=
      singleton_sublist.mpr (mem_flatMap.mpr ⟨r,inFront,below⟩)
    have inner : [t].Sublist (p.withNested p.types.size t) := by
      obtain ⟨k,size⟩ : ∃ k, p.types.size = k + 1 :=
        ⟨p.types.size - 1,by have := formed.listed.allTypes member; omega⟩
      rw [size,withNested]
      exact (nil_sublist _).cons_cons t
    exact outer.append (inner.trans (sublist_append_left _ _))
  · have within := formed.listed.allTypes (before.subset (.head _))
    obtain ⟨-,declared⟩ := formed.nests u within t nested
    rw [declared] at declaring
    cases declaring
    exact before

end Program

theorem Program.WellFormed.findOwnType?_kept (formed : o.WellFormed) (kept : Keeps header o p) {h : ModuleId}
    (same : p.moduleAt h = o.moduleAt h) (name : String) : p.findOwnType? h name = o.findOwnType? h name := by
  rw [findOwnType?,findOwnType?,allTypes_kept formed.grounded formed.nests formed.listed kept same]
  refine find?_congr fun t among => ?_
  rw [kept.fullName_eq formed.grounded (formed.listed.allTypes among)]

namespace Program.Lineage

variable (lineage : o.Lineage n (o.Nameable home) home p) (formed : o.WellFormed)
  (own : ∀ t, t ∈ o.allTypes home ↔ n ≤ t.index ∧ t.index < o.types.size)
  (others : ∀ h ∈ (o.moduleAt home).references, h ≠ home)
include lineage

include formed others

theorem findType?_of_none {name : String} (absent : p.findOwnType? home name = none) :
    p.findType? home name = (o.moduleAt home).references.findSome? (o.findOwnType? · name) := by
  obtain ⟨added,modules⟩ := lineage.modules
  rw [findType?,absent,Option.none_or,modules.here]
  exact findSome?_congr fun h member =>
    formed.findOwnType?_kept lineage.kept.header (modules.elsewhere h (others h member)) name

include own

theorem nameable (unmistakable : p.Unmistakable home) {v : TypeRef} {d : TypeId} (occurs : v ∈ p.occurring home)
    (element : v.element? = some d) (known : Known n (o.Nameable home) d) (inside : d.index < p.types.size) :
    p.Nameable home d := by
  by_cases new : n ≤ d.index
  · have member := (lineage.listed d).mpr ⟨new,inside⟩
    obtain ⟨e,found⟩ : ∃ e, p.findOwnType? home (p.fullName d) = some e := by
      refine Option.isSome_iff_exists.mp (find?_isSome.mpr ⟨d,member,?_⟩)
      simp
    have same : e = d := inj_on_of_nodup_map unmistakable.names (mem_of_find?_eq_some found) member
      (fullName_of_findOwnType? found)
    rw [Nameable,findType?,found,same,Option.some_or]
  · have found : o.Nameable home d := known.resolve_left new
    have old := formed.listed.findType? found
    have name := lineage.kept.header.fullName_eq formed.grounded old
    have foreign : d ∉ o.allTypes home := fun member => new ((own d).mp member).1
    have missing : o.findOwnType? home (o.fullName d) = none := by
      cases first : o.findOwnType? home (o.fullName d) with
      | none => rfl
      | some e =>
        rw [Nameable,findType?,first,Option.some_or] at found
        cases found
        exact absurd (mem_of_find?_eq_some first) foreign
    have absent : p.findOwnType? home (p.fullName d) = none := by
      refine find?_eq_none.mpr fun e member same => new ?_
      have same : p.fullName e = p.fullName d := by simpa using same
      have own_e := (lineage.listed e).mp member
      by_cases mark : '$' ∈ (p.fullName d).toList
      · exact unmistakable.unshadowed v occurs d element mark e member same ▸ own_e.1
      · -- A name without a mark was there from the start, and took precedence then.
        have early : e.index < o.types.size := by
          refine Nat.lt_of_not_le fun late => mark ?_
          rw [← same]
          exact lineage.marked e late own_e.2
        have clash := find?_eq_none.mp missing e ((own e).mpr ⟨own_e.1,early⟩)
        rw [← lineage.kept.header.fullName_eq formed.grounded early,same,name] at clash
        exact absurd (beq_self_eq_true _) clash
    rw [Nameable,lineage.findType?_of_none formed others absent,name]
    rw [Nameable,findType?,missing,Option.none_or] at found
    exact found

end Program.Lineage

theorem Operand.Worded.plain {x : Operand} (worded : x.Worded)
    (numbers : ∀ k : Int, x = .int k → -0x8000000000000000 ≤ k ∧ k < 0x8000000000000000) : x.Plain := by
  cases x with
  | int k => exact numbers k rfl
  | _ => exact worded

theorem Document.length_of_readVersion {doc : Document} {v : Version} (read : readVersion doc = .ok (some v)) :
    v.octets.length = 16 := by
  rw [readVersion] at read
  split at read
  · cases read
  · split at read
    · next parsed =>
      cases read
      exact Version.length_of_parse parsed
    · cases read

namespace Workbench

variable {doc : Document} {config : Config} {w : Workbench} (formed : p.WellFormed) (library : p.Library references)
  (plain : doc.isPlain = true) (linked : doc.link p references = .ok (home,q))
  (delimiter : config.delimiter = "$specialized$")
  (woven : Relation.ReflTransGen Weave { program := q, home, config } w)
include formed library plain linked delimiter woven

theorem tracked_of_link : Tracked p.types.size (q.Nameable home) home q w := by
  obtain ⟨lineage,foreign⟩ := Document.link_lineage formed library plain linked
  have whole := (link_wellFormed formed linked).1
  obtain ⟨rfl,size⟩ := link_place formed linked
  induction woven with
  | refl =>
    have place : p.modules.size < q.modules.size := by omega
    exact ⟨sound_start whole place,rfl,delimiter,lineage,by rintro s ⟨⟩,by rintro v ⟨⟩,by rintro r ⟨⟩⟩
  | tail _ step tracked => exact step.tracked whole.grounded foreign tracked

theorem legible_of_link (unmistakable : w.program.Unmistakable home) (sized : w.program.Sized home) :
    Legible w.program home ∧ (w.program.moduleAt home).references = references := by
  have tracked := tracked_of_link formed library plain linked delimiter woven
  have sound := tracked.sound.formed
  have lineage := tracked.lineage
  obtain ⟨start,foreign⟩ := Document.link_lineage formed library plain linked
  obtain ⟨whole,grown⟩ := link_wellFormed formed linked
  obtain ⟨named,⟨version,roots,versionRead,here⟩,elsewhere⟩ := link_module formed linked
  obtain ⟨rfl,size⟩ := link_place formed linked
  obtain ⟨added,modules⟩ := lineage.modules
  have others : ∀ h ∈ (q.moduleAt ⟨p.modules.size⟩).references, h ≠ ⟨p.modules.size⟩ := by
    rw [here]
    rintro h member rfl
    exact absurd (library.declared _ member) (Nat.lt_irrefl _)
  have module := modules.here
  rw [here] at module
  have inside (t : TypeId) (member : t ∈ w.program.allTypes ⟨p.modules.size⟩) :
      p.types.size ≤ t.index ∧ t.index < w.program.types.size := (lineage.listed t).mp member
  have mentioned (t : TypeId) (member : t ∈ w.program.allTypes ⟨p.modules.size⟩) (u : TypeRef) (among : u ∈ w.program.typeRefs t)
      (v : TypeRef) (within : v ∈ u.parts) (d : TypeId) (element : v.element? = some d) :
      Known p.types.size (q.Nameable ⟨p.modules.size⟩) d ∧ d.index < w.program.types.size :=
    ⟨lineage.traced.mentions_refs (inside t member).1 u among v within d element,
      sound.declares_refs (inside t member).2 u among v within d element⟩
  refine ⟨{
    orderly := unmistakable.orderly sound
    references := ?_
    named := ?_
    version := ?_
    void := ?_
    clear := fun t member u among => ⟨?_,?_,?_⟩
    generics := sized.generics
    methodGenerics := sized.methodGenerics
    constructors := fun m member => (lineage.traced.method (inside _ member).1).special
    numbers := fun t member a among => ((lineage.traced.types t (inside t member).1).attributes a among).numbers
    filled := unmistakable.filled
    plain := ?_ },by rw [module]⟩
  · rw [module]
    intro h member
    have old := library.declared h member
    rw [modules.size_eq]
    omega
  · rw [module]
    exact named
  · rw [module]
    rintro v rfl
    exact Document.length_of_readVersion versionRead
  · cases first : w.program.findOwnType? ⟨p.modules.size⟩ "System.Void" with
    | some d => rw [findType?,first,Option.some_or,Option.isSome_some]
    | none =>
      obtain ⟨h,member,found⟩ := library.void
      have different : h ≠ ⟨p.modules.size⟩ := others h (by rw [here]; exact member)
      rw [lineage.findType?_of_none whole others first,here,findSome?_isSome_iff]
      exact ⟨h,member,by rw [formed.findOwnType?_kept grown.headers (elsewhere h different)]; exact found⟩
  · intro v within d element
    obtain ⟨known,declared⟩ := mentioned t member u among v within d element
    exact lineage.title_of_known whole.grounded foreign known declared
  · intro v within d element
    obtain ⟨known,declared⟩ := mentioned t member u among v within d element
    exact lineage.nameable whole start.listed others unmistakable (mem_occurring member among within) element known declared
  · exact fun d args within => unmistakable.applied d args (mem_occurring member among within)
  · intro m b member body i among
    have traced := (lineage.traced.bodies m b (inside _ member).1 body).code i among
    exact ⟨traced.known,traced.worded.plain (sized.numbers m b member body i among)⟩

theorem library_of_link : w.program.Library (home :: references) := by
  have tracked := tracked_of_link formed library plain linked delimiter woven
  have lineage := tracked.lineage
  obtain ⟨whole,grown⟩ := link_wellFormed formed linked
  obtain ⟨-,-,elsewhere⟩ := link_module formed linked
  obtain ⟨rfl,size⟩ := link_place formed linked
  obtain ⟨added,modules⟩ := lineage.modules
  have kept : Keeps signature p w.program := grown.signatures.trans lineage.kept
  have same (h : ModuleId) (member : h ∈ references) : w.program.moduleAt h = p.moduleAt h := by
    have different : h ≠ ⟨p.modules.size⟩ := by
      rintro rfl
      exact absurd (library.declared _ member) (Nat.lt_irrefl _)
    rw [modules.elsewhere h different,elsewhere h different]
  have types (h : ModuleId) (member : h ∈ references) : w.program.allTypes h = p.allTypes h :=
    allTypes_kept formed.grounded formed.nests formed.listed kept.header (same h member)
  have inside (h : ModuleId) (t : TypeId) (member : t ∈ p.allTypes h) : t.index < p.types.size := formed.listed.allTypes member
  refine ⟨forall_mem_cons.mpr ⟨?_,fun h member => ?_⟩,?_,forall_mem_cons.mpr ⟨fun t member => ?_,?_⟩,
    forall_mem_cons.mpr ⟨fun t member m among => ?_,?_⟩,forall_mem_cons.mpr ⟨fun t member f among => ?_,?_⟩⟩
  · show p.modules.size < _
    rw [modules.size_eq]
    omega
  · have old := library.declared h member
    rw [modules.size_eq]
    omega
  · obtain ⟨h,member,found⟩ := library.void
    exact ⟨h,.tail _ member,by rw [formed.findOwnType?_kept kept.header (same h member)]; exact found⟩
  · obtain ⟨new,within⟩ := (lineage.listed t).mp member
    exact lineage.titles t new within
  · intro h member t among
    rw [types h member] at among
    rw [kept.header.fullName_eq formed.grounded (inside h t among)]
    exact library.titled h member t among
  · exact ((lineage.traced.types t ((lineage.listed t).mp member).1).methods m among).worded
  · intro h member t among m listed
    rw [types h member] at among
    have signatures := kept.view_eq t (inside h t among)
    have alike : m.signature ∈ (p.typeAt t).signature.methods := signatures ▸ mem_map_of_mem listed
    obtain ⟨k,before,name⟩ := mem_map.mp alike
    exact congrArg MethodDecl.name name ▸ library.methods h member t among k before
  · exact ((lineage.traced.types t ((lineage.listed t).mp member).1).fields f among).worded
  · intro h member t among f listed
    rw [types h member] at among
    have fields : (w.program.typeAt t).fields = (p.typeAt t).fields :=
      (kept.map fields).view_eq t (inside h t among)
    rw [fields] at listed
    exact library.fields h member t among f listed

end Workbench

/-- A module that comes from a document with plain names, linked against modules whose names are plain, is written after any
    passes over it as a document that gives a module with the same document, if it is unmistakable. -/
theorem Workbench.woven_module_relinks {doc : Document} {config : Config} {w : Workbench} (formed : p.WellFormed)
    (library : p.Library references) (plain : doc.isPlain = true) (linked : doc.link p references = .ok (home,q))
    (delimiter : config.delimiter = "$specialized$")
    (woven : Relation.ReflTransGen Weave { program := q, home, config } w)
    (unmistakable : w.program.Unmistakable home) (sized : w.program.Sized home) :
    ∃ d, w.program.build? home = some d ∧
      ∃ target r, d.link w.program references = .ok (target,r) ∧ r.build? target = some d := by
  obtain ⟨legible,same⟩ := legible_of_link formed library plain linked delimiter woven unmistakable sized
  exact same ▸ Document.relinks legible

namespace Program

theorem core_words : ∀ i < core.types.size, Text.isWord (core.typeAt ⟨i⟩).space = true ∧
    Text.isWord (core.typeAt ⟨i⟩).name = true ∧ (core.typeAt ⟨i⟩).methods.all (fun m => Text.isWord m.name) = true := by
  decide +kernel

theorem core_library : core.Library [CoreLibrary.home] := by
  have inside (t : TypeId) (member : t ∈ core.allTypes CoreLibrary.home) : t.index < core.types.size :=
    core_wellFormed.listed.allTypes member
  refine ⟨by decide,⟨CoreLibrary.home,.head _,by decide +kernel⟩,forall_mem_singleton.mpr fun t member => ?_,
    forall_mem_singleton.mpr fun t member m among => ?_,forall_mem_singleton.mpr fun t member f among => ?_⟩
  · obtain ⟨space,name,-⟩ := core_words t.index (inside t member)
    obtain ⟨named,top,-⟩ := core_types t.index (inside t member)
    refine title_of_worded (core_wellFormed.grounded.ends t (inside t member)) space name named fun d declaring => ?_
    rw [show (core.typeAt t).declaring = none from top] at declaring
    cases declaring
  · exact all_eq_true.mp (core_words t.index (inside t member)).2.2 m among
  · have none := (core_types t.index (inside t member)).2.2.2.1
    rw [isEmpty_iff.mp none] at among
    cases among

/-- The listed types that have a declaring type come right after it or later, and it is at the top. -/
def followOuter (p : Program) : List TypeId → List TypeId → Bool
  | _, [] => true
  | seen, t :: rest =>
    (match (p.typeAt t).declaring with
      | some d => seen.contains d && (p.typeAt d).declaring.isNone
      | none => true) && p.followOuter (t :: seen) rest

theorem mem_front_of_followOuter {seen types : List TypeId} (follow : p.followOuter seen types = true) {front back : List TypeId}
    (split : types = front ++ t :: back) {r : TypeId} (up : TransGen p.Upward t r) : r ∈ seen ∨ r ∈ front := by
  induction front generalizing seen types with
  | nil =>
    subst split
    rw [nil_append,followOuter,Bool.and_eq_true] at follow
    obtain ⟨d,step,rest⟩ := TransGen.head'_iff.mp up
    simp only [step.2,Bool.and_eq_true,contains_iff_mem,Option.isNone_iff_eq_none] at follow
    rcases Relation.ReflTransGen.cases_head rest with rfl | ⟨e,further,-⟩
    · exact .inl follow.1.1
    · cases follow.1.2.symm.trans further.2
  | cons u front ih =>
    subst split
    rw [cons_append,followOuter,Bool.and_eq_true] at follow
    rcases ih follow.2 rfl with early | late
    · rcases mem_cons.mp early with rfl | before
      · exact .inr (.head _)
      · exact .inl before
    · exact .inr (.tail _ late)

/-- A test for modules whose declaring chains are short. -/
def isUnmistakable (p : Program) (home : ModuleId) : Bool :=
  decide ((p.allTypes home).map p.fullName).Nodup &&
    (p.occurring home).all (fun v => match v with
      | .applied d args => (p.findType? home ((TypeRef.applied d args).text p)).isNone
      | _ => true) &&
    (p.occurring home).all (fun v => match v.element? with
      | some d => (p.allTypes home).all fun e => p.fullName e != p.fullName d || e == d
      | none => true) &&
    (p.allTypes home).all (fun t => match (p.typeAt t).declaring with
      | some d => (p.allTypes home).contains d
      | none => true) &&
    p.followOuter [] (p.moduleAt home).types &&
    (p.allTypes home).all fun t => (p.typeAt t).methods.all fun m => match m.body with
      | some b => !b.locals.isEmpty || !b.code.isEmpty
      | none => true

theorem unmistakable_of_test (passed : p.isUnmistakable home = true) : p.Unmistakable home := by
  simp only [isUnmistakable,Bool.and_eq_true,decide_eq_true_eq,all_eq_true] at passed
  obtain ⟨⟨⟨⟨⟨names,applied⟩,unshadowed⟩,declaring⟩,follow⟩,filled⟩ := passed
  refine ⟨names,fun d args occurs => ?_,fun v occurs d element _ e member same => ?_,fun t member d outer => ?_,
    fun front t back split r _ up => ?_,fun m b member body => ?_⟩
  · simpa using applied _ occurs
  · have each := unshadowed v occurs
    simp only [element,all_eq_true,Bool.or_eq_true,bne_iff_ne,beq_iff_eq] at each
    exact (each e member).resolve_left fun different => different same
  · simpa [outer] using declaring t member
  · exact (mem_front_of_followOuter follow split up).resolve_left not_mem_nil
  · rw [methodAt] at body
    cases at_ : (p.typeAt m.owner).methods[m.position]? with
    | none =>
      rw [at_] at body
      cases body
    | some d =>
      rw [at_,Option.getD_some] at body
      have each := filled m.owner member d (mem_of_getElem? at_)
      simpa [body] using each

def isSized (p : Program) : Bool :=
  p.types.toList.all (fun d => decide ((d.generics.length : Int) < arityLimit) &&
    d.methods.all fun m => decide ((m.generics.length : Int) < arityLimit)) &&
  p.code.toList.all fun i => match i.operand with
    | .int k => decide (-0x8000000000000000 ≤ k) && decide (k < 0x8000000000000000)
    | _ => true

theorem sized_of_test (passed : p.isSized = true) (home : ModuleId) : p.Sized home := by
  simp only [isSized,Bool.and_eq_true,decide_eq_true_eq,all_eq_true] at passed
  obtain ⟨types,code⟩ := passed
  have declared (t : TypeId) : p.typeAt t = default ∨ p.typeAt t ∈ p.types.toList := by
    rw [typeAt]
    cases at_ : p.types[t.index]? with
    | none => exact .inl rfl
    | some d => exact .inr (Array.mem_toList_iff.mpr (Array.mem_of_getElem? at_))
  refine ⟨fun t => ?_,fun m => ?_,fun m b _ _ i _ k operand => ?_⟩
  · rcases declared t with absent | among
    · rw [absent]
      decide
    · exact (types _ among).1
  · rw [methodAt]
    cases at_ : (p.typeAt m.owner).methods[m.position]? with
    | none => decide
    | some d =>
      rcases declared m.owner with absent | among
      · rw [absent] at at_
        cases at_
      · exact (types _ among).2 d (mem_of_getElem? at_)
  · rw [instructionAt] at operand
    cases at_ : p.code[i.index]? with
    | none =>
      rw [at_] at operand
      cases operand
    | some ins =>
      rw [at_,Option.getD_some] at operand
      have each := code ins (Array.mem_toList_iff.mpr (Array.mem_of_getElem? at_))
      simpa [operand] using each

end Program

namespace Workbench

/-- A type of money. -/
def stock : Document :=
  { moduleName := "Stock"
    types := [some
      { space := "Stock", name := "Coin", flags := ["valuetype"], fields := [{ name := "worth", type := "System.Int32" }] }] }

/-- A box to be specialized for money, with a type nested in it, a typeclass, and a consumer of all. -/
def till : Document :=
  { moduleName := "Till"
    types :=
      [some (.typeclass "Show"),
       some { name := "ShowCoin", interfaces := ["Show<Stock.Coin>"]
              methods := [{ name := ".ctor", params := [{ name := "value", type := "Stock.Coin" }] }] },
       some { name := "Box", generics := ["T"], attributes := [.generate "Stock.Coin"]
              fields := [{ name := "value", type := "!0" }]
              methods :=
                [{ name := ".ctor" },
                 { name := "Get", returns := "!0", body := ["ldarg 0","ldfld !0 Box<!0>::value","ret"] }]
              nested :=
                [some { name := "Lid", generics := ["T"], fields := [{ name := "box", type := "Box<!0>" }] }] },
       some { name := "Main", attributes := [.inject]
              methods :=
                [{ name := "Run", flags := ["static"], returns := "System.Object"
                   params := [{ name := "coin", type := "Stock.Coin" }]
                   locals := ["Box<Stock.Coin>","Box/Lid<Stock.Coin>"]
                   body :=
                     ["newobj System.Void Box<Stock.Coin>::.ctor()","call !0 Box<Stock.Coin>::Get()","brfalse end",
                      ".label end","ldarg 0","box Stock.Coin",
                      "call !!0 Funweave.Implicitly::Resolve<Show<Stock.Coin>>(System.Object)","ret"] }] }] }

theorem plain_documents : stock.isPlain = true ∧ till.isPlain = true := by decide +kernel

theorem woven_module_relinks_till : ∃ lib p home q w, stock.link Program.core [CoreLibrary.home] = .ok (lib,p) ∧
    till.link p [lib,CoreLibrary.home] = .ok (home,q) ∧ Relation.ReflTransGen Weave { program := q, home } w ∧
    w.program.types.size = q.types.size + 2 ∧ ∃ d, w.program.build? home = some d ∧
      ∃ target r, d.link w.program [lib,CoreLibrary.home] = .ok (target,r) ∧ r.build? target = some d := by
  obtain ⟨lib,p,stocked,evaluated⟩ := stock.link_passes (f := fun lib p =>
    Except.passes (till.link p [lib,CoreLibrary.home]) fun r =>
      let w : Workbench := { program := r.2, home := r.1 }
      Except.passes w.specialize.result fun view =>
        let v := w.specialize.bench.inject view none
        Except.passes v.result fun _ => Except.passes v.bench.implicit.result fun _ =>
          let x := v.bench.implicit.bench.program
          decide (x.types.size = r.2.types.size + 2) && x.isUnmistakable r.1 && x.isSized) (by decide +kernel)
  obtain ⟨⟨home,q⟩,linked,evaluated⟩ := Except.exists_of_passes evaluated
  dsimp only at evaluated
  obtain ⟨view,generated,evaluated⟩ := Except.exists_of_passes evaluated
  obtain ⟨report,injected,evaluated⟩ := Except.exists_of_passes evaluated
  obtain ⟨resolution,resolved,evaluated⟩ := Except.exists_of_passes evaluated
  simp only [Bool.and_eq_true,decide_eq_true_eq] at evaluated
  obtain ⟨⟨types,unmistakable⟩,sized⟩ := evaluated
  obtain ⟨space,-,bench⟩ := specialize_eq_ok generated
  have known : (Workbench.specialize { program := q, home }).bench.view = some view := by rw [bench]
  have first := (weave_of_pass rfl).1 view generated
  have second := (weave_of_pass first.2.2).2.1 view none report known injected
  have third := (weave_of_pass second.2.2).2.2 _ resolution resolved
  have woven : Relation.ReflTransGen Weave { program := q, home } _ := .tail (.tail (.tail .refl first) second) third
  have formed := (Document.link_wellFormed Program.core_wellFormed stocked).1
  have unchanged : Relation.ReflTransGen Weave { program := p, home := lib } { program := p, home := lib } := .refl
  have library : p.Library [lib,CoreLibrary.home] :=
    library_of_link Program.core_wellFormed Program.core_library plain_documents.1 stocked rfl unchanged
  exact ⟨lib,p,home,q,_,stocked,linked,woven,types,
    woven_module_relinks formed library plain_documents.2 linked rfl woven (Program.unmistakable_of_test unmistakable)
      (Program.sized_of_test sized home)⟩

end Workbench

end Loom
