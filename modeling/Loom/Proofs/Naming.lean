import Loom.Proofs.Registration

/-!
Names of clones. A clone is named for its type and the argument, and the clones inside it are named through it. So names
stay apart unless the name of one argument goes on, through the name of another, as the names of nested types do.
-/
namespace Loom

open Runs Program
open Entry (flattenAll mem_flattenAll)
open Specializer (run)
open TypeDecl (header isGeneric)
open String (append_assoc append_empty toList_append toList_inj)

variable {a b m n : String} {p q r x : Program} {es : List Entry} {t : TypeId}

theorem slash_inj (left : '/' ∉ m.toList) (right : '/' ∉ n.toList)
    (same : a ++ "/" ++ m = b ++ "/" ++ n) : a = b ∧ m = n := by
  have reversed := congrArg (fun s : String => s.toList.reverse) same
  simp only [toList_append,List.reverse_append] at reversed
  obtain ⟨last,front⟩ := append_cons_inj_of_not_mem (c := '/') (by simpa using left) (by simpa using right) reversed
  exact ⟨toList_inj.mp (List.reverse_injective front),toList_inj.mp (List.reverse_injective last)⟩

theorem delimiter_inj (left : '$' ∉ a.toList) (right : '$' ∉ b.toList)
    (same : a ++ "$specialized$" ++ m = b ++ "$specialized$" ++ n) : a = b ∧ m = n := by
  have lists := congrArg String.toList same
  simp only [toList_append,List.append_assoc] at lists
  obtain ⟨front,rest⟩ := append_cons_inj_of_not_mem (c := '$') left right lists
  exact ⟨toList_inj.mp front,toList_inj.mp (List.append_cancel_left rest)⟩

namespace Program

variable {p q : Program} {t u : TypeId}

def Inward (p : Program) (t u : TypeId) : Prop := u ∈ (p.typeAt t).nested ∧ (p.typeAt u).isGeneric = true

/-- The type stands in another one, inside generic types only. -/
def Within (p : Program) (t u : TypeId) : Prop := Relation.ReflTransGen p.Inward t u

theorem Within.declared (nests : p.Nests) (inside : t.index < p.types.size) (within : p.Within t u) :
    u.index < p.types.size := by
  induction within with
  | refl => exact inside
  | tail _ step ih => exact (nests _ ih _ step.1).1

theorem Keeps.within_iff {q : Program} (kept : Keeps TypeDecl.header p q) (nests : p.Nests)
    (inside : t.index < p.types.size) : q.Within t u ↔ p.Within t u := by
  have step_iff (v w : TypeId) (inside : v.index < p.types.size) : q.Inward v w ↔ p.Inward v w := by
    have nested : (q.typeAt v).nested = (p.typeAt v).nested := (kept.map TypeDecl.nested).view_eq v inside
    rw [Inward,Inward,nested]
    refine and_congr_right fun member => ?_
    rw [isGeneric,isGeneric,kept.generics (nests v inside w member).1]
  constructor
  · intro within
    induction within with
    | refl => exact .refl
    | tail _ step ih => exact ih.tail ((step_iff _ _ (ih.declared nests inside)).mp step)
  · intro within
    induction within with
    | refl => exact .refl
    | tail before step ih => exact ih.tail ((step_iff _ _ (Within.declared nests inside before)).mpr step)

theorem Arranged.fullName_nested (arranged : p.Arranged) (inside : t.index < p.types.size) (member : u ∈ (p.typeAt t).nested) :
    p.fullName u = p.fullName t ++ "/" ++ (p.typeAt u).name := by
  obtain ⟨declared,declaring⟩ := arranged.nests t inside u member
  exact fullName_of_declaring (arranged.grounded.ends u declared) declaring

theorem Within.suffix (arranged : p.Arranged) (inside : t.index < p.types.size) (within : p.Within t u) :
    ∃ rest, p.fullName u = p.fullName t ++ rest := by
  induction within with
  | refl => exact ⟨"",append_empty.symm⟩
  | @tail v u before step ih =>
    obtain ⟨rest,name⟩ := ih
    have longer := arranged.fullName_nested (Within.declared arranged.nests inside before) step.1
    exact ⟨rest ++ "/" ++ (p.typeAt u).name,by rw [longer,name]; simp only [append_assoc]⟩

theorem Within.mem_allTypes {home : ModuleId} (formed : p.WellFormed) (listed : t ∈ p.allTypes home)
    (within : p.Within t u) : u ∈ p.allTypes home := by
  induction within with
  | refl => exact listed
  | tail _ step ih => exact mem_allTypes_of_nested formed.grounded formed.nests formed.listed ih step.1

/-- Two names that meet inside a type: one of the bases goes on to the other as the name of a type inside does. -/
theorem Within.meet {v : TypeId} {l r : String} (arranged : p.Arranged) (inside : t.index < p.types.size)
    (plain : ∀ u, p.Within t u → '/' ∉ (p.typeAt u).name.toList) (left : p.Within t u) (right : p.Within t v)
    (leftName : p.fullName u = p.fullName t ++ l) (rightName : p.fullName v = p.fullName t ++ r) (same : a ++ l = b ++ r) :
    ∃ x rest, p.Within t x ∧ p.fullName x = p.fullName t ++ rest ∧ (a = b ++ rest ∨ b = a ++ rest) := by
  induction left generalizing v l r with
  | refl =>
    obtain rfl : l = "" := (String.append_right_inj _).mp (leftName.symm.trans append_empty.symm)
    exact ⟨v,r,right,rightName,.inl (by rw [← same,append_empty])⟩
  | @tail u' u before step ih =>
    rcases Relation.ReflTransGen.cases_tail right with top | ⟨v',before',step'⟩
    · rw [top] at rightName
      obtain rfl : r = "" := (String.append_right_inj _).mp (rightName.symm.trans append_empty.symm)
      exact ⟨u,l,before.tail step,leftName,.inr (by rw [same,append_empty])⟩
    · obtain ⟨l',name⟩ := Within.suffix arranged inside before
      obtain ⟨r',name'⟩ := Within.suffix arranged inside before'
      have long := arranged.fullName_nested (Within.declared arranged.nests inside before) step.1
      have long' := arranged.fullName_nested (Within.declared arranged.nests inside before') step'.1
      rw [leftName,name] at long
      rw [rightName,name'] at long'
      simp only [append_assoc] at long long'
      rw [(String.append_right_inj _).mp long,(String.append_right_inj _).mp long'] at same
      simp only [← append_assoc] at same
      exact ih before' name name' (slash_inj (plain u (before.tail step)) (plain v right) same).1

end Program

namespace Program

variable {p : Program} {t a b : TypeRef}

theorem fullName_canonical (closed : p.Formed [] t) : (p.canonical t).fullName p = t.fullName p := by
  induction t with
  | absent => rfl
  | decl d => exact fullName_representative d
  | param g => exact absurd (closed _ (TypeRef.mem_parts_self _)) List.not_mem_nil
  | applied d args ih =>
    have each : (args.map p.canonical).map (TypeRef.fullName p) = args.map (TypeRef.fullName p) := by
      rw [List.map_map]
      refine List.map_congr_left fun a member => ih a member (closed.part ?_)
      exact TypeRef.mem_parts_applied.mpr (.inr ⟨a,member,TypeRef.mem_parts_self a⟩)
    rw [canonical_applied,TypeRef.fullName,TypeRef.fullName,fullNames_eq,fullNames_eq,each,fullName_representative]

theorem fullName_eq_of_same (same : p.same a b = true) (left : p.Formed [] a) (right : p.Formed [] b) :
    a.fullName p = b.fullName p := by
  rw [← fullName_canonical left,same_iff.mp same,fullName_canonical right]

end Program

namespace Cloning

variable {style : CloneStyle} {home : ModuleId} {argument : TypeRef} {p₀ p q : Program} {source : TypeId}
  {entry : Entry} {shells : List Shell} {n : Nat} {outer : List Scope} {parent : Option TypeId} {base : String}

/-- The entries are for the types inside the source, and the clones are named as those are, on another base. -/
structure Mirrors (p : Program) (source : TypeId) (base : String) (q : Program) (es : List Entry) : Prop where
  generics : ∀ u, (∃ c ∈ es, c.generic = u) ↔ p.Within source u
  names : ∀ c ∈ es, c.specialized.index < q.types.size ∧
    ∃ rest, p.fullName c.generic = p.fullName source ++ rest ∧ q.fullName c.specialized = base ++ rest

theorem Mirrors.keeps (mirrors : Mirrors p source base q es) (grounded : q.Grounded)
    (kept : Keeps header q r) : Mirrors p source base r es := by
  refine ⟨mirrors.generics,fun c member => ?_⟩
  obtain ⟨inside,rest,original,clone⟩ := mirrors.names c member
  refine ⟨Nat.lt_of_lt_of_le inside kept.size_le,rest,original,?_⟩
  rw [kept.fullName_eq grounded inside]
  exact clone

theorem fullName_opened_inner {c : TypeId} (arranged : p.Arranged) (within : c.index < p.types.size) :
    (opened p (outline style home argument p (some c) source)).fullName ⟨p.types.size⟩ =
      p.fullName c ++ "/" ++ (p.typeAt source).name := by
  have fresh := arranged_opened arranged (nested_outline style home argument p (some c) source)
    (declaring_outline arranged fun d same => by cases same; exact within)
  have decl := typeAt_opened_new (p := p) (outline style home argument p (some c) source)
  have declaring : ((opened p (outline style home argument p (some c) source)).typeAt ⟨p.types.size⟩).declaring = some c := by
    rw [decl]
    rfl
  rw [fullName_of_declaring (fresh.grounded.ends ⟨p.types.size⟩ (lt_size_opened _)) declaring,decl,
    ((opened_keeps _).map header).fullName_eq arranged.grounded within]
  rfl

theorem fullName_opened_root (arranged : p.Arranged) (inside : source.index < p.types.size) :
    (opened p (outline style home argument p none source)).fullName ⟨p.types.size⟩ =
      p.fullName source ++ style.delimiter ++ argument.fullName p := by
  have fresh := arranged_opened arranged (nested_outline style home argument p none source)
    (declaring_outline arranged (by simp))
  have decl := typeAt_opened_new (p := p) (outline style home argument p none source)
  have declaring : ((opened p (outline style home argument p none source)).typeAt ⟨p.types.size⟩).declaring =
      (p.typeAt source).declaring := by
    rw [decl]
    rfl
  cases outer : (p.typeAt source).declaring with
  | some o =>
    have within := arranged.grounded.inside source inside o outer
    rw [fullName_of_declaring (fresh.grounded.ends ⟨p.types.size⟩ (lt_size_opened _))
      (declaring.trans outer),fullName_of_declaring (arranged.grounded.ends source inside) outer,decl,
      ((opened_keeps _).map header).fullName_eq arranged.grounded within]
    show _ ++ "/" ++ ((p.typeAt source).name ++ style.delimiter ++ argument.fullName p) = _
    simp only [append_assoc]
  | none =>
    rw [fullName_of_top (declaring.trans outer),fullName_of_top outer,decl]
    show (if (p.typeAt source).space.isEmpty then (p.typeAt source).name ++ style.delimiter ++ argument.fullName p
      else (p.typeAt source).space ++ "." ++ ((p.typeAt source).name ++ style.delimiter ++ argument.fullName p)) = _
    split
    · rfl
    · simp only [append_assoc]

theorem Mirrors.node {first : Entry} {sources : List TypeId} (arranged : p.Arranged)
    (old : source.index < p.types.size) (generic : first.generic = source)
    (inside : first.specialized.index < q.types.size) (name : q.fullName first.specialized = base)
    (sources_iff : ∀ t, t ∈ sources ↔ p.Inward source t)
    (each : List.Forall₂ (fun t e => Mirrors p t (base ++ "/" ++ (p.typeAt t).name) q e.flatten) sources es) :
    Mirrors p source base q (first :: flattenAll es) where
  generics u := by
    constructor
    · rintro ⟨c,member,rfl⟩
      rcases List.mem_cons.mp member with rfl | deeper
      · rw [generic]
        exact .refl
      · obtain ⟨e,among,inner⟩ := mem_flattenAll.mp deeper
        obtain ⟨t,listed,mirrors⟩ := left_of_forall₂ each among
        exact ((mirrors.generics _).mp ⟨c,inner,rfl⟩).head ((sources_iff t).mp listed)
    · intro within
      rcases Relation.ReflTransGen.cases_head within with rfl | ⟨t,step,rest⟩
      · exact ⟨first,.head _,generic⟩
      · obtain ⟨e,among,mirrors⟩ := right_of_forall₂ each ((sources_iff t).mpr step)
        obtain ⟨c,member,same⟩ := (mirrors.generics u).mpr rest
        exact ⟨c,.tail _ (mem_flattenAll.mpr ⟨e,among,member⟩),same⟩
  names := by
    refine List.forall_mem_cons.mpr ⟨⟨inside,"",by rw [generic,append_empty],by rw [name,append_empty]⟩,?_⟩
    intro c member
    obtain ⟨e,among,inner⟩ := mem_flattenAll.mp member
    obtain ⟨t,listed,mirrors⟩ := left_of_forall₂ each among
    obtain ⟨declared,rest,original,clone⟩ := mirrors.names c inner
    refine ⟨declared,"/" ++ (p.typeAt t).name ++ rest,?_,?_⟩
    · rw [original,arranged.fullName_nested old ((sources_iff t).mp listed).1]
      simp only [append_assoc]
    · rw [clone]
      simp only [append_assoc]

theorem declareShell_mirrors (arranged : p₀.Arranged) (opening : Opening p₀ p) (old : source.index < p₀.types.size)
    (declared : ∀ c ∈ parent, c.index < p.types.size)
    (done : (declareShell style home argument n outer parent source).run p = (.ok (entry,shells),q)) :
    Mirrors p₀ source ((opened p (outline style home argument p parent source)).fullName ⟨p.types.size⟩) q
      entry.flatten := by
  induction n generalizing p outer parent source entry shells q with
  | zero => exact absurd done run_throw_ne_ok
  | succ n ih =>
    obtain ⟨nested,ran,rfl,-⟩ := declareShell_eq_ok done
    let x := opened p (outline style home argument p parent source)
    have fresh : Opening p x :=
      ⟨opened_keeps _,arranged_opened opening.arranged (nested_outline _ _ _ _ _ _)
        (declaring_outline opening.arranged declared)⟩
    have inside : p.types.size < x.types.size := lt_size_opened _
    have same (t : TypeId) (within : t.index < p₀.types.size) : p.typeAt t = p₀.typeAt t := opening.kept.view_eq t within
    have sources_iff : ∀ t, t ∈ (p.typeAt source).nested.filter (fun t => (p.typeAt t).isGeneric) ↔ p₀.Inward source t := by
      intro t
      rw [List.mem_filter,same source old]
      constructor
      · rintro ⟨member,generic⟩
        exact ⟨member,by rw [← same t (arranged.nests source old t member).1]; exact generic⟩
      · rintro ⟨member,generic⟩
        exact ⟨member,by rw [same t (arranged.nests source old t member).1]; exact generic⟩
    obtain ⟨each,onward⟩ := mapM_entries
      (R := fun t e y => Mirrors p₀ t (x.fullName ⟨p.types.size⟩ ++ "/" ++ (p₀.typeAt t).name) y e.flatten)
      (fun before after mirrors => mirrors.keeps before.arranged.grounded (after.kept.map header))
      (fun t member {y _ _ _} later within done => by
        have listed := (sources_iff t).mp member
        have inner := (arranged.nests source old t listed.1).1
        have mirrors := ih (opening.trans (fresh.trans later)) inner (fun d same => by cases same; exact within) done
        rw [fullName_opened_inner later.arranged within,(later.kept.map header).fullName_eq fresh.arranged.grounded inside,
          show y.typeAt t = p₀.typeAt t from (opening.trans (fresh.trans later)).kept.view_eq t inner] at mirrors
        exact mirrors)
      ⟨.refl id x,fresh.arranged⟩ inside ran
    rw [Entry.flatten]
    refine Mirrors.node arranged old rfl (Nat.lt_of_lt_of_le inside onward.kept.size_le) ?_ sources_iff
      (List.forall₂_map_right_iff.mpr each)
    exact (onward.kept.map header).fullName_eq fresh.arranged.grounded inside

theorem specialize_mirrors (arranged : p.Arranged) (done : (specialize style home source argument).run p = (.ok entry,q)) :
    Mirrors p source (p.fullName source ++ style.delimiter ++ argument.fullName p) q entry.flatten := by
  obtain ⟨shells,x,y,accepted,outlines,members,bodies⟩ := specialize_phases done
  have old := index_of_accepted accepted
  have opening := declareShell_opening style home argument (p.types.size + 1) [] none source arranged nofun
  rw [outlines] at opening
  have mirrors := declareShell_mirrors arranged ⟨.refl id p,arranged⟩ old (by simp) outlines
  rw [fullName_opened_root arranged old] at mirrors
  exact mirrors.keeps opening.arranged.grounded ((declareAllMembers_agree members).trans (fillBodies_agree bodies)).keeps

/-- What was said of a later program holds of the one that the source stands in already. -/
theorem Mirrors.of_keeps (mirrors : Mirrors x source base q es) (arranged : p.Arranged)
    (kept : Keeps TypeDecl.header p x) (old : source.index < p.types.size) : Mirrors p source base q es := by
  have within (u : TypeId) : x.Within source u ↔ p.Within source u := kept.within_iff arranged.nests old
  refine ⟨fun u => (mirrors.generics u).trans (within u),fun c member => ?_⟩
  obtain ⟨inside,rest,original,clone⟩ := mirrors.names c member
  have inner := ((within _).mp ((mirrors.generics _).mp ⟨c,member,rfl⟩)).declared arranged.nests old
  rw [kept.fullName_eq arranged.grounded inner,kept.fullName_eq arranged.grounded old] at original
  exact ⟨inside,rest,original,clone⟩

theorem Specialized.allTypes_eq (specialized : Specialized style home source argument p q entry shells)
    (formed : p.WellFormed) (place : home.index < p.modules.size) :
    q.allTypes home = p.allTypes home ++ entry.flatten.map Entry.specialized := by
  rw [specialized.specialized_eq]
  refine Program.allTypes_grow formed.grounded formed.nests formed.listed (fun t inside => ?_) specialized.grown.types.size_le
    (specialized.listed place) (fun t member => ?_) (fun t member => ?_)
  · rw [specialized.grown.typeAt_eq inside]
  · obtain ⟨s,among,rfl⟩ := List.mem_map.mp member
    exact (specialized.each s among).leaf
  · obtain ⟨s,among,rfl⟩ := List.mem_map.mp member
    exact (specialized.each s among).new.2

theorem Specialized.specialized_new (specialized : Specialized style home source argument p q entry shells) :
    (entry.flatten.map Entry.specialized).Nodup ∧
      ∀ c ∈ entry.flatten, p.types.size ≤ c.specialized.index ∧ c.specialized.index < q.types.size := by
  constructor
  · rw [specialized.specialized_eq,specialized.clones]
    exact List.Nodup.map (fun _ _ same => congrArg TypeId.index same) List.nodup_range'
  · intro c member
    obtain ⟨s,among,record⟩ := right_of_forall₂ specialized.records member
    rw [record.specialized]
    exact (specialized.each s among).new

end Cloning

def Program.Marks (p : Program) (marker : String) (t : TypeId) (argument : TypeRef) : Prop :=
  ∃ a ∈ p.attributesOf t marker, a.args = [.type argument]

theorem Program.Marks.formed {marker : String} {argument : TypeRef}
    (marks : p.Marks marker t argument) (members : p.MembersFormed t) : p.Formed [] argument := by
  obtain ⟨a,member,args⟩ := marks
  exact (members.attributes a (List.mem_filter.mp member).1).2 argument (by rw [args]; exact .head _)

theorem Program.Extends.attributesOf_eq (grown : p.Extends q) (formed : p.WellFormed)
    (inside : t.index < p.types.size) (marker : String) : q.attributesOf t marker = p.attributesOf t marker := by
  rw [attributesOf,attributesOf,grown.typeAt_eq inside]
  refine List.filter_congr fun a member => ?_
  rw [grown.headers.fullName_eq formed.grounded ((formed.types t inside).members.attributes a member).1]

namespace Specializer

open Cloning (Mirrors Filed)

variable {w w' : Workspace Specializer} {p : Program} {home : ModuleId} {config : Config} {e : Entry} {t : TypeId}
  {argument : TypeRef}

/-- An entry made for a marker, with the names of its clones. -/
structure Labelled (config : Config) (home : ModuleId) (p q : Program) (e : Entry) : Prop where
  listed : e.generic ∈ (p.moduleAt home).types
  marks : p.Marks config.generateMarker e.generic e.argument
  distinct : (e.flatten.map Entry.generic).Nodup
  filed : ∀ c ∈ e.flatten, Filed e.argument c
  mirrors : Mirrors p e.generic (p.fullName e.generic ++ config.delimiter ++ e.argument.fullName p) q e.flatten

/-- What holds while the markers of `p` are followed. -/
structure Naming (config : Config) (home : ModuleId) (p : Program) (w : Workspace Specializer) : Prop where
  generated : Generated (start home config).style home p w
  marker_eq : w.own.marker = config.generateMarker
  consistent : Consistent w
  types : w.program.allTypes home = p.allTypes home ++ (flattenAll w.own.registry.entries).map Entry.specialized
  clones : ((flattenAll w.own.registry.entries).map Entry.specialized).Nodup
  new : ∀ c ∈ flattenAll w.own.registry.entries,
    p.types.size ≤ c.specialized.index ∧ c.specialized.index < w.program.types.size
  titled : ∀ e ∈ w.own.registry.entries, Labelled config home p w.program e

theorem labelled_of_specialize {source : TypeId} (formed : p.WellFormed) (grown : p.Extends x)
    (arranged : x.Arranged) (listed : source ∈ (p.moduleAt home).types) (marks : p.Marks config.generateMarker source argument)
    (cloned : (Cloning.specialize (start home config).style home source argument).run x = (.ok e,q)) :
    Labelled config home p q e := by
  have inside := formed.listed.top home source listed
  have closed := marks.formed (formed.types source inside).members
  obtain ⟨generic,distinct,filed⟩ := Cloning.specialize_filed arranged cloned
  have argument_eq := (filed e e.mem_flatten_self).argument_eq
  have mirrors := (Cloning.specialize_mirrors arranged cloned).of_keeps formed.arranged grown.headers inside
  rw [grown.headers.fullName_eq formed.grounded inside,grown.headers.fullName_ref_eq formed.grounded closed.declares] at mirrors
  exact {
    listed := by rw [generic]; exact listed
    marks := by rw [generic,argument_eq]; exact marks
    distinct
    filed := by rw [argument_eq]; exact filed
    mirrors := by rw [generic,argument_eq]; exact mirrors }

theorem Naming.specialize (formed : p.WellFormed) (naming : Naming config home p w) (listed : t ∈ (p.moduleAt home).types)
    (marks : p.Marks config.generateMarker t argument) (done : (specialize t argument).run w = (.ok e,w')) :
    Naming config home p w' ∧ Onward w w' ∧ e ∈ w'.own.registry.entries ∧ p.isEntryFor e t argument = true := by
  have inside := formed.listed.top home t listed
  have closed := marks.formed (formed.types t inside).members
  have generated := naming.generated
  have outcome := served w t argument
  rw [done] at outcome
  obtain ⟨consistent,onward⟩ := naming.consistent.serve (closed.declares.mono generated.grown.headers) outcome
  obtain ⟨member,answers⟩ := naming.consistent.met done
  have next := (generated.specialize inside (closed.mono generated.grown.headers) done).1
  have whole : Naming config home p w' := by
    cases outcome with
    | known found => exact naming
    | @made _ q registry log missing cloned added =>
      obtain ⟨-,fresh,rfl⟩ := Registry.add_eq_ok.mp added
      rw [generated.style_eq,generated.home_eq] at cloned
      obtain ⟨shells,specialized⟩ := Cloning.specialize_specialized generated.formed
        (closed.declares.mono generated.grown.headers) cloned
      obtain ⟨distinct,new⟩ := specialized.specialized_new
      have flat : flattenAll (w.own.registry.entries ++ [e]) = flattenAll w.own.registry.entries ++ e.flatten := by
        rw [Entry.flattenAll_append,flattenAll,flattenAll,List.append_nil]
      refine ⟨next,naming.marker_eq,consistent,?_,?_,?_,?_⟩
      · show q.allTypes home = p.allTypes home ++ (flattenAll (w.own.registry.entries ++ [e])).map Entry.specialized
        rw [specialized.allTypes_eq generated.formed generated.place,naming.types,flat,List.map_append,List.append_assoc]
      · show ((flattenAll (w.own.registry.entries ++ [e])).map Entry.specialized).Nodup
        rw [flat,List.map_append]
        refine List.nodup_append.mpr ⟨naming.clones,distinct,?_⟩
        rintro c old d fresh rfl
        obtain ⟨f,among,rfl⟩ := List.mem_map.mp old
        obtain ⟨g,made,same⟩ := List.mem_map.mp fresh
        have before := (naming.new f among).2
        have after := (new g made).1
        rw [same] at after
        exact absurd before (Nat.not_lt.mpr after)
      · show ∀ c ∈ flattenAll (w.own.registry.entries ++ [e]), _
        rw [flat]
        refine List.forall_mem_append.mpr ⟨fun c among => ?_,fun c made => ?_⟩
        · exact ⟨(naming.new c among).1,Nat.lt_of_lt_of_le (naming.new c among).2 onward.kept.size_le⟩
        · exact ⟨Nat.le_trans generated.grown.types.size_le (new c made).1,(new c made).2⟩
      · show ∀ f ∈ w.own.registry.entries ++ [e], _
        refine List.forall_mem_append.mpr ⟨fun f among => ?_,List.forall_mem_singleton.mpr ?_⟩
        · have titled := naming.titled f among
          exact { titled with mirrors := titled.mirrors.keeps generated.formed.grounded onward.kept }
        · exact labelled_of_specialize formed generated.grown naming.consistent.arranged listed marks cloned
  refine ⟨whole,onward,member,isEntryFor_iff.mpr ?_⟩
  obtain ⟨generic,same⟩ := isEntryFor_iff.mp answers
  have known := (whole.titled e member).marks.formed (formed.types _ (by rw [generic]; exact inside)).members
  rw [whole.generated.grown.headers.same_eq formed.grounded known.declares closed.declares] at same
  exact ⟨generic,same⟩

def Answered (p : Program) (t : TypeId) (argument : TypeRef) (w : Workspace Specializer) : Prop :=
  ∃ e ∈ w.own.registry.entries, p.isEntryFor e t argument = true

theorem Answered.mono (answered : Answered p t argument w) (onward : Onward w w') : Answered p t argument w' := by
  obtain ⟨e,member,answers⟩ := answered
  exact ⟨e,onward.entries e member,answers⟩

theorem Naming.generate {u : Unit} (formed : p.WellFormed) (naming : Naming config home p w)
    (listed : t ∈ (p.moduleAt home).types) (done : (generate t).run w = (.ok u,w')) :
    Naming config home p w' ∧ (∀ argument, p.Marks config.generateMarker t argument → Answered p t argument w') ∧
      ∀ e ∈ w.own.registry.entries, e ∈ w'.own.registry.entries := by
  have inside := formed.listed.top home t listed
  rw [Specializer.generate,Weaving.run_program_bind,Weaving.run_own_bind] at done
  rw [naming.marker_eq,naming.generated.grown.attributesOf_eq formed inside] at done
  have answered := forM_each
    (I := fun v => Naming config home p v ∧ ∀ e ∈ w.own.registry.entries, e ∈ v.own.registry.entries)
    (Q := fun a v => ∀ argument, a.args = [.type argument] → Answered p t argument v)
    (fun a member v v' holds round => by
      obtain ⟨argument,named,round⟩ := Weaving.run_ofExcept_bind_eq_ok.mp round
      obtain ⟨e,_,ran,round⟩ := run_bind_eq_ok.mp round
      obtain ⟨-,rfl⟩ := run_pure_eq_ok.mp round
      have args := args_of_markerArgument named
      obtain ⟨next,onward,among,answers⟩ := holds.1.specialize formed listed ⟨a,member,args⟩ ran
      refine ⟨⟨next,fun f old => onward.entries f (holds.2 f old)⟩,fun other same => ?_,fun b known other same => ?_⟩
      · cases args.symm.trans same
        exact ⟨e,among,answers⟩
      · exact (known other same).mono onward)
    done ⟨naming,fun _ member => member⟩
  refine ⟨answered.1.1,?_,answered.1.2⟩
  rintro argument ⟨a,member,args⟩
  exact answered.2.1 a member argument args

theorem run_naming {log : List String} {view : SealedRegistry} (formed : p.WellFormed)
    (place : home.index < p.modules.size) (done : run.run ⟨p,start home config,log⟩ = (.ok view,w)) :
    ∃ v, Naming config home p v ∧ w.program = v.program ∧ view.entries = v.own.registry.entries ∧
      ∀ t ∈ (p.moduleAt home).types, ∀ argument, p.Marks config.generateMarker t argument → Answered p t argument v := by
  obtain ⟨v,loop,rfl,rfl⟩ := run_eq_ok done
  have initial : Naming config home p ⟨p,start home config,log⟩ := by
    have none (P : Entry → Prop) : ∀ e ∈ [], P e := List.forall_mem_nil P
    refine ⟨⟨formed,.refl p,rfl,rfl,place,none _⟩,rfl,⟨formed.arranged,rfl,none _,none _,.nil⟩,?_,?_,none _,none _⟩
    · exact (List.append_nil _).symm
    · exact List.nodup_nil
  have answered := forM_each (I := Naming config home p)
    (Q := fun t v => ∀ argument, p.Marks config.generateMarker t argument → Answered p t argument v)
    (fun t member v v' holds round => by
      obtain ⟨next,here,kept⟩ := holds.generate formed member round
      refine ⟨next,here,fun b known argument marks => ?_⟩
      obtain ⟨e,among,answers⟩ := known argument marks
      exact ⟨e,kept e among,answers⟩)
    loop initial
  exact ⟨v,answered.1,rfl,rfl,answered.2.1⟩

/-- Two arguments that markers of one type name, the name of the first of which goes on from that of the second as the
    name of a type inside goes on from that of the type. -/
def Clash (p : Program) (home : ModuleId) (marker : String) : Prop :=
  ∃ t ∈ (p.moduleAt home).types, ∃ a b, p.Marks marker t a ∧ p.Marks marker t b ∧ p.same a b = false ∧
    ∃ u rest, p.Within t u ∧ p.fullName u = p.fullName t ++ rest ∧ a.fullName p = b.fullName p ++ rest

theorem Naming.exists_root (naming : Naming config home p w) {c : Entry} (member : c ∈ flattenAll w.own.registry.entries) :
    ∃ e ∈ w.own.registry.entries, c ∈ e.flatten ∧ Labelled config home p w.program e ∧ p.Within e.generic c.generic ∧
      ∃ rest, p.fullName c.generic = p.fullName e.generic ++ rest ∧
        w.program.fullName c.specialized = p.fullName e.generic ++ config.delimiter ++ (e.argument.fullName p ++ rest) := by
  obtain ⟨e,among,inner⟩ := mem_flattenAll.mp member
  have titled := naming.titled e among
  obtain ⟨-,rest,original,clone⟩ := titled.mirrors.names c inner
  rw [append_assoc] at clone
  exact ⟨e,among,inner,titled,(titled.mirrors.generics _).mp ⟨c,inner,rfl⟩,rest,original,clone⟩

section Names

variable (formed : p.WellFormed) (naming : Naming config home p w)
include formed naming

theorem Naming.apart {e f : Entry} (first : e ∈ w.own.registry.entries) (second : f ∈ w.own.registry.entries)
    (generic : e.generic = f.generic) (same : p.same e.argument f.argument = true) : e = f := by
  have declares (g : Entry) (member : g ∈ w.own.registry.entries) : p.Declares g.argument :=
    ((naming.titled g member).marks.formed
      (formed.types _ (formed.listed.top home _ (naming.titled g member).listed)).members).declares
  rw [← naming.generated.grown.headers.same_eq formed.grounded (declares e first) (declares f second)] at same
  refine eq_of_apart naming.consistent.apart (mem_flattenAll.mpr ⟨e,first,e.mem_flatten_self⟩)
    (mem_flattenAll.mpr ⟨f,second,f.mem_flatten_self⟩) (isEntryFor_iff.mpr ⟨generic,same⟩)
    (isEntryFor_iff.mpr ⟨rfl,same_iff.mpr rfl⟩)

theorem Naming.eq_of_fullName (names : ((p.allTypes home).map p.fullName).Nodup)
    (plain : ∀ t ∈ p.allTypes home, '$' ∉ (p.fullName t).toList ∧ '/' ∉ (p.typeAt t).name.toList)
    (delimiter : config.delimiter = "$specialized$") (clear : ¬Clash p home config.generateMarker) {c d : Entry}
    (left : c ∈ flattenAll w.own.registry.entries) (right : d ∈ flattenAll w.own.registry.entries)
    (same : w.program.fullName c.specialized = w.program.fullName d.specialized) : c = d := by
  obtain ⟨e,first,inner,titled,within,l,leftName,clone⟩ := naming.exists_root left
  obtain ⟨f,second,inner',titled',within',r,rightName,clone'⟩ := naming.exists_root right
  have own (t : TypeId) (listed : t ∈ (p.moduleAt home).types) := mem_allTypes_of_top formed.listed listed
  rw [clone,clone',delimiter] at same
  obtain ⟨root,rest⟩ := delimiter_inj (plain _ (own _ titled.listed)).1 (plain _ (own _ titled'.listed)).1 same
  have generic : e.generic = f.generic := List.inj_on_of_nodup_map names (own _ titled.listed) (own _ titled'.listed) root
  have inside := formed.listed.top home _ titled.listed
  by_cases arguments : p.same e.argument f.argument = true
  · -- one request, so the names are those of the types inside
    obtain rfl := naming.apart formed first second generic arguments
    have suffix := (String.append_right_inj _).mp rest
    have original : c.generic = d.generic := List.inj_on_of_nodup_map names (within.mem_allTypes formed (own _ titled.listed))
      (within'.mem_allTypes formed (own _ titled.listed)) (by rw [leftName,rightName,suffix])
    exact List.inj_on_of_nodup_map titled.distinct inner inner' original
  · rw [← generic] at within' rightName
    have marks' := titled'.marks
    rw [← generic] at marks'
    have slashes (u : TypeId) (deeper : p.Within e.generic u) : '/' ∉ (p.typeAt u).name.toList :=
      (plain u (deeper.mem_allTypes formed (own _ titled.listed))).2
    obtain ⟨x,rest,deep,name,meets⟩ :=
      Within.meet formed.arranged inside slashes within within' leftName rightName rest
    refine absurd ?_ clear
    have other : p.same e.argument f.argument = false := Bool.eq_false_iff.mpr arguments
    rcases meets with goes | goes
    · exact ⟨e.generic,titled.listed,e.argument,f.argument,titled.marks,marks',other,x,rest,deep,name,goes⟩
    · refine ⟨e.generic,titled.listed,f.argument,e.argument,marks',titled.marks,?_,x,rest,deep,name,goes⟩
      rw [Bool.eq_false_iff,ne_eq,same_iff,eq_comm,← same_iff]
      exact arguments

theorem Naming.not_clash (answered : ∀ t ∈ (p.moduleAt home).types, ∀ argument, p.Marks config.generateMarker t argument →
      Answered p t argument w)
    (names : ((w.program.allTypes home).map w.program.fullName).Nodup) : ¬Clash p home config.generateMarker := by
  rintro ⟨t,listed,a,b,first,second,different,u,rest,within,name,goes⟩
  have members := (formed.types t (formed.listed.top home t listed)).members
  obtain ⟨e,member,answers⟩ := answered t listed a first
  obtain ⟨f,member',answers'⟩ := answered t listed b second
  obtain ⟨rfl,same⟩ := isEntryFor_iff.mp answers
  obtain ⟨generic,same'⟩ := isEntryFor_iff.mp answers'
  have titled := naming.titled e member
  have titled' := naming.titled f member'
  have marks' := titled'.marks
  rw [generic] at marks'
  have argument := fullName_eq_of_same same (titled.marks.formed members) (first.formed members)
  have argument' := fullName_eq_of_same same' (marks'.formed members) (second.formed members)
  -- the clone for the first argument and the clone inside that for the second
  obtain ⟨c,inner,clone⟩ := (titled'.mirrors.generics u).mpr (by rw [generic]; exact within)
  obtain ⟨-,r,original,long⟩ := titled'.mirrors.names c inner
  obtain ⟨-,s,top,short⟩ := titled.mirrors.names e e.mem_flatten_self
  obtain rfl : s = "" := (String.append_right_inj _).mp (top.symm.trans append_empty.symm)
  obtain rfl : r = rest := by
    rw [clone,generic,name] at original
    exact ((String.append_right_inj _).mp original).symm
  have left : e ∈ flattenAll w.own.registry.entries := mem_flattenAll.mpr ⟨e,member,e.mem_flatten_self⟩
  have right : c ∈ flattenAll w.own.registry.entries := mem_flattenAll.mpr ⟨f,member',inner⟩
  have equal : w.program.fullName e.specialized = w.program.fullName c.specialized := by
    rw [short,long,append_empty,argument,goes,generic,argument']
    simp only [append_assoc]
  have listedAs (d : Entry) (among : d ∈ flattenAll w.own.registry.entries) : d.specialized ∈ w.program.allTypes home := by
    rw [naming.types]
    exact List.mem_append_right _ (List.mem_map_of_mem among)
  have one : e = c := List.inj_on_of_nodup_map naming.clones left right
    (List.inj_on_of_nodup_map names (listedAs e left) (listedAs c right) equal)
  have arguments : e.argument = f.argument := by rw [one,(titled'.filed c inner).argument_eq]
  have collapse : p.same a b = true := by
    rw [same_iff,← same_iff.mp same,← same_iff.mp same',arguments]
  rw [different] at collapse
  cases collapse

end Names

/-- Generating the specializations of a linked module keeps the full names of its types apart exactly when no two markers
    clash. -/
theorem fullNames_nodup_iff {doc : Document} {q : Program} {references : List ModuleId} {log : List String}
    {view : SealedRegistry} (formed : q.WellFormed) (linked : doc.link q references = .ok (home,p))
    (plain : ∀ t ∈ p.allTypes home, '$' ∉ (p.fullName t).toList ∧ '/' ∉ (p.typeAt t).name.toList)
    (delimiter : config.delimiter = "$specialized$") (done : Specializer.run.run ⟨p,start home config,log⟩ = (.ok view,w)) :
    ((w.program.allTypes home).map w.program.fullName).Nodup ↔ ¬Clash p home config.generateMarker := by
  have whole := (Document.link_wellFormed formed linked).1
  obtain ⟨here,size⟩ := Document.link_place formed linked
  have place : home.index < p.modules.size := by
    rw [here,size]
    exact Nat.lt_succ_self _
  obtain ⟨-,names⟩ := Document.link_names formed linked
  obtain ⟨v,naming,program,-,answered⟩ := run_naming whole place done
  rw [program]
  refine ⟨naming.not_clash whole answered,fun clear => ?_⟩
  rw [naming.types,List.map_append]
  refine List.nodup_append.mpr ⟨?_,?_,?_⟩
  · rw [List.map_congr_left fun t member =>
      naming.generated.grown.headers.fullName_eq whole.grounded (whole.listed.allTypes member)]
    exact names
  · rw [List.map_map]
    refine List.Nodup.map_on (fun c left d right same => ?_) naming.clones.of_map
    exact naming.eq_of_fullName whole names plain delimiter clear left right same
  · -- the name of a clone holds the delimiter
    rintro name old _ new rfl
    obtain ⟨t,member,rfl⟩ := List.mem_map.mp old
    obtain ⟨_,clone,same⟩ := List.mem_map.mp new
    obtain ⟨c,among,rfl⟩ := List.mem_map.mp clone
    obtain ⟨e,-,-,-,-,rest,-,long⟩ := naming.exists_root among
    refine (plain t member).1 ?_
    rw [← naming.generated.grown.headers.fullName_eq whole.grounded (whole.listed.allTypes member),← same,long,delimiter]
    simp

/-- A generic type with a type inside, marked for a type and for a type inside that one. -/
def twins : Document :=
  { moduleName := "Twins"
    types :=
      [some { name := "A", nested := [some { name := "B" }] },
       some { name := "G", generics := ["T"], attributes := [.generate "A",.generate "A/B"]
              nested := [some { name := "B", generics := ["T"] }] }] }

/-- The clone inside that for the first argument has the name of the clone for the second one. -/
theorem twins_generated : ∃ home p view w, twins.link core [CoreLibrary.home] = .ok (home,p) ∧
    (∀ t ∈ p.allTypes home, '$' ∉ (p.fullName t).toList ∧ '/' ∉ (p.typeAt t).name.toList) ∧
    run.run ⟨p,start home {},[]⟩ = (.ok view,w) ∧
    (w.program.allTypes home).map w.program.fullName = ["A","A/B","G","G/B","G$specialized$A","G$specialized$A/B",
      "G$specialized$A/B","G$specialized$A/B/B"] := by
  obtain ⟨home,p,linked,evaluated⟩ := twins.link_passes (f := fun home p =>
    passes (run.run ⟨p,start home {},[]⟩) fun _ w =>
      decide (∀ t ∈ p.allTypes home, '$' ∉ (p.fullName t).toList ∧ '/' ∉ (p.typeAt t).name.toList) &&
      decide ((w.program.allTypes home).map w.program.fullName = ["A","A/B","G","G/B","G$specialized$A",
        "G$specialized$A/B","G$specialized$A/B","G$specialized$A/B/B"])) (by decide +kernel)
  obtain ⟨view,w,done,evaluated⟩ := exists_of_passes evaluated
  rw [Bool.and_eq_true,decide_eq_true_eq,decide_eq_true_eq] at evaluated
  exact ⟨home,p,view,w,linked,evaluated.1,done,evaluated.2⟩

theorem fullNames_nodup_iff_twins : ∃ home p view w, twins.link Program.core [CoreLibrary.home] = .ok (home,p) ∧
    (∀ t ∈ p.allTypes home, '$' ∉ (p.fullName t).toList ∧ '/' ∉ (p.typeAt t).name.toList) ∧
    Specializer.run.run ⟨p,start home {},[]⟩ = (.ok view,w) ∧ ¬((w.program.allTypes home).map w.program.fullName).Nodup ∧
    Clash p home "Funweave.GenerateSpecializationAttribute" := by
  obtain ⟨home,p,view,w,linked,plain,done,names⟩ := twins_generated
  have repeated : ¬((w.program.allTypes home).map w.program.fullName).Nodup := by
    rw [names]
    decide
  refine ⟨home,p,view,w,linked,plain,done,repeated,?_⟩
  by_contra clear
  exact repeated ((fullNames_nodup_iff Program.core_wellFormed linked plain rfl done).mpr clear)

end Specializer
end Loom
