import Loom.Proofs.Substitution
import Mathlib.Data.List.Nodup

/-!
The clones of a specialization before they have members. Each stands beyond the types there were, in the order of its
entry, and is blank but for its name, its flags and the parameters left over; its declaring chain leads to the first clone.
-/
namespace Loom

open List
open Runs Program Entry
open TypeDecl (header)

variable {c t : TypeId} {n : Nat} {s : Shell}

def Shell.scope (argument : TypeRef) (s : Shell) : Scope := ⟨s.source,argument,s.clone⟩

namespace Cloning

variable {style : CloneStyle} {home : ModuleId} {argument : TypeRef} {p₀ p q r : Program} {flat others : List Entry}
  {shells later : List Shell}
variable {source : TypeId} {outer : List Scope} {parent : Option TypeId} {entry : Entry} {first : Shell}
  {rest : List Shell}

def outline (style : CloneStyle) (home : ModuleId) (argument : TypeRef) (p : Program) (parent : Option TypeId)
    (source : TypeId) : TypeDecl :=
  let d := p.typeAt source
  match parent with
  | none =>
    { space := d.space, name := d.name ++ style.delimiter ++ argument.fullName p, declaring := d.declaring, home,
      flags := d.flags, generics := d.generics.tail }
  | some _ => { name := d.name, declaring := parent, home, flags := d.flags, generics := d.generics.tail }

def opened (p : Program) (d : TypeDecl) : Program := (p.declareType d).2.addTopLevel ⟨p.types.size⟩

theorem declareShell_eq_ok
    (done : (declareShell style home argument (n + 1) outer parent source).run p = (.ok (entry,shells),q)) : ∃ nested,
      (((p.typeAt source).nested.filter fun t => (p.typeAt t).isGeneric).mapM
        (declareShell style home argument n (⟨source,argument,⟨p.types.size⟩⟩ :: outer) (some ⟨p.types.size⟩))).run
          (opened p (outline style home argument p parent source)) = (.ok nested,q) ∧
      entry = .mk source argument ⟨p.types.size⟩ ((p.methodsOf source).map fun m => (m,⟨⟨p.types.size⟩,m.position⟩))
        (nested.map Prod.fst) ∧
      shells = ⟨source,⟨p.types.size⟩,⟨source,argument,⟨p.types.size⟩⟩ :: outer⟩ :: nested.flatMap Prod.snd := by
  rw [declareShell,run_get_bind] at done
  obtain ⟨id,s1,declared,done⟩ := run_bind_eq_ok.mp done
  have pair := run_modifyGet_eq_ok.mp declared
  obtain rfl : (⟨p.types.size⟩ : TypeId) = id := congrArg Prod.fst pair
  have state : (p.declareType (outline style home argument p parent source)).2 = s1 := by
    refine Eq.trans ?_ (congrArg Prod.snd pair)
    cases parent <;> rfl
  obtain ⟨_,s2,topped,done⟩ := run_bind_eq_ok.mp done
  have top := run_modify_eq_ok.mp topped
  rw [← state] at top
  obtain rfl : opened p (outline style home argument p parent source) = s2 := top
  obtain ⟨nested,s3,ran,done⟩ := run_bind_eq_ok.mp done
  obtain ⟨result,rfl⟩ := run_pure_eq_ok.mp done
  obtain ⟨rfl,rfl⟩ := Prod.mk.inj result
  exact ⟨nested,ran,rfl,rfl⟩

/-! ### Outlines -/

structure Declared (home : ModuleId) (argument : TypeRef) (p q : Program) (s : Shell) : Prop where
  old : s.source.index < p.types.size
  generic : (p.typeAt s.source).isGeneric = true
  new : p.types.size ≤ s.clone.index ∧ s.clone.index < q.types.size
  chain : ∃ outer, s.chain = s.scope argument :: outer ∧ ∀ c ∈ outer, c.owner.index < p.types.size
  leaf : (q.typeAt s.clone).nested = []
  flags : (q.typeAt s.clone).flags = (p.typeAt s.source).flags
  generics : (q.typeAt s.clone).generics = (p.typeAt s.source).generics.tail
  home_eq : (q.typeAt s.clone).home = home
  named : (q.typeAt s.clone).name ≠ ""
  below : ∀ o, (q.typeAt s.clone).declaring = some o → o.index < s.clone.index

theorem Declared.congr (declared : Declared home argument p q s) (size : q.types.size ≤ r.types.size)
    (same : (r.typeAt s.clone).header = (q.typeAt s.clone).header) : Declared home argument p r s where
  old := declared.old
  generic := declared.generic
  new := ⟨declared.new.1,Nat.lt_of_lt_of_le declared.new.2 size⟩
  chain := declared.chain
  leaf := (congrArg TypeDecl.nested same).trans declared.leaf
  flags := (congrArg TypeDecl.flags same).trans declared.flags
  generics := (congrArg TypeDecl.generics same).trans declared.generics
  home_eq := (congrArg TypeDecl.home same).trans declared.home_eq
  named := fun empty => declared.named ((congrArg TypeDecl.name same).symm.trans empty)
  below := fun o declaring => declared.below o ((congrArg TypeDecl.declaring same).symm.trans declaring)

/-- A clone that was declared and has no members. -/
structure Outlined (home : ModuleId) (argument : TypeRef) (p q : Program) (s : Shell) : Prop
    extends Declared home argument p q s where
  blank : (q.typeAt s.clone).header = q.typeAt s.clone

theorem Outlined.kept (outlined : Outlined home argument p q s) (kept : Keeps id q r) : Outlined home argument p r s := by
  have same : r.typeAt s.clone = q.typeAt s.clone := kept.view_eq s.clone outlined.new.2
  exact ⟨outlined.toDeclared.congr kept.size_le (congrArg header same),by rw [same]; exact outlined.blank⟩

/-- A clone inside a clone. -/
structure Inner (p q : Program) (s : Shell) : Prop where
  space : (q.typeAt s.clone).space = ""
  name : (q.typeAt s.clone).name = (p.typeAt s.source).name
  within : ∃ o, (q.typeAt s.clone).declaring = some o ∧ p.types.size ≤ o.index

theorem Inner.congr (inner : Inner p q s) (same : (r.typeAt s.clone).header = (q.typeAt s.clone).header) : Inner p r s := by
  obtain ⟨o,declaring,beyond⟩ := inner.within
  exact ⟨(congrArg TypeDecl.space same).trans inner.space,(congrArg TypeDecl.name same).trans inner.name,
    o,(congrArg TypeDecl.declaring same).trans declaring,beyond⟩

/-- An entry records a clone with the clones of the methods. -/
structure Records (argument : TypeRef) (p : Program) (e : Entry) (s : Shell) : Prop where
  generic : e.generic = s.source
  argument_eq : e.argument = argument
  specialized : e.specialized = s.clone
  methods : e.methods = (p.methodsOf s.source).map fun m => (m,⟨s.clone,m.position⟩)

/-- Clones of types of `p₀` were declared, and nothing else was done. -/
structure Shelled (home : ModuleId) (argument : TypeRef) (p₀ p q : Program) (flat : List Entry) (shells : List Shell) :
    Prop where
  size_eq : q.types.size = p.types.size + shells.length
  code_eq : q.code = p.code
  clones : shells.map Shell.clone = (List.range' p.types.size shells.length).map TypeId.mk
  kept : ∀ t : TypeId, t.index < p.types.size → q.typeAt t = p.typeAt t
  listed : home.index < p.modules.size → ListedIn home p q (shells.map Shell.clone)
  outlined : ∀ s ∈ shells, Outlined home argument p₀ q s
  records : List.Forall₂ (Records argument p₀) flat shells

theorem Shelled.keeps (shelled : Shelled home argument p₀ p q flat shells) : Keeps id p q :=
  ⟨by rw [shelled.size_eq]; exact Nat.le_add_right _ _,shelled.kept⟩

theorem Shelled.nil (home : ModuleId) (argument : TypeRef) (p₀ p : Program) : Shelled home argument p₀ p p [] [] where
  size_eq := rfl
  code_eq := rfl
  clones := rfl
  kept _ _ := rfl
  listed _ := .of_eq rfl
  outlined := nofun
  records := .nil

theorem Shelled.append (early : Shelled home argument p₀ p q flat shells)
    (late : Shelled home argument p₀ q r others later) :
    Shelled home argument p₀ p r (flat ++ others) (shells ++ later) where
  size_eq := by rw [late.size_eq,early.size_eq,length_append,Nat.add_assoc]
  code_eq := late.code_eq.trans early.code_eq
  clones := by
    rw [map_append,early.clones,late.clones,early.size_eq,length_append,← map_append,
      range'_append_1]
  kept t inside := by
    rw [late.kept t (Nat.lt_of_lt_of_le inside early.keeps.size_le),early.kept t inside]
  listed inside := by
    rw [map_append]
    have first := early.listed inside
    exact first.trans (late.listed (by rw [first.size_eq]; exact inside))
  outlined := forall_mem_append.mpr ⟨fun s member => (early.outlined s member).kept late.keeps,late.outlined⟩
  records := rel_append early.records late.records

theorem typeAt_opened_new (d : TypeDecl) : (opened p d).typeAt ⟨p.types.size⟩ = d := typeAt_declareType_new d

theorem typeAt_opened_old (inside : t.index < p.types.size) (d : TypeDecl) : (opened p d).typeAt t = p.typeAt t :=
  typeAt_declareType_old inside d

theorem size_opened (d : TypeDecl) : (opened p d).types.size = p.types.size + 1 := size_declareType d

theorem lt_size_opened (d : TypeDecl) : p.types.size < (opened p d).types.size := (size_opened d).symm ▸ Nat.lt_succ_self _

theorem opened_keeps (d : TypeDecl) : Keeps id p (opened p d) :=
  ⟨by rw [size_opened]; exact Nat.le_succ _,fun _ inside => typeAt_opened_old inside d⟩

theorem Shelled.single {d : TypeDecl} {e : Entry} (clone : s.clone = ⟨p.types.size⟩) (home_eq : d.home = home)
    (outlined : Outlined home argument p₀ (opened p d) s) (records : Records argument p₀ e s) :
    Shelled home argument p₀ p (opened p d) [e] [s] where
  size_eq := size_opened d
  code_eq := rfl
  clones := by rw [map_cons,clone]; rfl
  kept _ inside := typeAt_opened_old inside d
  listed inside := by
    have place : ((p.declareType d).2.typeAt s.clone).home = home := by
      rw [clone,← home_eq]
      exact congrArg TypeDecl.home (Program.typeAt_declareType_new d)
    have topped : ListedIn home (p.declareType d).2 ((p.declareType d).2.addTopLevel s.clone) [s.clone] :=
      .addTopLevel place inside
    rw [clone] at topped
    have declared : ListedIn home p (p.declareType d).2 [] := .of_eq rfl
    rw [map_cons,map_nil,clone]
    exact declared.trans topped
  outlined := forall_mem_singleton.mpr outlined
  records := .cons records .nil

/-! ### Clones inside a clone -/

/-- The state of a program in which clones are declared inside the clone `c`. -/
structure Inside (p₀ p : Program) (outer : List Scope) (c : TypeId) : Prop where
  kept : Keeps id p₀ p
  outer : ∀ s ∈ outer, s.owner.index < p₀.types.size
  new : p₀.types.size ≤ c.index
  within : c.index < p.types.size

theorem Inside.mono (inside : Inside p₀ p outer c) (kept : Keeps id p q) : Inside p₀ q outer c where
  kept := inside.kept.trans kept
  outer := inside.outer
  new := inside.new
  within := Nat.lt_of_lt_of_le inside.within kept.size_le

section Outline

variable (style : CloneStyle) (home : ModuleId) (argument : TypeRef) (p : Program) (parent : Option TypeId) (source : TypeId)

theorem nested_outline : (outline style home argument p parent source).nested = [] := by cases parent <;> rfl

theorem home_outline : (outline style home argument p parent source).home = home := by cases parent <;> rfl

theorem name_outline (named : (p.typeAt source).name ≠ "") : (outline style home argument p parent source).name ≠ "" := by
  cases parent with
  | none =>
    intro empty
    have parts : (p.typeAt source).name ++ style.delimiter ++ argument.fullName p = "" := empty
    rw [String.append_eq_empty_iff,String.append_eq_empty_iff] at parts
    exact named parts.1.1
  | some c => exact named

end Outline

theorem outlined_outline (formed : p₀.WellFormed) (kept : Keeps id p₀ p) (old : source.index < p₀.types.size)
    (generic : (p₀.typeAt source).isGeneric = true)
    (olds : ∀ s ∈ outer, s.owner.index < p₀.types.size) (below : ∀ o ∈ parent, o.index < p.types.size) :
    Outlined home argument p₀ (opened p (outline style home argument p parent source))
      ⟨source,⟨p.types.size⟩,⟨source,argument,⟨p.types.size⟩⟩ :: outer⟩ := by
  have same : p.typeAt source = p₀.typeAt source := kept.view_eq source old
  have decl := typeAt_opened_new (p := p) (outline style home argument p parent source)
  exact {
    old
    generic
    new := ⟨kept.size_le,lt_size_opened _⟩
    chain := ⟨outer,rfl,olds⟩
    blank := by rw [decl]; cases parent <;> rfl
    leaf := by rw [decl,nested_outline]
    flags := by rw [decl,← same]; cases parent <;> rfl
    generics := by rw [decl,← same]; cases parent <;> rfl
    home_eq := by rw [decl,home_outline]
    named := by
      rw [decl]
      exact name_outline _ _ _ _ _ _ (by rw [same]; exact (formed.types source old).named)
    below := by
      intro o declaring
      rw [decl] at declaring
      cases parent with
      | none =>
        have outer : (p₀.typeAt source).declaring = some o := by rw [← same]; exact declaring
        exact Nat.lt_of_lt_of_le (formed.grounded.inside source old o outer) kept.size_le
      | some c => exact below o declaring }

theorem mapM_declareShell {sources : List TypeId} {results : List (Entry × List Shell)}
    (single : ∀ source ∈ sources, ∀ {p q : Program} {entry : Entry} {shells : List Shell}, Inside p₀ p outer c →
      (declareShell style home argument n outer (some c) source).run p = (.ok (entry,shells),q) →
      Shelled home argument p₀ p q entry.flatten shells ∧ ∀ s ∈ shells, Inner p₀ q s) (inside : Inside p₀ p outer c)
    (done : (sources.mapM (declareShell style home argument n outer (some c))).run p = (.ok results,q)) :
    Shelled home argument p₀ p q (flattenAll (results.map Prod.fst)) (results.flatMap Prod.snd) ∧
      ∀ s ∈ results.flatMap Prod.snd, Inner p₀ q s := by
  induction sources generalizing p results with
  | nil =>
    obtain ⟨rfl,rfl⟩ := run_pure_eq_ok.mp done
    exact ⟨.nil home argument p₀ p,nofun⟩
  | cons source rest ih =>
    obtain ⟨⟨entry,shells⟩,r,others,first,later,rfl⟩ := run_mapM_cons_eq_ok.mp done
    obtain ⟨early,inner⟩ := single source (.head _) inside first
    obtain ⟨late,others⟩ := ih (fun t member => single t (.tail _ member)) (inside.mono early.keeps) later
    refine ⟨early.append late,forall_mem_append.mpr ⟨fun s member => ?_,others⟩⟩
    exact (inner s member).congr (congrArg header (late.kept _ (early.outlined s member).new.2))

/-- What follows for a clone once its nested clones are declared. -/
theorem Shelled.node {nested : List (Entry × List Shell)} (formed : p₀.WellFormed) (kept : Keeps id p₀ p)
    (old : source.index < p₀.types.size)
    (generic : (p₀.typeAt source).isGeneric = true) (olds : ∀ s ∈ outer, s.owner.index < p₀.types.size)
    (below : ∀ o ∈ parent, o.index < p.types.size)
    (deeper : Shelled home argument p₀ (opened p (outline style home argument p parent source)) q
      (flattenAll (nested.map Prod.fst)) (nested.flatMap Prod.snd)) :
    Shelled home argument p₀ p q (flatten (.mk source argument ⟨p.types.size⟩
        ((p.methodsOf source).map fun m => (m,⟨⟨p.types.size⟩,m.position⟩)) (nested.map Prod.fst)))
      (⟨source,⟨p.types.size⟩,⟨source,argument,⟨p.types.size⟩⟩ :: outer⟩ :: nested.flatMap Prod.snd) := by
  have methods : p.methodsOf source = p₀.methodsOf source := by
    rw [methodsOf,methodsOf,show p.typeAt source = p₀.typeAt source from kept.view_eq source old]
  have records : Records argument p₀
      (.mk source argument ⟨p.types.size⟩ ((p.methodsOf source).map fun m => (m,⟨⟨p.types.size⟩,m.position⟩))
        (nested.map Prod.fst))
      ⟨source,⟨p.types.size⟩,⟨source,argument,⟨p.types.size⟩⟩ :: outer⟩ :=
    ⟨rfl,rfl,rfl,by rw [← methods]; rfl⟩
  have first := Shelled.single rfl (home_outline style home argument p parent source)
    (outlined_outline formed kept old generic olds below) records
  rw [Entry.flatten]
  exact first.append deeper

theorem nested_generic (formed : p₀.WellFormed) (kept : Keeps id p₀ p) (old : source.index < p₀.types.size)
    (member : t ∈ (p.typeAt source).nested.filter fun t => (p.typeAt t).isGeneric) :
    t.index < p₀.types.size ∧ (p₀.typeAt t).isGeneric = true := by
  obtain ⟨nested,generic⟩ := mem_filter.mp member
  rw [show p.typeAt source = p₀.typeAt source from kept.view_eq source old] at nested
  have inside := ((formed.types source old).nested t nested).1
  rw [show p.typeAt t = p₀.typeAt t from kept.view_eq t inside] at generic
  exact ⟨inside,generic⟩

theorem declareShell_inner (formed : p₀.WellFormed) (inside : Inside p₀ p outer c)
    (old : source.index < p₀.types.size) (generic : (p₀.typeAt source).isGeneric = true)
    (done : (declareShell style home argument n outer (some c) source).run p = (.ok (entry,shells),q)) :
    Shelled home argument p₀ p q entry.flatten shells ∧ ∀ s ∈ shells, Inner p₀ q s := by
  induction n generalizing outer c source p entry shells q with
  | zero => exact absurd done run_throw_ne_ok
  | succ n ih =>
    obtain ⟨nested,ran,rfl,rfl⟩ := declareShell_eq_ok done
    have same : p.typeAt source = p₀.typeAt source := inside.kept.view_eq source old
    have opened_kept := opened_keeps (p := p) (outline style home argument p (some c) source)
    have deep : Inside p₀ (opened p (outline style home argument p (some c) source))
        (⟨source,argument,⟨p.types.size⟩⟩ :: outer) ⟨p.types.size⟩ :=
      ⟨inside.kept.trans opened_kept,forall_mem_cons.mpr ⟨old,inside.outer⟩,inside.kept.size_le,lt_size_opened _⟩
    obtain ⟨deeper,inner⟩ := mapM_declareShell (fun t member {_ _ _ _} there done => by
      obtain ⟨old,generic⟩ := nested_generic formed inside.kept old member
      exact ih there old generic done) deep ran
    have whole := Shelled.node formed inside.kept old generic inside.outer
      (fun o member => by cases member; exact inside.within) deeper
    refine ⟨whole,forall_mem_cons.mpr ⟨?_,inner⟩⟩
    have decl : q.typeAt ⟨p.types.size⟩ = outline style home argument p (some c) source := by
      rw [deeper.kept _ deep.within,typeAt_opened_new]
    refine ⟨by rw [decl]; rfl,?_,c,by rw [decl]; rfl,inside.new⟩
    show (q.typeAt ⟨p.types.size⟩).name = (p₀.typeAt source).name
    rw [decl,← same]
    rfl

/-! ### The clones of a specialization -/

/-- The first clone is named for the argument and stands where its original stands; the others are inside it. -/
structure Rooted (style : CloneStyle) (argument : TypeRef) (p q : Program) (source : TypeId) (first : Shell)
    (rest : List Shell) : Prop where
  source_eq : first.source = source
  clone : first.clone = ⟨p.types.size⟩
  space : (q.typeAt first.clone).space = (p.typeAt source).space
  name : (q.typeAt first.clone).name = (p.typeAt source).name ++ style.delimiter ++ argument.fullName p
  declaring : (q.typeAt first.clone).declaring = (p.typeAt source).declaring
  inner : ∀ s ∈ rest, Inner p q s

theorem Rooted.congr (rooted : Rooted style argument p q source first rest) (agree : Agree header q r) :
    Rooted style argument p r source first rest where
  source_eq := rooted.source_eq
  clone := rooted.clone
  space := (agree.space_eq _).trans rooted.space
  name := (agree.name_eq _).trans rooted.name
  declaring := (agree.declaring_eq _).trans rooted.declaring
  inner s member := (rooted.inner s member).congr (agree.view_eq _)

theorem declareShell_rooted (formed : p.WellFormed) (old : source.index < p.types.size)
    (generic : (p.typeAt source).isGeneric = true)
    (done : (declareShell style home argument n [] none source).run p = (.ok (entry,shells),q)) :
    Shelled home argument p p q entry.flatten shells ∧
      ∃ first rest, shells = first :: rest ∧ Rooted style argument p q source first rest := by
  cases n with
  | zero => exact absurd done run_throw_ne_ok
  | succ n =>
    obtain ⟨nested,ran,rfl,rfl⟩ := declareShell_eq_ok done
    have deep : Inside p (opened p (outline style home argument p none source)) [⟨source,argument,⟨p.types.size⟩⟩]
        ⟨p.types.size⟩ :=
      ⟨opened_keeps _,forall_mem_singleton.mpr old,Nat.le_refl _,lt_size_opened _⟩
    obtain ⟨deeper,inner⟩ := mapM_declareShell (fun t member {_ _ _ _} there done => by
      obtain ⟨old,generic⟩ := nested_generic formed (.refl id p) old member
      exact declareShell_inner formed there old generic done) deep ran
    refine ⟨.node formed (.refl id p) old generic nofun (by simp) deeper,_,_,rfl,?_⟩
    have decl : q.typeAt ⟨p.types.size⟩ = outline style home argument p none source := by
      rw [deeper.kept _ deep.within,typeAt_opened_new]
    exact ⟨rfl,rfl,by rw [decl]; rfl,by rw [decl]; rfl,by rw [decl]; rfl,inner⟩

theorem exists_clone_of_clones (clones : shells.map Shell.clone = (range' n shells.length).map TypeId.mk)
    (new : n ≤ t.index) (inside : t.index < n + shells.length) : ∃ s ∈ shells, s.clone = t := by
  have member : t ∈ shells.map Shell.clone := by
    rw [clones,mem_map]
    exact ⟨t.index,mem_range'_1.mpr ⟨new,inside⟩,rfl⟩
  exact mem_map.mp member

theorem Shelled.exists_clone (shelled : Shelled home argument p₀ p q flat shells)
    (new : p.types.size ≤ t.index) (inside : t.index < q.types.size) : ∃ s ∈ shells, s.clone = t :=
  exists_clone_of_clones shelled.clones new (shelled.size_eq ▸ inside)

theorem Shelled.distinct (shelled : Shelled home argument p₀ p q flat shells) : (shells.map Shell.clone).Nodup := by
  rw [shelled.clones]
  exact Nodup.map (fun _ _ same => congrArg TypeId.index same) nodup_range'

theorem Shelled.grounded (shelled : Shelled home argument p p q flat shells) (grounded : p.Grounded) : q.Grounded := by
  refine grounded.grow (shelled.keeps.map header) fun t new inside o declaring => ?_
  obtain ⟨s,member,rfl⟩ := shelled.exists_clone new inside
  exact (shelled.outlined s member).below o declaring

theorem Shelled.argument_shorter (formed : p.WellFormed) (old : source.index < p.types.size)
    (shelled : Shelled home argument p p q flat (first :: rest))
    (rooted : Rooted style argument p q source first rest) (new : p.types.size ≤ t.index)
    (inside : t.index < q.types.size) : (argument.fullName p).length < (q.fullName t).length := by
  -- a clone inside another has the name of that one, which comes before it, in its own
  induction order : t.index using Nat.strongRecOn generalizing t with
  | ind k ih =>
    obtain ⟨s,member,rfl⟩ := shelled.exists_clone new inside
    rcases mem_cons.mp member with rfl | later
    · refine Nat.lt_of_lt_of_le ?_ q.length_name_le_fullName
      rw [rooted.name,String.length_append,String.length_append]
      have named : (p.typeAt source).name.length ≠ 0 := by
        rw [ne_eq,String.length_eq_zero_iff]
        exact (formed.types source old).named
      omega
    · obtain ⟨o,declaring,beyond⟩ := (rooted.inner s later).within
      have before := (shelled.outlined s member).below o declaring
      have longer := ih o.index (by omega) beyond (by omega) rfl
      rw [fullName_of_declaring ((shelled.grounded formed.grounded).ends _ inside) declaring,
        String.length_append,String.length_append]
      omega

theorem Shelled.family (formed : p.WellFormed) (old : source.index < p.types.size) (declared : p.Declares argument)
    (closed : argument.isOpen = false)
    (shelled : Shelled home argument p p q flat (first :: rest)) (rooted : Rooted style argument p q source first rest) :
    q.Family p.types.size argument ((first :: rest).map (Shell.scope argument)) where
  target := by simp [Shell.scope]
  old := by
    intro c member
    obtain ⟨s,among,rfl⟩ := mem_map.mp member
    exact (shelled.outlined s among).old
  new := by
    intro c member
    obtain ⟨s,among,rfl⟩ := mem_map.mp member
    exact (shelled.outlined s among).new
  distinct := by
    rw [map_map]
    exact shelled.distinct
  closed := closed
  named := by
    intro c member u within d element same
    obtain ⟨s,among,rfl⟩ := mem_map.mp member
    obtain ⟨new,inside⟩ := (shelled.outlined s among).new
    have longer := shelled.argument_shorter formed old rooted new inside
    have shorter := p.length_fullName_le within element
    rw [(shelled.keeps.map header).fullName_eq formed.grounded (declared u within d element)] at same
    rw [same] at shorter
    exact absurd longer (Nat.not_lt.mpr shorter)

end Cloning
end Loom
