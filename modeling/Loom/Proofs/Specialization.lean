import Loom.Proofs.CloneBodies

/-!
Specialization as a whole. A specialization that succeeds extends the program by a family of clones; every clone has
the declaration, the members and the bodies of its original, brought over at its own site.
-/
namespace Loom

open Runs List Program TypeDecl

namespace Cloning

variable {style : CloneStyle} {home : ModuleId} {argument : TypeRef} {source : TypeId} {p q : Program} {entry : Entry}
  {shells : List Shell}

def familyOf (argument : TypeRef) (shells : List Shell) : List Scope := shells.map (Shell.scope argument)

/-- A clone of a type of `p` in `q`: its declaration, its members and its bodies. -/
structure CloneOf (style : CloneStyle) (home : ModuleId) (argument : TypeRef) (family : List Scope) (p q : Program)
    (s : Shell) : Prop extends Declared home argument p q s where
  base : (typeSite family s).type q (p.typeAt s.source).base = .ok (q.typeAt s.clone).base
  interfaces : List.Forall₂ (fun a b => (typeSite family s).type q a = .ok b)
    (p.typeAt s.source).interfaces (q.typeAt s.clone).interfaces
  attributes : (q.typeAt s.clone).attributes =
    (p.typeAt s.source).attributes.filter fun a => !style.dropped.contains (q.fullName a.type)
  fields : List.Forall₂ (fun a b : FieldDecl =>
    b.name = a.name ∧ b.isStatic = a.isStatic ∧ (typeSite family s).type q a.type = .ok b.type)
    (p.typeAt s.source).fields (q.typeAt s.clone).fields
  count : (q.typeAt s.clone).methods.length = (p.typeAt s.source).methods.length
  signatures : ∀ m ∈ p.methodsOf s.source, SignatureCloned family q s m (p.methodAt m) (q.methodAt ⟨s.clone,m.position⟩)
  bodies : ∀ m ∈ p.methodsOf s.source, BodyFilled family q s m

structure Specialized (style : CloneStyle) (home : ModuleId) (source : TypeId) (argument : TypeRef) (p q : Program)
    (entry : Entry) (shells : List Shell) : Prop where
  grown : p.Extends q
  grounded : q.Grounded
  size_eq : q.types.size = p.types.size + shells.length
  family : q.Family p.types.size argument (familyOf argument shells)
  records : List.Forall₂ (Records argument p) entry.flatten shells
  clones : shells.map Shell.clone = (List.range' p.types.size shells.length).map TypeId.mk
  rooted : ∃ first rest, shells = first :: rest ∧ Rooted style argument p q source first rest
  listed : home.index < p.modules.size → ListedIn home p q (shells.map Shell.clone)
  each : ∀ s ∈ shells, CloneOf style home argument (familyOf argument shells) p q s
  new : ∀ c : MethodId, p.types.size ≤ c.owner.index → ∀ b, (q.methodAt c).body = some b →
    b.code.Nodup ∧ ∀ i ∈ b.code, p.code.size ≤ i.index ∧ i.index < q.code.size
  separate : ∀ c d : MethodId, p.types.size ≤ c.owner.index → p.types.size ≤ d.owner.index → ∀ b e,
    (q.methodAt c).body = some b → (q.methodAt d).body = some e → ∀ i ∈ b.code, i ∈ e.code → c = d

theorem refusal?_eq_none (accepted : refusal? p source argument = none) :
    (p.typeAt source).generics.length = 1 ∧ argument ≠ .absent ∧ argument.isOpen = false := by
  simp only [refusal?] at accepted
  split at accepted
  · cases accepted
  · split at accepted
    · cases accepted
    · split at accepted
      · cases accepted
      · split at accepted
        · cases accepted
        · next some_ one present closed =>
          refine ⟨by omega,?_,Bool.eq_false_iff.mpr closed⟩
          rintro rfl
          exact present rfl

theorem index_of_accepted (accepted : refusal? p source argument = none) : source.index < p.types.size := by
  refine Nat.lt_of_not_le fun outside => ?_
  have one := (refusal?_eq_none accepted).1
  rw [typeAt_of_le outside] at one
  cases one

theorem specialize_phases (done : (specialize style home source argument).run p = (.ok entry,q)) :
    ∃ shells x y, refusal? p source argument = none ∧
      (declareShell style home argument (p.types.size + 1) [] none source).run p = (.ok (entry,shells),x) ∧
      (shells.forM (declareMembers style (shells.flatMap fun s => s.chain.head?.toList))).run x = (.ok ⟨⟩,y) ∧
      (shells.forM fun shell => (do
        ((← get).methodsOf shell.source).forM (fillBody (shells.flatMap fun s => s.chain.head?.toList) shell) :
          Cloning PUnit)).run y = (.ok ⟨⟩,q) := by
  rw [specialize,run_get_bind] at done
  cases refused : refusal? p source argument with
  | some failure =>
    simp only [refused] at done
    exact absurd done run_throw_bind_ne_ok
  | none =>
    simp only [refused] at done
    obtain ⟨⟨entry',shells⟩,x,declared,done⟩ := run_bind_eq_ok.mp done
    obtain ⟨_,y,members,done⟩ := run_bind_eq_ok.mp done
    obtain ⟨_,_,bodies,done⟩ := run_bind_eq_ok.mp done
    obtain ⟨rfl,rfl⟩ := run_pure_eq_ok.mp done
    exact ⟨shells,x,y,rfl,declared,members,bodies⟩

variable {x y : Program} {flat : List Entry}

section

variable (shelled : Shelled home argument p p x flat shells)
include shelled

theorem Shelled.family_eq : (shells.flatMap fun s => s.chain.head?.toList) = familyOf argument shells := by
  have each : ∀ s ∈ shells, s.chain.head?.toList = [s.scope argument] := by
    intro s member
    obtain ⟨outer,chain,-⟩ := (shelled.outlined s member).chain
    rw [chain]
    rfl
  rw [familyOf,← flatMap_pure_eq_map]
  exact flatMap_congr each

theorem Shelled.apart : ∀ s ∈ shells, ∀ c ∈ shells, s.source ≠ c.clone := by
  intro s member c among same
  have old := (shelled.outlined s member).old
  have new := (shelled.outlined c among).new.1
  rw [same] at old
  omega

theorem Membered.kept {family : List Scope} (membered : Membered style family shells x y) {t : TypeId}
    (old : t.index < p.types.size) :
    y.typeAt t = p.typeAt t := by
  rw [membered.elsewhere t fun s member same => ?_,shelled.kept t old]
  have new := (shelled.outlined s member).new.1
  rw [← same] at new
  omega

end

theorem Membered.ready {family : List Scope} (formed : p.WellFormed) (shelled : Shelled home argument p p x flat shells)
    (membered : Membered style family shells x y) : Ready p.types.size y shells := by
  exact {
    old := fun s member => (shelled.outlined s member).old
    new := fun s member => by rw [membered.agree.size_eq]; exact (shelled.outlined s member).new
    distinct := fun _ member _ among same => inj_on_of_nodup_map shelled.distinct member among same
    bare := fun c beyond => by
      by_cases inside : c.owner.index < y.types.size
      · rw [membered.agree.size_eq] at inside
        obtain ⟨s,member,clone⟩ := shelled.exists_clone beyond inside
        rw [methodAt,← clone]
        cases at_ : (y.typeAt s.clone).methods[c.position]? with
        | none => rfl
        | some d => exact membered.bare s member d (mem_of_getElem? at_)
      · rw [methodAt,typeAt_of_le (Nat.le_of_not_lt inside)]
        rfl
    inside := fun m old b body i member => by
      rw [methodAt_congr (congrArg methods (membered.kept shelled old))] at body
      rw [membered.code_eq,shelled.code_eq]
      exact ((formed.types m.owner old).bodies m rfl b body).inside i member
    count := fun s member => by
      rw [(membered.cloned s member).count,membered.elsewhere _ fun c among => shelled.apart s member c among] }

theorem Filling.cloneOf {s : Shell} {visited : List (Shell × MethodId)} (shelled : Shelled home argument p p x flat shells)
    (membered : Membered style (familyOf argument shells) shells x y)
    (filling : Filling (familyOf argument shells) p.types.size y q visited) (member : s ∈ shells)
    (visits : ∀ m ∈ p.methodsOf s.source, (s,m) ∈ visited) :
    CloneOf style home argument (familyOf argument shells) p q s := by
  have headers : Agree header x q := membered.agree.trans filling.agree.header
  have cloned := (membered.cloned s member).congr filling.agree.header
    fun j => filling.agree.method_eq _ MethodDecl.generics fun _ => rfl
  rw [shelled.kept _ (shelled.outlined s member).old] at cloned
  have part {α : Type} (view : TypeDecl → α) (kept : ∀ d, view d.signature = view d) :
      view (q.typeAt s.clone) = view (y.typeAt s.clone) := by
    rw [← kept,← kept (y.typeAt s.clone),filling.agree.view_eq]
  exact {
    (shelled.outlined s member).toDeclared.congr headers.keeps.size_le (headers.view_eq _) with
    base := by rw [part base fun _ => rfl]; exact cloned.base
    interfaces := by rw [part interfaces fun _ => rfl]; exact cloned.interfaces
    attributes := by rw [part attributes fun _ => rfl]; exact cloned.attributes
    fields := by rw [part fields fun _ => rfl]; exact cloned.fields
    count := by rw [filling.agree.length_methods_eq]; exact cloned.count
    signatures := fun m method => by
      obtain ⟨owner,position⟩ := mem_methodsOf.mp method
      obtain ⟨o,j⟩ := m
      obtain rfl : o = s.source := owner
      have clone : (y.typeAt s.clone).methods[j]? = some (y.methodAt ⟨s.clone,j⟩) :=
        getElem?_methodAt (m := ⟨s.clone,j⟩) (by rw [cloned.count]; exact position)
      have signature := cloned.methods j _ _ (getElem?_methodAt (m := ⟨s.source,j⟩) position) clone
      exact signature.of_signature (filling.agree.method_signature_eq _)
    bodies := fun m method => filling.filled _ (visits m method) }

theorem specialize_specialized (formed : p.WellFormed) (declared : p.Declares argument)
    (done : (specialize style home source argument).run p = (.ok entry,q)) :
    ∃ shells, Specialized style home source argument p q entry shells := by
  obtain ⟨shells,x,y,accepted,outlines,members,bodies⟩ := specialize_phases done
  obtain ⟨one,-,closed⟩ := refusal?_eq_none accepted
  have old := index_of_accepted accepted
  have generic : (p.typeAt source).isGeneric = true := by
    cases generics : (p.typeAt source).generics with
    | nil => rw [generics] at one; cases one
    | cons _ _ => rw [isGeneric,generics]; rfl
  obtain ⟨shelled,first,rest,split,rooted⟩ := declareShell_rooted formed old generic outlines
  rw [shelled.family_eq] at members bodies
  have membered := declareAllMembers_membered (fun s member => (shelled.outlined s member).new.2) shelled.apart
    shelled.distinct (fun s member => (shelled.outlined s member).blank) members
  have ready := membered.ready formed shelled
  have filling := fillBodies_filling ready (.start ready) (forall_mem_nil _) (Subset.refl shells) bodies
  have headers : Agree header x q := membered.agree.trans filling.agree.header
  have same_code : y.code = p.code := membered.code_eq.trans shelled.code_eq
  have types : Keeps id p q := by
    refine ⟨by rw [headers.size_eq]; exact shelled.keeps.size_le,fun t before => ?_⟩
    exact (filling.old t before).trans (membered.kept shelled before)
  have code : KeepsCode p q := by
    refine KeepsCode.trans ⟨by rw [same_code],fun i _ => ?_⟩ filling.code
    rw [instructionAt,instructionAt,same_code]
  refine ⟨shells,?_⟩
  exact {
    grown := ⟨types,code⟩
    grounded := (shelled.grounded formed.grounded).of_agree headers
    size_eq := by rw [headers.size_eq]; exact shelled.size_eq
    family := by
      subst split
      exact (shelled.family formed old declared closed rooted).congr headers
    records := shelled.records
    clones := shelled.clones
    rooted := ⟨first,rest,split,rooted.congr headers⟩
    listed := fun inside => by
      have unchanged : ListedIn home x q [] := .of_eq (filling.modules_eq.trans membered.modules_eq)
      simpa only [append_nil] using (shelled.listed inside).trans unchanged
    each := fun s member => filling.cloneOf shelled membered member fun m method => by
      refine mem_append_right _ (mem_flatMap.mpr ⟨s,member,mem_map_of_mem ?_⟩)
      rw [methodsOf,membered.kept shelled (shelled.outlined s member).old]
      exact method
    new := by rw [← same_code]; exact filling.new
    separate := filling.separate }

theorem Specialized.specialized_eq (specialized : Specialized style home source argument p q entry shells) :
    entry.flatten.map Entry.specialized = shells.map Shell.clone := by
  refine forall₂_eq_eq_eq ▸ forall₂_map_left_iff.mpr (forall₂_map_right_iff.mpr ?_)
  exact specialized.records.imp fun _ _ record => record.specialized

end Cloning
end Loom
