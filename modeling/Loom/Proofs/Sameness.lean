import Loom.Program.Sameness
import Loom.Proofs.References
import Mathlib.Data.Nat.Find

/-!
Sameness through canonical forms. A canonical form has one declaration for each full name and parameters without names;
two references are the same exactly when their canonical forms are equal. Signatures are compared with a form that keeps
of a parameter its position and kind.
-/
namespace Loom

open List TypeRef

variable {a b t u : TypeRef} {as bs : List TypeRef} {f : GenericParam → TypeRef}

namespace TypeRef

mutual
/-- The reference with other declarations and parameters in place. -/
def relabel (h : TypeId → TypeId) (k : GenericParam → GenericParam) : TypeRef → TypeRef
  | .absent => .absent
  | .decl t => .decl (h t)
  | .param g => .param (k g)
  | .applied t args => .applied (h t) (relabelList h k args)
/-- The references with other declarations and parameters in place. -/
def relabelList (h : TypeId → TypeId) (k : GenericParam → GenericParam) : List TypeRef → List TypeRef
  | [] => []
  | a :: as => relabel h k a :: relabelList h k as
end

variable {h : TypeId → TypeId} {k : GenericParam → GenericParam}

theorem relabelList_eq (args : List TypeRef) : relabelList h k args = args.map (relabel h k) := by
  induction args with
  | nil => rfl
  | cons a rest ih => rw [relabelList,ih,map_cons]

@[simp] theorem relabel_absent : relabel h k .absent = .absent := rfl

@[simp] theorem relabel_decl (t : TypeId) : relabel h k (.decl t) = .decl (h t) := rfl

@[simp] theorem relabel_param (g : GenericParam) : relabel h k (.param g) = .param (k g) := rfl

@[simp] theorem relabel_applied (t : TypeId) (args : List TypeRef) :
    relabel h k (.applied t args) = .applied (h t) (args.map (relabel h k)) := by
  rw [relabel,relabelList_eq]

theorem mem_parts_relabel : u ∈ (relabel h k t).parts ↔ ∃ v ∈ t.parts, relabel h k v = u := by
  induction t with
  | absent => simp [eq_comm]
  | decl d => simp [eq_comm]
  | param g => simp [eq_comm]
  | applied d args ih =>
    rw [relabel_applied,mem_parts_applied]
    constructor
    · rintro (same | ⟨b,image,within⟩)
      · exact ⟨.applied d args,mem_parts_self _,by rw [same,relabel_applied]⟩
      · obtain ⟨a,member,rfl⟩ := mem_map.mp image
        obtain ⟨v,inner,same⟩ := (ih a member).mp within
        exact ⟨v,mem_parts_applied.mpr (.inr ⟨a,member,inner⟩),same⟩
    · rintro ⟨v,within,same⟩
      rcases mem_parts_applied.mp within with whole | ⟨a,member,inner⟩
      · exact .inl (by rw [← same,whole,relabel_applied])
      · exact .inr ⟨relabel h k a,mem_map_of_mem member,(ih a member).mpr ⟨v,inner,same⟩⟩

theorem relabel_mapParams (respects : ∀ g, relabel h k (f (k g)) = relabel h k (f g))
    (t : TypeRef) : relabel h k (t.mapParams f) = (relabel h k t).mapParams fun g => relabel h k (f g) := by
  induction t with
  | absent => rfl
  | decl d => rfl
  | param g => exact (respects g).symm
  | applied d args ih =>
    simp only [mapParams_applied,relabel_applied,map_map]
    congr 1
    exact map_congr_left fun a member => ih a member

theorem relabel_congr {h' : TypeId → TypeId}
    (agree : ∀ u ∈ t.parts, ∀ d, u.element? = some d → h d = h' d) : relabel h k t = relabel h' k t := by
  induction t with
  | absent => rfl
  | decl d => rw [relabel_decl,relabel_decl,agree _ (mem_parts_self _) d rfl]
  | param g => rfl
  | applied d args ih =>
    rw [relabel_applied,relabel_applied,agree _ (mem_parts_self _) d rfl]
    congr 1
    exact map_congr_left fun a member =>
      ih a member fun u within => agree u (mem_parts_applied.mpr (.inr ⟨a,member,within⟩))

end TypeRef

def GenericParam.bare (g : GenericParam) : GenericParam := { g with name := "" }

def GenericParam.positional (g : GenericParam) : GenericParam :=
  ⟨if g.isMethod then .reference default else .type ⟨0⟩,g.position,""⟩

namespace Program

variable {p : Program}

theorem sameDecl_iff {a b : TypeId} : p.sameDecl a b = true ↔ p.fullName a = p.fullName b := by
  rw [sameDecl,Bool.or_eq_true,beq_iff_eq,beq_iff_eq]
  constructor
  · rintro (rfl | same)
    · rfl
    · exact same
  · exact .inr

/-- The first declaration with the full name of the given one. -/
def representative (p : Program) (t : TypeId) : TypeId :=
  ⟨Nat.find (⟨t.index,rfl⟩ : ∃ i, p.fullName ⟨i⟩ = p.fullName t)⟩

theorem fullName_representative (t : TypeId) : p.fullName (p.representative t) = p.fullName t :=
  Nat.find_spec (⟨t.index,rfl⟩ : ∃ i, p.fullName ⟨i⟩ = p.fullName t)

theorem representative_le (t : TypeId) : (p.representative t).index ≤ t.index :=
  Nat.find_min' (⟨t.index,rfl⟩ : ∃ i, p.fullName ⟨i⟩ = p.fullName t) rfl

theorem representative_eq_iff {a b : TypeId} : p.representative a = p.representative b ↔ p.fullName a = p.fullName b := by
  constructor
  · intro same
    rw [← fullName_representative a,same,fullName_representative]
  · intro same
    simp only [representative,same]

/-- The form of a reference that sameness compares. -/
def canonical (p : Program) (t : TypeRef) : TypeRef := t.relabel p.representative GenericParam.bare

def signatureForm (p : Program) (t : TypeRef) : TypeRef := t.relabel p.representative GenericParam.positional

theorem canonical_applied (t : TypeId) (args : List TypeRef) :
    p.canonical (.applied t args) = .applied (p.representative t) (args.map p.canonical) :=
  relabel_applied t args

theorem canonical_mapParams_congr (respects : ∀ g : GenericParam, p.canonical (f g.bare) = p.canonical (f g))
    (same : p.canonical a = p.canonical b) : p.canonical (a.mapParams f) = p.canonical (b.mapParams f) := by
  have both (t : TypeRef) : p.canonical (t.mapParams f) = (p.canonical t).mapParams fun g => p.canonical (f g) :=
    relabel_mapParams respects t
  rw [both,both,same]

theorem sameList_iff_of (each : ∀ a ∈ as, ∀ b, p.same a b = true ↔ p.canonical a = p.canonical b) :
    p.sameList as bs = true ↔ as.map p.canonical = bs.map p.canonical := by
  induction as generalizing bs with
  | nil => cases bs <;> simp [sameList]
  | cons a rest ih =>
    cases bs with
    | nil => simp [sameList]
    | cons b others =>
      rw [sameList,Bool.and_eq_true,each a (.head _),ih fun a member => each a (.tail _ member),map_cons,
        map_cons,cons.injEq]

theorem same_iff : p.same a b = true ↔ p.canonical a = p.canonical b := by
  induction a generalizing b with
  | absent => cases b <;> simp [same,canonical]
  | decl d => cases b <;> simp [same,canonical,sameDecl_iff,representative_eq_iff]
  | param g =>
    cases b <;> simp [same,canonical,GenericParam.bare]
  | applied d args ih =>
    cases b with
    | applied e others =>
      rw [same,Bool.and_eq_true,sameDecl_iff,sameList_iff_of ih,← representative_eq_iff,canonical,canonical,
        relabel_applied,relabel_applied,applied.injEq]
      rfl
    | _ => simp [same,canonical]

theorem sameSignatureList_iff_of {α : Type} {form : TypeRef → α}
    (each : ∀ a ∈ as, ∀ b, p.sameSignature a b = true ↔ form a = form b) :
    p.sameSignatureList as bs = true ↔ as.map form = bs.map form := by
  induction as generalizing bs with
  | nil => cases bs <;> simp [sameSignatureList]
  | cons a rest ih =>
    cases bs with
    | nil => simp [sameSignatureList]
    | cons b others =>
      rw [sameSignatureList,Bool.and_eq_true,each a (.head _),ih fun a member => each a (.tail _ member),
        map_cons,map_cons,cons.injEq]

theorem positional_eq_iff {g h : GenericParam} :
    g.positional = h.positional ↔ g.position = h.position ∧ g.isMethod = h.isMethod := by
  rw [GenericParam.positional,GenericParam.positional,GenericParam.mk.injEq]
  cases g.isMethod <;> cases h.isMethod <;> simp

theorem sameSignature_iff : p.sameSignature a b = true ↔ p.signatureForm a = p.signatureForm b := by
  induction a generalizing b with
  | absent => cases b <;> simp [sameSignature,signatureForm]
  | decl d => cases b <;> simp [sameSignature,signatureForm,sameDecl_iff,representative_eq_iff]
  | param g => cases b <;> simp [sameSignature,signatureForm,positional_eq_iff]
  | applied d args ih =>
    cases b with
    | applied e others =>
      rw [sameSignature,Bool.and_eq_true,sameDecl_iff,sameSignatureList_iff_of ih,← representative_eq_iff,
        signatureForm,signatureForm,relabel_applied,relabel_applied,applied.injEq]
      rfl
    | _ => simp [sameSignature,signatureForm]

theorem sameSignatureList_iff : p.sameSignatureList as bs = true ↔ as.map p.signatureForm = bs.map p.signatureForm :=
  sameSignatureList_iff_of fun _ _ _ => sameSignature_iff

theorem exists_part_of_canonical_eq {d : TypeId} (same : p.canonical a = p.canonical b)
    (within : u ∈ a.parts) (element : u.element? = some d) :
    ∃ v ∈ b.parts, ∃ e, v.element? = some e ∧ p.fullName e = p.fullName d := by
  have image : p.canonical u ∈ (p.canonical b).parts := same ▸ mem_parts_relabel.mpr ⟨u,within,rfl⟩
  obtain ⟨v,inner,equal⟩ := mem_parts_relabel.mp image
  refine ⟨v,inner,?_⟩
  cases u <;> cases v <;> simp_all [canonical,element?,representative_eq_iff]

theorem isOpen_canonical (t : TypeRef) : (p.canonical t).isOpen = t.isOpen := by
  rw [Bool.eq_iff_iff,isOpen_iff,isOpen_iff]
  constructor
  · rintro ⟨g,within⟩
    obtain ⟨v,inner,same⟩ := mem_parts_relabel.mp within
    cases v with
    | param h => exact ⟨h,inner⟩
    | _ => simp at same
  · rintro ⟨g,within⟩
    exact ⟨g.bare,mem_parts_relabel.mpr ⟨.param g,within,rfl⟩⟩

end Program
end Loom
