import Loom.Proofs.Sameness
import Loom.Proofs.Store

/-!
Programs that grow. A pass keeps the declarations it finds, seen as a whole, without their bodies or as headers alone.
Full names and sameness depend on headers only, so they stay as declarations are added, provided that every declaring
chain ends.
-/
namespace Loom

open List

variable {t : TypeId}

def MethodDecl.signature (m : MethodDecl) : MethodDecl := { m with body := none }

namespace TypeDecl

def header (d : TypeDecl) : TypeDecl :=
  { d with base := .absent, interfaces := [], fields := [], methods := [], attributes := [] }

def signature (d : TypeDecl) : TypeDecl := { d with methods := d.methods.map MethodDecl.signature }

end TypeDecl

namespace Program

variable {α β : Type} {view : TypeDecl → α} {p q r : Program}

/-! ### Views of declarations -/

/-- The later program has the declarations of the earlier one, as far as the view shows them. -/
structure Keeps (view : TypeDecl → α) (p q : Program) : Prop where
  size_le : p.types.size ≤ q.types.size
  view_eq : ∀ t : TypeId, t.index < p.types.size → view (q.typeAt t) = view (p.typeAt t)

/-- The programs have the same declarations, as far as the view shows them. -/
structure Agree (view : TypeDecl → α) (p q : Program) : Prop where
  size_eq : q.types.size = p.types.size
  view_eq : ∀ t : TypeId, view (q.typeAt t) = view (p.typeAt t)

theorem Keeps.refl (view : TypeDecl → α) (p : Program) : Keeps view p p := ⟨Nat.le_refl _,fun _ _ => rfl⟩

theorem Keeps.trans (early : Keeps view p q) (late : Keeps view q r) : Keeps view p r :=
  ⟨Nat.le_trans early.size_le late.size_le,fun t inside =>
    (late.view_eq t (Nat.lt_of_lt_of_le inside early.size_le)).trans (early.view_eq t inside)⟩

theorem Keeps.map (kept : Keeps view p q) (f : α → β) : Keeps (fun d => f (view d)) p q :=
  ⟨kept.size_le,fun t inside => congrArg f (kept.view_eq t inside)⟩

theorem Agree.refl (view : TypeDecl → α) (p : Program) : Agree view p p := ⟨rfl,fun _ => rfl⟩

theorem Agree.of_types_eq (same : q.types = p.types) : Agree view p q where
  size_eq := by rw [same]
  view_eq t := by rw [typeAt,same]; rfl

theorem Agree.symm (agree : Agree view p q) : Agree view q p := ⟨agree.size_eq.symm,fun t => (agree.view_eq t).symm⟩

theorem Agree.trans (early : Agree view p q) (late : Agree view q r) : Agree view p r :=
  ⟨late.size_eq.trans early.size_eq,fun t => (late.view_eq t).trans (early.view_eq t)⟩

theorem Agree.map (agree : Agree view p q) (f : α → β) : Agree (fun d => f (view d)) p q :=
  ⟨agree.size_eq,fun t => congrArg f (agree.view_eq t)⟩

theorem Agree.keeps (agree : Agree view p q) : Keeps view p q :=
  ⟨Nat.le_of_eq agree.size_eq.symm,fun t _ => agree.view_eq t⟩

theorem Keeps.header (kept : Keeps TypeDecl.signature p q) : Keeps TypeDecl.header p q := kept.map TypeDecl.header

theorem Agree.header (agree : Agree TypeDecl.signature p q) : Agree TypeDecl.header p q := agree.map TypeDecl.header

theorem Agree.modifyType {f : TypeDecl → TypeDecl} (kept : ∀ d, view (f d) = view d) : Agree view p (p.modifyType t f) :=
  ⟨size_modifyType t f,view_modifyType view kept⟩

theorem Agree.modifyMethod {m : MethodId} {f : MethodDecl → MethodDecl} (kept : ∀ d, (f d).signature = d.signature) :
    Agree TypeDecl.signature p (p.modifyMethod m f) := by
  refine .modifyType fun d => ?_
  have methods : (d.methods.modify m.position f).map MethodDecl.signature = d.methods.map MethodDecl.signature := by
    refine ext_getElem? fun i => ?_
    rw [getElem?_map,getElem?_modify,getElem?_map]
    cases d.methods[i]? with
    | none => rfl
    | some d =>
      show some (MethodDecl.signature (if m.position = i then f d else d)) = some d.signature
      split
      · rw [kept]
      · rfl
  rw [TypeDecl.signature,TypeDecl.signature,methods]

section Headers

variable (agree : Agree TypeDecl.header p q) (t : TypeId)
include agree

theorem Agree.name_eq : (q.typeAt t).name = (p.typeAt t).name := (agree.map TypeDecl.name).view_eq t

theorem Agree.space_eq : (q.typeAt t).space = (p.typeAt t).space := (agree.map TypeDecl.space).view_eq t

theorem Agree.generics_eq : (q.typeAt t).generics = (p.typeAt t).generics := (agree.map TypeDecl.generics).view_eq t

theorem Agree.declaring_eq : (q.typeAt t).declaring = (p.typeAt t).declaring := (agree.map TypeDecl.declaring).view_eq t

theorem Agree.nested_eq : (q.typeAt t).nested = (p.typeAt t).nested := (agree.map TypeDecl.nested).view_eq t

end Headers

/-! ### Declaring chains -/

/-- Declaring chains end, and stay among the declarations. -/
structure Grounded (p : Program) : Prop where
  ends : ∀ t : TypeId, t.index < p.types.size → p.chainEnds t = true
  inside : ∀ t : TypeId, t.index < p.types.size → ∀ o, (p.typeAt t).declaring = some o → o.index < p.types.size

theorem chainEndsWithin_mono {m n : Nat} (ends : p.chainEndsWithin m t = true) (le : m ≤ n) :
    p.chainEndsWithin n t = true := by
  induction m generalizing t n with
  | zero => cases ends
  | succ m ih =>
    obtain ⟨n,rfl⟩ : ∃ k, n = k + 1 := ⟨n - 1,by omega⟩
    rw [chainEndsWithin] at ends ⊢
    split at ends
    · exact ih ends (by omega)
    · rfl

theorem fullNameWithin_of_ends {m n : Nat} (ends : p.chainEndsWithin m t = true) (le : m ≤ n) :
    p.fullNameWithin n t = p.fullNameWithin m t := by
  induction m generalizing t n with
  | zero => cases ends
  | succ m ih =>
    obtain ⟨n,rfl⟩ : ∃ k, n = k + 1 := ⟨n - 1,by omega⟩
    rw [chainEndsWithin] at ends
    rw [fullNameWithin,fullNameWithin]
    split at ends
    · rw [ih ends (by omega)]
    · rfl

theorem fullName_of_declaring {o : TypeId} (ends : p.chainEnds t = true) (declaring : (p.typeAt t).declaring = some o) :
    p.fullName t = p.fullName o ++ "/" ++ (p.typeAt t).name := by
  rw [chainEnds,chainEndsWithin,declaring] at ends
  rw [fullName,fullNameWithin,declaring,fullName,fullNameWithin_of_ends ends (Nat.le_succ _)]

theorem fullName_of_top (top : (p.typeAt t).declaring = none) :
    p.fullName t = if (p.typeAt t).space.isEmpty then (p.typeAt t).name
      else (p.typeAt t).space ++ "." ++ (p.typeAt t).name := by
  rw [fullName,fullNameWithin,top]

section

variable (kept : Keeps TypeDecl.header p q)
include kept

theorem Keeps.declaring (inside : t.index < p.types.size) : (q.typeAt t).declaring = (p.typeAt t).declaring :=
  (kept.map TypeDecl.declaring).view_eq t inside

theorem Keeps.generics (inside : t.index < p.types.size) : (q.typeAt t).generics = (p.typeAt t).generics :=
  (kept.map TypeDecl.generics).view_eq t inside

section

variable (grounded : p.Grounded) (inside : t.index < p.types.size)
include grounded inside

theorem Keeps.chainEndsWithin_eq (n : Nat) :
    q.chainEndsWithin n t = p.chainEndsWithin n t := by
  induction n generalizing t with
  | zero => rfl
  | succ n ih =>
    rw [chainEndsWithin,chainEndsWithin,kept.declaring inside]
    cases outer : (p.typeAt t).declaring with
    | none => rfl
    | some o => exact ih (grounded.inside t inside o outer)

theorem Keeps.fullNameWithin_eq (n : Nat) :
    q.fullNameWithin n t = p.fullNameWithin n t := by
  induction n generalizing t with
  | zero => rfl
  | succ n ih =>
    have name : (q.typeAt t).name = (p.typeAt t).name := (kept.map TypeDecl.name).view_eq t inside
    have space : (q.typeAt t).space = (p.typeAt t).space := (kept.map TypeDecl.space).view_eq t inside
    rw [fullNameWithin,fullNameWithin,kept.declaring inside,name,space]
    cases outer : (p.typeAt t).declaring with
    | none => rfl
    | some o => simp only [ih (grounded.inside t inside o outer)]

theorem Keeps.chainEnds : q.chainEnds t = true := by
  rw [Program.chainEnds,kept.chainEndsWithin_eq grounded inside]
  exact chainEndsWithin_mono (grounded.ends t inside) (Nat.succ_le_succ kept.size_le)

theorem Keeps.fullName_eq : q.fullName t = p.fullName t := by
  rw [fullName,kept.fullNameWithin_eq grounded inside,
    fullNameWithin_of_ends (grounded.ends t inside) (Nat.succ_le_succ kept.size_le),fullName]

end

end

theorem length_name_le_fullName (p : Program) : (p.typeAt t).name.length ≤ (p.fullName t).length := by
  rw [fullName,fullNameWithin]
  cases (p.typeAt t).declaring with
  | some o =>
    simp only [String.length_append]
    omega
  | none =>
    simp only
    split
    · exact Nat.le_refl _
    · simp only [String.length_append]
      omega

theorem Grounded.grow (grounded : p.Grounded) (kept : Keeps TypeDecl.header p q)
    (before : ∀ t : TypeId, p.types.size ≤ t.index → t.index < q.types.size →
      ∀ o, (q.typeAt t).declaring = some o → o.index < t.index) : q.Grounded := by
  have ends : ∀ n, ∀ t : TypeId, t.index < p.types.size + n → t.index < q.types.size →
      q.chainEndsWithin (p.types.size + 1 + n) t = true := by
    intro n
    induction n with
    | zero =>
      intro t old _
      rw [kept.chainEndsWithin_eq grounded old]
      exact grounded.ends t old
    | succ n ih =>
      intro t bound inside
      by_cases old : t.index < p.types.size
      · exact chainEndsWithin_mono (ih t (by omega) inside) (by omega)
      · rw [show p.types.size + 1 + (n + 1) = (p.types.size + 1 + n) + 1 by omega,chainEndsWithin]
        cases declaring : (q.typeAt t).declaring with
        | none => rfl
        | some o =>
          have smaller := before t (by omega) inside o declaring
          exact ih o (by omega) (by omega)
  refine ⟨fun t inside => ?_,fun t inside o declaring => ?_⟩
  · refine chainEndsWithin_mono (ends (t.index + 1 - p.types.size) t (by omega) inside) ?_
    have := kept.size_le
    omega
  · by_cases old : t.index < p.types.size
    · rw [kept.declaring old] at declaring
      exact Nat.lt_of_lt_of_le (grounded.inside t old o declaring) kept.size_le
    · exact Nat.lt_trans (before t (by omega) inside o declaring) inside

/-! ### References among the declarations -/

def Declares (p : Program) (t : TypeRef) : Prop := ∀ u ∈ t.parts, ∀ d, u.element? = some d → d.index < p.types.size

theorem length_le_intercalate (separator : String) {s : String} {texts : List String} (member : s ∈ texts) :
    s.length ≤ (separator.intercalate texts).length := by
  induction texts with
  | nil => cases member
  | cons first rest ih =>
    cases rest with
    | nil =>
      rw [mem_singleton.mp member,String.intercalate_singleton]
    | cons second others =>
      rw [String.intercalate_cons_cons,String.length_append,String.length_append]
      rcases mem_cons.mp member with rfl | later
      · omega
      · have bound := ih later
        omega

theorem fullNames_eq (p : Program) (args : List TypeRef) : TypeRef.fullNames p args = args.map (TypeRef.fullName p) := by
  induction args with
  | nil => rfl
  | cons a rest ih => rw [TypeRef.fullNames,ih,map_cons]

theorem length_fullName_le (p : Program) {t u : TypeRef} {d : TypeId} (within : u ∈ t.parts)
    (element : u.element? = some d) : (p.fullName d).length ≤ (t.fullName p).length := by
  induction t with
  | absent => rw [TypeRef.mem_parts_absent.mp within] at element; cases element
  | decl e => rw [TypeRef.mem_parts_decl.mp within] at element; cases element; rw [TypeRef.fullName]
  | param g => rw [TypeRef.mem_parts_param.mp within] at element; cases element
  | applied e args ih =>
    rw [TypeRef.fullName]
    simp only [String.length_append]
    rcases TypeRef.mem_parts_applied.mp within with rfl | ⟨a,member,inner⟩
    · cases element
      omega
    · have deeper := ih a member inner
      have listed : (a.fullName p).length ≤ (", ".intercalate (TypeRef.fullNames p args)).length :=
        length_le_intercalate _ (by rw [fullNames_eq]; exact mem_map_of_mem member)
      omega

theorem Declares.part {t u : TypeRef} (declared : p.Declares t) (within : u ∈ t.parts) : p.Declares u :=
  fun v inner => declared v (TypeRef.mem_parts_trans inner within)

theorem Declares.mono (kept : Keeps view p q) {t : TypeRef} (declared : p.Declares t) : q.Declares t :=
  fun u within d element => Nat.lt_of_lt_of_le (declared u within d element) kept.size_le

theorem fullName_ref_congr {t : TypeRef} (names : ∀ u ∈ t.parts, ∀ d, u.element? = some d → q.fullName d = p.fullName d) :
    t.fullName q = t.fullName p := by
  induction t with
  | absent => rfl
  | decl d => exact names _ (TypeRef.mem_parts_self _) d rfl
  | param g => rfl
  | applied d args ih =>
    have each : args.map (TypeRef.fullName q) = args.map (TypeRef.fullName p) := by
      refine map_congr_left fun a member => ih a member fun u within => names u ?_
      exact TypeRef.mem_parts_applied.mpr (.inr ⟨a,member,within⟩)
    rw [TypeRef.fullName,TypeRef.fullName,fullNames_eq,fullNames_eq,names _ (TypeRef.mem_parts_self _) d rfl,each]

section

variable (kept : Keeps TypeDecl.header p q)
include kept

section

variable (grounded : p.Grounded)
include grounded

theorem Keeps.fullName_ref_eq {t : TypeRef} (declared : p.Declares t) :
    t.fullName q = t.fullName p :=
  fullName_ref_congr fun u within d element => kept.fullName_eq grounded (declared u within d element)

theorem Keeps.representative_eq (inside : t.index < p.types.size) :
    q.representative t = p.representative t := by
  have named : ∀ i ≤ t.index, q.fullName ⟨i⟩ = p.fullName ⟨i⟩ := fun i le =>
    kept.fullName_eq grounded (t := ⟨i⟩) (Nat.lt_of_le_of_lt le inside)
  rw [representative,representative,TypeId.mk.injEq,Nat.find_eq_iff]
  have least := representative_le (p := p) t
  constructor
  · exact (named _ least).trans ((fullName_representative t).trans (named t.index le_rfl).symm)
  · intro i less same
    have before : i ≤ t.index := Nat.le_trans (Nat.le_of_lt less) least
    exact Nat.find_min _ less ((named i before).symm.trans (same.trans (named t.index le_rfl)))

theorem Keeps.canonical_eq {t : TypeRef} (declared : p.Declares t) :
    q.canonical t = p.canonical t :=
  TypeRef.relabel_congr fun u within d element => kept.representative_eq grounded (declared u within d element)

theorem Keeps.signatureForm_eq {t : TypeRef} (declared : p.Declares t) :
    q.signatureForm t = p.signatureForm t :=
  TypeRef.relabel_congr fun u within d element => kept.representative_eq grounded (declared u within d element)

theorem Keeps.same_eq {a b : TypeRef} (left : p.Declares a) (right : p.Declares b) :
    q.same a b = p.same a b := by
  rw [Bool.eq_iff_iff,same_iff,same_iff,kept.canonical_eq grounded left,kept.canonical_eq grounded right]

theorem Keeps.sameSignatureList_eq {as bs : List TypeRef} (left : ∀ a ∈ as, p.Declares a)
    (right : ∀ b ∈ bs, p.Declares b) :
    q.sameSignatureList as bs = p.sameSignatureList as bs := by
  rw [Bool.eq_iff_iff,sameSignatureList_iff,sameSignatureList_iff,
    map_congr_left fun a member => kept.signatureForm_eq grounded (left a member),
    map_congr_left fun b member => kept.signatureForm_eq grounded (right b member)]

end

end

/-! ### Programs with the same headers -/

section

variable (agree : Agree TypeDecl.header p q)
include agree

theorem Agree.fullName_eq : q.fullName = p.fullName := by
  have within : ∀ n t, q.fullNameWithin n t = p.fullNameWithin n t := by
    intro n
    induction n with
    | zero => exact fun _ => rfl
    | succ n ih =>
      intro t
      simp only [fullNameWithin,agree.name_eq t,agree.space_eq t,agree.declaring_eq t,ih]
  funext t
  rw [fullName,fullName,agree.size_eq,within]

theorem Agree.representative_eq : q.representative = p.representative := by
  funext t
  simp only [representative,agree.fullName_eq]

theorem Agree.canonical_eq : q.canonical = p.canonical := by
  funext t
  simp only [canonical,agree.representative_eq]

theorem Agree.same_eq (a b : TypeRef) : q.same a b = p.same a b := by
  rw [Bool.eq_iff_iff,same_iff,same_iff,agree.canonical_eq]

theorem Agree.sameSignatureList_eq (as bs : List TypeRef) : q.sameSignatureList as bs = p.sameSignatureList as bs := by
  have forms : q.signatureForm = p.signatureForm := by
    funext t
    simp only [signatureForm,agree.representative_eq]
  rw [Bool.eq_iff_iff,sameSignatureList_iff,sameSignatureList_iff,forms]

end

end Program
end Loom
