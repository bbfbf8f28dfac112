import Loom.Program.Rebind
import Loom.Proofs.Growth
import Mathlib.Data.List.Find
import Mathlib.Data.List.Nodup

/-!
Well-formed programs: references name declared types with as many arguments as they have parameters, parameters stand
where their owner is in scope, operands are of the kind their operation takes and name members that exist, and a branch
leads into its own body.
-/
namespace Loom

open List
open TypeDecl (signature field? header)
open MethodDecl (paramTypes)

variable {j length start : Nat} {r : MethodRef} {args : List TypeRef} {u : TypeRef} {scope' : List GenericParam}
  {g : GenericParam} {α : Type} {b : Body}

def Operand.reference? : Operand → Option RefId
  | .method o => some o.ref.id
  | _ => Option.none

theorem MethodRef.apply_eq_ok {o : MethodOperand} :
    r.apply args = .ok o ↔ r.generics.length = args.length ∧ o = .applied r args := by
  rw [MethodRef.apply]
  split
  · next count => simp [count,eq_comm]
  · next count => simp [count]

namespace Program

variable {p q : Program}
variable {d : TypeId} {m : MethodId}

/-! ### References -/

/-- A part of a reference names declared types only, with as many arguments as they have parameters, and parameters of
    the scope. -/
def PartFormed (p : Program) (scope : List GenericParam) : TypeRef → Prop
  | .absent => False
  | .decl t => t.index < p.types.size
  | .param g => g ∈ scope
  | .applied t args => t.index < p.types.size ∧ (p.typeAt t).generics.length = args.length

instance (scope : List GenericParam) (t : TypeRef) : Decidable (p.PartFormed scope t) := by
  cases t <;> unfold PartFormed <;> infer_instance

def Formed (p : Program) (scope : List GenericParam) (t : TypeRef) : Prop := ∀ u ∈ t.parts, p.PartFormed scope u

instance (scope : List GenericParam) (t : TypeRef) : Decidable (p.Formed scope t) :=
  inferInstanceAs (Decidable (∀ u ∈ t.parts, p.PartFormed scope u))

/-- A reference that is formed, or no reference at all. -/
def MaybeFormed (p : Program) (scope : List GenericParam) (t : TypeRef) : Prop := t = .absent ∨ p.Formed scope t

variable {scope : List GenericParam} {t : TypeRef}

theorem PartFormed.mono (kept : Keeps header p q) (formed : p.PartFormed scope t) : q.PartFormed scope t := by
  cases t with
  | absent => exact formed
  | decl d => exact Nat.lt_of_lt_of_le formed kept.size_le
  | param g => exact formed
  | applied d args => exact ⟨Nat.lt_of_lt_of_le formed.1 kept.size_le,by rw [kept.generics formed.1]; exact formed.2⟩

theorem Formed.mono (kept : Keeps header p q) (formed : p.Formed scope t) : q.Formed scope t :=
  fun u within => (formed u within).mono kept

theorem Formed.part (formed : p.Formed scope t) (within : u ∈ t.parts) : p.Formed scope u :=
  fun v inner => formed v (TypeRef.mem_parts_trans inner within)

theorem Formed.weaken (formed : p.Formed scope t) (wider : scope ⊆ scope') : p.Formed scope' t := by
  intro u within
  have part := formed u within
  cases u with
  | param g => exact wider part
  | absent => exact part
  | decl d => exact part
  | applied d args => exact part

theorem Formed.declares (formed : p.Formed scope t) : p.Declares t := by
  intro u within d element
  have part := formed u within
  cases u with
  | decl e => cases element; exact part
  | applied e args => cases element; exact part.1
  | _ => cases element

theorem formed_decl (inside : d.index < p.types.size) : p.Formed scope (.decl d) := by
  intro u within
  rw [TypeRef.mem_parts_decl.mp within]
  exact inside

theorem formed_param (member : g ∈ scope) : p.Formed scope (.param g) := by
  intro u within
  rw [TypeRef.mem_parts_param.mp within]
  exact member

theorem formed_applied (inside : d.index < p.types.size)
    (count : (p.typeAt d).generics.length = args.length) (each : ∀ a ∈ args, p.Formed scope a) :
    p.Formed scope (.applied d args) := by
  intro u within
  rcases TypeRef.mem_parts_applied.mp within with same | ⟨a,member,inner⟩
  · rw [same]
    exact ⟨inside,count⟩
  · exact each a member u inner

theorem applyType_eq_ok :
    p.applyType d args = .ok u ↔ (p.typeAt d).generics.length = args.length ∧ u = .applied d args := by
  rw [applyType]
  split
  · next count => simp [count,eq_comm]
  · next count => simp [count]

theorem Formed.mapParams {f : GenericParam → TypeRef} (formed : p.Formed scope t)
    (each : ∀ g ∈ scope, p.Formed scope' (f g)) : p.Formed scope' (t.mapParams f) := by
  induction t with
  | absent => exact (formed _ (TypeRef.mem_parts_self _)).elim
  | decl d => exact formed_decl (formed _ (TypeRef.mem_parts_self _))
  | param g => exact each g (formed _ (TypeRef.mem_parts_self _))
  | applied d args ih =>
    obtain ⟨inside,count⟩ := formed _ (TypeRef.mem_parts_self _)
    rw [TypeRef.mapParams_applied]
    refine formed_applied inside (by rw [length_map]; exact count) fun a member => ?_
    obtain ⟨b,among,rfl⟩ := mem_map.mp member
    exact ih b among (formed.part (TypeRef.mem_parts_applied.mpr (.inr ⟨b,among,TypeRef.mem_parts_self b⟩)))

theorem Formed.rebindParams {source target : Owner} {names : List String} (other : ∀ g ∈ scope, g.owner ≠ source)
    (formed : p.Formed (scope ++ GenericParam.declare source names) t) : p.Formed (scope ++ GenericParam.declare target names)
      (t.rebindParams source (GenericParam.declare target names)) := by
  refine formed.mapParams fun g member => formed_param ?_
  rcases mem_append.mp member with outer | own
  · rw [if_neg (other g outer)]
    exact mem_append_left _ outer
  · obtain ⟨owner,at_⟩ := GenericParam.mem_declare.mp own
    rw [if_pos owner,GenericParam.getElem?_declare,at_]
    exact mem_append_right _ (GenericParam.mem_declare.mpr ⟨rfl,at_⟩)

theorem MaybeFormed.rebindParams {source target : Owner} {names : List String} (other : ∀ g ∈ scope, g.owner ≠ source)
    (formed : p.MaybeFormed (scope ++ GenericParam.declare source names) t) :
    p.MaybeFormed (scope ++ GenericParam.declare target names)
      (t.rebindParams source (GenericParam.declare target names)) :=
  formed.imp (fun absent => by rw [absent]; rfl) fun formed => formed.rebindParams other

theorem MaybeFormed.mono (kept : Keeps header p q) (formed : p.MaybeFormed scope t) :
    q.MaybeFormed scope t :=
  formed.imp id fun formed => formed.mono kept

theorem MaybeFormed.declares (formed : p.MaybeFormed scope t) : p.Declares t := by
  rcases formed with rfl | formed
  · intro u within d element
    rw [TypeRef.mem_parts_absent.mp within] at element
    cases element
  · exact formed.declares

theorem MaybeFormed.param_mem (formed : p.MaybeFormed scope t) (within : .param g ∈ t.parts) : g ∈ scope := by
  rcases formed with rfl | formed
  · cases TypeRef.mem_parts_absent.mp within
  · exact formed _ within

/-! ### Members -/

def scopeOf (p : Program) (m : MethodId) : List GenericParam := p.typeParams m.owner ++ p.methodParams m

structure SignatureFormed (p : Program) (m : MethodId) : Prop where
  returns : p.MaybeFormed (p.scopeOf m) (p.methodAt m).returns
  params : ∀ t ∈ (p.methodAt m).paramTypes, p.Formed (p.scopeOf m) t

theorem signatureFormed_of_default (absent : p.methodAt m = default) : p.SignatureFormed m := by
  constructor
  · rw [absent]; exact .inl rfl
  · rw [absent]; exact fun _ member => by cases member

structure MembersFormed (p : Program) (t : TypeId) : Prop where
  base : p.MaybeFormed (p.typeParams t) (p.typeAt t).base
  interfaces : ∀ i ∈ (p.typeAt t).interfaces, p.Formed (p.typeParams t) i
  fields : ∀ f ∈ (p.typeAt t).fields, p.Formed (p.typeParams t) f.type
  attributes : ∀ a ∈ (p.typeAt t).attributes, a.type.index < p.types.size ∧ ∀ u, .type u ∈ a.args → p.Formed [] u
  methods : ∀ m : MethodId, m.owner = t → p.SignatureFormed m

theorem typeParams_congr (same : (q.typeAt d).generics = (p.typeAt d).generics) : q.typeParams d = p.typeParams d := by
  rw [typeParams,typeParams,same]

theorem method_congr (same : (q.methodAt m).signature = (p.methodAt m).signature) (part : MethodDecl → α)
    (bodyless : ∀ d, part d.signature = part d) : part (q.methodAt m) = part (p.methodAt m) := by
  rw [← bodyless,same,bodyless]

theorem scopeOf_congr (generics : (q.typeAt m.owner).generics = (p.typeAt m.owner).generics)
    (same : (q.methodAt m).signature = (p.methodAt m).signature) : q.scopeOf m = p.scopeOf m := by
  rw [scopeOf,scopeOf,typeParams_congr generics,methodParams,methodParams,
    method_congr same MethodDecl.generics fun _ => rfl]

theorem methodAt_signature (p : Program) (m : MethodId) :
    (p.methodAt m).signature = (((p.typeAt m.owner).signature.methods)[m.position]?).getD default := by
  rw [methodAt,signature,getElem?_map]
  cases (p.typeAt m.owner).methods[m.position]? <;> rfl

section

variable (kept : Keeps signature p q) {m : MethodId} (inside : m.owner.index < p.types.size)
include kept inside

theorem Keeps.method_signature_eq : (q.methodAt m).signature = (p.methodAt m).signature := by
  rw [methodAt_signature,methodAt_signature,kept.view_eq m.owner inside]

theorem Keeps.method_eq (part : MethodDecl → α) (bodyless : ∀ d, part d.signature = part d) :
    part (q.methodAt m) = part (p.methodAt m) :=
  method_congr (kept.method_signature_eq inside) part bodyless

end

theorem Keeps.methodsOf_eq (kept : Keeps signature p q) {d : TypeId} (inside : d.index < p.types.size) :
    q.methodsOf d = p.methodsOf d := by
  have length : (q.typeAt d).methods.length = (p.typeAt d).methods.length := by
    have same := (kept.map fun d => d.methods.length).view_eq d inside
    simpa only [signature,length_map] using same
  rw [methodsOf,methodsOf,length]

theorem Keeps.typeParams_eq (kept : Keeps TypeDecl.header p q) {d : TypeId} (inside : d.index < p.types.size) :
    q.typeParams d = p.typeParams d :=
  typeParams_congr (kept.generics inside)

theorem Keeps.scopeOf_eq (kept : Keeps signature p q) {m : MethodId} (inside : m.owner.index < p.types.size) :
    q.scopeOf m = p.scopeOf m :=
  scopeOf_congr (kept.header.generics inside) (kept.method_signature_eq inside)

theorem SignatureFormed.mono (kept : Keeps header p q) {m : MethodId} (scope : q.scopeOf m = p.scopeOf m)
    (same : (q.methodAt m).signature = (p.methodAt m).signature) (formed : p.SignatureFormed m) :
    q.SignatureFormed m := by
  constructor
  · rw [scope,method_congr same MethodDecl.returns fun _ => rfl]
    exact formed.returns.mono kept
  · rw [scope,method_congr same paramTypes fun _ => rfl]
    exact fun t member => (formed.params t member).mono kept

theorem MembersFormed.mono (kept : Keeps signature p q) {d : TypeId} (inside : d.index < p.types.size)
    (formed : p.MembersFormed d) : q.MembersFormed d := by
  have base : (q.typeAt d).base = (p.typeAt d).base := (kept.map TypeDecl.base).view_eq d inside
  have interfaces : (q.typeAt d).interfaces = (p.typeAt d).interfaces := (kept.map TypeDecl.interfaces).view_eq d inside
  have fields : (q.typeAt d).fields = (p.typeAt d).fields := (kept.map TypeDecl.fields).view_eq d inside
  have attributes : (q.typeAt d).attributes = (p.typeAt d).attributes := (kept.map TypeDecl.attributes).view_eq d inside
  constructor
  · rw [kept.header.typeParams_eq inside,base]
    exact formed.base.mono kept.header
  · rw [kept.header.typeParams_eq inside,interfaces]
    exact fun i member => (formed.interfaces i member).mono kept.header
  · rw [kept.header.typeParams_eq inside,fields]
    exact fun f member => (formed.fields f member).mono kept.header
  · rw [attributes]
    exact fun a member => ⟨Nat.lt_of_lt_of_le (formed.attributes a member).1 kept.size_le,
      fun u among => ((formed.attributes a member).2 u among).mono kept.header⟩
  · rintro m rfl
    exact (formed.methods m rfl).mono kept.header (kept.scopeOf_eq inside) (kept.method_signature_eq inside)

section

variable (agree : Agree signature p q)
include agree

theorem Agree.method_signature_eq (m : MethodId) : (q.methodAt m).signature = (p.methodAt m).signature := by
  rw [methodAt_signature,methodAt_signature,agree.view_eq m.owner]

theorem Agree.method_eq (m : MethodId) (part : MethodDecl → α) (bodyless : ∀ d, part d.signature = part d) :
    part (q.methodAt m) = part (p.methodAt m) :=
  method_congr (agree.method_signature_eq m) part bodyless

theorem Agree.length_methods_eq (d : TypeId) : (q.typeAt d).methods.length = (p.typeAt d).methods.length := by
  have same := (agree.map fun d => d.methods.length).view_eq d
  simpa only [signature,length_map] using same

theorem Agree.methodsOf_eq (d : TypeId) : q.methodsOf d = p.methodsOf d := by
  rw [methodsOf,methodsOf,agree.length_methods_eq]

theorem Agree.methodFullName_eq (m : MethodId) : q.methodFullName m = p.methodFullName m := by
  have names : TypeRef.fullName q = TypeRef.fullName p :=
    funext fun t => fullName_ref_congr fun _ _ d _ => congrFun agree.header.fullName_eq d
  simp only [methodFullName,fullNames_eq,names,agree.header.fullName_eq,agree.method_eq m MethodDecl.name fun _ => rfl,
    agree.method_eq m MethodDecl.generics fun _ => rfl,agree.method_eq m paramTypes fun _ => rfl]

theorem Agree.findMethod?_eq (d : TypeId) (r : MethodRef) : q.findMethod? d r = p.findMethod? d r := by
  have names (m : MethodId) := agree.method_eq m MethodDecl.name fun _ => rfl
  have generics (m : MethodId) := agree.method_eq m MethodDecl.generics fun _ => rfl
  have params (m : MethodId) := agree.method_eq m paramTypes fun _ => rfl
  simp only [findMethod?,agree.methodsOf_eq,names,generics,params,agree.header.sameSignatureList_eq]

theorem Agree.refOn_eq (m : MethodId) (t : TypeRef) (id : RefId) : q.refOn m t id = p.refOn m t id := by
  simp only [refOn,agree.method_eq m MethodDecl.name fun _ => rfl,agree.method_eq m MethodDecl.returns fun _ => rfl,
    agree.method_eq m paramTypes fun _ => rfl,agree.method_eq m MethodDecl.generics fun _ => rfl,
    agree.method_eq m MethodDecl.isStatic fun _ => rfl]

theorem Agree.field?_eq (d : TypeId) (name : String) : (q.typeAt d).field? name = (p.typeAt d).field? name := by
  have fields : (q.typeAt d).fields = (p.typeAt d).fields := (agree.map TypeDecl.fields).view_eq d
  rw [field?,field?,fields]

end

theorem MembersFormed.declares_params (formed : p.MembersFormed d) {m : MethodId} (owner : m.owner = d) {t : TypeRef}
    (among : t ∈ (p.methodAt m).paramTypes) : p.Declares t :=
  ((formed.methods m owner).params t among).declares

/-- A method answers to a reference: name, number of generic parameters and parameter types agree. -/
def Answers (p : Program) (r : MethodRef) (m : MethodId) : Prop :=
  (p.methodAt m).name = r.name ∧ (p.methodAt m).generics.length = r.generics.length ∧
    p.sameSignatureList (p.methodAt m).paramTypes r.params = true

theorem findMethod?_eq_some (found : p.findMethod? d r = some m) : m ∈ p.methodsOf d ∧ p.Answers r m := by
  refine ⟨mem_of_find?_eq_some found,?_⟩
  have answers := find?_some found
  simpa only [Answers,Bool.and_eq_true,beq_iff_eq,and_assoc] using answers

theorem Keeps.findMethod?_eq (kept : Keeps signature p q) (grounded : p.Grounded) {d : TypeId}
    (inside : d.index < p.types.size) (formed : p.MembersFormed d)
    (declared : ∀ a ∈ r.params, p.Declares a) : q.findMethod? d r = p.findMethod? d r := by
  rw [findMethod?,findMethod?,kept.methodsOf_eq inside]
  refine find?_congr fun m member => ?_
  have owner : m.owner.index < p.types.size := (mem_methodsOf.mp member).1 ▸ inside
  have name : (q.methodAt m).name = (p.methodAt m).name := kept.method_eq owner MethodDecl.name fun _ => rfl
  have generics := kept.method_eq owner MethodDecl.generics fun _ => rfl
  have params : (q.methodAt m).paramTypes = (p.methodAt m).paramTypes :=
    kept.method_eq owner paramTypes fun _ => rfl
  simp only [name,generics,params]
  rw [kept.header.sameSignatureList_eq grounded
    (fun t among => formed.declares_params (mem_methodsOf.mp member).1 among) declared]

/-! ### Bodies -/

/-- A method reference that finds its method, with a signature over the parameters of the declaring type and its own. -/
structure MethodRefFormed (p : Program) (scope : List GenericParam) (r : MethodRef) (d : TypeId) : Prop where
  element : r.declaring.element? = some d
  declaring : p.Formed scope r.declaring
  returns : p.MaybeFormed (p.typeParams d ++ r.genericParams) r.returns
  params : ∀ t ∈ r.params, p.Formed (p.typeParams d ++ r.genericParams) t
  found : (p.findMethod? d r).isSome = true

/-- A method operand that finds its method and has as many arguments as it has parameters. -/
def MethodOperandFormed (p : Program) (scope : List GenericParam) : MethodOperand → Prop
  | .plain r => ∃ d, p.MethodRefFormed scope r d
  | .applied r args =>
    (∃ d, p.MethodRefFormed scope r d) ∧ r.generics.length = args.length ∧ ∀ t ∈ args, p.Formed scope t

structure FieldRefFormed (p : Program) (scope : List GenericParam) (f : FieldRef) (d : TypeId) : Prop where
  element : f.declaring.element? = some d
  declaring : p.Formed scope f.declaring
  fieldType : p.Formed (p.typeParams d) f.fieldType
  found : ((p.typeAt d).field? f.name).isSome = true

def OperandFormed (p : Program) (scope : List GenericParam) (b : Body) : Operand → Prop
  | .type t => p.Formed scope t
  | .method o => p.MethodOperandFormed scope o
  | .field f => ∃ d, p.FieldRefFormed scope f d
  | .branch target => target ∈ b.code
  | _ => True

/-- The method references among instructions are made for a method, each for a place of its own. -/
structure ReferencesFormed (p : Program) (m : MethodId) (code : List InstructionId) : Prop where
  method : ∀ i ∈ code, ∀ r ∈ (p.instructionAt i).operand.reference?, r.method = m
  place : ∀ i ∈ code, ∀ j ∈ code, ∀ r ∈ (p.instructionAt i).operand.reference?,
    ∀ s ∈ (p.instructionAt j).operand.reference?, r.place = s.place → i = j

/-- The body of a method that can have one. No instruction stands in it twice, and no method reference in two
    instructions. -/
structure BodyFormed (p : Program) (m : MethodId) (b : Body) : Prop where
  concrete : (p.methodAt m).isAbstract = false
  managed : (p.methodAt m).native = ""
  locals : ∀ t ∈ b.locals, p.Formed (p.scopeOf m) t
  distinct : b.code.Nodup
  inside : ∀ i ∈ b.code, i.index < p.code.size
  kinds : ∀ i ∈ b.code, (p.instructionAt i).operand.kind = (p.instructionAt i).opcode.operandKind
  operands : ∀ i ∈ b.code, p.OperandFormed (p.scopeOf m) b (p.instructionAt i).operand
  references : p.ReferencesFormed m b.code

theorem BodyFormed.target_mem {p : Program} (formed : BodyFormed p m b) (i : InstructionId)
    (among : i ∈ b.code) (target : InstructionId) (operand : (p.instructionAt i).operand = .branch target) :
    target ∈ b.code := by
  have formed := formed.operands i among
  rwa [operand] at formed

/-- The later program has the instructions of the earlier one. -/
structure KeepsCode (p q : Program) : Prop where
  size_le : p.code.size ≤ q.code.size
  instruction_eq : ∀ i : InstructionId, i.index < p.code.size → q.instructionAt i = p.instructionAt i

theorem KeepsCode.refl (p : Program) : KeepsCode p p := ⟨Nat.le_refl _,fun _ _ => rfl⟩

theorem KeepsCode.trans {r : Program} (early : KeepsCode p q) (late : KeepsCode q r) : KeepsCode p r :=
  ⟨Nat.le_trans early.size_le late.size_le,fun i inside =>
    (late.instruction_eq i (Nat.lt_of_lt_of_le inside early.size_le)).trans (early.instruction_eq i inside)⟩

def block (start length : Nat) : List InstructionId := (List.range length).map fun j => ⟨start + j⟩

theorem getElem?_block (inside : j < length) : (block start length)[j]? = some ⟨start + j⟩ := by
  rw [block,getElem?_map,getElem?_range inside]
  rfl

theorem mem_block {i : InstructionId} : i ∈ block start length ↔ start ≤ i.index ∧ i.index < start + length := by
  rw [block,mem_map]
  constructor
  · rintro ⟨j,inside,rfl⟩
    rw [mem_range] at inside
    exact ⟨Nat.le_add_right _ _,by simpa using inside⟩
  · rintro ⟨from_,before⟩
    refine ⟨i.index - start,by rw [mem_range]; omega,?_⟩
    show (⟨start + (i.index - start)⟩ : InstructionId) = i
    rw [Nat.add_sub_cancel' from_]

theorem nodup_block (start length : Nat) : (block start length).Nodup := by
  refine Nodup.map (fun a c same => ?_) nodup_range
  exact Nat.add_left_cancel (InstructionId.mk.inj same)

def addCode (p : Program) (code : List Instruction) : Program := { p with code := p.code ++ code.toArray }

theorem keepsCode_addCode (code : List Instruction) : KeepsCode p (p.addCode code) where
  size_le := by simp [addCode]
  instruction_eq i inside := by
    rw [instructionAt,instructionAt,addCode,Array.getElem?_append_left inside]

theorem size_addCode (code : List Instruction) : (p.addCode code).code.size = p.code.size + code.length := by
  simp [addCode]

theorem instructionAt_addCode {code : List Instruction} {ins : Instruction} (at_ : code[j]? = some ins) :
    (p.addCode code).instructionAt ⟨p.code.size + j⟩ = ins := by
  rw [instructionAt,addCode,Array.getElem?_append_right (Nat.le_add_right _ _),Nat.add_sub_cancel_left]
  simp [at_]

/-- Every type has a full name and members that are formed. -/
structure Signed (p : Program) : Prop where
  grounded : p.Grounded
  members : ∀ t : TypeId, t.index < p.types.size → p.MembersFormed t

theorem Grounded.of_agree (grounded : p.Grounded) (agree : Agree header p q) : q.Grounded where
  ends t inside := agree.keeps.chainEnds grounded (agree.size_eq ▸ inside)
  inside t inside o declaring := by
    rw [agree.size_eq] at inside ⊢
    exact grounded.inside t inside o (by rwa [agree.keeps.declaring inside] at declaring)

theorem Signed.of_agree (signed : p.Signed) (agree : Agree signature p q) : q.Signed where
  grounded := signed.grounded.of_agree agree.header
  members t inside := (signed.members t (agree.size_eq ▸ inside)).mono agree.keeps (agree.size_eq ▸ inside)

section

variable (kept : Keeps signature p q)
include kept

theorem MethodRefFormed.mono (signed : p.Signed) {d : TypeId} (formed : p.MethodRefFormed scope r d) :
    q.MethodRefFormed scope r d := by
  have inside : d.index < p.types.size :=
    formed.declaring.declares _ (TypeRef.mem_parts_self _) d formed.element
  have params := kept.header.typeParams_eq inside
  refine ⟨formed.element,formed.declaring.mono kept.header,?_,?_,?_⟩
  · rw [params]
    exact formed.returns.mono kept.header
  · rw [params]
    exact fun t member => (formed.params t member).mono kept.header
  · rw [kept.findMethod?_eq signed.grounded inside (signed.members d inside)
      fun t member => (formed.params t member).declares]
    exact formed.found

theorem FieldRefFormed.mono {f : FieldRef} {d : TypeId} (formed : p.FieldRefFormed scope f d) :
    q.FieldRefFormed scope f d := by
  have inside : d.index < p.types.size :=
    formed.declaring.declares _ (TypeRef.mem_parts_self _) d formed.element
  have fields : (q.typeAt d).fields = (p.typeAt d).fields := (kept.map TypeDecl.fields).view_eq d inside
  refine ⟨formed.element,formed.declaring.mono kept.header,?_,?_⟩
  · rw [kept.header.typeParams_eq inside]
    exact formed.fieldType.mono kept.header
  · rw [TypeDecl.field?,fields]
    exact formed.found

theorem OperandFormed.mono (signed : p.Signed) {o : Operand} (formed : p.OperandFormed scope b o) :
    q.OperandFormed scope b o := by
  cases o with
  | type t => exact Formed.mono kept.header formed
  | method o =>
    cases o with
    | plain r =>
      obtain ⟨d,formed⟩ := formed
      exact ⟨d,formed.mono kept signed⟩
    | applied r args =>
      obtain ⟨⟨d,formed⟩,count,args⟩ := formed
      exact ⟨⟨d,formed.mono kept signed⟩,count,fun t member => (args t member).mono kept.header⟩
  | field f =>
    obtain ⟨d,formed⟩ := formed
    exact ⟨d,formed.mono kept⟩
  | _ => exact formed

theorem BodyFormed.congr (signed : p.Signed) {m : MethodId} (inside : m.owner.index < p.types.size)
    (size_le : p.code.size ≤ q.code.size)
    (same : ∀ i ∈ b.code, q.instructionAt i = p.instructionAt i) (formed : p.BodyFormed m b) : q.BodyFormed m b where
  concrete := by
    rw [kept.method_eq inside MethodDecl.isAbstract fun _ => rfl]
    exact formed.concrete
  managed := by
    rw [kept.method_eq inside MethodDecl.native fun _ => rfl]
    exact formed.managed
  locals := by
    rw [kept.scopeOf_eq inside]
    exact fun t member => (formed.locals t member).mono kept.header
  distinct := formed.distinct
  inside i member := Nat.lt_of_lt_of_le (formed.inside i member) size_le
  kinds i member := by
    rw [same i member]
    exact formed.kinds i member
  operands i member := by
    rw [kept.scopeOf_eq inside,same i member]
    exact (formed.operands i member).mono kept signed
  references := by
    refine ⟨fun i member => ?_,fun i member j among => ?_⟩
    · rw [same i member]
      exact formed.references.method i member
    · rw [same i member,same j among]
      exact formed.references.place i member j among

theorem BodyFormed.mono (code : KeepsCode p q) (signed : p.Signed) {m : MethodId}
    (inside : m.owner.index < p.types.size) (formed : p.BodyFormed m b) : q.BodyFormed m b :=
  formed.congr kept signed inside code.size_le fun i member => code.instruction_eq i (formed.inside i member)

end

/-! ### Programs -/

/-- The declaration of a type is in order. -/
structure TypeFormed (p : Program) (t : TypeId) : Prop where
  named : (p.typeAt t).name ≠ ""
  nested : ∀ n ∈ (p.typeAt t).nested, n.index < p.types.size ∧ (p.typeAt n).declaring = some t
  distinct : (p.typeAt t).nested.Nodup
  members : p.MembersFormed t
  bodies : ∀ m : MethodId, m.owner = t → ∀ b, (p.methodAt m).body = some b → p.BodyFormed m b

/-- No two methods share an instruction. -/
def Separate (p : Program) : Prop :=
  ∀ m n b c, (p.methodAt m).body = some b → (p.methodAt n).body = some c → ∀ i ∈ b.code, i ∈ c.code → m = n

/-- The modules list declared types, none twice, and only such are nested in them. -/
structure Listed (p : Program) : Prop where
  top : ∀ h t, t ∈ (p.moduleAt h).types → t.index < p.types.size
  distinct : ∀ h, (p.moduleAt h).types.Nodup
  nested : ∀ t : TypeId, t.index < p.types.size → ∀ n ∈ (p.typeAt t).nested, n.index < p.types.size

theorem Listed.congr (listed : p.Listed) (size : q.types.size = p.types.size)
    (nested : ∀ t, (q.typeAt t).nested = (p.typeAt t).nested) (modules : q.modules = p.modules) : q.Listed where
  top h t member := by
    rw [size]
    exact listed.top h t (by rwa [moduleAt,modules] at member)
  distinct h := by
    rw [moduleAt,modules]
    exact listed.distinct h
  nested t inside n member := by
    rw [size] at inside ⊢
    exact listed.nested t inside n (by rwa [nested] at member)

theorem ListedIn.distinct {home : ModuleId} {roots : List TypeId} (listedIn : ListedIn home p q roots) (listed : p.Listed)
    (distinct : roots.Nodup) (new : ∀ t ∈ roots, p.types.size ≤ t.index) (h : ModuleId) : (q.moduleAt h).types.Nodup := by
  by_cases same : h = home
  · rw [same,listedIn.here]
    refine nodup_append.mpr ⟨listed.distinct home,distinct,fun t old u member same => ?_⟩
    exact absurd (listed.top home t old) (Nat.not_lt_of_le (same ▸ new u member))
  · rw [listedIn.elsewhere h same]
    exact listed.distinct h

theorem Listed.of_agree (listed : p.Listed) (agree : Agree header p q) (modules : q.modules = p.modules) : q.Listed :=
  listed.congr agree.size_eq agree.nested_eq modules

/-- Every declaration of the program is in order. -/
structure WellFormed (p : Program) : Prop where
  grounded : p.Grounded
  listed : p.Listed
  types : ∀ t : TypeId, t.index < p.types.size → p.TypeFormed t
  separate : p.Separate

theorem WellFormed.signed (formed : p.WellFormed) : p.Signed :=
  ⟨formed.grounded,fun t inside => (formed.types t inside).members⟩

theorem WellFormed.body (formed : p.WellFormed) {m : MethodId} (body : (p.methodAt m).body = some b) : p.BodyFormed m b :=
  (formed.types m.owner (owner_lt_of_body body)).bodies m rfl b body

theorem WellFormed.of_bodies (formed : p.WellFormed) (agree : Agree signature p q)
    (modules : q.modules = p.modules) (bodies : ∀ m b, (q.methodAt m).body = some b → q.BodyFormed m b)
    (separate : q.Separate) : q.WellFormed where
  grounded := formed.grounded.of_agree agree.header
  listed := formed.listed.of_agree agree.header modules
  types t inside := by
    have original := formed.types t (agree.size_eq ▸ inside)
    exact {
      named := by rw [agree.header.name_eq]; exact original.named
      nested := fun n member => by
        rw [agree.header.nested_eq] at member
        obtain ⟨within,declaring⟩ := original.nested n member
        exact ⟨by rw [agree.size_eq]; exact within,by rw [agree.header.declaring_eq]; exact declaring⟩
      distinct := by rw [agree.header.nested_eq]; exact original.distinct
      members := original.members.mono agree.keeps (agree.size_eq ▸ inside)
      bodies := fun m _ b body => bodies m b body }
  separate := separate

/-- The later program has the types and instructions of the earlier one as they were. -/
structure Extends (p q : Program) : Prop where
  types : Keeps id p q
  code : KeepsCode p q

theorem Extends.refl (p : Program) : Extends p p := ⟨.refl id p,.refl p⟩

theorem Extends.trans {r : Program} (early : Extends p q) (late : Extends q r) : Extends p r :=
  ⟨early.types.trans late.types,early.code.trans late.code⟩

section

variable (grown : Extends p q)
include grown

theorem Extends.typeAt_eq {t : TypeId} (inside : t.index < p.types.size) : q.typeAt t = p.typeAt t :=
  grown.types.view_eq t inside

theorem Extends.methodAt_eq {m : MethodId} (inside : m.owner.index < p.types.size) :
    q.methodAt m = p.methodAt m := by
  rw [methodAt,methodAt,grown.typeAt_eq inside]

theorem Extends.signatures : Keeps signature p q := grown.types.map signature

theorem Extends.headers : Keeps header p q := grown.types.map header

theorem TypeFormed.mono (formed : p.WellFormed) {t : TypeId} (inside : t.index < p.types.size) :
    q.TypeFormed t where
  named := by
    rw [grown.typeAt_eq inside]
    exact (formed.types t inside).named
  nested n member := by
    rw [grown.typeAt_eq inside] at member
    obtain ⟨within,declaring⟩ := (formed.types t inside).nested n member
    exact ⟨Nat.lt_of_lt_of_le within grown.types.size_le,by rw [grown.typeAt_eq within,declaring]⟩
  distinct := by
    rw [grown.typeAt_eq inside]
    exact (formed.types t inside).distinct
  members := (formed.types t inside).members.mono grown.signatures inside
  bodies m owner b body := by
    have within : m.owner.index < p.types.size := owner ▸ inside
    rw [grown.methodAt_eq within] at body
    exact ((formed.types t inside).bodies m owner b body).mono grown.signatures grown.code formed.signed within

end

end Program
end Loom
