import Loom.Program

/-!
Reading a program after writing to it. A write changes the one declaration or instruction it names; what was declared
before keeps its place when something is added.
-/
namespace Loom.Program

open List

variable {p : Program}
variable {t : TypeId} {m : MethodId}
variable {i j : InstructionId} {f : TypeDecl → TypeDecl}

theorem modify_concat {α : Type} (xs : List α) (a : α) (f : α → α) : (xs ++ [a]).modify xs.length f = xs ++ [f a] := by
  induction xs with
  | nil => rfl
  | cons x rest ih => rw [cons_append,length_cons,modify_succ_cons,ih,cons_append]

theorem typeAt_of_le (outside : p.types.size ≤ t.index) : p.typeAt t = default := by
  rw [typeAt,Array.getElem?_eq_none outside]
  rfl

theorem typeAt_eq_of_getElem? {d : TypeDecl} (found : p.types[t.index]? = some d) : p.typeAt t = d := by
  rw [typeAt,found]
  rfl

theorem getElem?_typeAt (inside : t.index < p.types.size) : p.types[t.index]? = some (p.typeAt t) := by
  rw [typeAt,Array.getElem?_eq_getElem inside]
  rfl

@[simp] theorem size_modifyType (t : TypeId) (f : TypeDecl → TypeDecl) : (p.modifyType t f).types.size = p.types.size := by
  simp [modifyType]

theorem typeAt_modifyType_self (inside : t.index < p.types.size) (f : TypeDecl → TypeDecl) :
    (p.modifyType t f).typeAt t = f (p.typeAt t) := by
  apply typeAt_eq_of_getElem?
  rw [modifyType,Array.getElem?_modify,if_pos rfl,getElem?_typeAt inside]
  rfl

theorem typeAt_modifyType_of_ne {u : TypeId} (different : u ≠ t) (f : TypeDecl → TypeDecl) :
    (p.modifyType t f).typeAt u = p.typeAt u := by
  have apart : t.index ≠ u.index := fun same => different (congrArg TypeId.mk same.symm)
  rw [typeAt,modifyType,Array.getElem?_modify,if_neg apart]
  rfl

theorem view_modifyType {α : Type} (view : TypeDecl → α) {t : TypeId}
    (kept : ∀ d, view (f d) = view d) (u : TypeId) : view ((p.modifyType t f).typeAt u) = view (p.typeAt u) := by
  by_cases same : u = t
  · subst same
    by_cases inside : u.index < p.types.size
    · rw [typeAt_modifyType_self inside,kept]
    · rw [typeAt_of_le (by simpa using inside),typeAt_of_le (by simpa using inside)]
  · rw [typeAt_modifyType_of_ne same]

theorem modifyType_congr {g : TypeDecl → TypeDecl} (same : f (p.typeAt t) = g (p.typeAt t)) :
    p.modifyType t f = p.modifyType t g := by
  have types : p.types.modify t.index f = p.types.modify t.index g := by
    refine Array.ext (by simp) fun i first second => ?_
    rw [Array.getElem_modify,Array.getElem_modify]
    split
    · next here =>
      have here : p.types[i]? = some (p.typeAt t) := by
        rw [← here]
        exact getElem?_typeAt (by rw [here]; simpa using first)
      obtain ⟨bound,here⟩ := Array.getElem?_eq_some_iff.mp here
      rw [here]
      exact same
    · rfl
  rw [modifyType,modifyType,types]

theorem modifyType_modifyType (t : TypeId) (f g : TypeDecl → TypeDecl) :
    (p.modifyType t f).modifyType t g = p.modifyType t fun d => g (f d) := by
  have types : (p.types.modify t.index f).modify t.index g = p.types.modify t.index fun d => g (f d) := by
    refine Array.ext (by simp) fun i first second => ?_
    simp only [Array.getElem_modify]
    split <;> rfl
  rw [modifyType,modifyType,modifyType,types]

theorem modifyType_eq_self (same : f (p.typeAt t) = p.typeAt t) : p.modifyType t f = p := by
  have unchanged : p.modifyType t id = p := by
    have types : p.types.modify t.index id = p.types := by
      refine Array.ext (by simp) fun i first second => ?_
      rw [Array.getElem_modify]
      split <;> rfl
    rw [modifyType,types]
  exact (modifyType_congr (g := id) same).trans unchanged

theorem typeAt_declareType_new (d : TypeDecl) : (p.declareType d).2.typeAt (p.declareType d).1 = d :=
  typeAt_eq_of_getElem? Array.getElem?_push_size

theorem typeAt_declareType_old (inside : t.index < p.types.size) (d : TypeDecl) :
    (p.declareType d).2.typeAt t = p.typeAt t := by
  apply typeAt_eq_of_getElem?
  rw [declareType,Array.getElem?_push_lt inside,← getElem?_typeAt inside,Array.getElem?_eq_getElem inside]

@[simp] theorem size_declareType (d : TypeDecl) : (p.declareType d).2.types.size = p.types.size + 1 := by
  simp [declareType]

theorem methodAt_eq_of_getElem? {d : MethodDecl} (found : (p.typeAt m.owner).methods[m.position]? = some d) :
    p.methodAt m = d := by
  rw [methodAt,found]
  rfl

theorem mem_methodsOf : m ∈ p.methodsOf t ↔ m.owner = t ∧ m.position < (p.typeAt t).methods.length := by
  rw [methodsOf,mem_map]
  constructor
  · rintro ⟨i,inside,rfl⟩
    exact ⟨rfl,mem_range.mp inside⟩
  · rintro ⟨rfl,inside⟩
    exact ⟨m.position,mem_range.mpr inside,rfl⟩

theorem getElem?_methodAt (inside : m.position < (p.typeAt m.owner).methods.length) :
    (p.typeAt m.owner).methods[m.position]? = some (p.methodAt m) := by
  rw [methodAt,getElem?_eq_getElem inside]
  rfl

theorem methodAt_of_le (outside : (p.typeAt m.owner).methods.length ≤ m.position) : p.methodAt m = default := by
  rw [methodAt,getElem?_eq_none outside]
  rfl

theorem owner_lt_of_body {b : Body} (body : (p.methodAt m).body = some b) : m.owner.index < p.types.size := by
  refine Nat.lt_of_not_le fun outside => ?_
  have absent : p.methodAt m = default := by rw [methodAt,typeAt_of_le outside]; rfl
  rw [absent] at body
  cases body

theorem position_lt_of_body {b : Body} (body : (p.methodAt m).body = some b) :
    m.position < (p.typeAt m.owner).methods.length := by
  refine Nat.lt_of_not_le fun outside => ?_
  rw [methodAt_of_le outside] at body
  cases body

theorem methodAt_congr {q : Program} (same : (q.typeAt m.owner).methods = (p.typeAt m.owner).methods) :
    q.methodAt m = p.methodAt m := by
  rw [methodAt,methodAt,same]

theorem methodAt_modifyType_of_ne (different : m.owner ≠ t) (f : TypeDecl → TypeDecl) :
    (p.modifyType t f).methodAt m = p.methodAt m :=
  methodAt_congr (by rw [typeAt_modifyType_of_ne different])

theorem methodAt_modifyMethod_of_ne {n : MethodId} (different : n ≠ m) (f : MethodDecl → MethodDecl) :
    (p.modifyMethod m f).methodAt n = p.methodAt n := by
  by_cases owner : n.owner = m.owner
  · have apart : m.position ≠ n.position := fun same => different (by cases m; cases n; cases owner; cases same; rfl)
    have methods := view_modifyType (p := p) (t := m.owner) (f := fun t => { t with methods := t.methods.modify m.position f })
      (fun d => (d.methods[n.position]?).getD default)
      (fun d => by simp only [getElem?_modify,if_neg apart,Option.map_eq_map,Option.map_id']) n.owner
    exact methods
  · exact methodAt_modifyType_of_ne owner _

theorem methodAt_modifyMethod_self (inside : m.owner.index < p.types.size)
    (within : m.position < (p.typeAt m.owner).methods.length) (f : MethodDecl → MethodDecl) :
    (p.modifyMethod m f).methodAt m = f (p.methodAt m) := by
  apply methodAt_eq_of_getElem?
  rw [modifyMethod,typeAt_modifyType_self inside,getElem?_modify,getElem?_methodAt within]
  simp

theorem methodAt_modifyMethod_cases (m n : MethodId) (f : MethodDecl → MethodDecl) :
    (p.modifyMethod m f).methodAt n = p.methodAt n ∨ n = m ∧ (p.modifyMethod m f).methodAt n = f (p.methodAt n) := by
  by_cases same : n = m
  · subst same
    by_cases inside : n.owner.index < p.types.size
    · by_cases within : n.position < (p.typeAt n.owner).methods.length
      · exact .inr ⟨rfl,methodAt_modifyMethod_self inside within f⟩
      · refine .inl (methodAt_congr ?_)
        rw [modifyMethod,typeAt_modifyType_self inside]
        exact modify_eq_self (Nat.le_of_not_lt within)
    · refine .inl (methodAt_congr ?_)
      rw [modifyMethod,typeAt_of_le (by simpa using inside),typeAt_of_le (by simpa using inside)]
  · exact .inl (methodAt_modifyMethod_of_ne same f)

theorem methodAt_addMethod_new (d : MethodDecl) (inside : t.index < p.types.size) :
    (p.addMethod t d).2.methodAt (p.addMethod t d).1 = d := by
  apply methodAt_eq_of_getElem?
  show ((p.addMethod t d).2.typeAt t).methods[(p.typeAt t).methods.length]? = _
  rw [addMethod,typeAt_modifyType_self inside,getElem?_append_right (Nat.le_refl _),Nat.sub_self]
  rfl

theorem instructionAt_modify_self (inside : i.index < p.code.size) (f : Instruction → Instruction) :
    (p.modifyInstruction i f).instructionAt i = f (p.instructionAt i) := by
  rw [instructionAt,modifyInstruction,Array.getElem?_modify,if_pos rfl,instructionAt,Array.getElem?_eq_getElem inside]
  rfl

theorem instructionAt_modify_of_ne (different : j ≠ i) (f : Instruction → Instruction) :
    (p.modifyInstruction i f).instructionAt j = p.instructionAt j := by
  have apart : i.index ≠ j.index := fun same => different (congrArg InstructionId.mk same.symm)
  rw [instructionAt,modifyInstruction,Array.getElem?_modify,if_neg apart]
  rfl

@[simp] theorem size_modifyInstruction (i : InstructionId) (f : Instruction → Instruction) :
    (p.modifyInstruction i f).code.size = p.code.size := by
  simp [modifyInstruction]

theorem instructionAt_add_new (i : Instruction) : (p.addInstruction i).2.instructionAt (p.addInstruction i).1 = i := by
  rw [instructionAt,addInstruction,Array.getElem?_push_size]
  rfl

theorem instructionAt_add_old (inside : j.index < p.code.size) (i : Instruction) :
    (p.addInstruction i).2.instructionAt j = p.instructionAt j := by
  rw [instructionAt,addInstruction,Array.getElem?_push_lt inside,instructionAt,Array.getElem?_eq_getElem inside]

theorem moduleAt_modify_self {m : ModuleId} (inside : m.index < p.modules.size) (f : ModuleDecl → ModuleDecl) :
    (p.modifyModule m f).moduleAt m = f (p.moduleAt m) := by
  rw [moduleAt,modifyModule,Array.getElem?_modify,if_pos rfl,moduleAt,Array.getElem?_eq_getElem inside]
  rfl

theorem moduleAt_modify_of_ne {m n : ModuleId} (different : n ≠ m) (f : ModuleDecl → ModuleDecl) :
    (p.modifyModule m f).moduleAt n = p.moduleAt n := by
  have apart : m.index ≠ n.index := fun same => different (congrArg ModuleId.mk same.symm)
  rw [moduleAt,modifyModule,Array.getElem?_modify,if_neg apart]
  rfl

variable {q r : Program} {home : ModuleId} {roots others : List TypeId}

/-- The list of top-level types of a module is longer by the given types, and the other modules are as they were. -/
structure ListedIn (home : ModuleId) (p q : Program) (roots : List TypeId) : Prop where
  size_eq : q.modules.size = p.modules.size
  here : q.moduleAt home = { p.moduleAt home with types := (p.moduleAt home).types ++ roots }
  elsewhere : ∀ h, h ≠ home → q.moduleAt h = p.moduleAt h

theorem ListedIn.of_eq (same : q.modules = p.modules) : ListedIn home p q [] where
  size_eq := by rw [same]
  here := by rw [moduleAt,same,append_nil]; rfl
  elsewhere h _ := by rw [moduleAt,same]; rfl

theorem ListedIn.trans (early : ListedIn home p q roots) (late : ListedIn home q r others) :
    ListedIn home p r (roots ++ others) where
  size_eq := late.size_eq.trans early.size_eq
  here := by rw [late.here,early.here,append_assoc]
  elsewhere h different := (late.elsewhere h different).trans (early.elsewhere h different)

theorem ListedIn.addTopLevel (place : (p.typeAt t).home = home) (inside : home.index < p.modules.size) :
    ListedIn home p (p.addTopLevel t) [t] where
  size_eq := by simp [Program.addTopLevel,modifyModule]
  here := by rw [Program.addTopLevel,place,moduleAt_modify_self inside]
  elsewhere h different := by rw [Program.addTopLevel,place,moduleAt_modify_of_ne different]

end Loom.Program
