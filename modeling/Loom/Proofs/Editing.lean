import Loom.Typeclass.Resolution
import Loom.Proofs.Injecting

/-!
Edits of one body. A run of instructions gives way to a block of new ones, branches into the run follow to the start of
the block, and every other body stays as it is. A program stays well-formed if what is put in is formed.
-/
namespace Loom

open List Instruction
open Program (Agree KeepsCode block)
open Injection (Rebodied)
open Resolver (dropBox)

variable {source target : InstructionId} {code : List InstructionId} {ins : Instruction} {scope : List GenericParam}

namespace Instruction

/-- Leads a branch elsewhere if it leads into the given run. -/
def divert (run : List InstructionId) (start : InstructionId) (i : Instruction) : Instruction :=
  match i.operand with
  | .branch t => if t ∈ run then { i with operand := .branch start } else i
  | _ => i

variable {i : Instruction} {run : List InstructionId} {start : InstructionId}

theorem divert_of_branch {t : InstructionId} (operand : i.operand = .branch t) :
    i.divert run start = if t ∈ run then { i with operand := .branch start } else i := by
  rw [divert,operand]

theorem divert_of_plain (plain : i.operand.kind ≠ .branch) : i.divert run start = i := by
  rw [divert.eq_def]
  split
  · next t operand =>
    rw [operand] at plain
    exact absurd rfl plain
  · rfl

@[simp] theorem opcode_divert : (i.divert run start).opcode = i.opcode := by
  rw [divert.eq_def]
  split
  · split <;> rfl
  · rfl

@[simp] theorem reference?_divert : (i.divert run start).operand.reference? = i.operand.reference? := by
  rw [divert.eq_def]
  split
  · next t operand =>
    split
    · rw [operand]
      rfl
    · rfl
  · rfl

@[simp] theorem kind_divert : (i.divert run start).operand.kind = i.operand.kind := by
  rw [divert.eq_def]
  split
  · next t operand =>
    split
    · rw [operand]
      rfl
    · rfl
  · rfl

theorem retarget_eq_divert (source target : InstructionId) (i : Instruction) :
    i.retarget source target = i.divert [source] target := by
  cases operand : i.operand with
  | branch t => rw [retarget,operand,divert_of_branch operand]; simp only [mem_singleton]
  | _ => rw [retarget,operand,divert,operand]

theorem retarget_retarget (first second target : InstructionId) (i : Instruction) :
    (i.retarget first second).retarget second target = i.divert [first,second] target := by
  by_cases plain : i.operand.kind = .branch
  · cases operand : i.operand with
    | branch t =>
      rw [retarget_eq_divert,retarget_eq_divert,divert_of_branch operand,divert_of_branch operand]
      by_cases here : t = first
      · rw [if_pos (by simp [here]),if_pos (by simp [here]),divert_of_branch rfl,if_pos (by simp)]
      · rw [if_neg (by simpa using here),divert_of_branch operand]
        simp [here]
    | _ => rw [operand] at plain; cases plain
  · rw [retarget_eq_divert,retarget_eq_divert,divert_of_plain plain,divert_of_plain plain,divert_of_plain plain]

end Instruction

namespace Program

variable {p q x : Program} {m : MethodId} {b : Body} {i : InstructionId} {pre run post : List InstructionId}

theorem retarget_types (code : List InstructionId) (source target : InstructionId) :
    (p.retarget code source target).types = p.types ∧ (p.retarget code source target).modules = p.modules ∧
      (p.retarget code source target).code.size = p.code.size := by
  induction code generalizing p with
  | nil => exact ⟨rfl,rfl,rfl⟩
  | cons i rest ih =>
    obtain ⟨types,modules,size⟩ := ih (p := p.modifyInstruction i (Instruction.retarget source target))
    exact ⟨types,modules,size.trans (size_modifyInstruction i _)⟩

theorem instructionAt_retarget_of_not_mem
    (outside : i ∉ code) : (p.retarget code source target).instructionAt i = p.instructionAt i := by
  induction code generalizing p with
  | nil => rfl
  | cons j rest ih =>
    rw [mem_cons,not_or] at outside
    exact (ih outside.2).trans (instructionAt_modify_of_ne outside.1 _)

theorem instructionAt_retarget_of_mem (distinct : code.Nodup) (inside : i.index < p.code.size) (member : i ∈ code) :
    (p.retarget code source target).instructionAt i = (p.instructionAt i).retarget source target := by
  induction code generalizing p with
  | nil => cases member
  | cons j rest ih =>
    obtain ⟨fresh,distinct⟩ := nodup_cons.mp distinct
    rcases mem_cons.mp member with same | later
    · rw [same] at inside ⊢
      exact (instructionAt_retarget_of_not_mem fresh).trans (instructionAt_modify_self inside _)
    · have different : i ≠ j := fun same => fresh (same ▸ later)
      refine (ih distinct (by simpa using inside) later).trans ?_
      rw [instructionAt_modify_of_ne different]

end Program

theorem Body.indexOf?_eq {b : Body} {i : InstructionId} {pre post : List InstructionId}
    (code : b.code = pre ++ i :: post) (fresh : i ∉ pre) : b.indexOf? i = some pre.length := by
  rw [Body.indexOf?,code,findIdx?_append,findIdx?_eq_none_iff.mpr,findIdx?_cons,beq_self_eq_true]
  · simp
  · intro j member
    rw [beq_eq_false_iff_ne]
    exact fun same => fresh (same ▸ member)

namespace Program

variable {p q x : Program} {m : MethodId} {b : Body} {i : InstructionId} {pre run post : List InstructionId}
variable {code : List Instruction}

theorem block_succ (start length : Nat) : block start (length + 1) = ⟨start⟩ :: block (start + 1) length := by
  rw [block,block,range_succ_eq_map,map_cons,map_map]
  congr 1
  exact map_congr_left fun j _ => congrArg InstructionId.mk (by simp only [Nat.succ_eq_add_one]; omega)

theorem addCode_cons (p : Program) (ins : Instruction) (rest : List Instruction) :
    (p.addInstruction ins).2.addCode rest = p.addCode (ins :: rest) := by
  simp [addInstruction,addCode]

theorem insertAll_eq (rest : List Instruction) (code : b.code = pre ++ i :: post)
    (old : ∀ j ∈ i :: pre, j.index < p.code.size) (fresh : i ∉ pre) :
    ∃ last, rest.foldl (fun (p,b,last) ins =>
        let (i,p) := p.addInstruction ins
        (p,(b.insertAfter? last i).getD b,i))
      (p,b,i) = (p.addCode rest,{ b with code := pre ++ i :: (block p.code.size rest.length ++ post) },last) := by
  induction rest generalizing p b i pre post with
  | nil =>
    refine ⟨i,?_⟩
    rw [foldl_nil,← show b.code = pre ++ i :: (block p.code.size ([] : List Instruction).length ++ post) from code]
    simp [addCode]
  | cons ins rest ih =>
    have place : b.insertAfter? i ⟨p.code.size⟩ = some { b with code := (pre ++ [i]) ++ ⟨p.code.size⟩ :: post } := by
      have before : pre ++ i :: post = (pre ++ [i]) ++ post := by simp
      have length : pre.length + 1 = (pre ++ [i]).length := by simp
      rw [Body.insertAfter?,Body.indexOf?_eq code fresh,Option.map_some,code,before,length,insertIdx_length]
    have unused : (⟨p.code.size⟩ : InstructionId) ∉ pre ++ [i] := by
      intro member
      have bound := old ⟨p.code.size⟩ (by simpa [or_comm] using member)
      simp at bound
    have grown : (p.addInstruction ins).2.code.size = p.code.size + 1 := by simp [addInstruction]
    have bounded : ∀ j ∈ ⟨p.code.size⟩ :: (pre ++ [i]), j.index < (p.addInstruction ins).2.code.size := by
      intro j member
      rw [grown]
      rcases mem_cons.mp member with rfl | earlier
      · exact Nat.lt_succ_self _
      · exact Nat.lt_succ_of_lt (old j (by simpa [or_comm] using earlier))
    obtain ⟨last,done⟩ := ih (b := { b with code := (pre ++ [i]) ++ ⟨p.code.size⟩ :: post }) rfl bounded unused
    refine ⟨last,?_⟩
    rw [foldl_cons]
    show foldl _ ((p.addInstruction ins).2,(b.insertAfter? i ⟨p.code.size⟩).getD b,
      (⟨p.code.size⟩ : InstructionId)) rest = _
    rw [place,Option.getD_some]
    refine done.trans ?_
    rw [addCode_cons,grown,length_cons,block_succ]
    simp

/-- In the body of a method a run of instructions gave way to a block of new ones. -/
structure Spliced (m : MethodId) (b : Body) (pre run post : List InstructionId) (code : List Instruction)
    (p q : Program) : Prop where
  agree : Agree TypeDecl.signature p q
  modules_eq : q.modules = p.modules
  size_eq : q.code.size = p.code.size + code.length
  body : (q.methodAt m).body = some { b with code := pre ++ block p.code.size code.length ++ post }
  others : ∀ n, n ≠ m → q.methodAt n = p.methodAt n
  new : ∀ j ins, code[j]? = some ins → q.instructionAt ⟨p.code.size + j⟩ = ins
  kept : ∀ j ∈ pre ++ post, q.instructionAt j = (p.instructionAt j).divert run ⟨p.code.size⟩
  untouched : ∀ j : InstructionId, j.index < p.code.size → j ∉ pre ++ run ++ post →
    q.instructionAt j = p.instructionAt j

theorem rebodied_setBody (body : (p.methodAt m).body = some b) (b' : Body) : Rebodied m b' p (p.setBody m b') :=
  Injection.rebodied_modifyMethod body (.modifyMethod fun _ => rfl) rfl

def patch (p : Program) (code : List InstructionId) (i : InstructionId) (first : Instruction)
    (rest : List Instruction) : Program :=
  ((p.addInstruction first).2.retarget code i ⟨p.code.size⟩).addCode rest

section Patch

variable {code : List InstructionId} {first : Instruction} {rest : List Instruction} {j : InstructionId}

theorem patch_types : (p.patch code i first rest).types = p.types := (retarget_types _ _ _).1

theorem size_patched : ((p.addInstruction first).2.retarget code i ⟨p.code.size⟩).code.size = p.code.size + 1 := by
  rw [(retarget_types _ _ _).2.2]
  simp [addInstruction]

theorem patch_size : (p.patch code i first rest).code.size = p.code.size + (first :: rest).length := by
  rw [patch,size_addCode,size_patched,length_cons]
  omega

theorem instructionAt_patch (before : j.index < p.code.size + 1) : (p.patch code i first rest).instructionAt j =
    ((p.addInstruction first).2.retarget code i ⟨p.code.size⟩).instructionAt j :=
  (keepsCode_addCode rest).instruction_eq j (by rwa [size_patched])

theorem instructionAt_patch_of_mem (distinct : code.Nodup) (inside : j.index < p.code.size) (member : j ∈ code) :
    (p.patch code i first rest).instructionAt j = (p.instructionAt j).divert [i] ⟨p.code.size⟩ := by
  rw [instructionAt_patch (by omega),instructionAt_retarget_of_mem distinct (by simp [addInstruction]; omega) member,
    instructionAt_add_old inside,retarget_eq_divert]

theorem instructionAt_patch_of_not_mem (inside : j.index < p.code.size) (outside : j ∉ code) :
    (p.patch code i first rest).instructionAt j = p.instructionAt j := by
  rw [instructionAt_patch (by omega),instructionAt_retarget_of_not_mem outside,instructionAt_add_old inside]

theorem instructionAt_patch_new (distinct : code.Nodup) (plain : first.operand.kind ≠ .branch) {k : Nat}
    (at_ : (first :: rest)[k]? = some ins) : (p.patch code i first rest).instructionAt ⟨p.code.size + k⟩ = ins := by
  cases k with
  | zero =>
    obtain rfl := Option.some.inj at_
    have added : (p.addInstruction first).2.instructionAt ⟨p.code.size⟩ = first := instructionAt_add_new first
    rw [Nat.add_zero,instructionAt_patch (j := ⟨p.code.size⟩) (Nat.lt_succ_self _)]
    by_cases member : (⟨p.code.size⟩ : InstructionId) ∈ code
    · rw [instructionAt_retarget_of_mem distinct (by simp [addInstruction]) member,added,
        retarget_eq_divert,divert_of_plain plain]
    · rw [instructionAt_retarget_of_not_mem member,added]
  | succ k =>
    have later := instructionAt_addCode (p := (p.addInstruction first).2.retarget code i ⟨p.code.size⟩) (j := k) at_
    rwa [size_patched,Nat.add_assoc,Nat.add_comm 1] at later

end Patch

theorem substituteIn_spliced (first : Instruction) (rest : List Instruction) (body : (p.methodAt m).body = some b)
    (code : b.code = pre ++ i :: post) (distinct : b.code.Nodup) (inside : ∀ j ∈ b.code, j.index < p.code.size)
    (plain : first.operand.kind ≠ .branch) :
    ∃ q, p.substituteIn m i first rest = .ok q ∧ Spliced m b pre [i] post (first :: rest) p q := by
  rw [code] at distinct inside
  have fresh : i ∉ pre := fun member => (nodup_append.mp distinct).2.2 i member i (.head _) rfl
  have unused : (⟨p.code.size⟩ : InstructionId) ∉ pre ++ i :: post := fun member => by
    have bound := inside _ member
    simp at bound
  have replaced : (pre ++ ⟨p.code.size⟩ :: post).Nodup := by
    grind
  let x := p.patch (pre ++ ⟨p.code.size⟩ :: post) i first rest
  let b' : Body := { b with code := pre ++ block p.code.size (first :: rest).length ++ post }
  have same : (x.methodAt m).body = some b := by
    rw [methodAt,typeAt,patch_types]
    exact body
  have rebodied := rebodied_setBody same b'
  refine ⟨x.setBody m b',?_,?_⟩
  · have found : (p.addInstruction first).2.bodyOf m = b := by
      rw [bodyOf,show (p.addInstruction first).2.methodAt m = p.methodAt m from rfl,body]
      rfl
    have bounded : ∀ j ∈ ⟨p.code.size⟩ :: pre,
        j.index < ((p.addInstruction first).2.retarget (pre ++ ⟨p.code.size⟩ :: post) i ⟨p.code.size⟩).code.size := by
      intro j member
      rw [size_patched]
      rcases mem_cons.mp member with rfl | earlier
      · exact Nat.lt_succ_self _
      · exact Nat.lt_succ_of_lt (inside j (mem_append_left _ earlier))
    have replace : (p.addInstruction first).2.replaceIn? b i ⟨p.code.size⟩ =
        some ((p.addInstruction first).2.retarget (pre ++ ⟨p.code.size⟩ :: post) i ⟨p.code.size⟩,
          { b with code := pre ++ ⟨p.code.size⟩ :: post }) := by
      rw [replaceIn?,Body.indexOf?_eq code fresh,code]
      simp
    obtain ⟨last,inserted⟩ := insertAll_eq (b := { b with code := pre ++ ⟨p.code.size⟩ :: post }) rest rfl bounded
      (fun member => unused (mem_append_left _ member))
    have added : p.addInstruction first = (⟨p.code.size⟩,(p.addInstruction first).2) := rfl
    rw [substituteIn,added]
    dsimp only
    rw [found,replace]
    dsimp only
    rw [inserted]
    have together : pre ++ ⟨p.code.size⟩ :: (block (p.code.size + 1) rest.length ++ post) = b'.code := by
      rw [show b'.code = pre ++ block p.code.size (first :: rest).length ++ post from rfl,length_cons,block_succ]
      simp
    rw [size_patched,together]
    rfl
  · have old (j : InstructionId) (member : j ∈ pre ++ post) : j ∈ pre ++ i :: post := by
      rcases mem_append.mp member with early | late
      · exact mem_append_left _ early
      · exact mem_append_right _ (.tail _ late)
    exact {
      agree := (Agree.of_types_eq patch_types).trans rebodied.agree
      modules_eq := rebodied.modules_eq.trans (retarget_types _ _ _).2.1
      size_eq := by rw [rebodied.code_eq,patch_size]
      body := rebodied.body
      others := fun n other => by
        rw [rebodied.others n other,methodAt,typeAt,patch_types]
        rfl
      new := fun k ins at_ => by
        rw [instructionAt,rebodied.code_eq]
        exact instructionAt_patch_new replaced plain at_
      kept := fun j member => by
        rw [instructionAt,rebodied.code_eq]
        refine instructionAt_patch_of_mem replaced (inside j (old j member)) ?_
        rcases mem_append.mp member with early | late
        · exact mem_append_left _ early
        · exact mem_append_right _ (.tail _ late)
      untouched := fun j bound outside => by
        rw [instructionAt,rebodied.code_eq]
        refine instructionAt_patch_of_not_mem bound fun member => outside ?_
        rcases mem_append.mp member with early | late
        · simp [early]
        · rcases mem_cons.mp late with rfl | late
          · simp at bound
          · simp [late] }

def boxAtEnd (p : Program) (is : List InstructionId) : List InstructionId :=
  is.getLast?.toList.filter fun i => (p.instructionAt i).opcode = .box

theorem dropBox_cases (body : (p.methodAt m).body = some b) (code : b.code = pre ++ i :: post) (distinct : b.code.Nodup) :
    (dropBox p m i = p ∧ p.boxAtEnd pre = []) ∨ ∃ early box, pre = early ++ [box] ∧ p.boxAtEnd pre = [box] ∧ dropBox p m i =
        (p.retarget (early ++ i :: post) box i).setBody m { b with code := early ++ i :: post } := by
  rw [code] at distinct
  have fresh : i ∉ pre := fun member => (nodup_append.mp distinct).2.2 i member i (.head _) rfl
  have found : p.bodyOf m = b := by
    rw [bodyOf,body]
    rfl
  have index := Body.indexOf?_eq code fresh
  rcases eq_nil_or_concat pre with rfl | ⟨early,box,rfl⟩
  · refine .inl ⟨?_,rfl⟩
    rw [dropBox,found,Body.previous?,index]
    rfl
  · rw [concat_eq_append] at *
    have previous : b.previous? i = some box := by
      rw [Body.previous?,index,code]
      simp
    by_cases opcode : (p.instructionAt box).opcode = .box
    · refine .inr ⟨early,box,rfl,by simp [boxAtEnd,opcode],?_⟩
      have split : b.code = early ++ box :: (i :: post) := by
        rw [code]
        simp
      have before : box ∉ early := by
        grind
      have removed : p.removeIn? b box =
          some (p.retarget (early ++ i :: post) box i,{ b with code := early ++ i :: post }) := by
        have erased : (early ++ box :: i :: post).eraseIdx early.length = early ++ i :: post := by
          rw [eraseIdx_append_of_length_le (Nat.le_refl _),Nat.sub_self]
          rfl
        rw [removeIn?,Body.indexOf?_eq split before,Option.map_some,split,erased]
        simp
      rw [dropBox,found,previous]
      dsimp only
      rw [if_pos opcode,removed]
    · refine .inl ⟨?_,by simp [boxAtEnd,opcode]⟩
      rw [dropBox,found,previous]
      dsimp only
      rw [if_neg opcode]

theorem dropBox_spliced (first : Instruction) (rest : List Instruction) (body : (p.methodAt m).body = some b)
    (code : b.code = pre ++ i :: post) (distinct : b.code.Nodup) (inside : ∀ j ∈ b.code, j.index < p.code.size)
    (plain : first.operand.kind ≠ .branch) :
    ∃ q early, (dropBox p m i).substituteIn m i first rest = .ok q ∧ pre = early ++ p.boxAtEnd pre ∧
      Spliced m b early (p.boxAtEnd pre ++ [i]) post (first :: rest) p q := by
  rcases dropBox_cases body code distinct with ⟨same,none_⟩ | ⟨early,box,rfl,one,dropped⟩
  · obtain ⟨q,done,spliced⟩ := substituteIn_spliced first rest body code distinct inside plain
    rw [same,none_]
    exact ⟨q,pre,done,(append_nil pre).symm,spliced⟩
  · let x := p.retarget (early ++ i :: post) box i
    obtain ⟨types,modules,size⟩ := retarget_types (p := p) (early ++ i :: post) box i
    have method (n : MethodId) : x.methodAt n = p.methodAt n := by
      rw [methodAt,typeAt,types]
      rfl
    have rebodied := rebodied_setBody (p := x) (by rw [method]; exact body) { b with code := early ++ i :: post }
    have instruction (j : InstructionId) :
        (x.setBody m { b with code := early ++ i :: post }).instructionAt j = x.instructionAt j := rfl
    have fewer : (early ++ i :: post).Sublist b.code := by
      rw [code]
      simp
    have left := fewer.nodup distinct
    obtain ⟨q,done,spliced⟩ := substituteIn_spliced first rest rebodied.body rfl left
      (fun j member => by rw [rebodied.code_eq,size]; exact inside j (fewer.subset member)) plain
    have start : (x.setBody m { b with code := early ++ i :: post }).code.size = p.code.size := size
    rw [one]
    refine ⟨q,early,by rw [dropped]; exact done,rfl,?_⟩
    exact {
      agree := (Agree.of_types_eq types).trans (rebodied.agree.trans spliced.agree)
      modules_eq := spliced.modules_eq.trans (rebodied.modules_eq.trans modules)
      size_eq := by rw [spliced.size_eq,start]
      body := by rw [spliced.body,start]
      others := fun n other => by rw [spliced.others n other,rebodied.others n other,method]
      new := fun k ins at_ => by
        rw [← start]
        exact spliced.new k ins at_
      kept := fun j member => by
        have among : j ∈ early ++ i :: post := by
          rcases mem_append.mp member with first | last
          · exact mem_append_left _ first
          · exact mem_append_right _ (.tail _ last)
        rw [spliced.kept j member,start,instruction,
          instructionAt_retarget_of_mem left (inside j (fewer.subset among)) among,← retarget_eq_divert,
          retarget_retarget]
        rfl
      untouched := fun j bound outside => by
        have apart : j ∉ early ++ i :: post := fun member => outside (by grind)
        rw [spliced.untouched j (by rw [start]; exact bound) (by simpa using apart),instruction,
          instructionAt_retarget_of_not_mem apart] }

theorem OperandFormed.weaken_code {c : Body} {o : Operand} (wider : b.code ⊆ c.code)
    (formed : p.OperandFormed scope b o) : p.OperandFormed scope c o := by
  cases o with
  | branch t => exact wider formed
  | _ => exact formed

theorem OperandFormed.divert {c : Body} {start : InstructionId}
    (formed : p.OperandFormed scope b ins.operand) (first : start ∈ c.code)
    (others : ∀ j ∈ b.code, j ∉ run → j ∈ c.code) : p.OperandFormed scope c (ins.divert run start).operand := by
  cases operand : ins.operand with
  | branch t =>
    rw [operand] at formed
    rw [divert_of_branch operand]
    split
    · exact first
    · next outside =>
      rw [operand]
      exact others t formed outside
  | _ =>
    rw [divert_of_plain (by rw [operand]; exact nofun),operand]
    rwa [operand] at formed

theorem WellFormed.of_edit (formed : p.WellFormed) (agree : Agree TypeDecl.signature p q)
    (modules : q.modules = p.modules) (size_le : p.code.size ≤ q.code.size) {b' : Body}
    (before : (p.methodAt m).body = some b) (after : (q.methodAt m).body = some b') (whole : q.BodyFormed m b')
    (others : ∀ n, n ≠ m → q.methodAt n = p.methodAt n)
    (untouched : ∀ j : InstructionId, j.index < p.code.size → j ∉ b.code → q.instructionAt j = p.instructionAt j)
    (fresh : ∀ j ∈ b'.code, j ∈ b.code ∨ p.code.size ≤ j.index) : q.WellFormed := by
  -- no instruction of another body is among those of the changed one, before or after
  have apart (n : MethodId) (c : Body) (other : n ≠ m) (body : (p.methodAt n).body = some c) (j : InstructionId)
      (member : j ∈ c.code) : j ∉ b.code ∧ j ∉ b'.code := by
    have outside : j ∉ b.code := fun among => other (formed.separate n m c b body before j member among)
    refine ⟨outside,fun among => ?_⟩
    have bound := (formed.body body).inside j member
    rcases fresh j among with old | new
    · exact outside old
    · omega
  refine formed.of_bodies agree modules (fun n c body => ?_) fun n k c d first second j inFirst inSecond => ?_
  · by_cases same : n = m
    · rw [same,after] at body
      rw [same,← Option.some.inj body]
      exact whole
    · rw [others n same] at body
      have old := formed.body body
      exact old.congr agree.keeps formed.signed (owner_lt_of_body body) size_le fun j member =>
        untouched j (old.inside j member) (apart n c same body j member).1
  · by_cases left : n = m
    · by_cases right : k = m
      · rw [left,right]
      · rw [left,after] at first
        rw [others k right] at second
        rw [← Option.some.inj first] at inFirst
        exact absurd inFirst (apart k d right second j inSecond).2
    · rw [others n left] at first
      by_cases right : k = m
      · rw [right,after] at second
        rw [← Option.some.inj second] at inSecond
        exact absurd inSecond (apart n c left first j inFirst).2
      · rw [others k right] at second
        exact formed.separate n k c d first second j inFirst inSecond

section

variable (spliced : Spliced m b pre run post code p q)
include spliced

theorem Spliced.map_block : (block p.code.size code.length).map q.instructionAt = code := by
  refine ext_getElem? fun j => ?_
  rw [getElem?_map]
  by_cases inside : j < code.length
  · rw [getElem?_block inside,Option.map_some,getElem?_eq_getElem inside,
      spliced.new j _ (getElem?_eq_getElem inside)]
  · rw [getElem?_eq_none (by simpa [block] using inside),getElem?_eq_none (by simpa using inside)]
    rfl

theorem Spliced.mem_of_block {j : InstructionId} (member : j ∈ block p.code.size code.length) :
    q.instructionAt j ∈ code := by
  have among := mem_map_of_mem (f := q.instructionAt) member
  rwa [spliced.map_block] at among

section

variable (formed : p.WellFormed) (body : (p.methodAt m).body = some b) (split : b.code = pre ++ run ++ post)
  (some_ : code ≠ [])
  (each : ∀ ins ∈ code, ins.operand.kind = ins.opcode.operandKind ∧ p.OperandFormed (p.scopeOf m) {} ins.operand)
  (first : ∀ k ins, code[k]? = some ins → ∀ r ∈ ins.operand.reference?, k = 0 ∧ r.method = m ∧
    ∃ j ∈ run, ∃ s ∈ (p.instructionAt j).operand.reference?, s.place = r.place)
include formed body split some_ each first

omit some_ each in
/-- The only reference that comes in takes the place of one that goes. -/
theorem Spliced.references_formed : q.ReferencesFormed m (pre ++ block p.code.size code.length ++ post) := by
  have old := formed.body body
  have distinct := old.distinct
  have references := old.references
  rw [split] at distinct references
  have held (j : InstructionId) (member : j ∈ pre ++ block p.code.size code.length ++ post) (r : RefId)
      (holds : r ∈ (q.instructionAt j).operand.reference?) :
      (j ∈ pre ++ post ∧ r ∈ (p.instructionAt j).operand.reference?) ∨ (j = ⟨p.code.size⟩ ∧ r.method = m ∧
        ∃ k ∈ run, ∃ s ∈ (p.instructionAt k).operand.reference?, s.place = r.place) := by
    by_cases early : j ∈ pre ++ post
    · rw [spliced.kept j early,reference?_divert] at holds
      exact .inl ⟨early,holds⟩
    · obtain ⟨above,below⟩ := mem_block.mp (by grind : j ∈ block p.code.size code.length)
      obtain ⟨k,rfl⟩ : ∃ k, j = ⟨p.code.size + k⟩ := ⟨j.index - p.code.size,by rw [Nat.add_sub_cancel' above]⟩
      have inside : k < code.length := Nat.lt_of_add_lt_add_left below
      rw [spliced.new k _ (getElem?_eq_getElem inside)] at holds
      obtain ⟨rfl,method,place⟩ := first k _ (getElem?_eq_getElem inside) r holds
      exact .inr ⟨rfl,method,place⟩
  -- a reference that stays is not one that goes
  have apart (j : InstructionId) (stays : j ∈ pre ++ post) (r s : RefId) (holds : r ∈ (p.instructionAt j).operand.reference?)
      (place : ∃ k ∈ run, ∃ u ∈ (p.instructionAt k).operand.reference?, u.place = s.place) : r.place ≠ s.place := by
    rintro same
    obtain ⟨k,goes,u,there,place⟩ := place
    obtain rfl := references.place j (by grind) k (by grind) r holds u there (same.trans place.symm)
    grind
  refine ⟨fun j member r holds => ?_,fun i member j among r holds s there same => ?_⟩
  · rcases held j member r holds with ⟨stays,before⟩ | ⟨-,method,-⟩
    · exact references.method j (by grind) r before
    · exact method
  · rcases held i member r holds with ⟨stays,before⟩ | ⟨rfl,-,place⟩ <;>
      rcases held j among s there with ⟨stays',before'⟩ | ⟨rfl,-,place'⟩
    · exact references.place i (by grind) j (by grind) r before s before' same
    · exact absurd same (apart i stays r s before place')
    · exact absurd same.symm (apart j stays' s r before' place)
    · rfl

theorem Spliced.body_formed :
    q.BodyFormed m { b with code := pre ++ block p.code.size code.length ++ post } := by
  have old := formed.body body
  have kept := spliced.agree.keeps
  have inside := owner_lt_of_body body
  have scope := kept.scopeOf_eq inside
  have present (j : InstructionId) (member : j ∈ pre ++ post) : j ∈ b.code := by
    rw [split]
    grind
  have cases_ (j : InstructionId) (member : j ∈ pre ++ block p.code.size code.length ++ post) :
      j ∈ pre ++ post ∨ j ∈ block p.code.size code.length := by
    grind
  exact {
    concrete := by rw [kept.method_eq inside MethodDecl.isAbstract fun _ => rfl]; exact old.concrete
    managed := by rw [kept.method_eq inside MethodDecl.native fun _ => rfl]; exact old.managed
    locals := fun t member => by
      rw [scope]
      exact (old.locals t member).mono kept.header
    distinct := by
      have distinct := old.distinct
      rw [split] at distinct
      have new := nodup_block p.code.size code.length
      have unlike (j : InstructionId) (member : j ∈ pre ++ post) : j ∉ block p.code.size code.length := fun among => by
        have bound := old.inside j (present j member)
        have from_ := (mem_block.mp among).1
        omega
      grind
    inside := fun j member => by
      rw [spliced.size_eq]
      rcases cases_ j member with early | new
      · exact Nat.lt_of_lt_of_le (old.inside j (present j early)) (Nat.le_add_right _ _)
      · exact (mem_block.mp new).2
    kinds := fun j member => by
      rcases cases_ j member with early | new
      · rw [spliced.kept j early,kind_divert,opcode_divert]
        exact old.kinds j (present j early)
      · exact (each _ (spliced.mem_of_block new)).1
    references := spliced.references_formed formed body split first
    operands := fun j member => by
      rw [scope]
      rcases cases_ j member with early | new
      · rw [spliced.kept j early]
        have first : (⟨p.code.size⟩ : InstructionId) ∈ block p.code.size code.length :=
          mem_block.mpr ⟨Nat.le_refl _,Nat.lt_add_of_pos_right (length_pos_of_ne_nil some_)⟩
        refine ((old.operands j (present j early)).mono kept formed.signed).divert (by simp [first]) fun k among outside => ?_
        rw [split] at among
        grind
      · exact ((each _ (spliced.mem_of_block new)).2.mono kept formed.signed).weaken_code (nil_subset _) }

theorem Spliced.wellFormed :
    q.WellFormed := by
  refine formed.of_edit spliced.agree spliced.modules_eq (by rw [spliced.size_eq]; omega) body spliced.body
    (spliced.body_formed formed body split some_ each first) spliced.others
    (fun j bound outside => spliced.untouched j bound (split ▸ outside)) fun j member => ?_
  rw [split]
  by_cases new : j ∈ block p.code.size code.length
  · exact .inr (mem_block.mp new).1
  · exact .inl (by grind)

end

end

end Program

namespace Injection

variable {p q : Program} {m : MethodId} {b b' : Body}

theorem Rebodied.wellFormed (rebodied : Rebodied m b' p q) (formed : p.WellFormed)
    (body : (p.methodAt m).body = some b) (code : b'.code = b.code)
    (locals : ∀ t ∈ b'.locals, p.Formed (p.scopeOf m) t) : q.WellFormed := by
  have instruction (j : InstructionId) : q.instructionAt j = p.instructionAt j := by
    rw [Program.instructionAt,rebodied.code_eq]
    rfl
  have inside := Program.owner_lt_of_body body
  have scope := rebodied.agree.keeps.scopeOf_eq inside
  have size_le : p.code.size ≤ q.code.size := Nat.le_of_eq (by rw [rebodied.code_eq])
  have moved := (formed.body body).congr rebodied.agree.keeps formed.signed inside size_le fun j _ => instruction j
  refine formed.of_edit rebodied.agree rebodied.modules_eq size_le body rebodied.body ?_ rebodied.others
    (fun j _ _ => instruction j) fun j member => .inl (code ▸ member)
  exact {
    concrete := moved.concrete
    managed := moved.managed
    locals := fun t member => by
      rw [scope]
      exact (locals t member).mono rebodied.agree.keeps.header
    distinct := by rw [code]; exact moved.distinct
    inside := by rw [code]; exact moved.inside
    kinds := by rw [code]; exact moved.kinds
    references := by rw [code]; exact moved.references
    operands := by
      rw [code]
      exact fun j member => (moved.operands j member).weaken_code fun k among => code ▸ among }

end Injection
end Loom
