import Loom.Proofs.Drafting
import Loom.Proofs.Spelling

/-!
The lines of bodies. They are read in a program whose signatures do not change any more, so a body can be told from that
program alone: its transcript holds the instructions, with the labels that branches wait for.
-/
namespace Loom

open List Program
open TypeDecl (signature)
open Linkage (run_bind_eq_ok run_get_bind run_modify_eq_ok run_pure_eq_ok run_throw_bind_ne_ok)

variable {t u : Transcript} {p : Program} {lines : List String} {pending : PendingMethod}

namespace Program

variable {p q : Program} (agree : Agree signature p q) (modules : q.modules = p.modules) (home : ModuleId)
include agree modules

theorem Agree.readMethodRef_eq (s : String) (declaring : TypeRef) (returnText : List Char) (member : MemberText)
    (id : RefId) : q.readMethodRef home s declaring returnText member id =
      p.readMethodRef home s declaring returnText member id := by
  have text (r : MethodRef) : r.text q = r.text p := by
    have signature (t : TypeRef) : t.signatureText q = t.signatureText p :=
      TypeRef.signatureText_congr (TypeRef.spelling_of_names agree.header.fullName_eq t)
    have texts : TypeRef.texts q = TypeRef.texts p := by
      funext ts
      rw [TypeRef.texts_eq,TypeRef.texts_eq,funext (TypeRef.text_of_names agree.header.fullName_eq)]
    simp only [MethodRef.text,signature,texts]
  have static (m : MethodId) : (q.methodAt m).isStatic = (p.methodAt m).isStatic :=
    agree.method_eq m MethodDecl.isStatic fun _ => rfl
  simp only [readMethodRef,agree.header.typeParams_eq,agree.header.readType_eq modules,agree.findMethod?_eq,text,static]

theorem Agree.readInstruction_eq (scope : ParamScope) (line : List Char) (id : RefId) :
    q.readInstruction home scope line id = p.readInstruction home scope line id := by
  have method (s : String) : q.readMethod home scope s id = p.readMethod home scope s id := by
    simp only [readMethod,agree.header.readType_eq modules,agree.readMethodRef_eq modules]
  have field (s : String) : q.readField home scope s = p.readField home scope s := by
    simp only [readField,agree.header.readType_eq modules,agree.header.typeParams_eq,agree.field?_eq,
      TypeRef.text_of_names agree.header.fullName_eq]
  simp only [readInstruction,method,field,agree.header.readType_eq modules]

end Program

namespace Document

/-- The lines of a body as they are read: instructions, each with the label that it waits for, and the places of the
    labels. -/
structure Transcript where
  items : List (Instruction × Option String) := []
  labels : List (String × Nat) := []

namespace Transcript

def read (p : Program) (home : ModuleId) (m : MethodId) (scope : ParamScope) (t : Transcript) (line : String) :
    Option Transcript :=
  let line := Text.trim line.toList
  match ".label ".toList.isPrefixOf? line with
  | some name =>
    let name := Text.trimString (String.ofList name)
    if (t.labels.lookup name).isSome then none else some { t with labels := t.labels ++ [(name,t.items.length)] }
  | none =>
    match p.readInstruction home scope line ⟨m,t.items.length,0⟩ with
    | .ok r => some { t with items := t.items ++ [r] }
    | .error _ => none

theorem forall_items {P : Nat → Instruction × Option String → Prop} {home : ModuleId} {m : MethodId} {scope : ParamScope}
    (each : ∀ line n x, p.readInstruction home scope line ⟨m,n,0⟩ = .ok x → P n x)
    (done : lines.foldlM (read p home m scope) t = some u) (before : ∀ n x, t.items[n]? = some x → P n x) :
    ∀ n x, u.items[n]? = some x → P n x := by
  induction lines generalizing t with
  | nil =>
    cases done
    exact before
  | cons line rest ih =>
    rw [foldlM_cons (m := Option)] at done
    obtain ⟨next,first,later⟩ := Option.bind_eq_some_iff.mp done
    refine ih later ?_
    rw [read] at first
    simp only at first
    split at first
    · split at first
      · cases first
      · cases first
        exact before
    · split at first
      · next x parsed =>
        cases first
        intro n y at_
        rw [getElem?_append] at at_
        split at at_
        · exact before n y at_
        · rw [getElem?_singleton,Option.ite_none_right_eq_some] at at_
          obtain ⟨last,⟨⟩⟩ := at_
          obtain rfl : n = t.items.length := by omega
          exact each _ _ _ parsed
      · cases first

/-- The branches among instructions that start at the given place. -/
def branches : Nat → List (Instruction × Option String) → List (InstructionId × String)
  | _, [] => []
  | start, x :: rest => (x.2.map fun label => (⟨start⟩,label)).toList ++ branches (start + 1) rest

/-- The body that is being read, with its instructions from the given place on. -/
def body (t : Transcript) (start : Nat) : PendingBody :=
  { code := block start t.items.length, labels := t.labels, branches := branches start t.items }

/-- Every branch has a label at an instruction. -/
def Closed (t : Transcript) : Prop :=
  ∀ x ∈ t.items, ∀ label, x.2 = some label → ∃ k, t.labels.lookup label = some k ∧ k < t.items.length

/-- An instruction with its branch led to the place of its label. -/
def settle (t : Transcript) (start : Nat) (x : Instruction × Option String) : Instruction :=
  match x.2 with
  | some label => { x.1 with operand := .branch ⟨start + (t.labels.lookup label).getD 0⟩ }
  | none => x.1

theorem settle_of_lookup {start k : Nat} {i : Instruction} {label : String}
    (lookup : t.labels.lookup label = some k) : t.settle start (i,some label) = { i with operand := .branch ⟨start + k⟩ } := by
  simp [settle,lookup]

theorem branches_append (start : Nat) (xs ys : List (Instruction × Option String)) :
    branches start (xs ++ ys) = branches start xs ++ branches (start + xs.length) ys := by
  induction xs generalizing start with
  | nil => simp [branches]
  | cons x rest ih =>
    rw [cons_append,branches,branches,ih,append_assoc,length_cons,Nat.add_assoc,Nat.add_comm 1]

end Transcript

variable {b s q : Program} {home : ModuleId} {m : MethodId} {scope : ParamScope} {site : String} {t : Transcript}

theorem block_concat (start length : Nat) : block start (length + 1) = block start length ++ [⟨start + length⟩] := by
  rw [block,block,range_succ,map_append,map_singleton]

theorem addInstruction_addCode (code : List Instruction) (i : Instruction) :
    ((s.addCode code).addInstruction i) = (⟨s.code.size + code.length⟩,s.addCode (code ++ [i])) := by
  rw [addInstruction,size_addCode]
  simp [addCode]

section

variable (agree : Agree signature b s) (modules : s.modules = b.modules)
include agree modules

theorem readLine_iff {line : String} {body : PendingBody} :
    (readLine home m site scope (t.body s.code.size) line).run (s.addCode (t.items.map Prod.fst)) = .ok (body,q) ↔
      ∃ u, t.read b home m scope line = some u ∧ body = u.body s.code.size ∧ q = s.addCode (u.items.map Prod.fst) := by
  have here : Agree signature b (s.addCode (t.items.map Prod.fst)) := agree.trans (.of_types_eq rfl)
  have length : (block s.code.size t.items.length).length = t.items.length := by simp [block]
  have place : (t.body s.code.size).code.length = t.items.length := length
  rw [readLine,Transcript.read]
  simp only
  cases label : ".label ".toList.isPrefixOf? (Text.trim line.toList) with
  | some name =>
    simp only [Transcript.body,length]
    split
    · exact ⟨fun done => absurd done run_throw_bind_ne_ok,by rintro ⟨_,⟨⟩,-⟩⟩
    · rw [run_pure_eq_ok]
      constructor
      · rintro ⟨rfl,rfl⟩
        exact ⟨_,rfl,rfl,rfl⟩
      · rintro ⟨_,⟨⟩,rfl,rfl⟩
        exact ⟨rfl,rfl⟩
  | none =>
    have grown (i : Instruction) (label : Option String) :
        ({ t with items := t.items ++ [(i,label)] } : Transcript).body s.code.size = { t.body s.code.size with
            code := (t.body s.code.size).code ++ [⟨s.code.size + (t.items.map Prod.fst).length⟩]
            branches := label.elim (t.body s.code.size).branches fun name =>
              (t.body s.code.size).branches ++ [(⟨s.code.size + (t.items.map Prod.fst).length⟩,name)] } := by
      cases label <;> simp [Transcript.body,block_concat,Transcript.branches_append,Transcript.branches]
    have added (i : Instruction) (label : Option String) :
        s.addCode (t.items.map Prod.fst ++ [i]) = s.addCode ((t.items ++ [(i,label)]).map Prod.fst) := by simp
    simp only [run_get_bind,here.readInstruction_eq modules,place]
    rcases b.readInstruction home scope (Text.trim line.toList) ⟨m,t.items.length,0⟩ with e | ⟨i,label⟩
    · refine ⟨fun done => ?_,by rintro ⟨_,⟨⟩,-⟩⟩
      split at done
      · next same => cases same
      all_goals exact absurd done run_throw_bind_ne_ok
    · have grown := (grown i label).symm
      have added := added i label
      cases label
      all_goals
        simp only [pure_bind,run_bind_eq_ok,Linkage.run_modifyGet_eq_ok,addInstruction_addCode,run_pure_eq_ok]
        constructor
        · rintro ⟨_,_,⟨⟩,rfl,rfl⟩
          exact ⟨_,rfl,grown,added⟩
        · rintro ⟨_,⟨⟩,rfl,rfl⟩
          exact ⟨_,_,rfl,grown,added⟩

theorem readLines_iff {body : PendingBody} :
    (lines.foldlM (readLine home m site scope) (t.body s.code.size)).run (s.addCode (t.items.map Prod.fst)) = .ok (body,q) ↔
      ∃ u, lines.foldlM (Transcript.read b home m scope) t = some u ∧ body = u.body s.code.size ∧
        q = s.addCode (u.items.map Prod.fst) := by
  induction lines generalizing t with
  | nil =>
    constructor
    · intro done
      obtain ⟨rfl,rfl⟩ := run_pure_eq_ok.mp done
      exact ⟨t,rfl,rfl,rfl⟩
    · rintro ⟨u,⟨⟩,rfl,rfl⟩
      rfl
  | cons line rest ih =>
    rw [foldlM_cons (m := Option)]
    constructor
    · intro done
      obtain ⟨next,s',first,others⟩ := Linkage.run_foldlM_cons_eq_ok.mp done
      obtain ⟨u,read,rfl,rfl⟩ := (readLine_iff agree modules).mp first
      obtain ⟨v,later,rfl,rfl⟩ := ih.mp others
      exact ⟨v,Option.bind_eq_some_iff.mpr ⟨u,read,later⟩,rfl,rfl⟩
    · rintro ⟨v,whole,rfl,rfl⟩
      obtain ⟨u,read,later⟩ := Option.bind_eq_some_iff.mp whole
      exact Linkage.run_foldlM_cons_eq_ok.mpr ⟨_,_,(readLine_iff agree modules).mpr ⟨u,read,rfl,rfl⟩,
        ih.mpr ⟨v,later,rfl,rfl⟩⟩

end

theorem addCode_modify (front back : List Instruction) (i : Instruction) (f : Instruction → Instruction) :
    (s.addCode (front ++ i :: back)).modifyInstruction ⟨s.code.size + front.length⟩ f = s.addCode (front ++ f i :: back) := by
  rw [modifyInstruction,addCode,addCode]
  congr 1
  refine Array.ext_getElem? fun k => ?_
  simp only [Array.getElem?_modify,Array.getElem?_append,getElem?_toArray,getElem?_append]
  by_cases here : s.code.size + front.length = k
  · subst here
    simp [show ¬s.code.size + front.length < s.code.size by omega]
  · rw [if_neg here]
    split
    · rfl
    · split
      · rfl
      · obtain ⟨n,after⟩ : ∃ n, k - s.code.size - front.length = n + 1 := ⟨k - s.code.size - front.length - 1,by omega⟩
        rw [after,getElem?_cons_succ,getElem?_cons_succ]

theorem getElem?_body {start k : Nat} : (t.body start).code[k]? = if k < t.items.length then some ⟨start + k⟩ else none := by
  split
  · next inside => exact getElem?_block inside
  · next outside => exact getElem?_eq_none (by simpa [Transcript.body,block] using outside)

theorem bindBranches_iff : ((t.body s.code.size).branches.forM (bindBranch site (t.body s.code.size))).run
    (s.addCode (t.items.map Prod.fst)) = .ok (⟨⟩,q) ↔ t.Closed ∧ q = s.addCode (t.items.map (t.settle s.code.size)) := by
  have later : ∀ back front : List (Instruction × Option String), t.items = front ++ back →
      (((Transcript.branches (s.code.size + front.length) back).forM (bindBranch site (t.body s.code.size))).run
        (s.addCode (front.map (t.settle s.code.size) ++ back.map Prod.fst)) = .ok (⟨⟩,q) ↔
      (∀ x ∈ back, ∀ label, x.2 = some label → ∃ k, t.labels.lookup label = some k ∧ k < t.items.length) ∧
        q = s.addCode (front.map (t.settle s.code.size) ++ back.map (t.settle s.code.size))) := by
    intro back
    induction back with
    | nil =>
      intro front split
      constructor
      · intro done
        obtain ⟨-,rfl⟩ := run_pure_eq_ok.mp done
        exact ⟨by simp,rfl⟩
      · rintro ⟨-,rfl⟩
        rfl
    | cons x back ih =>
      intro front split
      obtain ⟨i,label⟩ := x
      have next := ih (front ++ [(i,label)]) (by rw [split]; simp)
      rw [length_append,length_singleton,← Nat.add_assoc,map_append,map_singleton,append_assoc,
        append_assoc,singleton_append,singleton_append] at next
      rw [Transcript.branches,map_cons,map_cons,forall_mem_cons]
      cases label with
      | none =>
        rw [Option.map_none,Option.toList_none,nil_append]
        have plain : t.settle s.code.size (i,none) = i := rfl
        rw [plain] at next ⊢
        rw [next]
        simp
      | some name =>
        rw [Option.map_some,Option.toList_some,singleton_append]
        have lead (k : Nat) (lookup : t.labels.lookup name = some k) :
            (s.addCode (front.map (t.settle s.code.size) ++ i :: back.map Prod.fst)).modifyInstruction
              ⟨s.code.size + front.length⟩ (fun d => { d with operand := .branch ⟨s.code.size + k⟩ }) =
            s.addCode (front.map (t.settle s.code.size) ++ t.settle s.code.size (i,some name) :: back.map Prod.fst) := by
          have changed := addCode_modify (s := s) (front.map (t.settle s.code.size)) (back.map Prod.fst) i
            fun d => { d with operand := .branch ⟨s.code.size + k⟩ }
          rw [length_map] at changed
          rw [changed,Transcript.settle_of_lookup lookup]
        constructor
        · intro done
          obtain ⟨s',first,others⟩ := Linkage.run_forM_cons_eq_ok.mp done
          rw [bindBranch] at first
          split at first
          · next target found =>
            obtain rfl := run_modify_eq_ok.mp first
            obtain ⟨k,lookup,place⟩ := Option.bind_eq_some_iff.mp found
            rw [getElem?_body] at place
            split at place
            · next inside =>
              cases place
              rw [lead k lookup] at others
              obtain ⟨rest,rfl⟩ := next.mp others
              exact ⟨⟨by rintro _ ⟨⟩; exact ⟨k,lookup,inside⟩,rest⟩,rfl⟩
            · cases place
          · exact absurd first Linkage.run_throw_ne_ok
        · rintro ⟨⟨here,rest⟩,rfl⟩
          obtain ⟨k,lookup,inside⟩ := here name rfl
          refine Linkage.run_forM_cons_eq_ok.mpr ⟨_,?_,next.mpr ⟨rest,rfl⟩⟩
          have known : (t.body s.code.size).labels.lookup name = some k := lookup
          rw [bindBranch,known,Option.bind_some,getElem?_body,if_pos inside]
          exact run_modify_eq_ok.mpr (lead k lookup)
  exact later t.items [] rfl

/-- A document has nothing to say about the body of a method. -/
def isBodiless (doc : MethodDoc) : Bool := doc.body.isEmpty && doc.locals.isEmpty

/-- The locals and the transcript of the body that a document gives a method. -/
structure Recites (p : Program) (home : ModuleId) (pending : PendingMethod) (locals : List TypeRef) (t : Transcript) : Prop where
  concrete : (p.methodAt pending.id).isAbstract = false
  managed : (p.methodAt pending.id).native = ""
  locals : List.Forall₂ (fun text u =>
    p.readType home (methodScope p pending.id (p.methodAt pending.id).generics) text.toList = .ok u) pending.doc.locals locals
  lines : pending.doc.body.foldlM
    (Transcript.read p home pending.id (methodScope p pending.id (p.methodAt pending.id).generics)) {} = some t
  closed : t.Closed

/-- The program in which a method has got a body, with its instructions in a block at the end. -/
def recited (s : Program) (pending : PendingMethod) (locals : List TypeRef) (t : Transcript) : Program :=
  (s.addCode (t.items.map (t.settle s.code.size))).modifyMethod pending.id fun d =>
    { d with body := some ⟨locals,block s.code.size t.items.length,pending.doc.initLocals⟩ }

theorem fillBody_iff (agree : Agree signature b s) (modules : s.modules = b.modules) :
    (fillBody home pending).run s = .ok (⟨⟩,q) ↔ (isBodiless pending.doc = true ∧ q = s) ∨
      (isBodiless pending.doc = false ∧ ∃ locals t, Recites b home pending locals t ∧ q = recited s pending locals t) := by
  have abstract : (s.methodAt pending.id).isAbstract = (b.methodAt pending.id).isAbstract :=
    agree.method_eq _ MethodDecl.isAbstract fun _ => rfl
  have native : (s.methodAt pending.id).native = (b.methodAt pending.id).native :=
    agree.method_eq _ MethodDecl.native fun _ => rfl
  have scope : (⟨s.typeParams pending.id.owner,s.methodParams pending.id⟩ : ParamScope) =
      methodScope b pending.id (b.methodAt pending.id).generics := by
    rw [methodScope,agree.header.typeParams_eq,methodParams,agree.method_eq _ MethodDecl.generics fun _ => rfl]
  have empty : s.addCode (({} : Transcript).items.map Prod.fst) = s := by simp [addCode]
  rw [fillBody]
  simp only
  cases bodiless : isBodiless pending.doc with
  | true =>
    rw [isBodiless] at bodiless
    rw [if_pos bodiless,run_pure_eq_ok]
    simp [eq_comm]
  | false =>
    rw [isBodiless] at bodiless
    rw [if_neg (by rw [bodiless]; exact Bool.false_ne_true)]
    have lines {site : String} {lines : List String} {body : PendingBody} {s' : Program} :
        (lines.foldlM (readLine home pending.id site (methodScope b pending.id (b.methodAt pending.id).generics))
          (({} : Transcript).body s.code.size)).run (s.addCode (({} : Transcript).items.map Prod.fst)) = .ok (body,s') ↔ _ :=
      readLines_iff agree modules
    rw [empty] at lines
    constructor
    · intro done
      rw [run_get_bind] at done
      split at done
      · exact absurd done run_throw_bind_ne_ok
      · next plain =>
        obtain ⟨locals,_,localsRead,done⟩ := run_bind_eq_ok.mp done
        obtain ⟨each,rfl⟩ := Linkage.run_mapM_lift_eq_ok.mp localsRead
        obtain ⟨body,s1,linesRun,done⟩ := run_bind_eq_ok.mp done
        obtain ⟨_,s2,branchesRun,done⟩ := run_bind_eq_ok.mp done
        obtain rfl := run_modify_eq_ok.mp done
        rw [scope] at linesRun each
        obtain ⟨t,recites,rfl,rfl⟩ := lines.mp linesRun
        obtain ⟨closed,rfl⟩ := bindBranches_iff.mp branchesRun
        rw [Bool.or_eq_true,not_or,abstract,native] at plain
        refine .inr ⟨rfl,locals,t,⟨by simpa using plain.1,by simpa using plain.2,?_,recites,closed⟩,rfl⟩
        refine forall₂_zipIdx.mp (each.imp fun x u read => ?_)
        rw [← agree.header.readType_eq modules]
        exact Except.mapError_eq_ok.mp read
    · rintro (⟨⟨⟩,-⟩ | ⟨-,locals,t,⟨concrete,managed,each,recites,closed⟩,rfl⟩)
      rw [run_get_bind]
      rw [if_neg (by rw [abstract,native,concrete,managed]; decide),scope]
      refine run_bind_eq_ok.mpr ⟨locals,s,Linkage.run_mapM_lift_eq_ok.mpr ⟨?_,rfl⟩,?_⟩
      · refine (forall₂_zipIdx.mpr each).imp fun x u read => Except.mapError_eq_ok.mpr ?_
        rw [agree.header.readType_eq modules]
        exact read
      · refine run_bind_eq_ok.mpr ⟨_,_,lines.mpr ⟨t,recites,rfl,rfl⟩,?_⟩
        refine run_bind_eq_ok.mpr ⟨⟨⟩,_,bindBranches_iff.mpr ⟨closed,rfl⟩,?_⟩
        exact run_modify_eq_ok.mpr rfl

theorem Recites.unique {locals locals' : List TypeRef}
    (first : Recites b home pending locals t) (second : Recites b home pending locals' u) : locals' = locals ∧ u = t := by
  have same := first.lines
  rw [second.lines] at same
  refine ⟨?_,Option.some.inj same⟩
  refine right_unique_forall₂' ?_ second.locals first.locals
  intro text u v read again
  exact Except.ok.inj (read.symm.trans again)

/-- The method has the body that its document gives it. -/
def Spoken (b : Program) (home : ModuleId) (pending : PendingMethod) (q : Program) : Prop :=
  (isBodiless pending.doc = true ∧ (q.methodAt pending.id).body = none) ∨
    (isBodiless pending.doc = false ∧ ∃ locals t start, Recites b home pending locals t ∧
      (q.methodAt pending.id).body = some ⟨locals,block start t.items.length,pending.doc.initLocals⟩ ∧
      ∀ k x, t.items[k]? = some x → start + k < q.code.size ∧ q.instructionAt ⟨start + k⟩ = t.settle start x)

theorem Spoken.keep (spoken : Spoken b home pending s)
    (method : q.methodAt pending.id = s.methodAt pending.id) (code : s.KeepsCode q) : Spoken b home pending q := by
  rw [Spoken,method]
  refine spoken.imp id (And.imp id ?_)
  rintro ⟨locals,t,start,recites,body,items⟩
  refine ⟨locals,t,start,recites,body,fun k x at_ => ?_⟩
  obtain ⟨inside,here⟩ := items k x at_
  exact ⟨Nat.lt_of_lt_of_le inside code.size_le,by rw [code.instruction_eq _ inside,here]⟩

/-- The methods in front have their bodies; the others are as they were declared. -/
structure Voiced (b : Program) (home : ModuleId) (front : List PendingMethod) (s : Program) : Prop where
  agree : Agree signature b s
  modules_eq : s.modules = b.modules
  spoken : ∀ x ∈ front, Spoken b home x s
  rest : ∀ m, m ∉ front.map PendingMethod.id → s.methodAt m = b.methodAt m

theorem Voiced.start (b : Program) (home : ModuleId) : Voiced b home [] b := ⟨.refl _ b,rfl,by simp,fun _ _ => rfl⟩

/-- The method is declared and has no body yet. -/
structure Waiting (b : Program) (pending : PendingMethod) : Prop where
  inside : pending.id.owner.index < b.types.size
  position : pending.id.position < (b.typeAt pending.id.owner).methods.length
  bodiless : (b.methodAt pending.id).body = none

theorem Voiced.step {front : List PendingMethod} (voiced : Voiced b home front s)
    (waiting : Waiting b pending) (new : pending.id ∉ front.map PendingMethod.id)
    (done : (fillBody home pending).run s = .ok (⟨⟩,q)) : Voiced b home (front ++ [pending]) q := by
  have untouched : s.methodAt pending.id = b.methodAt pending.id := voiced.rest _ new
  have apart {x : PendingMethod} (early : x ∈ front) : x.id ≠ pending.id := fun same =>
    new (same ▸ List.mem_map_of_mem early)
  rcases (fillBody_iff voiced.agree voiced.modules_eq).mp done with ⟨bodiless,rfl⟩ | ⟨filled,locals,t,recites,rfl⟩
  · refine ⟨voiced.agree,voiced.modules_eq,fun x among => ?_,fun m absent => ?_⟩
    · rcases List.mem_append.mp among with early | last
      · exact voiced.spoken x early
      · rw [List.mem_singleton.mp last]
        exact .inl ⟨bodiless,by rw [untouched]; exact waiting.bodiless⟩
    · rw [List.map_append,List.mem_append,not_or] at absent
      exact voiced.rest m absent.1
  · have change : Agree signature s (recited s pending locals t) :=
      (Agree.of_types_eq rfl : Agree signature s (s.addCode _)).trans (.modifyMethod fun _ => rfl)
    have code : s.KeepsCode (recited s pending locals t) :=
      ⟨(keepsCode_addCode _).size_le,(keepsCode_addCode _).instruction_eq⟩
    have others {m : MethodId} (different : m ≠ pending.id) : (recited s pending locals t).methodAt m = s.methodAt m :=
      methodAt_modifyMethod_of_ne different _
    refine ⟨voiced.agree.trans change,voiced.modules_eq,fun x among => ?_,fun m absent => ?_⟩
    · rcases List.mem_append.mp among with early | last
      · exact (voiced.spoken x early).keep (others (apart early)) code
      · rw [List.mem_singleton.mp last]
        refine .inr ⟨filled,locals,t,s.code.size,recites,?_,fun k x at_ => ?_⟩
        · rw [recited,methodAt_modifyMethod_self]
          · exact (voiced.agree.size_eq).symm ▸ waiting.inside
          · show pending.id.position < (s.typeAt pending.id.owner).methods.length
            rw [voiced.agree.length_methods_eq]
            exact waiting.position
        · have mapped : (t.items.map (t.settle s.code.size))[k]? = some (t.settle s.code.size x) := by
            rw [List.getElem?_map,at_]
            rfl
          refine ⟨?_,instructionAt_addCode mapped⟩
          have inside := (List.getElem?_eq_some_iff.mp at_).1
          show s.code.size + k < (s.addCode (t.items.map (t.settle s.code.size))).code.size
          rw [size_addCode,List.length_map]
          omega
    · rw [List.map_append,List.mem_append,not_or] at absent
      rw [others (by simpa using absent.2)]
      exact voiced.rest m absent.1

variable {methods : List PendingMethod}

theorem voiced_of_run (waiting : ∀ x ∈ methods, Waiting b x) (distinct : (methods.map PendingMethod.id).Nodup)
    (done : (methods.forM (fillBody home)).run b = .ok (⟨⟩,q)) : Voiced b home methods q := by
  have later : ∀ (back front : List PendingMethod) (s : Program), methods = front ++ back → Voiced b home front s →
      (back.forM (fillBody home)).run s = .ok (⟨⟩,q) → Voiced b home methods q := by
    intro back
    induction back with
    | nil =>
      rintro front s rfl voiced done
      obtain ⟨-,rfl⟩ := run_pure_eq_ok.mp done
      rw [append_nil]
      exact voiced
    | cons pending back ih =>
      rintro front s rfl voiced done
      obtain ⟨s',first,rest⟩ := Linkage.run_forM_cons_eq_ok.mp done
      rw [map_append,map_cons] at distinct
      have new : pending.id ∉ front.map PendingMethod.id := fun early =>
        (disjoint_of_nodup_append distinct) early (.head _)
      exact ih (front ++ [pending]) s' (by simp) (voiced.step (waiting pending (by simp)) new first) rest
  exact later methods [] b rfl (.start b home) done

theorem Voiced.typeAt_eq {t : TypeId} (voiced : Voiced b home methods s) (other : ∀ x ∈ methods, x.id.owner ≠ t) :
    s.typeAt t = b.typeAt t := by
  have same := voiced.agree.view_eq t
  have length : (s.typeAt t).methods.length = (b.typeAt t).methods.length := voiced.agree.length_methods_eq t
  have methods : (s.typeAt t).methods = (b.typeAt t).methods := by
    refine ext_getElem length fun k first second => ?_
    have kept := voiced.rest ⟨t,k⟩ fun among => by
      obtain ⟨x,member,id⟩ := mem_map.mp among
      exact other x member (by rw [id])
    simpa [methodAt,getD_eq_getElem?_getD,first,second] using kept
  calc s.typeAt t = { (s.typeAt t).signature with methods := (s.typeAt t).methods } := rfl
    _ = b.typeAt t := by rw [same,methods]; rfl

theorem exists_voiced (waiting : ∀ x ∈ methods, Waiting b x) (distinct : (methods.map PendingMethod.id).Nodup)
    (each : ∀ x ∈ methods, isBodiless x.doc = true ∨ ∃ locals t, Recites b home x locals t) :
    ∃ q, (methods.forM (fillBody home)).run b = .ok (⟨⟩,q) := by
  obtain ⟨q,run,-⟩ := Linkage.forM_runs (f := fillBody home) (s := b) (I := fun front s => Voiced b home front s) methods
    (fun front pending back s split voiced => by
      subst split
      rw [map_append,map_cons] at distinct
      have new : pending.id ∉ front.map PendingMethod.id := fun early =>
        (disjoint_of_nodup_append distinct) early (.head _)
      have run : ∃ q, (fillBody home pending).run s = .ok (⟨⟩,q) := by
        cases bodiless : isBodiless pending.doc with
        | true => exact ⟨s,(fillBody_iff voiced.agree voiced.modules_eq).mpr (.inl ⟨bodiless,rfl⟩)⟩
        | false =>
          obtain ⟨locals,t,recites⟩ := (each pending (by simp)).resolve_left (by rw [bodiless]; exact Bool.false_ne_true)
          exact ⟨_,(fillBody_iff voiced.agree voiced.modules_eq).mpr (.inr ⟨bodiless,locals,t,recites,rfl⟩)⟩
      obtain ⟨q,run⟩ := run
      exact ⟨q,run,voiced.step (waiting pending (by simp)) new run⟩)
    (.start b home)
  exact ⟨q,run⟩

theorem nodup_methods (distinct : (p.allTypes home).Nodup) : ((p.allTypes home).flatMap p.methodsOf).Nodup := by
  refine nodup_flatMap.mpr ⟨fun t _ => ?_,distinct.imp fun {t u} different => ?_⟩
  · exact nodup_range.map fun a b same => congrArg MethodId.position same
  · intro n first second
    exact different ((mem_methodsOf.mp first).1.symm.trans (mem_methodsOf.mp second).1)

section

variable {p : Program} {types : List PendingType} (sketched : Sketched home p s types) (populated : Populated s home types b)
include sketched populated

theorem Populated.waiting : ∀ m ∈ (types.map PendingType.methods).flatten, Waiting b m := by
  intro m among
  obtain ⟨x,member,k,doc,at_,rfl⟩ := mem_methods.mp among
  obtain ⟨d,here,signs⟩ := (populated.told x member).method at_
  exact ⟨by rw [populated.agree.size_eq]; exact (sketched.id_new member).2,(List.getElem?_eq_some_iff.mp here).1,
    by rw [methodAt_eq_of_getElem? here]; exact signs.body⟩

theorem Populated.nodup_methods : ((types.map PendingType.methods).flatten.map PendingMethod.id).Nodup := by
  have ids : (types.map PendingType.methods).flatten.map PendingMethod.id = (b.allTypes home).flatMap b.methodsOf := by
    rw [populated.agree.allTypes_eq populated.modules_eq,sketched.walk,flatMap_map,← flatMap_def,
      map_flatMap]
    refine flatMap_congr fun x member => ?_
    have length := (populated.told x member).methods.length_eq
    rw [length_zipIdx] at length
    refine ext_getElem (by simp [PendingType.methods,methodsOf,length]) fun k _ _ => ?_
    simp [PendingType.methods,methodsOf]
  rw [ids]
  refine Document.nodup_methods ?_
  rw [populated.agree.allTypes_eq populated.modules_eq]
  exact sketched.names.of_map

end

end Document
end Loom
