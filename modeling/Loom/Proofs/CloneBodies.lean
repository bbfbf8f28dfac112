import Loom.Proofs.Cloning

/-!
The bodies of clones. The clone of a body has an instruction for each instruction of the original, with the operand
brought over; its branches lead where those of the original lead, and its instructions are new.
-/
namespace Loom

open Runs List Program CloneSite
open TypeDecl (signature)

variable {b e : Body} {o o' : Operand} {c d : MethodId} {i : InstructionId} {site : CloneSite} {shells : List Shell}
  {v : Shell × MethodId}

theorem Body.getElem?_of_lastIndexOf? {j : Nat} (found : b.lastIndexOf? i = some j) : b.code[j]? = some i := by
  obtain ⟨k,back,rfl⟩ := Option.map_eq_some_iff.mp found
  obtain ⟨inside,same,-⟩ := findIdx?_eq_some_iff_getElem.mp back
  rw [getElem_reverse,beq_iff_eq] at same
  rw [length_reverse] at inside
  rw [getElem?_eq_getElem (by omega),same]

theorem Body.exists_lastIndexOf? (member : i ∈ b.code) : ∃ j, b.lastIndexOf? i = some j := by
  obtain ⟨k,found⟩ : ∃ k, b.code.reverse.findIdx? (· == i) = some k :=
    Option.isSome_iff_exists.mp (findIdx?_isSome.trans
      (any_eq_true.mpr ⟨i,mem_reverse.mpr member,beq_self_eq_true i⟩))
  exact ⟨_,Option.map_eq_some_iff.mpr ⟨k,found,rfl⟩⟩

namespace CloneSite

variable {site : CloneSite} {p q : Program} {b b' : Body}

/-- The operand of a cloned instruction. A branch leads to the place in the clone at which its target stands in the
    original. -/
def OperandCloned (site : CloneSite) (p : Program) (b b' : Body) : Operand → Operand → Prop
  | .branch target, o => ∃ j i, b.lastIndexOf? target = some j ∧ b'.code[j]? = some i ∧ o = .branch i
  | o, o' => site.operand p o = .ok o'

theorem OperandCloned.mono (agree : Agree signature p q) (cloned : site.OperandCloned p b b' o o') :
    site.OperandCloned q b b' o o' := by
  cases o with
  | branch target => exact cloned
  | none => exact operand_mono agree cloned
  | int n => exact operand_mono agree cloned
  | text t => exact operand_mono agree cloned
  | type t => exact operand_mono agree cloned
  | method m => exact operand_mono agree cloned
  | field f => exact operand_mono agree cloned

theorem OperandCloned.reference?_eq (cloned : site.OperandCloned p b b' o o') :
    o'.reference? = o.reference?.map site.refId := by
  cases o with
  | branch target =>
    obtain ⟨j,i,-,-,rfl⟩ := cloned
    rfl
  | _ => exact reference?_operand cloned

structure BodyCloned (site : CloneSite) (p : Program) (b b' : Body) : Prop where
  locals : List.Forall₂ (fun t t' => site.type p t = .ok t') b.locals b'.locals
  initLocals : b'.initLocals = b.initLocals
  code : List.Forall₂ (fun i i' => (p.instructionAt i').opcode = (p.instructionAt i).opcode ∧
    site.OperandCloned p b b' (p.instructionAt i).operand (p.instructionAt i').operand) b.code b'.code

theorem BodyCloned.mono (agree : Agree signature p q) (code : KeepsCode p q) (old : ∀ i ∈ b.code, i.index < p.code.size)
    (new : ∀ i ∈ b'.code, i.index < p.code.size) (cloned : site.BodyCloned p b b') : site.BodyCloned q b b' where
  locals := cloned.locals.imp fun t t' brought => by rw [type_mono agree]; exact brought
  initLocals := cloned.initLocals
  code := by
    have all := forall₂_iff_get.mp cloned.code
    refine forall₂_iff_get.mpr ⟨all.1,fun k first second => ?_⟩
    obtain ⟨opcode,operand⟩ := all.2 k first second
    rw [code.instruction_eq _ (old _ (get_mem ..)),code.instruction_eq _ (new _ (get_mem ..))]
    exact ⟨opcode,operand.mono agree⟩

end CloneSite

namespace Program

variable {p p' : Program} {b b' : Body}

def Placed (b : Body) (start : Nat) : Operand → Operand → Prop
  | .branch target, o => ∃ j, b.lastIndexOf? target = some j ∧ o = .branch ⟨start + j⟩
  | o, o' => o' = o

theorem placeBranches_eq_ok {start k : Nat} {fault : Nat → Failure} {code placed : List Instruction}
    (done : placeBranches b start fault k code = .ok placed) :
    Forall₂ (fun i i' => i'.opcode = i.opcode ∧ Placed b start i.operand i'.operand) code placed := by
  induction code generalizing k placed with
  | nil => cases done; exact .nil
  | cons ins rest ih =>
    rw [placeBranches] at done
    split at done
    · next target operand =>
      split at done
      · cases done
      · next j found =>
        obtain ⟨others,later,⟨⟩⟩ := Except.bind_eq_ok.mp done
        exact .cons ⟨rfl,by rw [operand]; exact ⟨j,found,rfl⟩⟩ (ih later)
    · next plain =>
      obtain ⟨others,later,⟨⟩⟩ := Except.bind_eq_ok.mp done
      refine .cons ⟨rfl,?_⟩ (ih later)
      cases operand : ins.operand with
      | branch target => exact absurd operand (plain target)
      | _ => rfl

theorem operandCloned_of_placed {start : Nat} {o'' : Operand} (brought : site.operand p o = .ok o')
    (placed : Placed b start o' o'') (code : b'.code = block start b.code.length) : site.OperandCloned p b b' o o'' := by
  have kind := kind_operand brought
  cases o with
  | branch target =>
    cases brought
    obtain ⟨j,found,rfl⟩ := placed
    have inside := (List.getElem?_eq_some_iff.mp (Body.getElem?_of_lastIndexOf? found)).1
    exact ⟨j,_,found,by rw [code]; exact getElem?_block inside,rfl⟩
  | _ =>
    have same : o'' = o' := by
      cases o' with
      | branch target => cases kind
      | _ => exact placed
    rw [same]
    exact brought

theorem cloneBody_eq_ok (inside : ∀ i ∈ b.code, i.index < p.code.size) (done : p.cloneBody site b = .ok (p',b')) :
    ∃ code, p' = p.addCode code ∧ b'.code = block p.code.size code.length ∧ site.BodyCloned p' b b' := by
  rw [cloneBody,Except.bind_eq_ok] at done
  obtain ⟨locals,localed,done⟩ := done
  obtain ⟨brought,mapped,done⟩ := Except.bind_eq_ok.mp done
  obtain ⟨code,placed,done⟩ := Except.bind_eq_ok.mp done
  obtain ⟨program,body⟩ := Prod.mk.inj (Except.ok.inj done)
  obtain rfl : p.addCode code = p' := program
  obtain rfl : { b with locals, code := block p.code.size code.length } = b' := body
  have first := Except.mapM_eq_ok.mp mapped
  have second := placeBranches_eq_ok placed
  have length : code.length = b.code.length := second.length_eq.symm.trans first.length_eq.symm
  have agree : Agree signature p (p.addCode code) := .of_types_eq rfl
  refine ⟨code,rfl,rfl,(Except.mapM_eq_ok.mp localed).imp fun t t' done => ?_,rfl,?_⟩
  · rw [type_mono agree]
    exact done
  · refine forall₂_iff_get.mpr ⟨by simp [block,length],fun k before after => ?_⟩
    have within : k < code.length := by rw [length]; exact before
    obtain ⟨operand,brought_eq,same⟩ := Except.bind_eq_ok.mp (first.get before (by rw [← first.length_eq]; exact before))
    obtain ⟨opcode_eq,placed_eq⟩ := second.get (by rw [← first.length_eq]; exact before) within
    rw [← Except.ok.inj same] at opcode_eq placed_eq
    have new : (p.addCode code).instructionAt ((block p.code.size code.length).get ⟨k,after⟩) = code.get ⟨k,within⟩ := by
      have place : (block p.code.size code.length).get ⟨k,after⟩ = ⟨p.code.size + k⟩ :=
        Option.some.inj ((getElem?_eq_getElem after).symm.trans (getElem?_block within))
      rw [place]
      exact instructionAt_addCode (getElem?_eq_getElem within)
    rw [new,(keepsCode_addCode code).instruction_eq _ (inside _ (get_mem ..))]
    refine ⟨opcode_eq,operandCloned_of_placed (operand_mono agree brought_eq) placed_eq ?_⟩
    rw [length]

def fill (p : Program) (code : List Instruction) (c : MethodId) (b : Body) : Program :=
  (p.addCode code).modifyMethod c fun d => { d with body := some b }

section Fill

variable (code : List Instruction) (c : MethodId) (b : Body)

theorem agree_fill : Agree signature p (p.fill code c b) := by
  have added : Agree signature p (p.addCode code) := .of_types_eq rfl
  refine added.trans (.modifyMethod ?_)
  exact fun _ => rfl

theorem keepsCode_fill : KeepsCode p (p.fill code c b) :=
  ⟨(keepsCode_addCode code).size_le,(keepsCode_addCode code).instruction_eq⟩

theorem size_fill : (p.fill code c b).code.size = p.code.size + code.length := size_addCode code

theorem typeAt_fill_of_ne {t : TypeId} (different : t ≠ c.owner) : (p.fill code c b).typeAt t = p.typeAt t :=
  typeAt_modifyType_of_ne different _

theorem methodAt_fill_of_ne (different : d ≠ c) : (p.fill code c b).methodAt d = p.methodAt d :=
  methodAt_modifyMethod_of_ne different _

theorem methodAt_fill_self (inside : c.owner.index < p.types.size) (within : c.position < (p.typeAt c.owner).methods.length) :
    (p.fill code c b).methodAt c = { p.methodAt c with body := some b } :=
  methodAt_modifyMethod_self (p := p.addCode code) inside within _

theorem bodyCloned_fill {a : Body} (inside : ∀ i ∈ a.code, i.index < p.code.size)
    (block : b.code = block p.code.size code.length) (cloned : site.BodyCloned (p.addCode code) a b) :
    site.BodyCloned (p.fill code c b) a b := by
  have agree : Agree signature (p.addCode code) (p.fill code c b) := by
    refine .modifyMethod ?_
    exact fun _ => rfl
  have keeps : KeepsCode (p.addCode code) (p.fill code c b) := ⟨Nat.le_refl _,fun _ _ => rfl⟩
  refine cloned.mono agree keeps (fun i member => ?_) (fun i member => ?_)
  · exact Nat.lt_of_lt_of_le (inside i member) (keepsCode_addCode code).size_le
  · rw [block] at member
    rw [size_addCode]
    exact (mem_block.mp member).2

theorem body_fill_cases (inside : c.owner.index < p.types.size) (within : c.position < (p.typeAt c.owner).methods.length)
    (body : ((p.fill code c b).methodAt d).body = some e) : d = c ∧ e = b ∨ d ≠ c ∧ (p.methodAt d).body = some e := by
  by_cases same : d = c
  · rw [same,methodAt_fill_self code c b inside within] at body
    exact .inl ⟨same,(Option.some.inj body).symm⟩
  · rw [methodAt_fill_of_ne code c b same] at body
    exact .inr ⟨same,body⟩

end Fill

end Program
namespace Cloning

variable {family : List Scope} {shell : Shell} {m : MethodId} {n : Nat} {x y : Program}

/-- The clone of a method has the clone of its body, or has none as the original has none. -/
inductive BodyFilled (family : List Scope) (p : Program) (s : Shell) (m : MethodId) : Prop
  | bodiless (bare : (p.methodAt m).isAbstract = true ∨ (p.methodAt m).body = none)
      (same : (p.methodAt ⟨s.clone,m.position⟩).body = none)
  | bodied {b b' : Body} (concrete : (p.methodAt m).isAbstract = false) (body : (p.methodAt m).body = some b)
      (clone : (p.methodAt ⟨s.clone,m.position⟩).body = some b')
      (cloned : (methodSite family s m).BodyCloned p b b')

/-- One body is filled in, in a block of new instructions, or nothing is done where there is none. -/
theorem fillBody_eq_ok {u : PUnit} (done : (fillBody family shell m).run x = (.ok u,y))
    (inside : ∀ b, (x.methodAt m).body = some b → ∀ i ∈ b.code, i.index < x.code.size) :
    (y = x ∧ ((x.methodAt m).isAbstract = true ∨ (x.methodAt m).body = none)) ∨
      ∃ b b' code, (x.methodAt m).isAbstract = false ∧ (x.methodAt m).body = some b ∧
        b'.code = block x.code.size code.length ∧ (methodSite family shell m).BodyCloned y b b' ∧
        y = x.fill code ⟨shell.clone,m.position⟩ b' := by
  rw [fillBody,run_get_bind] at done
  cases abstract_ : (x.methodAt m).isAbstract with
  | true =>
    simp only [abstract_] at done
    obtain ⟨-,rfl⟩ := run_pure_eq_ok.mp done
    exact .inl ⟨rfl,.inl rfl⟩
  | false =>
    cases body : (x.methodAt m).body with
    | none =>
      simp only [abstract_,body] at done
      obtain ⟨-,rfl⟩ := run_pure_eq_ok.mp done
      exact .inl ⟨rfl,.inr rfl⟩
    | some b =>
      simp only [abstract_,body] at done
      obtain ⟨⟨p,b'⟩,_,ran,done⟩ := run_bind_eq_ok.mp done
      obtain ⟨cloned,rfl⟩ := run_bring_eq_ok.mp ran
      obtain rfl := run_set_eq_ok.mp done
      obtain ⟨code,rfl,block,cloned⟩ := cloneBody_eq_ok (inside b body) cloned
      exact .inr ⟨b,b',code,rfl,rfl,block,bodyCloned_fill code _ b' (inside b body) block cloned,rfl⟩

/-- Clones beyond the first `n` types that have their members and no bodies. -/
structure Ready (n : Nat) (x : Program) (shells : List Shell) : Prop where
  old : ∀ s ∈ shells, s.source.index < n
  new : ∀ s ∈ shells, n ≤ s.clone.index ∧ s.clone.index < x.types.size
  distinct : ∀ s ∈ shells, ∀ c ∈ shells, s.clone = c.clone → s = c
  bare : ∀ c : MethodId, n ≤ c.owner.index → (x.methodAt c).body = none
  inside : ∀ m : MethodId, m.owner.index < n → ∀ b, (x.methodAt m).body = some b → ∀ i ∈ b.code, i.index < x.code.size
  count : ∀ s ∈ shells, (x.typeAt s.clone).methods.length = (x.typeAt s.source).methods.length

/-- The bodies of the visited methods were filled in, and nothing else was done. -/
structure Filling (family : List Scope) (n : Nat) (x y : Program) (visited : List (Shell × MethodId)) : Prop where
  agree : Agree signature x y
  old : ∀ t : TypeId, t.index < n → y.typeAt t = x.typeAt t
  modules_eq : y.modules = x.modules
  code : KeepsCode x y
  untouched : ∀ c : MethodId, (∀ v ∈ visited, c ≠ ⟨v.1.clone,v.2.position⟩) → y.methodAt c = x.methodAt c
  new : ∀ c : MethodId, n ≤ c.owner.index → ∀ b, (y.methodAt c).body = some b →
    b.code.Nodup ∧ ∀ i ∈ b.code, x.code.size ≤ i.index ∧ i.index < y.code.size
  separate : ∀ c d : MethodId, n ≤ c.owner.index → n ≤ d.owner.index → ∀ b e, (y.methodAt c).body = some b →
    (y.methodAt d).body = some e → ∀ i ∈ b.code, i ∈ e.code → c = d
  filled : ∀ v ∈ visited, BodyFilled family y v.1 v.2

/-- A visit that can be made: to a method of the original of a clone. -/
def Visit (x : Program) (shells : List Shell) (v : Shell × MethodId) : Prop :=
  v.1 ∈ shells ∧ v.2.owner = v.1.source ∧ v.2.position < (x.typeAt v.1.source).methods.length

theorem Ready.visit_eq (ready : Ready n x shells) {w : Shell × MethodId} (first : Visit x shells v)
    (second : Visit x shells w) (same : (⟨v.1.clone,v.2.position⟩ : MethodId) = ⟨w.1.clone,w.2.position⟩) : v = w := by
  obtain ⟨clone,position⟩ := MethodId.mk.inj same
  have shell := ready.distinct v.1 first.1 w.1 second.1 clone
  have owner : v.2.owner = w.2.owner := by rw [first.2.1,second.2.1,shell]
  refine Prod.ext shell ?_
  show (⟨v.2.owner,v.2.position⟩ : MethodId) = ⟨w.2.owner,w.2.position⟩
  rw [owner,position]

theorem Filling.start (ready : Ready n x shells) : Filling family n x x [] where
  agree := .refl _ x
  old _ _ := rfl
  modules_eq := rfl
  code := .refl x
  untouched _ _ := rfl
  new c beyond b body := by rw [ready.bare c beyond] at body; cases body
  separate c d beyond _ b e body := by rw [ready.bare c beyond] at body; cases body
  filled := nofun

theorem BodyFilled.mono {x y : Program} (agree : Agree signature x y) (code : KeepsCode x y)
    (original : y.methodAt v.2 = x.methodAt v.2)
    (clone : y.methodAt ⟨v.1.clone,v.2.position⟩ = x.methodAt ⟨v.1.clone,v.2.position⟩)
    (old : ∀ b, (x.methodAt v.2).body = some b → ∀ i ∈ b.code, i.index < x.code.size)
    (new : ∀ b, (x.methodAt ⟨v.1.clone,v.2.position⟩).body = some b → ∀ i ∈ b.code, i.index < x.code.size)
    (filled : BodyFilled family x v.1 v.2) : BodyFilled family y v.1 v.2 := by
  cases filled with
  | bodiless bare same => exact .bodiless (by rw [original]; exact bare) (by rw [clone]; exact same)
  | bodied concrete body cloneBody cloned =>
    refine .bodied (by rw [original]; exact concrete) (by rw [original]; exact body) (by rw [clone]; exact cloneBody) ?_
    exact cloned.mono agree code (old _ body) (new _ cloneBody)

theorem Filling.skip {visited : List (Shell × MethodId)}
    (ready : Ready n x shells) (filling : Filling family n x y visited) (visits : ∀ w ∈ visited, Visit x shells w)
    (visit : Visit x shells v) (bare : (y.methodAt v.2).isAbstract = true ∨ (y.methodAt v.2).body = none) :
    Filling family n x y (visited ++ [v]) where
  agree := filling.agree
  old := filling.old
  modules_eq := filling.modules_eq
  code := filling.code
  untouched c out := filling.untouched c fun w member => out w (mem_append_left _ member)
  new := filling.new
  separate := filling.separate
  filled := by
    refine forall_mem_append.mpr ⟨filling.filled,forall_mem_singleton.mpr ?_⟩
    by_cases before : ∃ w ∈ visited, (⟨v.1.clone,v.2.position⟩ : MethodId) = ⟨w.1.clone,w.2.position⟩
    · obtain ⟨w,member,same⟩ := before
      rw [ready.visit_eq visit (visits w member) same]
      exact filling.filled w member
    · refine .bodiless bare ?_
      rw [filling.untouched _ fun w member same => before ⟨w,member,same⟩]
      exact ready.bare _ (ready.new v.1 visit.1).1

section Fill

variable {shells : List Shell} {visited : List (Shell × MethodId)} {v : Shell × MethodId} {b b' : Body}
  {code : List Instruction} (ready : Ready n x shells) (filling : Filling family n x y visited) (visit : Visit x shells v)

include ready filling visit

theorem Filling.within : v.1.clone.index < y.types.size ∧ v.2.position < (y.typeAt v.1.clone).methods.length := by
  rw [filling.agree.size_eq,filling.agree.length_methods_eq,ready.count v.1 visit.1]
  exact ⟨(ready.new v.1 visit.1).2,visit.2.2⟩

section

variable (block : b'.code = block y.code.size code.length) (beyond : n ≤ c.owner.index)
include block beyond

theorem Filling.fill_new (body : ((y.fill code ⟨v.1.clone,v.2.position⟩ b').methodAt c).body = some e) : e.code.Nodup ∧
      ∀ i ∈ e.code, x.code.size ≤ i.index ∧ i.index < (y.fill code ⟨v.1.clone,v.2.position⟩ b').code.size := by
  obtain ⟨inside,within⟩ := filling.within ready visit
  rw [size_fill]
  rcases body_fill_cases code _ b' inside within body with ⟨-,rfl⟩ | ⟨-,kept⟩
  · rw [block]
    refine ⟨nodup_block _ _,fun i member => ?_⟩
    obtain ⟨from_,before⟩ := mem_block.mp member
    exact ⟨Nat.le_trans filling.code.size_le from_,before⟩
  · obtain ⟨distinct,bounds⟩ := filling.new c beyond e kept
    exact ⟨distinct,fun i member => ⟨(bounds i member).1,Nat.lt_add_right _ (bounds i member).2⟩⟩

theorem Filling.fill_separate (beyond' : n ≤ d.owner.index) {f : Body}
    (body : ((y.fill code ⟨v.1.clone,v.2.position⟩ b').methodAt c).body = some e)
    (body' : ((y.fill code ⟨v.1.clone,v.2.position⟩ b').methodAt d).body = some f)
    (first : i ∈ e.code) (second : i ∈ f.code) : c = d := by
  obtain ⟨inside,within⟩ := filling.within ready visit
  -- the instructions of the new body come after all others
  have apart {k : MethodId} {g : Body} (far : n ≤ k.owner.index) (kept : (y.methodAt k).body = some g)
      (new : i ∈ b'.code) : i ∉ g.code := by
    intro old
    have bound := ((filling.new k far g kept).2 i old).2
    rw [block,mem_block] at new
    exact absurd bound (Nat.not_lt.mpr new.1)
  rcases body_fill_cases code _ b' inside within body with ⟨here,rfl⟩ | ⟨-,kept⟩
  · rcases body_fill_cases code _ e inside within body' with ⟨there,-⟩ | ⟨-,kept⟩
    · rw [here,there]
    · exact absurd second (apart beyond' kept first)
  · rcases body_fill_cases code _ b' inside within body' with ⟨-,rfl⟩ | ⟨-,kept'⟩
    · exact absurd first (apart beyond kept second)
    · exact filling.separate c d beyond beyond' e f kept kept' i first second

end

theorem Filling.fill (visits : ∀ w ∈ visited, Visit x shells w) (concrete : (y.methodAt v.2).isAbstract = false)
    (body : (y.methodAt v.2).body = some b) (block : b'.code = block y.code.size code.length)
    (cloned : (methodSite family v.1 v.2).BodyCloned (y.fill code ⟨v.1.clone,v.2.position⟩ b') b b') :
    Filling family n x (y.fill code ⟨v.1.clone,v.2.position⟩ b') (visited ++ [v]) := by
  obtain ⟨inside,within⟩ := filling.within ready visit
  have beyond := (ready.new v.1 visit.1).1
  have keeps := keepsCode_fill (p := y) code ⟨v.1.clone,v.2.position⟩ b'
  have agree := agree_fill (p := y) code ⟨v.1.clone,v.2.position⟩ b'
  have original (w : Shell × MethodId) (visit : Visit x shells w) :
      (y.fill code ⟨v.1.clone,v.2.position⟩ b').methodAt w.2 = y.methodAt w.2 ∧
        ∀ b, (y.methodAt w.2).body = some b → ∀ i ∈ b.code, i.index < y.code.size := by
    have before : w.2.owner.index < n := by rw [visit.2.1]; exact ready.old w.1 visit.1
    constructor
    · refine methodAt_fill_of_ne code _ b' fun same => ?_
      rw [same] at before
      exact absurd beyond (Nat.not_le.mpr before)
    · intro b body i member
      rw [methodAt_congr (congrArg TypeDecl.methods (filling.old _ before))] at body
      exact Nat.lt_of_lt_of_le (ready.inside w.2 before b body i member) filling.code.size_le
  have here : BodyFilled family (y.fill code ⟨v.1.clone,v.2.position⟩ b') v.1 v.2 :=
    .bodied (by rw [(original v visit).1]; exact concrete) (by rw [(original v visit).1]; exact body)
      (by rw [methodAt_fill_self code _ b' inside within]) cloned
  have before : ∀ w ∈ visited, BodyFilled family (y.fill code ⟨v.1.clone,v.2.position⟩ b') w.1 w.2 := by
    intro w member
    by_cases same : (⟨w.1.clone,w.2.position⟩ : MethodId) = ⟨v.1.clone,v.2.position⟩
    · rw [ready.visit_eq (visits w member) visit same]
      exact here
    · obtain ⟨kept,old⟩ := original w (visits w member)
      refine (filling.filled w member).mono agree keeps kept (methodAt_fill_of_ne code _ b' same) old ?_
      intro e clone i among
      exact ((filling.new _ (ready.new w.1 (visits w member).1).1 e clone).2 i among).2
  exact {
    agree := filling.agree.trans agree
    old := fun t before => by
      rw [typeAt_fill_of_ne code _ b' (by rintro rfl; exact absurd beyond (Nat.not_le.mpr before))]
      exact filling.old t before
    modules_eq := filling.modules_eq
    code := filling.code.trans keeps
    untouched := fun c out => by
      rw [methodAt_fill_of_ne code _ b' (out v (by simp))]
      exact filling.untouched c fun w member => out w (mem_append_left _ member)
    new := fun c far e body => filling.fill_new ready visit block far body
    separate := fun c d far far' e f body body' i first second =>
      filling.fill_separate ready visit block far far' body body' first second
    filled := forall_mem_append.mpr ⟨before,forall_mem_singleton.mpr here⟩ }

end Fill

variable {shells rest : List Shell} {visited : List (Shell × MethodId)} {z : Program} {u : PUnit}

theorem fillBody_filling (ready : Ready n x shells) (filling : Filling family n x y visited)
    (visits : ∀ w ∈ visited, Visit x shells w) (visit : Visit x shells (shell,m))
    (done : (fillBody family shell m).run y = (.ok u,z)) : Filling family n x z (visited ++ [(shell,m)]) := by
  have old : m.owner.index < n := by
    rw [show m.owner = shell.source from visit.2.1]
    exact ready.old shell visit.1
  have inside : ∀ b, (y.methodAt m).body = some b → ∀ i ∈ b.code, i.index < y.code.size := by
    intro b body i member
    rw [methodAt_congr (congrArg TypeDecl.methods (filling.old _ old))] at body
    exact Nat.lt_of_lt_of_le (ready.inside m old b body i member) filling.code.size_le
  rcases fillBody_eq_ok done inside with ⟨rfl,bare⟩ | ⟨b,b',code,concrete,body,block,cloned,rfl⟩
  · exact filling.skip ready visits visit bare
  · exact filling.fill ready visit visits concrete body block cloned

theorem fillMethods_filling {ms : List MethodId} (ready : Ready n x shells) (filling : Filling family n x y visited)
    (visits : ∀ w ∈ visited ++ ms.map (shell,·), Visit x shells w)
    (done : (ms.forM (fillBody family shell)).run y = (.ok u,z)) :
    Filling family n x z (visited ++ ms.map (shell,·)) := by
  induction ms generalizing y visited with
  | nil =>
    obtain ⟨-,rfl⟩ := run_pure_eq_ok.mp done
    rw [map_nil,append_nil]
    exact filling
  | cons m later ih =>
    obtain ⟨s,first,others⟩ := run_forM_cons_eq_ok.mp done
    have split : visited ++ (m :: later).map (shell,·) = (visited ++ [(shell,m)]) ++ later.map (shell,·) := by simp
    have step := fillBody_filling ready filling (fun w member => visits w (mem_append_left _ member))
      (visits _ (by simp)) first
    rw [split] at visits ⊢
    exact ih step visits others

theorem fillBodies_filling (ready : Ready n x shells) (filling : Filling family n x y visited)
    (visits : ∀ w ∈ visited, Visit x shells w) (among : rest ⊆ shells)
    (done : (rest.forM fun shell => (do ((← get).methodsOf shell.source).forM (fillBody family shell) : Cloning PUnit)).run y =
      (.ok u,z)) :
    Filling family n x z (visited ++ rest.flatMap fun s => (x.methodsOf s.source).map (s,·)) := by
  induction rest generalizing y visited with
  | nil =>
    obtain ⟨-,rfl⟩ := run_pure_eq_ok.mp done
    rw [flatMap_nil,append_nil]
    exact filling
  | cons s later ih =>
    obtain ⟨t,first,others⟩ := run_forM_cons_eq_ok.mp done
    rw [run_get_bind] at first
    rw [filling.agree.methodsOf_eq] at first
    have here : ∀ w ∈ visited ++ (x.methodsOf s.source).map (s,·), Visit x shells w := by
      refine forall_mem_append.mpr ⟨visits,fun w member => ?_⟩
      obtain ⟨m,method,rfl⟩ := mem_map.mp member
      obtain ⟨owner,position⟩ := mem_methodsOf.mp method
      exact ⟨among (.head _),owner,position⟩
    have step := fillMethods_filling ready filling here first
    rw [flatMap_cons,← append_assoc]
    exact ih step here (fun c member => among (.tail _ member)) others

end Cloning
end Loom
