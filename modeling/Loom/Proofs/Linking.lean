import Loom.Proofs.Transcripts

/-!
Linking yields well-formed programs. Bodies are filled when every signature stands, so what they name is there; a
branch leads to an instruction of its own body. The types and instructions that a program had before are as they were.
-/
namespace Loom

open Linkage List Program
open TypeDecl (signature)

variable {p s2 s3 : Program} {pending : PendingMethod} {locals : List TypeRef} {t : TypeId}
  {methods : List (List PendingMethod)} {m : ModuleDecl} {version : Option Version}

namespace Document

variable {home : ModuleId} {n : Nat} {p q s : Program}
variable {doc : Document} {references : List ModuleId} {types : List PendingType}

/-! ### Bodies -/

/-- The types from the given place on have bodies that are formed, each made of instructions of its own. -/
structure Filled (n : Nat) (p s : Program) : Prop where
  agree : Agree signature p s
  old : ∀ t : TypeId, t.index < n → s.typeAt t = p.typeAt t
  modules_eq : s.modules = p.modules
  code : p.KeepsCode s
  bodies : ∀ m : MethodId, n ≤ m.owner.index → ∀ b, (s.methodAt m).body = some b →
    s.BodyFormed m b ∧ ∀ i ∈ b.code, p.code.size ≤ i.index
  separate : ∀ m k : MethodId, n ≤ m.owner.index → n ≤ k.owner.index → ∀ b c, (s.methodAt m).body = some b →
    (s.methodAt k).body = some c → ∀ i ∈ b.code, i ∈ c.code → m = k

theorem Filled.start (bodiless : ∀ m : MethodId, n ≤ m.owner.index → (p.methodAt m).body = none) : Filled n p p where
  agree := .refl _ p
  old _ _ := rfl
  modules_eq := rfl
  code := .refl p
  bodies m from_ b body := by
    rw [bodiless m from_] at body
    cases body
  separate m k from_ _ b c body := by
    rw [bodiless m from_] at body
    cases body

theorem Recites.settled {t : Transcript} (listed : p.Listed)
    (recites : Recites p home pending locals t) {start : Nat} {x : Instruction × Option String} (member : x ∈ t.items) {b : Body}
    (code : b.code = block start t.items.length) : (t.settle start x).operand.kind = (t.settle start x).opcode.operandKind ∧
      p.OperandFormed (p.scopeOf pending.id) b (t.settle start x).operand := by
  obtain ⟨k,at_⟩ := mem_iff_getElem?.mp member
  have formed := Transcript.forall_items (fun _ _ _ read => listed.readInstruction_formed read) recites.lines nofun k x at_ b
  obtain ⟨i,label⟩ := x
  rcases formed with ⟨absent,kind,operand⟩ | ⟨present,kind⟩
  · cases absent
    exact ⟨kind,operand⟩
  · obtain ⟨name,rfl⟩ := Option.isSome_iff_exists.mp present
    obtain ⟨k,lookup,inside⟩ := recites.closed _ member name rfl
    rw [Transcript.settle_of_lookup lookup]
    refine ⟨kind.symm,?_⟩
    show _ ∈ b.code
    rw [code]
    exact mem_block.mpr ⟨Nat.le_add_right _ _,Nat.add_lt_add_left inside _⟩

theorem Recites.reference {t : Transcript} (recites : Recites p home pending locals t) {start k : Nat}
    {x : Instruction × Option String} (at_ : t.items[k]? = some x) :
    ∀ r ∈ (t.settle start x).operand.reference?, r = ⟨pending.id,k,0⟩ := by
  have held := Transcript.forall_items (fun _ _ _ read => readInstruction_reference read) recites.lines nofun k x at_
  obtain ⟨i,label⟩ := x
  cases label with
  | none => exact held
  | some name => exact nofun

theorem Filled.fill {t : Transcript} (listed : p.Listed) (signed : p.Signed)
    (filled : Filled n p s) (from_ : n ≤ pending.id.owner.index) (inside : pending.id.owner.index < p.types.size)
    (recites : Recites p home pending locals t) : Filled n p (recited s pending locals t) := by
  let b : Body := ⟨locals,block s.code.size t.items.length,pending.doc.initLocals⟩
  have agree : Agree signature s (recited s pending locals t) :=
    (Agree.of_types_eq rfl : Agree signature s (s.addCode _)).trans (.modifyMethod fun _ => rfl)
  have whole := filled.agree.trans agree
  have code : s.KeepsCode (recited s pending locals t) :=
    ⟨(keepsCode_addCode _).size_le,(keepsCode_addCode _).instruction_eq⟩
  have size : (recited s pending locals t).code.size = s.code.size + t.items.length := by
    show (s.addCode (t.items.map (t.settle s.code.size))).code.size = _
    rw [size_addCode,length_map]
  have settled (i : InstructionId) (among : i ∈ b.code) : ∃ k x, i = ⟨s.code.size + k⟩ ∧ t.items[k]? = some x ∧
      (recited s pending locals t).instructionAt i = t.settle s.code.size x := by
    obtain ⟨above,below⟩ := mem_block.mp among
    obtain ⟨k,rfl⟩ : ∃ k, i = ⟨s.code.size + k⟩ := ⟨i.index - s.code.size,by rw [Nat.add_sub_cancel' above]⟩
    have within : k < t.items.length := Nat.lt_of_add_lt_add_left below
    refine ⟨k,_,rfl,getElem?_eq_getElem within,instructionAt_addCode ?_⟩
    rw [getElem?_map,getElem?_eq_getElem within]
    rfl
  have formed : (recited s pending locals t).BodyFormed pending.id b := by
    have scope := whole.keeps.scopeOf_eq inside
    refine ⟨?_,?_,?_,nodup_block _ _,fun i among => ?_,fun i among => ?_,fun i among => ?_,
      fun i among r held => ?_,fun i among j also r held u holds same => ?_⟩
    · rw [whole.keeps.method_eq inside MethodDecl.isAbstract fun _ => rfl]; exact recites.concrete
    · rw [whole.keeps.method_eq inside MethodDecl.native fun _ => rfl]; exact recites.managed
    · rw [scope]
      intro u among
      obtain ⟨text,-,read⟩ := left_of_forall₂ recites.locals among
      exact (listed.readType_formed read).mono whole.header.keeps
    · rw [size]
      exact (mem_block.mp among).2
    · obtain ⟨k,x,-,at_,here⟩ := settled i among
      rw [here]
      exact (recites.settled listed (mem_of_getElem? at_) (b := b) rfl).1
    · obtain ⟨k,x,-,at_,here⟩ := settled i among
      rw [here,scope]
      exact (recites.settled listed (mem_of_getElem? at_) (b := b) rfl).2.mono whole.keeps signed
    · obtain ⟨k,x,-,at_,here⟩ := settled i among
      rw [here] at held
      rw [recites.reference at_ r held]
    · obtain ⟨k,x,rfl,at_,here⟩ := settled i among
      obtain ⟨l,y,rfl,there_,there⟩ := settled j also
      rw [here] at held
      rw [there] at holds
      rw [recites.reference at_ r held,recites.reference there_ u holds] at same
      exact congrArg (fun k => (⟨s.code.size + k⟩ : InstructionId)) same
  -- A method has the body it had, or is the one that gets the new body.
  have body : ∀ k c, ((recited s pending locals t).methodAt k).body = some c →
      (s.methodAt k).body = some c ∨ k = pending.id ∧ c = b := by
    intro k c body
    rcases methodAt_modifyMethod_cases (p := s.addCode (t.items.map (t.settle s.code.size))) pending.id k
      (fun d => { d with body := some b }) with old | ⟨place,new⟩
    · rw [recited,old] at body
      exact .inl body
    · rw [recited,new] at body
      cases body
      exact .inr ⟨place,rfl⟩
  refine ⟨whole,fun u below => ?_,filled.modules_eq,filled.code.trans code,fun k above c filledBody => ?_,
    fun k l above below c d first second i among shared => ?_⟩
  · have different : u ≠ pending.id.owner := by rintro rfl; omega
    rw [recited,modifyMethod,typeAt_modifyType_of_ne different]
    exact filled.old u below
  · rcases body k c filledBody with old | ⟨rfl,rfl⟩
    · obtain ⟨formed,new⟩ := filled.bodies k above c old
      exact ⟨formed.mono agree.keeps code (signed.of_agree filled.agree) (owner_lt_of_body old),new⟩
    · exact ⟨formed,fun i among => Nat.le_trans filled.code.size_le (mem_block.mp among).1⟩
  · have fresh : ∀ k c, n ≤ k.owner.index → (s.methodAt k).body = some c → ∀ i ∈ c.code, i ∉ b.code :=
      fun k c above body i among shared =>
        absurd ((filled.bodies k above c body).1.inside i among) (Nat.not_lt_of_le (mem_block.mp shared).1)
    rcases body k c first with old | ⟨rfl,rfl⟩ <;> rcases body l d second with old' | ⟨rfl,rfl⟩
    · exact filled.separate k l above below c d old old' i among shared
    · exact absurd shared (fresh k c above old i among)
    · exact absurd among (fresh l d below old' i shared)
    · rfl

/-! ### Modules -/

theorem linkInto_eq_ok (done : (doc.linkInto references).run p = .ok (home,q)) : ∃ version types s1 s2 methods s3,
      home = ⟨p.modules.size⟩ ∧ doc.moduleName ≠ "" ∧ readVersion doc = .ok version ∧
      (declareTypes home doc.types).run (p.addModule { name := doc.moduleName, version, references }).2 = .ok (types,s1) ∧
      (types.forM (bindDeclaring home)).run s1 = .ok ((),s2) ∧
      checkNames s2 [] (s2.allTypes home) = .ok () ∧
      (types.mapM (declareMembers home)).run s2 = .ok (methods,s3) ∧
      (methods.flatten.forM (fillBody home)).run s3 = .ok ((),q) := by
  rw [linkInto] at done
  simp only at done
  split at done
  · exact absurd done run_throw_bind_ne_ok
  · next named =>
    obtain ⟨version,versionRead,done⟩ := run_lift_bind_eq_ok.mp done
    obtain ⟨place,s0,added,done⟩ := run_bind_eq_ok.mp done
    have pair := run_modifyGet_eq_ok.mp added
    obtain rfl : (p.addModule { name := doc.moduleName, version, references }).1 = place := congrArg Prod.fst pair
    obtain rfl : (p.addModule { name := doc.moduleName, version, references }).2 = s0 := congrArg Prod.snd pair
    obtain ⟨types,s1,declared,done⟩ := run_bind_eq_ok.mp done
    obtain ⟨_,s2,bound,done⟩ := run_bind_eq_ok.mp done
    rw [run_get_bind] at done
    obtain ⟨_,checked,done⟩ := run_lift_bind_eq_ok.mp done
    obtain ⟨methods,s3,members,done⟩ := run_bind_eq_ok.mp done
    obtain ⟨_,_,bodies,done⟩ := run_bind_eq_ok.mp done
    obtain ⟨rfl,rfl⟩ := run_pure_eq_ok.mp done
    exact ⟨version,types,s1,s2,methods,s3,rfl,by simpa using named,versionRead,declared,bound,checked,members,
      bodies⟩

/-- A program that a document was linked into: what the phases of linking made of it, from the skeleton on. -/
structure Assembled (p s2 s3 q : Program) (home : ModuleId) (types : List PendingType) : Prop where
  sketched : Sketched home p s2 types
  drafted : Drafted p.types.size s2 s3
  signed : s3.Signed
  filled : Filled p.types.size s3 q

theorem assembled_of_phases (formed : p.WellFormed) (sketched : Sketched home p s2 types)
    (members : (types.mapM (declareMembers home)).run s2 = .ok (methods,s3))
    (bodies : (methods.flatten.forM (fillBody home)).run s3 = .ok ((),q)) : Assembled p s2 s3 q home types := by
  obtain ⟨rfl,populated⟩ := populated_of_run sketched.blank_methods sketched.nodup_ids members
  have drafted := sketched.drafted populated
  have kept : Keeps id p s3 := by
    refine ⟨by rw [drafted.agree.size_eq]; exact sketched.grown.types.size_le,fun t inside => ?_⟩
    exact (drafted.old t inside).trans (sketched.grown.types.view_eq t inside)
  have signed : s3.Signed := by
    refine ⟨sketched.grounded.of_agree drafted.agree,fun t inside => ?_⟩
    by_cases old : t.index < p.types.size
    · exact (formed.signed.members t old).mono (kept.map signature) old
    · exact drafted.members t (Nat.le_of_not_lt old)
  have listed := drafted.listed sketched.listed
  refine ⟨sketched,drafted,signed,forM_keeps (fun m member s s' filled round => ?_) bodies
    (.start drafted.bodiless)⟩
  rcases (fillBody_iff filled.agree filled.modules_eq).mp round with ⟨-,rfl⟩ | ⟨-,locals,t,recites,rfl⟩
  · exact filled
  · obtain ⟨x,among,k,doc,-,rfl⟩ := mem_methods.mp member
    obtain ⟨from_,inside⟩ := sketched.id_new among
    exact filled.fill listed signed from_ (by rw [drafted.agree.size_eq]; exact inside) recites

section Assembled

variable {types : List PendingType} {s2 s3 : Program}

section

variable (assembled : Assembled p s2 s3 q home types)
include assembled

theorem Assembled.grown : p.Extends q := by
  obtain ⟨sketched,drafted,-,filled⟩ := assembled
  refine ⟨⟨?_,fun t inside => ?_⟩,?_⟩
  · rw [filled.agree.size_eq,drafted.agree.size_eq]
    exact sketched.grown.types.size_le
  · exact (filled.old t inside).trans ((drafted.old t inside).trans (sketched.grown.types.view_eq t inside))
  · have code : s3.code = p.code := drafted.code_eq.trans sketched.code_eq
    refine ⟨by rw [← code]; exact filled.code.size_le,fun i inside => ?_⟩
    rw [filled.code.instruction_eq i (by rw [code]; exact inside),instructionAt,code]
    rfl

theorem Assembled.typeFormed (from_ : p.types.size ≤ t.index) (inside : t.index < q.types.size) : q.TypeFormed t := by
  obtain ⟨sketched,drafted,signed,filled⟩ := assembled
  have agree : Agree TypeDecl.header s2 q := drafted.agree.trans filled.agree.header
  rw [agree.size_eq] at inside
  obtain ⟨pd,member,rfl⟩ := sketched.mem_ids from_ inside
  have blank := sketched.blank pd member
  refine ⟨?_,fun n nested => ?_,?_,?_,?_⟩
  · rw [agree.name_eq pd.id]
    exact fun unnamed => blank.named (blank.name.symm.trans unnamed)
  · rw [agree.nested_eq pd.id] at nested
    obtain ⟨within,declaring⟩ := blank.nested n nested
    refine ⟨by rw [agree.size_eq]; exact within,?_⟩
    rw [agree.declaring_eq n]
    exact declaring
  · rw [agree.nested_eq pd.id]
    exact blank.distinct
  · have within : pd.id.index < s3.types.size := by rw [drafted.agree.size_eq]; exact inside
    exact (signed.members pd.id within).mono filled.agree.keeps within
  · exact fun m owner b body => (filled.bodies m (owner ▸ from_) b body).1

theorem Assembled.separate (formed : p.WellFormed) : q.Separate := by
  have grown := assembled.grown
  obtain ⟨sketched,drafted,-,filled⟩ := assembled
  have code : s3.code = p.code := drafted.code_eq.trans sketched.code_eq
  -- The instructions of an old body are old, those of a new one are new.
  have old : ∀ (m : MethodId) b, m.owner.index < p.types.size → (q.methodAt m).body = some b →
      (p.methodAt m).body = some b ∧ ∀ i ∈ b.code, i.index < p.code.size := by
    intro m b inside body
    rw [grown.methodAt_eq inside] at body
    exact ⟨body,((formed.types m.owner inside).bodies m rfl b body).inside⟩
  have new : ∀ (m : MethodId) b, p.types.size ≤ m.owner.index → (q.methodAt m).body = some b →
      ∀ i ∈ b.code, p.code.size ≤ i.index := fun m b from_ body i among =>
    code ▸ (filled.bodies m from_ b body).2 i among
  intro m k b c first second i among shared
  by_cases left : m.owner.index < p.types.size <;> by_cases right : k.owner.index < p.types.size
  · exact formed.separate m k b c (old m b left first).1 (old k c right second).1 i among shared
  · have below := (old m b left first).2 i among
    have above := new k c (Nat.le_of_not_lt right) second i shared
    omega
  · have above := new m b (Nat.le_of_not_lt left) first i among
    have below := (old k c right second).2 i shared
    omega
  · exact filled.separate m k (Nat.le_of_not_lt left) (Nat.le_of_not_lt right) b c first second i among shared

end

end Assembled

theorem extends_addModule (m : ModuleDecl) : p.Extends (p.addModule m).2 :=
  ⟨⟨Nat.le_refl _,fun _ _ => rfl⟩,⟨Nat.le_refl _,fun _ _ => rfl⟩⟩

theorem wellFormed_addModule (formed : p.WellFormed) (empty : m.types = []) : (p.addModule m).2.WellFormed where
  grounded := formed.grounded.of_agree (Agree.of_types_eq rfl)
  listed := listed_addModule formed.listed empty
  types _ inside := TypeFormed.mono (extends_addModule m) formed inside
  separate := formed.separate

theorem sketched_of_run {docs : List (Option TypeDoc)} (formed : p.WellFormed) (empty : m.types = [])
    (declared : (declareTypes ⟨p.modules.size⟩ docs).run (p.addModule m).2 = .ok (types,s))
    (bound : (types.forM (bindDeclaring ⟨p.modules.size⟩)).run s = .ok (⟨⟩,q))
    (checked : checkNames q [] (q.allTypes ⟨p.modules.size⟩) = .ok ()) : Sketched ⟨p.modules.size⟩ (p.addModule m).2 q types := by
  have base := wellFormed_addModule (m := m) formed empty
  obtain ⟨roots,planted,listedIn,named⟩ := declareTypes_planted (by simp [addModule]) declared
  have new := congrArg ModuleDecl.types (moduleAt_addModule_new (p := p) m)
  exact sketched_of_planted base.listed base.grounded (new.trans empty) planted listedIn named (bindDeclaring_all bound) checked

/-- A linking that succeeds first makes a skeleton, in a program that has the new module already, and then reads the members
    and the bodies. -/
theorem link_phases (formed : p.WellFormed) (linked : doc.link p references = .ok (home,q)) :
    ∃ version types s1 s2 methods s3, home = ⟨p.modules.size⟩ ∧ doc.moduleName ≠ "" ∧ readVersion doc = .ok version ∧
      (declareTypes home doc.types).run (p.addModule { name := doc.moduleName, version, references }).2 = .ok (types,s1) ∧
      Sketched home (p.addModule { name := doc.moduleName, version, references }).2 s2 types ∧
      (types.mapM (declareMembers home)).run s2 = .ok (methods,s3) ∧
      (methods.flatten.forM (fillBody home)).run s3 = .ok ((),q) := by
  obtain ⟨version,types,s1,s2,methods,s3,rfl,moduleNamed,versionRead,declared,bound,checked,members,bodies⟩ :=
    linkInto_eq_ok linked
  exact ⟨version,types,s1,s2,methods,s3,rfl,moduleNamed,versionRead,declared,
    sketched_of_run formed rfl declared bound checked,members,bodies⟩

theorem link_of_phases {s1 : Program} (named : doc.moduleName ≠ "") (versionRead : readVersion doc = .ok version)
    (declared : (declareTypes ⟨p.modules.size⟩ doc.types).run (p.addModule { name := doc.moduleName, version, references }).2 =
      .ok (types,s1))
    (bound : (types.forM (bindDeclaring ⟨p.modules.size⟩)).run s1 = .ok (⟨⟩,s2))
    (checked : checkNames s2 [] (s2.allTypes ⟨p.modules.size⟩) = .ok ())
    (members : (types.mapM (declareMembers ⟨p.modules.size⟩)).run s2 = .ok (methods,s3))
    (bodies : (methods.flatten.forM (fillBody ⟨p.modules.size⟩)).run s3 = .ok (⟨⟩,q)) :
    doc.link p references = .ok (⟨p.modules.size⟩,q) := by
  rw [link,linkInto,if_neg (by simpa using named)]
  refine run_lift_bind_eq_ok.mpr ⟨version,versionRead,?_⟩
  refine run_bind_eq_ok.mpr ⟨⟨p.modules.size⟩,_,run_modifyGet_eq_ok.mpr rfl,?_⟩
  refine run_bind_eq_ok.mpr ⟨types,s1,declared,?_⟩
  refine run_bind_eq_ok.mpr ⟨⟨⟩,s2,bound,?_⟩
  rw [run_get_bind]
  refine run_lift_bind_eq_ok.mpr ⟨⟨⟩,checked,?_⟩
  refine run_bind_eq_ok.mpr ⟨methods,s3,members,?_⟩
  exact run_bind_eq_ok.mpr ⟨⟨⟩,q,bodies,run_pure_eq_ok.mpr ⟨rfl,rfl⟩⟩

section

variable (formed : p.WellFormed) (linked : doc.link p references = .ok (home,q))
include formed linked

theorem link_assembled : ∃ version s2 s3 types, home = ⟨p.modules.size⟩ ∧
      Assembled (p.addModule { name := doc.moduleName, version, references }).2 s2 s3 q home types := by
  obtain ⟨version,types,s1,s2,methods,s3,rfl,-,-,-,sketched,members,bodies⟩ := link_phases formed linked
  exact ⟨version,s2,s3,types,rfl,assembled_of_phases (wellFormed_addModule formed rfl) sketched members bodies⟩

theorem link_wellFormed : q.WellFormed ∧ p.Extends q := by
  obtain ⟨version,s2,s3,types,-,assembled⟩ := link_assembled formed linked
  have base := wellFormed_addModule (m := { name := doc.moduleName, version, references }) formed rfl
  have grown := assembled.grown
  refine ⟨⟨?_,?_,fun t inside => ?_,assembled.separate base⟩,(extends_addModule _).trans grown⟩
  · exact assembled.signed.grounded.of_agree assembled.filled.agree.header
  · exact (assembled.drafted.listed assembled.sketched.listed).of_agree assembled.filled.agree.header
      assembled.filled.modules_eq
  · by_cases old : t.index < p.types.size
    · exact TypeFormed.mono grown base old
    · exact assembled.typeFormed (Nat.le_of_not_lt old) inside

theorem link_place : home = ⟨p.modules.size⟩ ∧ q.modules.size = p.modules.size + 1 := by
  obtain ⟨version,s2,s3,types,rfl,assembled⟩ := link_assembled formed linked
  refine ⟨rfl,?_⟩
  obtain ⟨roots,listedIn⟩ := assembled.sketched.listedIn
  rw [assembled.filled.modules_eq,assembled.drafted.modules_eq,listedIn.size_eq]
  simp [addModule]

end

theorem Sketched.moduleAt_eq {name : String}
    (sketched : Sketched ⟨p.modules.size⟩ (p.addModule { name, version, references }).2 q types) :
    (∃ roots, q.moduleAt ⟨p.modules.size⟩ = { name, version, references, types := roots }) ∧
      ∀ h, h ≠ ⟨p.modules.size⟩ → q.moduleAt h = p.moduleAt h := by
  obtain ⟨roots,listedIn⟩ := sketched.listedIn
  have new : (p.addModule { name, version, references }).2.moduleAt ⟨p.modules.size⟩ = { name, version, references } :=
    moduleAt_addModule_new _
  refine ⟨⟨roots,by rw [listedIn.here,new]; rfl⟩,fun h different => ?_⟩
  rw [listedIn.elsewhere h different]
  exact moduleAt_addModule_old _ different

theorem link_module (formed : p.WellFormed) (linked : doc.link p references = .ok (home,q)) :
    doc.moduleName ≠ "" ∧ (∃ version roots, readVersion doc = .ok version ∧
      q.moduleAt home = { name := doc.moduleName, version, references, types := roots }) ∧
      ∀ h, h ≠ home → q.moduleAt h = p.moduleAt h := by
  obtain ⟨version,types,s1,s2,methods,s3,rfl,named,versionRead,-,sketched,members,bodies⟩ := link_phases formed linked
  have assembled := assembled_of_phases (wellFormed_addModule formed rfl) sketched members bodies
  have same (h : ModuleId) : q.moduleAt h = s2.moduleAt h := by
    rw [moduleAt,assembled.filled.modules_eq,assembled.drafted.modules_eq]
    rfl
  obtain ⟨⟨roots,here⟩,others⟩ := sketched.moduleAt_eq
  exact ⟨named,⟨version,roots,versionRead,by rw [same,here]⟩,fun h different => by rw [same,others h different]⟩

theorem link_names (formed : p.WellFormed) (linked : doc.link p references = .ok (home,q)) :
    (q.allTypes home).Nodup ∧ ((q.allTypes home).map q.fullName).Nodup := by
  obtain ⟨version,s2,s3,types,-,assembled⟩ := link_assembled formed linked
  have agree := assembled.drafted.agree.trans assembled.filled.agree.header
  have modules := assembled.filled.modules_eq.trans assembled.drafted.modules_eq
  rw [agree.allTypes_eq modules,agree.fullName_eq]
  exact ⟨assembled.sketched.names.of_map,assembled.sketched.names⟩

/-- A document is linked on its own, and what comes of it passes a test. -/
theorem link_passes {f : ModuleId → Program → Bool}
    (passed : Except.passes (doc.link core [CoreLibrary.home]) (fun r => f r.1 r.2) = true) :
    ∃ home p, doc.link core [CoreLibrary.home] = .ok (home,p) ∧ f home p = true := by
  obtain ⟨⟨home,p⟩,linked,tested⟩ := Except.exists_of_passes passed
  exact ⟨home,p,linked,tested⟩

end Document

/-- A typeclass. -/
def TypeDoc.typeclass (name : String) : TypeDoc :=
  { name, flags := ["interface"], generics := ["T"], attributes := [{ type := "Funweave.TypeclassAttribute" }] }

/-- The mark of a type that is to be specialized for an argument. -/
def AttributeDoc.generate (argument : String) : AttributeDoc :=
  { type := "Funweave.GenerateSpecializationAttribute", args := ["typeof(" ++ argument ++ ")"] }

/-- The mark of a consumer. -/
def AttributeDoc.inject : AttributeDoc := { type := "Funweave.InjectSpecializationsAttribute" }

def MethodDoc.static (name returns : String) (body : List String) : MethodDoc := { name, flags := ["static"], returns, body }

/-- The line of a request. -/
def resolving (request : String) : String := "call !!0 Funweave.Implicitly::Resolve<" ++ request ++ ">()"

/-! ### The core library -/

namespace Program

instance (t : TypeRef) : Decidable (t = .absent) :=
  match t with
  | .absent => .isTrue rfl
  | .decl _ => .isFalse nofun
  | .param _ => .isFalse nofun
  | .applied _ _ => .isFalse nofun

instance {p : Program} {scope : List GenericParam} {t : TypeRef} : Decidable (p.MaybeFormed scope t) :=
  inferInstanceAs (Decidable (_ ∨ _))

theorem core_types : ∀ i < core.types.size, (core.typeAt ⟨i⟩).name ≠ "" ∧ (core.typeAt ⟨i⟩).declaring = none ∧
    (core.typeAt ⟨i⟩).nested = [] ∧ (core.typeAt ⟨i⟩).fields.isEmpty = true ∧ (core.typeAt ⟨i⟩).attributes.isEmpty = true ∧
    core.MaybeFormed (core.typeParams ⟨i⟩) (core.typeAt ⟨i⟩).base ∧
    (∀ t ∈ (core.typeAt ⟨i⟩).interfaces, core.Formed (core.typeParams ⟨i⟩) t) := by
  decide +kernel

theorem core_methods : ∀ i < core.types.size, ∀ j < (core.typeAt ⟨i⟩).methods.length,
    core.MaybeFormed (core.scopeOf ⟨⟨i⟩,j⟩) (core.methodAt ⟨⟨i⟩,j⟩).returns ∧
    (∀ t ∈ (core.methodAt ⟨⟨i⟩,j⟩).paramTypes, core.Formed (core.scopeOf ⟨⟨i⟩,j⟩) t) ∧
    (core.methodAt ⟨⟨i⟩,j⟩).body.isNone = true := by
  decide +kernel

theorem core_method_cases (m : MethodId) : core.methodAt m = default ∨
    m.owner.index < core.types.size ∧ m.position < (core.typeAt m.owner).methods.length := by
  by_cases inside : m.owner.index < core.types.size
  · by_cases within : m.position < (core.typeAt m.owner).methods.length
    · exact .inr ⟨inside,within⟩
    · left
      rw [methodAt,getElem?_eq_none (Nat.le_of_not_lt within)]
      rfl
  · left
    rw [methodAt,typeAt_of_le (Nat.le_of_not_lt inside)]
    rfl

theorem core_body (m : MethodId) : (core.methodAt m).body = none := by
  rcases core_method_cases m with absent | ⟨inside,within⟩
  · rw [absent]; rfl
  · exact Option.isNone_iff_eq_none.mp (core_methods m.owner.index inside m.position within).2.2

theorem core_members (inside : t.index < core.types.size) : core.MembersFormed t := by
  obtain ⟨-,-,-,fields,attributes,base,interfaces⟩ := core_types t.index inside
  refine ⟨base,interfaces,fun f member => ?_,fun a member => ?_,?_⟩
  · rw [isEmpty_iff.mp fields] at member
    cases member
  · rw [isEmpty_iff.mp attributes] at member
    cases member
  · rintro m rfl
    rcases core_method_cases m with absent | ⟨inside,within⟩
    · exact signatureFormed_of_default absent
    · obtain ⟨returns,params,-⟩ := core_methods m.owner.index inside m.position within
      exact ⟨returns,params⟩

theorem core_module {h : ModuleId} (other : h ≠ ⟨0⟩) : core.moduleAt h = default := by
  have outside : core.modules.size ≤ h.index := by
    have positive : h.index ≠ 0 := fun zero => other (by cases h; cases zero; rfl)
    show 1 ≤ h.index
    omega
  rw [moduleAt,Array.getElem?_eq_none outside]
  rfl

theorem core_wellFormed : core.WellFormed where
  grounded :=
    { ends := fun t inside => by
        rw [chainEnds,chainEndsWithin,show (core.typeAt t).declaring = none from (core_types t.index inside).2.1]
      inside := fun t inside o declaring => by
        rw [show (core.typeAt t).declaring = none from (core_types t.index inside).2.1] at declaring
        cases declaring }
  listed :=
    { top := fun h t member => by
        by_cases here : h = ⟨0⟩
        · subst here
          obtain ⟨i,range,rfl⟩ := mem_map.mp (show t ∈ (range core.types.size).map TypeId.mk from member)
          exact mem_range.mp range
        · rw [core_module here] at member
          cases member
      distinct := fun h => by
        by_cases here : h = ⟨0⟩
        · subst here
          exact Nodup.map (fun _ _ same => congrArg TypeId.index same) nodup_range
        · rw [core_module here]
          exact nodup_nil
      nested := fun t inside n member => by
        rw [show (core.typeAt t).nested = [] from (core_types t.index inside).2.2.1] at member
        cases member }
  types t inside := by
    obtain ⟨named,-,nested,-⟩ := core_types t.index inside
    have nested : (core.typeAt t).nested = [] := nested
    refine ⟨named,fun n member => ?_,by rw [nested]; simp,core_members inside,fun m _ b body => ?_⟩
    · rw [nested] at member
      cases member
    · rw [core_body] at body
      cases body
  separate m _ b _ body := by
    rw [core_body] at body
    cases body

end Program

/-- The programs that linking documents builds, starting from the core library. -/
inductive Linked : Program → Prop
  | core : Linked Program.core
  | link {p q : Program} {doc : Document} {references : List ModuleId} {home : ModuleId} :
    Linked p → doc.link p references = .ok (home,q) → Linked q

theorem Linked.wellFormed (linked : Linked p) : p.WellFormed := by
  induction linked with
  | core => exact core_wellFormed
  | link _ done formed => exact (Document.link_wellFormed formed done).1

theorem Linked.declares_core (linked : Linked p) (core : t.index < Program.core.types.size) : p.Declares (.decl t) := by
  have grown : Program.core.Extends p := by
    induction linked with
    | core => exact .refl _
    | link early done grown => exact grown.trans (Document.link_wellFormed early.wellFormed done).2
  exact (Program.formed_decl (Nat.lt_of_lt_of_le core grown.types.size_le) : p.Formed [] _).declares

end Loom
