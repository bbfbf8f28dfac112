import Loom.Proofs.Passes
import Loom.Proofs.Reading
import Loom.Proofs.Naming

/-!
When a specialization succeeds. It is refused before anything is declared, for a type that does not have exactly one
parameter and for an open argument. In a well-formed program nothing else stops it: every application that becomes a
clone has its arguments, and every member that a body refers to has its clone by then.
-/
namespace Loom

open Runs List Program TypeRef CloneSite
open Loom.Except (bind_eq_ok mapM_eq_ok)
open TypeDecl (isGeneric signature header)

variable {α β σ : Type}
variable {y z : Program} {scope : List GenericParam} {t : TypeRef} {d : TypeId} {o : Operand} {m : MethodId} {n : Nat}
  {f : TypeDecl → TypeDecl} {entry : Entry}

def Answered (r : Except Failure α) : Prop := ∃ a, r = .ok a

namespace Answered

theorem ok (a : α) : Answered (.ok a) := ⟨a,rfl⟩

theorem bind {x : Except Failure α} {f : α → Except Failure β} (first : Answered x)
    (later : ∀ a, x = .ok a → Answered (f a)) : Answered (x >>= f) := by
  obtain ⟨a,rfl⟩ := first
  exact later a rfl

theorem mapM {f : α → Except Failure β} {xs : List α} (each : ∀ a ∈ xs, Answered (f a)) : Answered (xs.mapM f) := by
  induction xs with
  | nil => exact ok []
  | cons a rest ih =>
    rw [mapM_cons]
    exact (each a (.head _)).bind fun _ _ => (ih fun b member => each b (.tail _ member)).bind fun _ _ => ok _

end Answered

/-- From a state with the invariant a pass succeeds, and the invariant holds afterwards. -/
def Completes (I : σ → Prop) (x : ExceptT Failure (StateM σ) α) : Prop := ∀ s, I s → ∃ a t, x.run s = (.ok a,t) ∧ I t

namespace Completes

variable {I : σ → Prop}
variable {f : α → ExceptT Failure (StateM σ) β}

theorem pure (a : α) : Completes I (pure a) := fun s holds => ⟨a,s,rfl,holds⟩

theorem bind_run {x : ExceptT Failure (StateM σ) α} (first : Completes I x)
    (later : ∀ s a t, I s → x.run s = (.ok a,t) → I t → ∃ b u, (f a).run t = (.ok b,u) ∧ I u) :
    Completes I (x >>= f) := by
  intro s holds
  obtain ⟨a,t,ran,between⟩ := first s holds
  obtain ⟨b,u,next,after⟩ := later s a t holds ran between
  exact ⟨b,u,run_bind_eq_ok.mpr ⟨a,t,ran,next⟩,after⟩

theorem bind {x : ExceptT Failure (StateM σ) α} (first : Completes I x) (later : ∀ a, Completes I (f a)) :
    Completes I (x >>= f) :=
  first.bind_run fun _ a t _ _ holds => later a t holds

theorem get {f : σ → ExceptT Failure (StateM σ) β} (later : ∀ s, I s → Completes I (f s)) : Completes I (get >>= f) :=
  fun s holds => later s holds s holds

theorem modify {f : σ → σ} (kept : ∀ s, I s → I (f s)) : Completes I (modify f : ExceptT Failure (StateM σ) PUnit) :=
  fun s holds => ⟨⟨⟩,f s,rfl,kept s holds⟩

theorem modifyGet {f : σ → α × σ} {g : α → ExceptT Failure (StateM σ) β} (kept : ∀ s, I s → I (f s).2)
    (later : ∀ s, I s → Completes I (g (f s).1)) : Completes I (modifyGet f >>= g) :=
  fun s holds => later s holds (f s).2 (kept s holds)

theorem forM {f : α → ExceptT Failure (StateM σ) PUnit} {xs : List α} (each : ∀ a ∈ xs, Completes I (f a)) :
    Completes I (xs.forM f) := by
  induction xs with
  | nil => exact pure _
  | cons a rest ih => exact (each a (.head _)).bind fun _ => ih fun b member => each b (.tail _ member)

theorem mapM {xs : List α} (each : ∀ a ∈ xs, Completes I (f a)) : Completes I (xs.mapM f) := by
  induction xs with
  | nil => exact pure _
  | cons a rest ih =>
    rw [mapM_cons]
    exact (each a (.head _)).bind fun _ => (ih fun b member => each b (.tail _ member)).bind fun _ => pure _

theorem bring {I : Program → Prop} {f : Program → Except Failure α} (able : ∀ x, I x → Answered (f x)) :
    Completes I (Cloning.bring f) := by
  intro x holds
  obtain ⟨a,done⟩ := able x holds
  exact ⟨a,x,Cloning.run_bring_eq_ok.mpr ⟨done,rfl⟩,holds⟩

end Completes

namespace Program

variable {p : Program} {family : List Scope}

theorem Formed.ne_absent (formed : p.Formed scope t) : t ≠ .absent := by
  rintro rfl
  exact formed _ (mem_parts_self _)

theorem redirectApplied_answered {element : TypeId} {args : List TypeRef}
    (lesser : ∀ s ∈ family, s.owner = element → (p.typeAt s.produced).generics.length + 1 = args.length) :
    Answered (p.redirectApplied element args family) := by
  induction family with
  | nil => exact .ok _
  | cons s rest ih =>
    have later := ih fun c member => lesser c (.tail _ member)
    by_cases owner : s.owner = element
    · have count := lesser s (.head _) owner
      cases args with
      | nil => cases count
      | cons first trailing =>
        rw [redirectApplied,if_pos owner]
        split
        · split
          · exact .ok _
          · exact ⟨_,Except.mapError_eq_ok.mpr (applyType_eq_ok.mpr ⟨Nat.succ.inj count,rfl⟩)⟩
        · exact later
    · cases args <;> rw [redirectApplied,if_neg owner] <;> exact later

theorem redirect_answered
    (lesser : ∀ s ∈ family, (p.typeAt s.produced).generics.length + 1 = (p.typeAt s.owner).generics.length)
    (formed : p.MaybeFormed scope t) : Answered (p.redirect family t) := by
  induction t with
  | absent => exact .ok _
  | decl d => exact .ok _
  | param g => exact .ok _
  | applied d args ih =>
    have formed : p.Formed scope (.applied d args) := formed.resolve_left (by rintro ⟨⟩)
    have all : Answered (p.redirectList family args) := by
      have each : ∀ a ∈ args, Answered (p.redirect family a) := fun a member =>
        ih a member (.inr (formed.part (mem_parts_applied.mpr (.inr ⟨a,member,mem_parts_self a⟩))))
      obtain ⟨rs,done⟩ := Answered.mapM each
      exact ⟨rs,redirectList_eq_ok.mpr (mapM_eq_ok.mp done)⟩
    rw [redirect]
    refine all.bind fun rs done => redirectApplied_answered fun s member owner => ?_
    rw [lesser s member,owner,(formed _ (mem_parts_self _)).2,(redirectList_eq_ok.mp done).length_eq]

end Program

namespace CloneSite

variable {site : CloneSite} {p q : Program} {scope : List GenericParam} {n : Nat} {argument : TypeRef}

/-- The clones are declared, and what the site binds parameters to is formed. -/
structure Able (site : CloneSite) (p : Program) : Prop where
  lesser : ∀ s ∈ site.family, (p.typeAt s.produced).generics.length + 1 = (p.typeAt s.owner).generics.length
  targets : ∀ s ∈ site.chain, p.Formed [] s.target

theorem type_answered (able : site.Able p) (formed : p.MaybeFormed scope t) : Answered (site.type p t) := by
  have resolved : p.MaybeFormed scope (Scope.resolve site.chain t) := by
    refine formed.imp (fun absent => by rw [absent]; rfl) fun formed => formed.mapParams fun g member => ?_
    rw [Scope.resolveParam]
    split
    · next s found => exact (able.targets s (mem_of_find?_eq_some found)).weaken (nil_subset _)
    · exact formed_param member
  obtain ⟨r,done⟩ := redirect_answered able.lesser resolved
  exact ⟨_,type_eq_ok.mpr ⟨r,done,rfl⟩⟩

/-- The clones have the fields and the methods of their originals. -/
structure Equipped (site : CloneSite) (p : Program) (n : Nat) (argument : TypeRef) : Prop extends Able site p where
  family : p.Family n argument site.family
  fields : ∀ s ∈ site.family, (p.typeAt s.produced).fields.map FieldDecl.name = (p.typeAt s.owner).fields.map FieldDecl.name
  generics : ∀ s ∈ site.family, ∀ m ∈ p.methodsOf s.owner,
    (p.methodAt ⟨s.produced,m.position⟩).generics = (p.methodAt m).generics

theorem element_cases (grown : p.Family n argument site.family) {t' : TypeRef} (old : d.index < n)
    (done : site.type p t = .ok t') (element : t.element? = some d) : (t'.element? = some d ∧ site.isProduced d = false) ∨
      ∃ s ∈ site.family, s.owner = d ∧ site.family.find? (·.owner == d) = some s ∧ t'.element? = some s.produced ∧
        site.isProduced s.produced = true := by
  rcases element_type grown done element with same | ⟨s,first,became⟩
  · refine .inl ⟨same,Bool.eq_false_iff.mpr fun produced => ?_⟩
    obtain ⟨c,member,beyond⟩ := any_eq_true.mp produced
    have new := (grown.new c member).1
    rw [eq_of_beq beyond] at new
    omega
  · have member := mem_of_find?_eq_some first
    have owner : s.owner = d := by simpa using find?_some first
    exact .inr ⟨s,member,owner,first,became,any_eq_true.mpr ⟨s,member,beq_self_eq_true _⟩⟩

theorem methodRef_answered (equipped : site.Equipped p n argument) {r : MethodRef} (old : d.index < n)
    (formed : p.MethodRefFormed scope r d) :
    ∃ r', site.methodRef p r = .ok r' ∧ r'.generics.length = r.generics.length := by
  obtain ⟨declaring,brought⟩ := type_answered equipped.toAble (.inr formed.declaring)
  rcases element_cases equipped.family old brought formed.element with ⟨same,kept⟩ | ⟨s,member,rfl,first,became,produced⟩
  · refine ⟨r.withDeclaring declaring (site.refId r.id),methodRef_eq_ok.mpr ⟨declaring,brought,.inr ⟨?_,rfl⟩⟩,rfl⟩
    rintro source ⟨-,t,after,produced⟩
    rw [Option.some.inj (after.symm.trans same),kept] at produced
    cases produced
  · obtain ⟨m,found⟩ := Option.isSome_iff_exists.mp formed.found
    obtain ⟨listed,answers⟩ := findMethod?_eq_some found
    have cloned : site.clone? m = some ⟨s.produced,m.position⟩ := by
      rw [clone?,(mem_methodsOf.mp listed).1,first]
      rfl
    refine ⟨p.refOn ⟨s.produced,m.position⟩ declaring (site.refId r.id),methodRef_eq_ok.mpr ⟨declaring,brought,.inl ?_⟩,?_⟩
    · exact ⟨s.owner,m,_,⟨formed.element,_,became,produced⟩,found,cloned,rfl⟩
    · show (p.methodAt ⟨s.produced,m.position⟩).generics.length = _
      rw [equipped.generics s member m listed]
      exact answers.2.1

theorem field_answered (equipped : site.Equipped p n argument) {f : FieldRef} (old : d.index < n)
    (formed : p.FieldRefFormed scope f d) : Answered (site.field p f) := by
  obtain ⟨declaring,brought⟩ := type_answered equipped.toAble (.inr formed.declaring)
  rcases element_cases equipped.family old brought formed.element with ⟨same,kept⟩ | ⟨s,member,rfl,-,became,produced⟩
  · refine ⟨_,field_eq_ok.mpr ⟨declaring,brought,.inr ⟨fun t after => ?_,rfl⟩⟩⟩
    rwa [Option.some.inj (after.symm.trans same)]
  · obtain ⟨e,here⟩ := Option.isSome_iff_exists.mp formed.found
    have named : f.name ∈ (p.typeAt s.produced).fields.map FieldDecl.name := by
      rw [equipped.fields s member]
      exact mem_map.mpr ⟨e,mem_of_find?_eq_some here,by simpa using find?_some here⟩
    obtain ⟨e',among,name⟩ := mem_map.mp named
    obtain ⟨c,found⟩ : ∃ c, (p.typeAt s.produced).field? f.name = some c :=
      Option.isSome_iff_exists.mp (find?_isSome.mpr ⟨e',among,beq_iff_eq.mpr name⟩)
    exact ⟨_,field_eq_ok.mpr ⟨declaring,brought,.inl ⟨s.produced,c,became,produced,found,rfl⟩⟩⟩

theorem operand_answered (equipped : site.Equipped q p.types.size argument) (kept : Keeps signature p q)
    (signed : p.Signed) {b : Body} (formed : p.OperandFormed scope b o) : Answered (site.operand q o) := by
  have old {t : TypeRef} {d : TypeId} (formed : p.Formed scope t) (element : t.element? = some d) : d.index < p.types.size :=
    formed.declares _ (mem_parts_self _) d element
  cases o with
  | type t => exact (type_answered equipped.toAble (.inr (Formed.mono kept.header formed))).bind fun _ _ => .ok _
  | method m =>
    refine Answered.bind ?_ fun _ _ => .ok _
    cases m with
    | plain r =>
      obtain ⟨d,formed⟩ := formed
      obtain ⟨r',done,-⟩ := methodRef_answered equipped (old formed.declaring formed.element) (formed.mono kept signed)
      exact Answered.bind ⟨r',done⟩ fun _ _ => .ok _
    | applied r args =>
      obtain ⟨⟨d,formed⟩,count,each⟩ := formed
      obtain ⟨r',done,same⟩ := methodRef_answered equipped (old formed.declaring formed.element) (formed.mono kept signed)
      obtain ⟨args',brought⟩ : Answered (args.mapM (site.type q)) :=
        .mapM fun t member => type_answered equipped.toAble (.inr ((each t member).mono kept.header))
      have length := (mapM_eq_ok.mp brought).length_eq
      refine ⟨.applied r' args',bind_eq_ok.mpr ⟨r',done,bind_eq_ok.mpr ⟨args',brought,?_⟩⟩⟩
      exact Except.mapError_eq_ok.mpr (MethodRef.apply_eq_ok.mpr ⟨by rw [same,count,length],rfl⟩)
  | field f =>
    obtain ⟨d,formed⟩ := formed
    exact (field_answered equipped (old formed.declaring formed.element) (formed.mono kept)).bind fun _ _ => .ok _
  | none => exact .ok _
  | int n => exact .ok _
  | text t => exact .ok _
  | branch i => exact .ok _

theorem operand_eq_branch {target : InstructionId} (done : site.operand p o = .ok (.branch target)) :
    o = .branch target := by
  cases o with
  | type t => obtain ⟨t',-,same⟩ := bind_eq_ok.mp done; cases same
  | method m => obtain ⟨m',-,same⟩ := bind_eq_ok.mp done; cases same
  | field f => obtain ⟨f',-,same⟩ := bind_eq_ok.mp done; cases same
  | none => cases done
  | int n => cases done
  | text t => cases done
  | branch i => exact Except.ok.inj done

end CloneSite

namespace Program

variable {p q r : Program} {b : Body}

theorem placeBranches_answered {start k : Nat} {fault : Nat → Failure} {code : List Instruction}
    (inside : ∀ ins ∈ code, ∀ target, ins.operand = .branch target → target ∈ b.code) :
    Answered (placeBranches b start fault k code) := by
  induction code generalizing k with
  | nil => exact .ok _
  | cons ins rest ih =>
    have later (k : Nat) : Answered (placeBranches b start fault k rest) := ih fun i member => inside i (.tail _ member)
    rw [placeBranches]
    split
    · next target operand =>
      obtain ⟨j,found⟩ := Body.exists_lastIndexOf? (inside ins (.head _) target operand)
      rw [found]
      exact (later _).bind fun _ _ => .ok _
    · exact (later _).bind fun _ _ => .ok _

/-- Bodies that were filled in since the clones got their members do not stop others from being filled in. -/
theorem cloneBody_answered {site : CloneSite} {argument : TypeRef} (equipped : site.Equipped q p.types.size argument)
    (agree : Agree signature q r) (grown : p.Extends r) (signed : p.Signed)
    (formed : p.BodyFormed m b) : Answered (r.cloneBody site b) := by
  have kept : Keeps signature p q := grown.signatures.trans agree.symm.keeps
  have locals : Answered (b.locals.mapM (site.type r)) := .mapM fun t member => by
    rw [type_mono agree]
    exact type_answered equipped.toAble (.inr ((formed.locals t member).mono kept.header))
  have operands : Answered (b.code.mapM fun i => do
      return { r.instructionAt i with operand := ← site.operand r (r.instructionAt i).operand }) := .mapM fun i member => by
    rw [grown.code.instruction_eq i (formed.inside i member)]
    obtain ⟨o,done⟩ := operand_answered equipped kept signed (formed.operands i member)
    exact Answered.bind ⟨o,operand_mono agree done⟩ fun _ _ => .ok _
  refine locals.bind fun _ _ => operands.bind fun code brought => Answered.bind ?_ fun _ _ => .ok _
  refine placeBranches_answered fun ins member target branch => ?_
  obtain ⟨i,among,done⟩ := left_of_forall₂ (mapM_eq_ok.mp brought) member
  obtain ⟨o,operand,⟨⟩⟩ := bind_eq_ok.mp done
  rw [show o = .branch target from branch,grown.code.instruction_eq i (formed.inside i among)] at operand
  have leads := formed.operands i among
  rw [operand_eq_branch operand] at leads
  exact leads

theorem Deep.of_succ {t : TypeId} (deep : p.Deep (n + 1) t) : p.Deep n t := by
  induction n generalizing t with
  | zero => trivial
  | succ n ih =>
    obtain ⟨u,nested,deeper⟩ := deep
    exact ⟨u,nested,ih deeper⟩

end Program

namespace Cloning

variable {p x : Program} {style : CloneStyle} {home : ModuleId} {argument : TypeRef} {family : List Scope} {shell : Shell}
  {source : TypeId}

theorem extends_modifyType {x : Program} {t : TypeId} (new : p.types.size ≤ t.index)
    (grown : p.Extends x) : p.Extends (x.modifyType t f) where
  types := by
    refine ⟨by rw [size_modifyType]; exact grown.types.size_le,fun u inside => ?_⟩
    rw [typeAt_modifyType_of_ne (fun same => by rw [same] at inside; omega)]
    exact grown.types.view_eq u inside
  code := ⟨grown.code.size_le,grown.code.instruction_eq⟩

theorem declareShell_completes (style : CloneStyle) (home : ModuleId) (argument : TypeRef) (outer : List Scope)
    (parent : Option TypeId) (nests : p.Nests) (inside : source.index < p.types.size) (shallow : ¬p.Deep n source) :
    Completes (Keeps id p) (declareShell style home argument n outer parent source) := by
  induction n generalizing outer parent source with
  | zero => exact absurd trivial shallow
  | succ n ih =>
    refine .get fun x kept => .modifyGet (fun y kept => ?_) fun _ _ => .bind (.modify fun y kept => ?_) fun _ =>
      .bind (.mapM fun t member => ?_) fun _ => .pure _
    · exact kept.trans ⟨by simp,fun _ inside => typeAt_declareType_old inside _⟩
    · exact kept.trans ⟨Nat.le_refl _,fun _ _ => rfl⟩
    · have same : x.typeAt source = p.typeAt source := kept.view_eq source inside
      rw [same] at member
      have nested := (mem_filter.mp member).1
      exact ih _ _ (nests source inside t nested).1 fun deep => shallow ⟨t,nested,deep⟩

theorem target_of_declareShell {outer : List Scope} {parent : Option TypeId} {source : TypeId}
    {shells : List Shell} {x : Program} (targets : ∀ c ∈ outer, c.target = argument)
    (done : (declareShell style home argument n outer parent source).run x = (.ok (entry,shells),y)) :
    ∀ s ∈ shells, ∀ c ∈ s.chain, c.target = argument := by
  induction n generalizing outer parent source entry shells x y with
  | zero => exact absurd done run_throw_ne_ok
  | succ n ih =>
    obtain ⟨nested,ran,-,rfl⟩ := declareShell_eq_ok done
    have wider : ∀ c ∈ (⟨source,argument,⟨x.types.size⟩⟩ :: outer : List Scope), c.target = argument :=
      forall_mem_cons.mpr ⟨rfl,targets⟩
    refine forall_mem_cons.mpr ⟨wider,fun s member => ?_⟩
    obtain ⟨⟨e,inner⟩,among,within⟩ := mem_flatMap.mp member
    clear done member
    generalize opened x (outline style home argument x parent source) = z at ran
    generalize ((x.typeAt source).nested.filter fun t => (x.typeAt t).isGeneric) = sources at ran
    induction sources generalizing nested z with
    | nil =>
      obtain ⟨rfl,-⟩ := run_pure_eq_ok.mp ran
      cases among
    | cons t rest later =>
      obtain ⟨first,others,u,here,there,rfl⟩ := run_mapM_cons_eq_ok.mp ran
      rcases mem_cons.mp among with rfl | among
      · exact ih wider here s within
      · exact later _ among _ there

/-- A clone that may get its members: it stands beyond the types of `p`, one of which it was declared for, and what is
    brought over to it finds the clones declared. -/
structure Prepared (p x : Program) (family : List Scope) (s : Shell) : Prop where
  old : s.source.index < p.types.size
  new : p.types.size ≤ s.clone.index
  able : ∀ method, CloneSite.Able ⟨family,s.chain,method⟩ x

theorem Prepared.able_of_agree (prepared : Prepared p x family shell) (agree : Agree header x z)
    (method : Option (MethodId × MethodId)) : Able ⟨family,shell.chain,method⟩ z where
  lesser s member := by
    rw [agree.generics_eq,agree.generics_eq]
    exact (prepared.able method).lesser s member
  targets s member := ((prepared.able method).targets s member).mono agree.keeps

/-- What declaring members keeps: the types there were, and the headers of the clones. -/
structure Drawing (p x z : Program) : Prop where
  grown : p.Extends z
  agree : Agree header x z

theorem Drawing.modifyType (drawing : Drawing p x z) (prepared : Prepared p x family shell)
    (kept : ∀ d, (f d).header = d.header) : Drawing p x (z.modifyType shell.clone f) :=
  ⟨extends_modifyType prepared.new drawing.grown,drawing.agree.trans (.modifyType kept)⟩

theorem completes_type (prepared : Prepared p x family shell)
    (method : Option (MethodId × MethodId)) (formed : p.MaybeFormed scope t) :
    Completes (Drawing p x) (bring (type ⟨family,shell.chain,method⟩ · t)) :=
  .bring fun _ drawing =>
    type_answered (prepared.able_of_agree drawing.agree method) (formed.mono drawing.grown.headers)

theorem declareMethod_completes (formed : p.WellFormed) (prepared : Prepared p x family shell)
    (owner : m.owner = shell.source) : Completes (Drawing p x) (declareMethod family shell m) := by
  refine .get fun y drawing => ?_
  have same : y.methodAt m = p.methodAt m := drawing.grown.methodAt_eq (owner ▸ prepared.old)
  have signature := (formed.types m.owner (owner ▸ prepared.old)).members.methods m rfl
  rw [same]
  refine .modifyGet (fun z drawing => drawing.modifyType prepared fun _ => rfl) fun z _ => ?_
  refine .bind (completes_type prepared _ signature.returns) fun returns => ?_
  refine .bind (.modify fun z drawing => drawing.modifyType prepared fun _ => rfl) fun _ => .forM fun param member => ?_
  refine .bind (completes_type prepared _ (.inr (signature.params _ (mem_map_of_mem member)))) fun type => ?_
  exact .modify fun z drawing => drawing.modifyType prepared fun _ => rfl

theorem declareMembers_completes (style : CloneStyle) (formed : p.WellFormed) (prepared : Prepared p x family shell) :
    Completes (Drawing p x) (declareMembers style family shell) := by
  have members := (formed.types shell.source prepared.old).members
  refine .get fun y drawing => ?_
  rw [drawing.grown.typeAt_eq prepared.old]
  refine .bind (completes_type prepared none members.base) fun base => ?_
  refine .bind (.modify fun z drawing => drawing.modifyType prepared fun _ => rfl) fun _ => .bind (.forM fun i member => ?_)
    fun _ => .bind (.modify fun z drawing => drawing.modifyType prepared fun _ => rfl) fun _ =>
    .bind (.forM fun f member => ?_) fun _ => .get fun z _ => .forM fun m member => ?_
  · refine .bind (completes_type prepared none (.inr (members.interfaces i member))) fun i => ?_
    exact .modify fun z drawing => drawing.modifyType prepared fun _ => rfl
  · refine .bind (completes_type prepared none (.inr (members.fields f member))) fun type => ?_
    exact .modify fun z drawing => drawing.modifyType prepared fun _ => rfl
  · exact declareMethod_completes formed prepared (mem_methodsOf.mp member).1

/-- What filling in bodies keeps: the types there were, and the declarations of the clones. -/
structure Inking (p y z : Program) : Prop where
  grown : p.Extends z
  agree : Agree signature y z

theorem fillBody_completes (formed : p.WellFormed) (old : shell.source.index < p.types.size)
    (new : p.types.size ≤ shell.clone.index)
    (equipped : ∀ method, Equipped ⟨family,shell.chain,method⟩ y p.types.size argument)
    (owner : m.owner = shell.source) : Completes (Inking p y) (fillBody family shell m) := by
  refine .get fun z inking => ?_
  have same : z.methodAt m = p.methodAt m := inking.grown.methodAt_eq (owner ▸ old)
  rw [same]
  dsimp only
  split
  · next body _ filled =>
    have whole := formed.body filled
    refine Completes.bind_run (.bring fun w inking =>
      cloneBody_answered (equipped _) inking.agree inking.grown formed.signed whole) ?_
    rintro w ⟨q,b⟩ _ inking ran -
    obtain ⟨cloned,rfl⟩ := run_bring_eq_ok.mp ran
    have inside : ∀ i ∈ body.code, i.index < w.code.size := fun i member =>
      Nat.lt_of_lt_of_le (whole.inside i member) inking.grown.code.size_le
    obtain ⟨code,rfl,-,-⟩ := cloneBody_eq_ok inside cloned
    have added : w.Extends (w.addCode code) := ⟨⟨Nat.le_refl _,fun _ _ => rfl⟩,keepsCode_addCode code⟩
    exact ⟨⟨⟩,_,rfl,extends_modifyType new (inking.grown.trans added),
      inking.agree.trans (agree_fill code ⟨shell.clone,m.position⟩ b)⟩
  · exact .pure _

theorem specialize_of_refused {failure : Failure} (refused : refusal? p source argument = some failure) :
    (specialize style home source argument).run p = (.error failure,p) := by
  have read : (get : Cloning Program).run p = (.ok p,p) := rfl
  rw [specialize,run_bind_eq,read]
  simp only [refused]
  rfl

section Phases

variable {flat : List Entry} {shells : List Shell}

section

variable (shelled : Shelled home argument p p x flat shells)
include shelled

theorem Shelled.lesser :
    ∀ c ∈ familyOf argument shells, (x.typeAt c.produced).generics.length + 1 = (x.typeAt c.owner).generics.length := by
  intro c member
  obtain ⟨s,among,rfl⟩ := mem_map.mp member
  have outlined := shelled.outlined s among
  have generic := outlined.generic
  show (x.typeAt s.clone).generics.length + 1 = (x.typeAt s.source).generics.length
  rw [outlined.generics,shelled.kept s.source outlined.old]
  cases params : (p.typeAt s.source).generics with
  | nil => rw [isGeneric,params] at generic; cases generic
  | cons => rfl

theorem Shelled.prepared (closed : p.Formed [] argument) (targets : ∀ s ∈ shells, ∀ c ∈ s.chain, c.target = argument)
    {s : Shell} (member : s ∈ shells) :
    Prepared p x (familyOf argument shells) s where
  old := (shelled.outlined s member).old
  new := (shelled.outlined s member).new.1
  able _ := ⟨shelled.lesser,fun c among => by
    rw [targets s member c among]
    exact closed.mono (shelled.keeps.map header)⟩

theorem Membered.equipped (membered : Membered style (familyOf argument shells) shells x y)
    (family : x.Family p.types.size argument (familyOf argument shells)) {s : Shell}
    (prepared : Prepared p x (familyOf argument shells) s) (method : Option (MethodId × MethodId)) :
    Equipped ⟨familyOf argument shells,s.chain,method⟩ y p.types.size argument where
  toAble := prepared.able_of_agree membered.agree method
  family := family.congr membered.agree
  fields c member := by
    obtain ⟨s,among,rfl⟩ := mem_map.mp member
    have cloned := (membered.cloned s among).fields
    show (y.typeAt s.clone).fields.map _ = (y.typeAt s.source).fields.map _
    rw [membered.elsewhere s.source (shelled.apart s among)]
    refine forall₂_eq_eq_eq ▸ forall₂_map_left_iff.mpr (forall₂_map_right_iff.mpr ?_)
    exact cloned.flip.imp fun _ _ both => both.1
  generics c member m listed := by
    obtain ⟨s,among,rfl⟩ := mem_map.mp member
    obtain ⟨o,j⟩ := m
    obtain ⟨rfl,position⟩ : o = s.source ∧ j < (y.typeAt s.source).methods.length := mem_methodsOf.mp listed
    have cloned := membered.cloned s among
    have original := membered.elsewhere s.source (shelled.apart s among)
    rw [← original] at cloned
    exact (cloned.methods j _ _ (getElem?_methodAt (m := ⟨s.source,j⟩) position)
      (getElem?_methodAt (m := ⟨s.clone,j⟩) (by rw [cloned.count]; exact position))).generics

end

end Phases

theorem specialize_answered (style : CloneStyle) (home : ModuleId) (formed : p.WellFormed) (closed : p.Formed [] argument)
    (accepted : refusal? p source argument = none) :
    ∃ entry q, (specialize style home source argument).run p = (.ok entry,q) := by
  have old := index_of_accepted accepted
  obtain ⟨one,-,shut⟩ := refusal?_eq_none accepted
  have generic : (p.typeAt source).isGeneric = true := by
    rw [isGeneric]
    cases params : (p.typeAt source).generics with
    | nil => rw [params] at one; cases one
    | cons => rfl
  have shallow : ¬p.Deep (p.types.size + 1) source := fun deep =>
    not_deep formed.grounded formed.nests old deep.of_succ
  obtain ⟨⟨entry,shells⟩,x,outlines,kept⟩ :=
    declareShell_completes style home argument [] none formed.nests old shallow p (.refl id p)
  obtain ⟨shelled,first,rest,rfl,rooted⟩ := declareShell_rooted formed old generic outlines
  have family := shelled.family formed old closed.declares shut rooted
  have prepared (s : Shell) (member : s ∈ first :: rest) :=
    shelled.prepared closed (target_of_declareShell (forall_mem_nil _) outlines) member
  have grown : p.Extends x := ⟨shelled.keeps,⟨by rw [shelled.code_eq],fun i _ => by
    rw [instructionAt,instructionAt,shelled.code_eq]⟩⟩
  obtain ⟨_,y,members,drawn⟩ := Completes.forM
    (fun s member => declareMembers_completes style formed (prepared s member)) x ⟨grown,.refl _ x⟩
  have membered := declareAllMembers_membered (fun s member => (shelled.outlined s member).new.2) shelled.apart
    shelled.distinct (fun s member => (shelled.outlined s member).blank) members
  obtain ⟨_,q,bodies,-⟩ := Completes.forM (f := fun shell : Shell => (do
      ((← get).methodsOf shell.source).forM (fillBody (familyOf argument (first :: rest)) shell) : Cloning PUnit))
    (fun s member => .get fun z inking => .forM fun m listed => fillBody_completes formed (prepared s member).old
      (prepared s member).new (fun method => membered.equipped shelled family (prepared s member) method)
      (mem_methodsOf.mp listed).1) y ⟨drawn.grown,.refl _ y⟩
  refine ⟨entry,q,?_⟩
  rw [specialize]
  refine run_bind_eq_ok.mpr ⟨p,p,rfl,?_⟩
  simp only [accepted]
  refine run_bind_eq_ok.mpr ⟨_,x,outlines,?_⟩
  simp only [shelled.family_eq]
  refine run_bind_eq_ok.mpr ⟨_,y,members,run_bind_eq_ok.mpr ⟨_,q,bodies,rfl⟩⟩

end Cloning

def Program.Encloses (p : Program) (t u : TypeId) : Prop := u ∈ (p.typeAt t).nested ∧ (p.typeAt u).isGeneric = true

namespace Cloning

/-- The specialization extends the program: what there was stays as it was, and the module lists one new type for the
    specialized type and for each type reached from it through generic nested types. -/
structure Grafted (home : ModuleId) (source : TypeId) (p q : Program) (entry : Entry) : Prop where
  grown : p.Extends q
  size_eq : q.types.size = p.types.size + entry.flatten.length
  clones : entry.flatten.map Entry.specialized = (List.range' p.types.size entry.flatten.length).map TypeId.mk
  listed : Program.ListedIn home p q (entry.flatten.map Entry.specialized)
  distinct : (entry.flatten.map Entry.generic).Nodup
  reached : ∀ t, t ∈ entry.flatten.map Entry.generic ↔ Relation.ReflTransGen p.Encloses source t

theorem specialize_grafted {q : Program} (formed : p.WellFormed) (declared : p.Declares argument)
    (place : home.index < p.modules.size) (done : (specialize style home source argument).run p = (.ok entry,q)) :
    Grafted home source p q entry := by
  obtain ⟨shells,specialized⟩ := specialize_specialized formed declared done
  have length := specialized.records.length_eq
  exact {
    grown := specialized.grown
    size_eq := by rw [specialized.size_eq,length]
    clones := by rw [specialized.specialized_eq,specialized.clones,length]
    listed := by rw [specialized.specialized_eq]; exact specialized.listed place
    distinct := (specialize_filed formed.arranged done).2.1
    reached := fun t => mem_map.trans ((specialize_mirrors formed.arranged done).generics t) }

theorem refusal?_isSome_iff (present : argument ≠ .absent) :
    (refusal? p source argument).isSome = true ↔ (p.typeAt source).generics.length ≠ 1 ∨ argument.isOpen = true := by
  have there : argument.isAbsent = false := by
    cases argument with
    | absent => exact absurd rfl present
    | _ => rfl
  simp only [refusal?,there]
  split
  · next none => simp [none]
  · split
    · next several => simpa using .inl (by omega)
    · have one : (p.typeAt source).generics.length = 1 := by omega
      cases argument.isOpen <;> simp [one]

end Cloning

namespace Workbench

variable {p : Program} {home : ModuleId} {config : Config} {w : Workbench}

theorem sound_of_steps (formed : p.WellFormed) (place : home.index < p.modules.size)
    (steps : Relation.ReflTransGen Step { program := p, home, config } w) : w.Sound := by
  induction steps with
  | refl => exact sound_start formed place
  | tail _ step ih => exact step.sound ih

/-- A specialization is refused for a type that does not have exactly one parameter and for an open argument, and leaves
    the program alone then. In every other case it succeeds, and only adds. -/
theorem specialize_all_or_nothing (linked : Linked p) (place : home.index < p.modules.size)
    (steps : Relation.ReflTransGen Step { program := p, home, config } w) :
    (∀ reader scope text argument, w.program.readType reader scope text = .ok argument →
      w.program.Formed scope.all argument) ∧
    ∀ (style : CloneStyle) (source : TypeId) (scope : List GenericParam) (argument : TypeRef),
      w.program.Formed scope argument →
      let outcome := (Cloning.specialize style w.home source argument).run w.program
      ((∃ failure, outcome.1 = .error failure) ↔
        (w.program.typeAt source).generics.length ≠ 1 ∨ argument.isOpen = true) ∧
      (∀ failure, outcome.1 = .error failure →
        Cloning.refusal? w.program source argument = some failure ∧ outcome.2 = w.program) ∧
      ∀ entry, outcome.1 = .ok entry → Cloning.Grafted w.home source w.program outcome.2 entry := by
  have sound := sound_of_steps linked.wellFormed place steps
  refine ⟨fun _ _ _ _ read => sound.formed.listed.readType_formed read,fun style source scope argument formed => ?_⟩
  rw [← Cloning.refusal?_isSome_iff formed.ne_absent]
  cases refused : Cloning.refusal? w.program source argument with
  | some failure =>
    rw [Cloning.specialize_of_refused refused]
    exact ⟨⟨fun _ => rfl,fun _ => ⟨failure,rfl⟩⟩,fun f same => ⟨congrArg some (Except.error.inj same),rfl⟩,nofun⟩
  | none =>
    have closed := formed.closed (Cloning.refusal?_eq_none refused).2.2
    obtain ⟨entry,q,done⟩ := Cloning.specialize_answered style w.home sound.formed closed refused
    rw [done]
    refine ⟨⟨nofun,nofun⟩,nofun,fun e same => ?_⟩
    cases same
    exact Cloning.specialize_grafted sound.formed closed.declares sound.place done

theorem specialize_all_or_nothing_boxes : ∃ home p entry q,
    Cloning.boxes.link Program.core [CoreLibrary.home] = .ok (home,p) ∧
      (Cloning.specialize ⟨"$specialized$",[]⟩ home ⟨13⟩ (.decl CoreLibrary.int32)).run p = (.ok entry,q) ∧
      entry.flatten.length = 2 ∧ Cloning.Grafted home ⟨13⟩ p q entry ∧
      ∃ failure, (Cloning.specialize ⟨"$specialized$",[]⟩ home ⟨13⟩ (.param ⟨.type ⟨13⟩,0,"T"⟩)).run p =
        (.error failure,p) := by
  obtain ⟨home,p,entry,q,linked,done,two⟩ := Cloning.boxes_specialized
  have reached : Linked p := .link .core linked
  obtain ⟨last,size⟩ := Document.link_place Program.core_wellFormed linked
  have unworked : Relation.ReflTransGen Step { program := p, home } { program := p, home } := .refl
  obtain ⟨-,each⟩ := specialize_all_or_nothing reached (by rw [last,size]; exact Nat.lt_succ_self _) unworked
  have numbers := each ⟨"$specialized$",[]⟩ ⟨13⟩ [] (.decl CoreLibrary.int32)
    (Program.formed_decl (reached.declares_core (by decide) _ (TypeRef.mem_parts_self _) _ rfl))
  have parameters := each ⟨"$specialized$",[]⟩ ⟨13⟩ [⟨.type ⟨13⟩,0,"T"⟩] (.param ⟨.type ⟨13⟩,0,"T"⟩)
    (Program.formed_param (.head _))
  obtain ⟨failure,refused⟩ := parameters.1.mpr (.inr rfl)
  simp only [done] at numbers
  exact ⟨home,p,entry,q,linked,done,two,numbers.2.2 entry rfl,failure,
    Prod.ext refused (parameters.2.1 failure refused).2⟩

end Workbench
end Loom
