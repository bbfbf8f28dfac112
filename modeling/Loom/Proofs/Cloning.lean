import Loom.Proofs.Shells
import Loom.Proofs.Sites

/-!
What a specialization leaves behind. After it every clone has the members and bodies of its original, each reference
brought over as the clone's site brings it over in the final program; the types and instructions there were are untouched.
-/
namespace Loom

open Runs List Program CloneSite
open TypeDecl (header)

variable {p q x y : Program} {c d : MethodDecl} {t : TypeId}

namespace Cloning

/-! ### Loops -/

theorem run_bring_eq_ok {α : Type} {f : Program → Except Failure α} {a : α} :
    (bring f).run x = (.ok a,y) ↔ f x = .ok a ∧ x = y := by
  rw [bring,run_bind_eq_ok]
  constructor
  · rintro ⟨_,_,got,done⟩
    obtain ⟨rfl,rfl⟩ := run_get_eq_ok.mp got
    exact run_lift_eq_ok.mp done
  · rintro ⟨done,rfl⟩
    exact ⟨x,x,run_get_eq_ok.mpr ⟨rfl,rfl⟩,run_lift_eq_ok.mpr ⟨done,rfl⟩⟩

/-- A loop that brings one item after the other over and puts it down where bringing over does not look puts them all
    down as they are brought over at the start. -/
theorem forM_bring_eq_ok {α β γ : Type} {f : Program → α → Except Failure β} {g : α → β → γ}
    {w : List γ → Program → Program} (steady : ∀ x cs a, f (w cs x) a = f x a) (none : ∀ x, w [] x = x)
    (more : ∀ x c cs, w cs (w [c] x) = w (c :: cs) x) {l : List α} {u : PUnit}
    (done : (l.forM fun a => do let b ← bring (f · a); modify (w [g a b])).run x = (.ok u,y)) :
    ∃ cs, Forall₂ (fun a c => ∃ b, f x a = .ok b ∧ g a b = c) l cs ∧ y = w cs x := by
  induction l generalizing x with
  | nil =>
    obtain ⟨-,rfl⟩ := run_pure_eq_ok.mp done
    exact ⟨[],.nil,(none x).symm⟩
  | cons a rest ih =>
    obtain ⟨s,first,later⟩ := run_forM_cons_eq_ok.mp done
    obtain ⟨b,_,ran,written⟩ := run_bind_eq_ok.mp first
    obtain ⟨brought,rfl⟩ := run_bring_eq_ok.mp ran
    obtain rfl := run_modify_eq_ok.mp written
    obtain ⟨cs,all,rfl⟩ := ih later
    refine ⟨g a b :: cs,.cons ⟨b,brought,rfl⟩ (all.imp ?_),more x _ cs⟩
    rintro c d ⟨e,same,same'⟩
    exact ⟨e,by rw [← steady x [g a b]]; exact same,same'⟩

/-! ### Methods -/

variable {style : CloneStyle} {family : List Scope} {shell : Shell} {m : MethodId} {x y : Program}

def methodSite (family : List Scope) (shell : Shell) (m : MethodId) : CloneSite :=
  ⟨family,shell.chain,some (m,⟨shell.clone,m.position⟩)⟩

structure SignatureCloned (family : List Scope) (p : Program) (shell : Shell) (m : MethodId) (d c : MethodDecl) : Prop where
  name : c.name = d.name
  flags : c.flags = d.flags
  native : c.native = d.native
  generics : c.generics = d.generics
  returns : (methodSite family shell m).type p d.returns = .ok c.returns
  params : List.Forall₂ (fun a b : Param => b.name = a.name ∧ (methodSite family shell m).type p a.type = .ok b.type)
    d.params c.params

theorem SignatureCloned.congr (cloned : SignatureCloned family p shell m d c) (agree : Agree header p q)
    (generics : (q.methodAt ⟨shell.clone,m.position⟩).generics = (p.methodAt ⟨shell.clone,m.position⟩).generics) :
    SignatureCloned family q shell m d c := by
  have types (t : TypeRef) : (methodSite family shell m).type q t = (methodSite family shell m).type p t :=
    type_congr agree (fun _ _ inside => by cases inside; exact generics) t
  exact { cloned with
    returns := by rw [types]; exact cloned.returns
    params := cloned.params.imp fun a b both => ⟨both.1,by rw [types]; exact both.2⟩ }

theorem SignatureCloned.of_signature {c' : MethodDecl} (cloned : SignatureCloned family p shell m d c)
    (same : c'.signature = c.signature) : SignatureCloned family p shell m d c' where
  name := (congrArg MethodDecl.name same).trans cloned.name
  flags := (congrArg MethodDecl.flags same).trans cloned.flags
  native := (congrArg MethodDecl.native same).trans cloned.native
  generics := (congrArg MethodDecl.generics same).trans cloned.generics
  returns := cloned.returns.trans (congrArg Except.ok (congrArg MethodDecl.returns same).symm)
  params := by
    have params : c'.signature.params = c.signature.params := congrArg MethodDecl.params same
    rw [show c'.params = c.params from params]
    exact cloned.params

end Cloning

namespace Program

variable {p : Program}

def addMethods (p : Program) (t : TypeId) (ms : List MethodDecl) : Program :=
  p.modifyType t fun d => { d with methods := d.methods ++ ms }

theorem addMethods_addMethods (t : TypeId) (ms others : List MethodDecl) :
    (p.addMethods t ms).addMethods t others = p.addMethods t (ms ++ others) := by
  simp only [addMethods,modifyType_modifyType,append_assoc]

theorem addMethods_nil (t : TypeId) : p.addMethods t [] = p :=
  modifyType_eq_self (by simp only [append_nil])

theorem agree_addMethods (t : TypeId) (ms : List MethodDecl) : Agree header p (p.addMethods t ms) :=
  .modifyType fun _ => rfl

theorem methods_addMethods (inside : t.index < p.types.size) (ms : List MethodDecl) :
    ((p.addMethods t ms).typeAt t).methods = (p.typeAt t).methods ++ ms := by
  rw [addMethods,typeAt_modifyType_self inside]

theorem methodAt_addMethods (inside : t.index < p.types.size) {ms : List MethodDecl} {j : Nat}
    (at_ : ms[j]? = some d) : (p.addMethods t ms).methodAt ⟨t,(p.typeAt t).methods.length + j⟩ = d := by
  apply methodAt_eq_of_getElem?
  show ((p.addMethods t ms).typeAt t).methods[(p.typeAt t).methods.length + j]? = some d
  rw [methods_addMethods inside,getElem?_append_right (Nat.le_add_right _ _),Nat.add_sub_cancel_left,at_]

theorem methodAt_addMethods_old {m : MethodId} (ms : List MethodDecl)
    (old : m.owner = t → m.position < (p.typeAt t).methods.length) : (p.addMethods t ms).methodAt m = p.methodAt m := by
  by_cases owner : m.owner = t
  · subst owner
    have before := old rfl
    by_cases inside : m.owner.index < p.types.size
    · rw [methodAt,methodAt,methods_addMethods inside,getElem?_append_left before]
    · rw [typeAt_of_le (Nat.le_of_not_lt inside)] at before
      cases before
  · exact methodAt_modifyType_of_ne owner _

theorem modifyMethod_addMethods (t : TypeId) (d : MethodDecl) (f : MethodDecl → MethodDecl) :
    (p.addMethods t [d]).modifyMethod ⟨t,(p.typeAt t).methods.length⟩ f = p.addMethods t [f d] := by
  simp only [addMethods,modifyMethod,modifyType_modifyType]
  refine modifyType_congr ?_
  simp only [modify_concat]

def addParams (p : Program) (m : MethodId) (params : List Param) : Program :=
  p.modifyMethod m fun d => { d with params := d.params ++ params }

theorem addParams_addParams (m : MethodId) (params others : List Param) :
    (p.addParams m params).addParams m others = p.addParams m (params ++ others) := by
  simp only [addParams,modifyMethod,modifyType_modifyType,modify_modify_eq,Function.comp_def,append_assoc]

theorem addParams_nil (p : Program) (m : MethodId) : p.addParams m [] = p := by
  refine modifyType_eq_self ?_
  simp only [append_nil]
  congr 1
  exact modify_id _ _

theorem agree_addParams (p : Program) (m : MethodId) (params : List Param) : Agree header p (p.addParams m params) := by
  rw [addParams,modifyMethod]
  exact .modifyType fun _ => rfl

theorem generics_addParams (m n : MethodId) (params : List Param) :
    ((p.addParams m params).methodAt n).generics = (p.methodAt n).generics := by
  rcases methodAt_modifyMethod_cases m n (fun d => { d with params := d.params ++ params }) with same | ⟨-,changed⟩
  · rw [addParams,same]
  · rw [addParams,changed]

end Program

namespace Cloning

variable {style : CloneStyle} {family : List Scope} {shell : Shell} {m : MethodId} {x y : Program}
variable {u : PUnit} {t : TypeId}

section

variable (inside : shell.clone.index < x.types.size) (place : m.position = (x.typeAt shell.clone).methods.length)
include inside place

theorem type_addMethods_congr (generics : c.generics = d.generics) (t : TypeRef) :
    (methodSite family shell m).type (x.addMethods shell.clone [c]) t =
      (methodSite family shell m).type (x.addMethods shell.clone [d]) t := by
  have last (e : MethodDecl) : (x.addMethods shell.clone [e]).methodAt ⟨shell.clone,m.position⟩ = e := by
    rw [place]
    exact methodAt_addMethods inside (j := 0) rfl
  refine type_congr ((agree_addMethods _ _).symm.trans (agree_addMethods _ _)) ?_ t
  intro _ _ within
  cases within
  rw [last,last]
  exact generics

theorem declareMethod_eq_ok (done : (declareMethod family shell m).run x = (.ok u,y)) :
    ∃ c, y = x.addMethods shell.clone [c] ∧ c.body = none ∧ SignatureCloned family y shell m (x.methodAt m) c := by
  rw [declareMethod,run_get_bind] at done
  obtain ⟨id,x1,added,done⟩ := run_bind_eq_ok.mp done
  have pair := run_modifyGet_eq_ok.mp added
  obtain rfl : (⟨shell.clone,(x.typeAt shell.clone).methods.length⟩ : MethodId) = id := congrArg Prod.fst pair
  obtain rfl : x.addMethods shell.clone [_] = x1 := congrArg Prod.snd pair
  rw [← place] at done
  obtain ⟨returns,_,ran,done⟩ := run_bind_eq_ok.mp done
  obtain ⟨brought,rfl⟩ := run_bring_eq_ok.mp ran
  obtain ⟨_,x2,written,done⟩ := run_bind_eq_ok.mp done
  have second := run_modify_eq_ok.mp written
  rw [place,modifyMethod_addMethods] at second
  subst second
  have steady (z : Program) (cs : List Param) (a : Param) :
      (methodSite family shell m).type (z.addParams ⟨shell.clone,m.position⟩ cs) a.type =
        (methodSite family shell m).type z a.type := by
    refine type_congr (z.agree_addParams _ cs) (fun _ _ inside => ?_) a.type
    cases inside
    exact generics_addParams ..
  obtain ⟨params,all,rfl⟩ := forM_bring_eq_ok (f := fun z (a : Param) => (methodSite family shell m).type z a.type)
    steady (fun z => z.addParams_nil _) (fun z c cs => addParams_addParams _ [c] cs) done
  rw [place,addParams,modifyMethod_addMethods]
  refine ⟨_,rfl,rfl,rfl,rfl,rfl,rfl,?_,?_⟩
  · rw [← brought]
    refine type_addMethods_congr inside place ?_ _
    rfl
  · refine all.imp ?_
    rintro a _ ⟨type,brought,rfl⟩
    refine ⟨rfl,?_⟩
    rw [← brought]
    refine type_addMethods_congr inside place ?_ _
    rfl

end

theorem declareMethods_eq_ok {source : TypeId} {k n : Nat} (inside : shell.clone.index < x.types.size)
    (apart : source ≠ shell.clone) (place : (x.typeAt shell.clone).methods.length = k)
    (done : (((range' k n).map (MethodId.mk source)).forM (declareMethod family shell)).run x = (.ok u,y)) :
    ∃ cs, y = x.addMethods shell.clone cs ∧ cs.length = n ∧ (∀ c ∈ cs, c.body = none) ∧ ∀ j c, cs[j]? = some c →
        SignatureCloned family y shell ⟨source,k + j⟩ (x.methodAt ⟨source,k + j⟩) c := by
  induction n generalizing k x with
  | zero =>
    obtain ⟨-,rfl⟩ := run_pure_eq_ok.mp done
    exact ⟨[],(addMethods_nil _).symm,rfl,nofun,by simp⟩
  | succ n ih =>
    rw [range'_succ,map_cons] at done
    obtain ⟨s,first,later⟩ := run_forM_cons_eq_ok.mp done
    obtain ⟨c,rfl,bare,cloned⟩ := declareMethod_eq_ok inside place.symm first
    have longer : ((x.addMethods shell.clone [c]).typeAt shell.clone).methods.length = k + 1 := by
      rw [methods_addMethods inside,length_append,place]
      rfl
    obtain ⟨cs,rfl,count,bares,all⟩ := ih (by simpa [addMethods] using inside) longer later
    refine ⟨c :: cs,addMethods_addMethods _ _ _,by rw [length_cons,count],
      forall_mem_cons.mpr ⟨bare,bares⟩,?_⟩
    intro j d at_
    cases j with
    | zero =>
      obtain rfl : c = d := Option.some.inj at_
      refine cloned.congr (agree_addMethods _ _) (congrArg MethodDecl.generics ?_)
      exact methodAt_addMethods_old cs fun _ => by rw [longer]; exact Nat.lt_succ_self k
    | succ j =>
      have rest := all j d at_
      rw [methodAt_addMethods_old [c] fun same => absurd same apart] at rest
      rwa [show k + (j + 1) = k + 1 + j by omega]

/-! ### Members -/

def typeSite (family : List Scope) (shell : Shell) : CloneSite := { family, chain := shell.chain }

theorem typeSite_congr (agree : Agree header p q) (t : TypeRef) :
    (typeSite family shell).type q t = (typeSite family shell).type p t :=
  type_congr agree (fun _ _ inside => by cases inside) t

structure MembersCloned (style : CloneStyle) (family : List Scope) (p : Program) (shell : Shell) (d c : TypeDecl) : Prop where
  base : (typeSite family shell).type p d.base = .ok c.base
  interfaces : List.Forall₂ (fun a b => (typeSite family shell).type p a = .ok b) d.interfaces c.interfaces
  attributes : c.attributes = d.attributes.filter fun a => !style.dropped.contains (p.fullName a.type)
  fields : List.Forall₂ (fun a b : FieldDecl =>
    b.name = a.name ∧ b.isStatic = a.isStatic ∧ (typeSite family shell).type p a.type = .ok b.type) d.fields c.fields
  count : c.methods.length = d.methods.length
  methods : ∀ j a b, d.methods[j]? = some a → c.methods[j]? = some b →
    SignatureCloned family p shell ⟨shell.source,j⟩ a b

/-- A change of one declaration that leaves its header. -/
def Draws (t : TypeId) (x y : Program) : Prop :=
  ∃ f : TypeDecl → TypeDecl, y = x.modifyType t f ∧ ∀ d, (f d).header = d.header

theorem Draws.trans {z : Program} (early : Draws t x y) (late : Draws t y z) : Draws t x z := by
  obtain ⟨f,rfl,first⟩ := early
  obtain ⟨g,rfl,second⟩ := late
  exact ⟨fun d => g (f d),modifyType_modifyType _ _ _,fun d => (second _).trans (first d)⟩

theorem Draws.agree (drawn : Draws t x y) : Agree header x y := by
  obtain ⟨f,rfl,kept⟩ := drawn
  exact .modifyType kept

theorem Draws.typeAt_eq {u : TypeId} (drawn : Draws t x y) (different : u ≠ t) : y.typeAt u = x.typeAt u := by
  obtain ⟨f,rfl,-⟩ := drawn
  exact typeAt_modifyType_of_ne different f

theorem interfaces_eq_ok {interfaces : List TypeRef} (done : (interfaces.forM fun i => (do
      let i ← bring ((typeSite family shell).type · i)
      modify (·.modifyType shell.clone fun c => { c with interfaces := c.interfaces ++ [i] }) : Cloning PUnit)).run x =
        (.ok u,y)) :
    ∃ cs, Forall₂ (fun a b => (typeSite family shell).type x a = .ok b) interfaces cs ∧
      y = x.modifyType shell.clone fun c => { c with interfaces := c.interfaces ++ cs } := by
  obtain ⟨cs,all,same⟩ := forM_bring_eq_ok (f := fun z i => (typeSite family shell).type z i) (g := fun _ b => b)
    (w := fun cs z => z.modifyType shell.clone fun c => { c with interfaces := c.interfaces ++ cs })
    (fun z cs a => by refine typeSite_congr (.modifyType ?_) a; exact fun _ => rfl)
    (fun z => modifyType_eq_self (by simp only [append_nil]))
    (fun z c cs => by simp only [modifyType_modifyType,append_assoc,singleton_append]) done
  refine ⟨cs,all.imp ?_,same⟩
  rintro a _ ⟨b,brought,rfl⟩
  exact brought

theorem fields_eq_ok {fields : List FieldDecl} (done : (fields.forM fun f => (do
      let type ← bring ((typeSite family shell).type · f.type)
      modify (·.addField shell.clone { f with type }) : Cloning PUnit)).run x = (.ok u,y)) :
    ∃ cs, Forall₂ (fun a b : FieldDecl =>
        b.name = a.name ∧ b.isStatic = a.isStatic ∧ (typeSite family shell).type x a.type = .ok b.type) fields cs ∧
      y = x.modifyType shell.clone fun c => { c with fields := c.fields ++ cs } := by
  have loop := forM_bring_eq_ok (f := fun z (a : FieldDecl) => (typeSite family shell).type z a.type)
    (g := fun (a : FieldDecl) type => ({ a with type } : FieldDecl))
    (w := fun cs z => z.modifyType shell.clone fun c => { c with fields := c.fields ++ cs })
    (fun z cs a => by refine typeSite_congr (.modifyType ?_) a.type; exact fun _ => rfl)
    (fun z => modifyType_eq_self (by simp only [append_nil]))
    (fun z c cs => by simp only [modifyType_modifyType,append_assoc,singleton_append])
    (l := fields) (x := x) (y := y) (u := u)
  obtain ⟨cs,all,same⟩ := loop done
  refine ⟨cs,all.imp ?_,same⟩
  rintro a _ ⟨b,brought,rfl⟩
  exact ⟨rfl,rfl,brought⟩

/-- The members of a clone besides its methods are brought over before any method. -/
theorem declareMembers_peel (done : (declareMembers style family shell).run x = (.ok u,y)) : ∃ base interfaces fields z,
      (typeSite family shell).type x (x.typeAt shell.source).base = .ok base ∧
      Forall₂ (fun a b => (typeSite family shell).type x a = .ok b) (x.typeAt shell.source).interfaces interfaces ∧
      Forall₂ (fun a b : FieldDecl =>
        b.name = a.name ∧ b.isStatic = a.isStatic ∧ (typeSite family shell).type x a.type = .ok b.type)
        (x.typeAt shell.source).fields fields ∧
      (z = x.modifyType shell.clone fun c => { c with
        base
        interfaces := c.interfaces ++ interfaces
        attributes := (x.typeAt shell.source).attributes.filter fun a => !style.dropped.contains (x.fullName a.type)
        fields := c.fields ++ fields }) ∧
      ((z.methodsOf shell.source).forM (declareMethod family shell)).run z = (.ok u,y) := by
  rw [declareMembers,run_get_bind] at done
  obtain ⟨base,_,ran,done⟩ := run_bind_eq_ok.mp done
  obtain ⟨based,rfl⟩ := run_bring_eq_ok.mp ran
  obtain ⟨_,x1,written,done⟩ := run_bind_eq_ok.mp done
  have first : Draws shell.clone x x1 := ⟨_,(run_modify_eq_ok.mp written).symm,fun _ => rfl⟩
  have first_eq := run_modify_eq_ok.mp written
  obtain ⟨_,x2,ran,done⟩ := run_bind_eq_ok.mp done
  obtain ⟨interfaces,interfaced,second_eq⟩ := interfaces_eq_ok ran
  have second : Draws shell.clone x x2 := first.trans ⟨_,second_eq,fun _ => rfl⟩
  obtain ⟨_,x3,written,done⟩ := run_bind_eq_ok.mp done
  have third : Draws shell.clone x x3 := second.trans ⟨_,(run_modify_eq_ok.mp written).symm,fun _ => rfl⟩
  have third_eq := run_modify_eq_ok.mp written
  obtain ⟨_,x4,ran,done⟩ := run_bind_eq_ok.mp done
  obtain ⟨fields,fielded,fourth_eq⟩ := fields_eq_ok ran
  rw [run_get_bind] at done
  refine ⟨base,interfaces,fields,x4,based,interfaced.imp fun a b brought => ?brought,
    fielded.imp fun a b both => ⟨both.1,both.2.1,?typed⟩,?whole,done⟩
  case brought =>
    rw [← typeSite_congr first.agree]
    exact brought
  case typed =>
    rw [← typeSite_congr third.agree]
    exact both.2.2
  case whole =>
    rw [fourth_eq,← third_eq,second.agree.fullName_eq,second_eq,← first_eq]
    simp only [modifyType_modifyType]

theorem declareMembers_eq_ok (inside : shell.clone.index < x.types.size) (apart : shell.source ≠ shell.clone)
    (blank : (x.typeAt shell.clone).header = x.typeAt shell.clone)
    (done : (declareMembers style family shell).run x = (.ok u,y)) :
    Draws shell.clone x y ∧ (∀ c ∈ (y.typeAt shell.clone).methods, c.body = none) ∧
      MembersCloned style family y shell (x.typeAt shell.source) (y.typeAt shell.clone) := by
  obtain ⟨base,interfaces,fields,z,based,interfaced,fielded,whole,done⟩ := declareMembers_peel done
  have drawn : Draws shell.clone x z := ⟨_,whole,fun _ => rfl⟩
  have within : shell.clone.index < z.types.size := by rw [drawn.agree.size_eq]; exact inside
  have clone := congrArg (·.typeAt shell.clone) whole
  simp only [typeAt_modifyType_self inside] at clone
  have methodless : (z.typeAt shell.clone).methods = [] := by rw [clone,← blank]; rfl
  rw [methodsOf,drawn.typeAt_eq apart,range_eq_range'] at done
  obtain ⟨cs,rfl,count,bare,methods⟩ := declareMethods_eq_ok within apart (by rw [methodless]; rfl) done
  have late : Agree header x (z.addMethods shell.clone cs) := drawn.agree.trans (agree_addMethods _ _)
  have result : (z.addMethods shell.clone cs).typeAt shell.clone = { z.typeAt shell.clone with methods := cs } := by
    rw [addMethods,typeAt_modifyType_self within,methodless]
    rfl
  refine ⟨drawn.trans ⟨_,rfl,fun _ => rfl⟩,by rw [result]; exact bare,?_⟩
  rw [result,clone,← blank]
  exact {
    base := by rw [typeSite_congr late]; exact based
    interfaces := interfaced.imp fun a b brought => by rw [typeSite_congr late]; exact brought
    attributes := by rw [late.fullName_eq]
    fields := fielded.imp fun a b both => by rw [typeSite_congr late]; exact both
    count
    methods := by
      intro j a b original at_
      have cloned := methods j b at_
      rw [Nat.zero_add] at cloned
      have same : z.methodAt ⟨shell.source,j⟩ = a :=
        methodAt_eq_of_getElem? (by rw [drawn.typeAt_eq apart]; exact original)
      rwa [same] at cloned }

theorem MembersCloned.congr {d c : TypeDecl} (cloned : MembersCloned style family p shell d c) (agree : Agree header p q)
    (generics : ∀ j, (q.methodAt ⟨shell.clone,j⟩).generics = (p.methodAt ⟨shell.clone,j⟩).generics) :
    MembersCloned style family q shell d c where
  base := by rw [typeSite_congr agree]; exact cloned.base
  interfaces := cloned.interfaces.imp fun a b brought => by rw [typeSite_congr agree]; exact brought
  attributes := by rw [agree.fullName_eq]; exact cloned.attributes
  fields := cloned.fields.imp fun a b both => by rw [typeSite_congr agree]; exact both
  count := cloned.count
  methods j a b original at_ := (cloned.methods j a b original at_).congr agree (generics j)

/-- Members were declared for the clones, and nothing else was done. -/
structure Membered (style : CloneStyle) (family : List Scope) (shells : List Shell) (x y : Program) : Prop where
  agree : Agree header x y
  elsewhere : ∀ t, (∀ s ∈ shells, t ≠ s.clone) → y.typeAt t = x.typeAt t
  code_eq : y.code = x.code
  modules_eq : y.modules = x.modules
  bare : ∀ s ∈ shells, ∀ c ∈ (y.typeAt s.clone).methods, c.body = none
  cloned : ∀ s ∈ shells, MembersCloned style family y s (x.typeAt s.source) (y.typeAt s.clone)

theorem declareAllMembers_membered {shells : List Shell} (inside : ∀ s ∈ shells, s.clone.index < x.types.size)
    (apart : ∀ s ∈ shells, ∀ c ∈ shells, s.source ≠ c.clone) (distinct : (shells.map Shell.clone).Nodup)
    (blank : ∀ s ∈ shells, (x.typeAt s.clone).header = x.typeAt s.clone)
    (done : (shells.forM (declareMembers style family)).run x = (.ok u,y)) : Membered style family shells x y := by
  induction shells generalizing x with
  | nil =>
    obtain ⟨-,rfl⟩ := run_pure_eq_ok.mp done
    exact ⟨.refl _ _,fun _ _ => rfl,rfl,rfl,nofun,nofun⟩
  | cons s rest ih =>
    obtain ⟨z,first,later⟩ := run_forM_cons_eq_ok.mp done
    obtain ⟨drawn,bare,cloned⟩ :=
      declareMembers_eq_ok (inside s (.head _)) (apart s (.head _) s (.head _)) (blank s (.head _)) first
    obtain ⟨fresh,distinct⟩ := nodup_cons.mp distinct
    have other (c : Shell) (member : c ∈ rest) : c.clone ≠ s.clone :=
      fun same => fresh (same ▸ mem_map_of_mem member)
    have membered := ih (fun c member => by rw [drawn.agree.size_eq]; exact inside c (.tail _ member))
      (fun c member e among => apart c (.tail _ member) e (.tail _ among)) distinct
      (fun c member => by rw [drawn.typeAt_eq (other c member)]; exact blank c (.tail _ member)) later
    have settled : y.typeAt s.clone = z.typeAt s.clone :=
      membered.elsewhere s.clone fun c member => (other c member).symm
    exact {
      agree := drawn.agree.trans membered.agree
      elsewhere := fun t out => by
        rw [membered.elsewhere t fun c member => out c (.tail _ member),drawn.typeAt_eq (out s (.head _))]
      code_eq := membered.code_eq.trans (by obtain ⟨f,rfl,-⟩ := drawn; rfl)
      modules_eq := membered.modules_eq.trans (by obtain ⟨f,rfl,-⟩ := drawn; rfl)
      bare := forall_mem_cons.mpr ⟨by rw [settled]; exact bare,membered.bare⟩
      cloned := by
        refine forall_mem_cons.mpr ⟨?_,fun c member => ?_⟩
        · rw [settled]
          exact cloned.congr membered.agree fun j => by rw [methodAt,methodAt,settled]
        · have original : z.typeAt c.source = x.typeAt c.source :=
            drawn.typeAt_eq (apart c (.tail _ member) s (.head _))
          rw [← original]
          exact membered.cloned c member }

end Cloning
end Loom
