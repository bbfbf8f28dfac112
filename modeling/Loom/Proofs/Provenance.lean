import Loom.Proofs.Legibility
import Loom.Proofs.Naming
import Loom.Proofs.Passes

/-!
Where the types that a module mentions come from. A declaration is traced if everything that it mentions is one of given
types and its names are plain. The passes mention clones and what was mentioned before, so they keep a module traced.
-/
namespace Loom

open List Program TypeRef
open Loom.Except (bind_eq_ok)

variable {r r' : MethodRef} {o o' : Operand} {t : TypeRef} {c : TypeId} {ins : Instruction}

namespace TypeRef

variable {K L : TypeId → Prop} {t u : TypeRef} {d : TypeId} {args : List TypeRef}

def Mentions (K : TypeId → Prop) (t : TypeRef) : Prop := ∀ u ∈ t.parts, ∀ d, u.element? = some d → K d

theorem Mentions.part (mentions : t.Mentions K) (within : u ∈ t.parts) : u.Mentions K :=
  fun _ inner => mentions _ (mem_parts_trans inner within)

theorem mentions_absent : absent.Mentions K := by
  intro u within d element
  rw [mem_parts_absent.mp within] at element
  cases element

theorem mentions_param (g : GenericParam) : (param g).Mentions K := by
  intro u within d element
  rw [mem_parts_param.mp within] at element
  cases element

theorem mentions_decl (known : K d) : (decl d).Mentions K := by
  intro u within e element
  rw [mem_parts_decl.mp within] at element
  cases element
  exact known

theorem mentions_applied (known : K d) (each : ∀ a ∈ args, a.Mentions K) : (applied d args).Mentions K := by
  intro u within e element
  rcases mem_parts_applied.mp within with rfl | ⟨a,member,inner⟩
  · cases element
    exact known
  · exact each a member u inner e element

theorem Mentions.element (mentions : t.Mentions K) (element : t.element? = some d) : K d :=
  mentions t (mem_parts_self t) d element

theorem Mentions.argument {a : TypeRef} (mentions : (applied d args).Mentions K) (member : a ∈ args) : a.Mentions K :=
  mentions.part (mem_parts_applied.mpr (.inr ⟨a,member,mem_parts_self a⟩))

theorem Mentions.mapParams {f : GenericParam → TypeRef} (mentions : t.Mentions K)
    (images : ∀ g, .param g ∈ t.parts → (f g).Mentions K) : (t.mapParams f).Mentions K := by
  intro u within d element
  rcases mem_parts_mapParams within with ⟨v,inner,shape,rfl⟩ | ⟨g,inner,within⟩
  · refine mentions v inner d ?_
    cases v with
    | param g => exact absurd rfl (shape g)
    | absent => exact element
    | decl e => exact element
    | applied e args =>
      rw [mapParams_applied] at element
      exact element
  · exact images g inner u within d element

end TypeRef

variable {K : TypeId → Prop} {n : Nat} {p q : Program}

theorem Program.mentions_redirect {family : List Scope} (produced : ∀ s ∈ family, K s.produced) {r : TypeRef}
    (mentions : t.Mentions K) (done : p.redirect family t = .ok r) : r.Mentions K := by
  induction t generalizing r with
  | absent => cases done; exact mentions
  | decl d => cases done; exact mentions
  | param g => cases done; exact mentions
  | applied d args ih =>
    rw [redirect] at done
    obtain ⟨rs,inner,outer⟩ := bind_eq_ok.mp done
    have deeper : ∀ a ∈ rs, a.Mentions K := by
      intro a member
      obtain ⟨b,among,done⟩ := left_of_forall₂ (redirectList_eq_ok.mp inner) member
      exact ih b among (mentions.argument among) done
    rcases redirectApplied_eq_ok outer with ⟨rfl,-⟩ | ⟨s,member,rfl,replaced⟩
    · exact mentions_applied (mentions.element rfl) deeper
    · rcases replaced.result with rfl | ⟨-,rfl⟩
      · exact mentions_applied (produced s member) fun a among => deeper a (mem_of_mem_tail among)
      · exact mentions_decl (produced s member)

theorem CloneSite.Stands.type_mentions {site : CloneSite} {s : Scope} {t' : TypeRef} (stands : site.Stands p n s)
    (target : s.target.Mentions K) (produced : ∀ c ∈ site.family, K c.produced)
    (formed : p.MaybeFormed (site.sourceScope p s) t) (mentions : t.Mentions K) (done : site.type p t = .ok t') :
    t'.Mentions K := by
  obtain ⟨r,redirected,rfl⟩ := type_eq_ok.mp done
  have resolved : (Scope.resolve site.chain t).Mentions K := by
    refine mentions.mapParams fun g within => ?_
    rcases mem_sourceScope (formed.param_mem within) with ⟨name,rfl⟩ | ⟨k,name,rfl,-⟩ | ⟨m,c,k,name,-,rfl,-⟩
    · rw [stands.resolve_first]
      exact target
    · rw [resolve_trailing]
      exact mentions_param _
    · rw [resolve_method]
      exact mentions_param _
  refine (mentions_redirect produced resolved redirected).mapParams fun g _ => ?_
  obtain ⟨h,-,move,-⟩ := site.move_bare p (rfl : g.bare = g.bare)
  rw [move]
  exact mentions_param h

def Operand.Worded : Operand → Prop
  | .int _ => True
  | o => o.Plain

/-- The instruction has an operation that documents have, plain names, and mentions given types only. -/
structure Instruction.Traced (K : TypeId → Prop) (i : Instruction) : Prop where
  known : i.opcode ∈ Opcode.all
  mentions : ∀ u ∈ i.operand.refs, u.Mentions K
  worded : i.operand.Worded

structure MethodDecl.Traced (K : TypeId → Prop) (m : MethodDecl) : Prop where
  worded : Text.isWord m.name = true
  special : m.name = ".ctor" → m.flags.has .isSpecialName = true
  returns : m.returns.Mentions K
  params : ∀ u ∈ m.paramTypes, u.Mentions K

structure Attribute.Traced (K : TypeId → Prop) (a : Attribute) : Prop where
  type : K a.type
  types : ∀ u, .type u ∈ a.args → u.Mentions K
  numbers : ∀ n : Int, .int n ∈ a.args → -0x8000000000000000 ≤ n ∧ n < 0x8000000000000000

structure FieldDecl.Traced (K : TypeId → Prop) (f : FieldDecl) : Prop where
  worded : Text.isWord f.name = true
  type : f.type.Mentions K

structure TypeDecl.Traced (K : TypeId → Prop) (d : TypeDecl) : Prop where
  base : d.base.Mentions K
  interfaces : ∀ u ∈ d.interfaces, u.Mentions K
  fields : ∀ f ∈ d.fields, f.Traced K
  attributes : ∀ a ∈ d.attributes, a.Traced K
  methods : ∀ m ∈ d.methods, m.Traced K

structure Program.BodyTraced (K : TypeId → Prop) (p : Program) (b : Body) : Prop where
  locals : ∀ u ∈ b.locals, u.Mentions K
  code : ∀ i ∈ b.code, (p.instructionAt i).Traced K

/-- The types from a point on mention given types only, and their names are plain. -/
structure Program.Traced (n : Nat) (K : TypeId → Prop) (p : Program) : Prop where
  types : ∀ t : TypeId, n ≤ t.index → (p.typeAt t).Traced K
  bodies : ∀ m b, n ≤ m.owner.index → (p.methodAt m).body = some b → p.BodyTraced K b

theorem MethodDecl.traced_default : (default : MethodDecl).Traced K where
  worded := rfl
  special named := absurd named (by decide)
  returns := mentions_absent
  params _ member := by cases member

theorem TypeDecl.traced_default : (default : TypeDecl).Traced K where
  base := mentions_absent
  interfaces _ member := by cases member
  fields _ member := by cases member
  attributes _ member := by cases member
  methods _ member := by cases member

theorem TypeDecl.Traced.of_signature {d e : TypeDecl} (traced : d.Traced K) (same : e.signature = d.signature) :
    e.Traced K where
  base := congrArg TypeDecl.base same ▸ traced.base
  interfaces := congrArg TypeDecl.interfaces same ▸ traced.interfaces
  fields := congrArg TypeDecl.fields same ▸ traced.fields
  attributes := congrArg TypeDecl.attributes same ▸ traced.attributes
  methods m member := by
    have listed : m.signature ∈ d.signature.methods := same ▸ mem_map_of_mem member
    obtain ⟨m₀,member₀,alike⟩ := mem_map.mp listed
    obtain ⟨worded,special,returns,params⟩ := traced.methods m₀ member₀
    exact {
      worded := congrArg MethodDecl.name alike ▸ worded
      special := congrArg MethodDecl.name alike ▸ congrArg MethodDecl.flags alike ▸ special
      returns := congrArg MethodDecl.returns alike ▸ returns
      params := congrArg MethodDecl.paramTypes alike ▸ params }

theorem Program.Traced.method (traced : p.Traced n K) {m : MethodId} (own : n ≤ m.owner.index) : (p.methodAt m).Traced K := by
  rw [methodAt]
  cases at_ : (p.typeAt m.owner).methods[m.position]? with
  | none => exact MethodDecl.traced_default
  | some d => exact (traced.types m.owner own).methods d (mem_of_getElem? at_)

theorem TypeRef.mentions_rebindParams {source : Owner} {params : List GenericParam} {returns : TypeRef} {ts : List TypeRef}
    (mentions : ∀ u ∈ returns :: ts, u.Mentions K) :
    ∀ u ∈ returns.rebindParams source params :: ts.map (rebindParams source params), u.Mentions K := by
  rw [← map_cons,forall_mem_map]
  exact fun u member => (mentions u member).mapParams fun g _ => mentions_param _

theorem MethodDecl.Traced.refOn {c : MethodId} (method : (p.methodAt c).Traced K) (mentions : t.Mentions K) (id : RefId) :
    ∀ u ∈ (p.refOn c t id).declaring :: (p.refOn c t id).returns :: (p.refOn c t id).params, u.Mentions K :=
  forall_mem_cons.mpr ⟨mentions,TypeRef.mentions_rebindParams (forall_mem_cons.mpr ⟨method.returns,method.params⟩)⟩

namespace Cloning

section Specialized

variable {style : CloneStyle} {home : ModuleId} {source : TypeId} {argument : TypeRef} {entry : Entry} {shells : List Shell}
  {s : Shell} {m : MethodId} {t t' : TypeRef} (specialized : Specialized style home source argument p q entry shells)
  (own : ∀ d : TypeId, n ≤ d.index → K d) (low : n ≤ p.types.size) (given : argument.Mentions K)
include specialized own low

theorem Specialized.produced_known : ∀ c ∈ familyOf argument shells, K c.produced := by
  intro c member
  obtain ⟨s,among,rfl⟩ := mem_map.mp member
  exact own _ (Nat.le_trans low (specialized.each s among).new.1)

include given

theorem Specialized.typeSite_mentions (member : s ∈ shells) (formed : p.MaybeFormed (p.typeParams s.source) t)
    (mentions : t.Mentions K) (done : (typeSite (familyOf argument shells) s).type q t = .ok t') : t'.Mentions K := by
  refine (specialized.typeSite_stands member).type_mentions given (specialized.produced_known own low) ?_ mentions done
  rw [specialized.typeSite_sourceScope member]
  exact formed.mono specialized.grown.headers

theorem Specialized.methodSite_mentions (member : s ∈ shells) (method : m ∈ p.methodsOf s.source)
    (formed : p.MaybeFormed (p.scopeOf m) t) (mentions : t.Mentions K)
    (done : (methodSite (familyOf argument shells) s m).type q t = .ok t') : t'.Mentions K := by
  refine (specialized.methodSite_stands member method).type_mentions given (specialized.produced_known own low) ?_
    mentions done
  rw [specialized.methodSite_sourceScope member method]
  exact formed.mono specialized.grown.headers

section

variable (formed : p.WellFormed)
include formed

theorem Specialized.method_traced (member : s ∈ shells) (method : m ∈ p.methodsOf s.source)
    (traced : (p.methodAt m).Traced K) : (q.methodAt ⟨s.clone,m.position⟩).Traced K := by
  have clone := specialized.each s member
  have signature := clone.signatures m method
  obtain ⟨owner,-⟩ := mem_methodsOf.mp method
  have old : m.owner.index < p.types.size := owner ▸ clone.old
  have original := (formed.types m.owner old).members.methods m rfl
  refine ⟨?_,?_,?_,?_⟩
  · rw [signature.name]
    exact traced.worded
  · rw [signature.name,signature.flags]
    exact traced.special
  · exact specialized.methodSite_mentions own low given member method original.returns traced.returns signature.returns
  · intro u among
    obtain ⟨b,member',rfl⟩ := mem_map.mp among
    obtain ⟨a,from_,-,brought⟩ := left_of_forall₂ signature.params member'
    have listed : a.type ∈ (p.methodAt m).paramTypes := mem_map_of_mem from_
    exact specialized.methodSite_mentions own low given member method (.inr (original.params _ listed))
      (traced.params _ listed) brought

theorem Specialized.type_traced (member : s ∈ shells) (traced : (p.typeAt s.source).Traced K) :
    (q.typeAt s.clone).Traced K := by
  have clone := specialized.each s member
  have original := (formed.types s.source clone.old).members
  refine ⟨?_,?_,?_,?_,?_⟩
  · exact specialized.typeSite_mentions own low given member original.base traced.base clone.base
  · intro u among
    obtain ⟨a,from_,brought⟩ := left_of_forall₂ clone.interfaces among
    exact specialized.typeSite_mentions own low given member (.inr (original.interfaces a from_)) (traced.interfaces a from_)
      brought
  · intro f among
    obtain ⟨a,from_,name,-,brought⟩ := left_of_forall₂ clone.fields among
    have before := traced.fields a from_
    refine ⟨by rw [name]; exact before.worded,?_⟩
    exact specialized.typeSite_mentions own low given member (.inr (original.fields a from_)) before.type brought
  · intro a among
    rw [clone.attributes] at among
    exact traced.attributes a (List.mem_filter.mp among).1
  · intro d among
    obtain ⟨k,at_⟩ := List.mem_iff_getElem?.mp among
    have inside : k < (p.typeAt s.source).methods.length := by
      rw [← clone.count]
      exact (List.getElem?_eq_some_iff.mp at_).1
    have method : (⟨s.source,k⟩ : MethodId) ∈ p.methodsOf s.source := mem_methodsOf.mpr ⟨rfl,inside⟩
    have here : q.methodAt ⟨s.clone,k⟩ = d := by
      rw [methodAt,at_]
      rfl
    rw [← here]
    refine specialized.method_traced own low given formed member method ?_
    exact traced.methods _ (List.mem_of_getElem? (getElem?_methodAt (m := ⟨s.source,k⟩) inside))

theorem Specialized.methodRef_mentions (member : s ∈ shells) (method : m ∈ p.methodsOf s.source)
    (traced : ∀ c ∈ shells, (p.typeAt c.source).Traced K) {d : TypeId}
    (ref : p.MethodRefFormed (p.scopeOf m) r d) (mentions : ∀ u ∈ r.declaring :: r.returns :: r.params, u.Mentions K)
    (done : (methodSite (familyOf argument shells) s m).methodRef q r = .ok r') :
    ∀ u ∈ r'.declaring :: r'.returns :: r'.params, u.Mentions K := by
  obtain ⟨declaring,brought,result⟩ := CloneSite.methodRef_eq_ok.mp done
  have through : declaring.Mentions K :=
    specialized.methodSite_mentions own low given member method (.inr ref.declaring) (mentions _ (.head _)) brought
  rcases result with ⟨e,k,c,redeclared,found,cloned,rfl⟩ | ⟨plain,rfl⟩
  · obtain ⟨s',member',within,rfl,-⟩ := specialized.clone_of_found rfl found cloned
    obtain ⟨owner,inside⟩ := mem_methodsOf.mp within
    refine MethodDecl.Traced.refOn (specialized.method_traced own low given formed member' within ?_) through _
    rw [← owner] at inside
    exact (owner ▸ traced s' member').methods _ (mem_of_getElem? (getElem?_methodAt inside))
  · exact forall_mem_cons.mpr ⟨through,TypeRef.mentions_rebindParams (forall_mem_cons.mp mentions).2⟩

theorem Specialized.operand_traced (member : s ∈ shells) (method : m ∈ p.methodsOf s.source)
    (traced : ∀ c ∈ shells, (p.typeAt c.source).Traced K) {b b' : Body}
    (operand : p.OperandFormed (p.scopeOf m) b o) (mentions : ∀ u ∈ o.refs, u.Mentions K) (worded : o.Worded)
    (cloned : (methodSite (familyOf argument shells) s m).OperandCloned q b b' o o') :
    (∀ u ∈ o'.refs, u.Mentions K) ∧ o'.Worded := by
  cases o with
  | type t =>
    obtain ⟨t',brought,⟨⟩⟩ := bind_eq_ok.mp cloned
    refine ⟨forall_mem_singleton.mpr ?_,trivial⟩
    exact specialized.methodSite_mentions own low given member method (.inr operand) (mentions t (.head _)) brought
  | method o =>
    obtain ⟨o',brought,⟨⟩⟩ := bind_eq_ok.mp cloned
    cases o with
    | plain r =>
      obtain ⟨r',moved,⟨⟩⟩ := bind_eq_ok.mp brought
      obtain ⟨d,ref⟩ := operand
      obtain ⟨-,name⟩ := specialized.methodRef_corresponds member method ref moved
      refine ⟨specialized.methodRef_mentions own low given formed member method traced ref mentions moved,?_⟩
      show r'.name ≠ "" ∧ Text.isWord r'.name = true
      rw [name]
      exact worded
    | applied r args =>
      obtain ⟨⟨d,ref⟩,-,each⟩ := operand
      obtain ⟨r',moved,applied⟩ := bind_eq_ok.mp brought
      obtain ⟨args',all,applied⟩ := bind_eq_ok.mp applied
      obtain ⟨-,rfl⟩ := MethodRef.apply_eq_ok.mp (Except.mapError_eq_ok.mp applied)
      have all := Except.mapM_eq_ok.mp all
      obtain ⟨-,name⟩ := specialized.methodRef_corresponds member method ref moved
      obtain ⟨front,back⟩ : (∀ u ∈ r.declaring :: r.returns :: r.params, u.Mentions K) ∧ ∀ u ∈ args, u.Mentions K :=
        forall_mem_append.mp mentions
      have after : ∀ u ∈ (r'.declaring :: r'.returns :: r'.params) ++ args', u.Mentions K := by
        refine forall_mem_append.mpr ⟨?_,fun u arg => ?_⟩
        · exact specialized.methodRef_mentions own low given formed member method traced ref front moved
        · obtain ⟨a,from_,brought⟩ := left_of_forall₂ all arg
          exact specialized.methodSite_mentions own low given member method (.inr (each a from_)) (back a from_) brought
      refine ⟨after,?_⟩
      obtain ⟨some_,word,filled⟩ := worded
      show r'.name ≠ "" ∧ Text.isWord r'.name = true ∧ args' ≠ []
      rw [name]
      refine ⟨some_,word,?_⟩
      rintro rfl
      cases all
      exact filled rfl
  | field f =>
    obtain ⟨f',brought,⟨⟩⟩ := bind_eq_ok.mp cloned
    obtain ⟨d,ref⟩ := operand
    obtain ⟨declaring,moved,result⟩ := CloneSite.field_eq_ok.mp brought
    have through : declaring.Mentions K :=
      specialized.methodSite_mentions own low given member method (.inr ref.declaring) (mentions _ (.head _)) moved
    rcases result with ⟨e,field,element,produced,found,rfl⟩ | ⟨-,rfl⟩
    · obtain ⟨scope,among,same⟩ := any_eq_true.mp produced
      obtain ⟨s',member',rfl⟩ := mem_map.mp among
      obtain rfl : s'.clone = e := eq_of_beq same
      have type := specialized.type_traced own low given formed member' (traced s' member')
      refine ⟨?_,worded⟩
      simp only [Operand.refs,forall_mem_cons]
      exact ⟨through,(type.fields field (mem_of_find?_eq_some found)).type,forall_mem_nil _⟩
    · refine ⟨?_,worded⟩
      simp only [Operand.refs,forall_mem_cons]
      exact ⟨through,mentions _ (.tail _ (.head _)),forall_mem_nil _⟩
  | branch target =>
    obtain ⟨j,i,-,-,rfl⟩ := cloned
    exact ⟨forall_mem_nil _,trivial⟩
  | none => cases cloned; exact ⟨mentions,worded⟩
  | int k => cases cloned; exact ⟨mentions,worded⟩
  | text t => cases cloned; exact ⟨mentions,worded⟩

theorem Specialized.traced (sources : ∀ s ∈ shells, n ≤ s.source.index) (traced : p.Traced n K) : q.Traced n K := by
  have types : ∀ c ∈ shells, (p.typeAt c.source).Traced K := fun c among => traced.types _ (sources c among)
  constructor
  · intro t new
    by_cases old : t.index < p.types.size
    · rw [specialized.grown.typeAt_eq old]
      exact traced.types t new
    · by_cases inside : t.index < q.types.size
      · obtain ⟨s,member,rfl⟩ := specialized.exists_clone (Nat.le_of_not_lt old) inside
        exact specialized.type_traced own low given formed member (types s member)
      · rw [typeAt_of_le (Nat.le_of_not_lt inside)]
        exact TypeDecl.traced_default
  · intro m b' new body
    by_cases old : m.owner.index < p.types.size
    · rw [specialized.grown.methodAt_eq old] at body
      obtain ⟨locals,code⟩ := traced.bodies m b' new body
      refine ⟨locals,fun i among => ?_⟩
      rw [specialized.grown.code.instruction_eq i ((formed.body body).inside i among)]
      exact code i among
    · obtain ⟨s,member,clone⟩ := specialized.exists_clone (Nat.le_of_not_lt old) (owner_lt_of_body body)
      obtain ⟨o,k⟩ := m
      obtain rfl : s.clone = o := clone
      have each := specialized.each s member
      have inside : k < (p.typeAt s.source).methods.length := by
        rw [← each.count]
        exact position_lt_of_body body
      have method : (⟨s.source,k⟩ : MethodId) ∈ p.methodsOf s.source := mem_methodsOf.mpr ⟨rfl,inside⟩
      cases each.bodies _ method with
      | bodiless bare none => rw [none] at body; cases body
      | @bodied b e concrete before after cloned =>
        obtain rfl : b' = e := Option.some.inj (body.symm.trans after)
        rw [specialized.grown.methodAt_eq each.old] at before
        have whole := formed.body before
        obtain ⟨locals,code⟩ := traced.bodies _ b (sources s member) before
        refine ⟨fun u among => ?_,fun i' among => ?_⟩
        · obtain ⟨a,from_,brought⟩ := left_of_forall₂ cloned.locals among
          exact specialized.methodSite_mentions own low given member method (.inr (whole.locals a from_)) (locals a from_)
            brought
        · obtain ⟨i,from_,opcode,operand⟩ := left_of_forall₂ cloned.code among
          rw [specialized.grown.code.instruction_eq i (whole.inside i from_)] at opcode operand
          obtain ⟨known,mentions,worded⟩ := code i from_
          obtain ⟨mentions',worded'⟩ := specialized.operand_traced own low given formed member method types
            (whole.operands i from_) mentions worded operand
          exact ⟨by rw [opcode]; exact known,mentions',worded'⟩

end

end Specialized
end Cloning

/-- The clone of an entry is new, and its methods are named as the methods that they are recorded for. -/
structure Entry.Traced (n : Nat) (p : Program) (e : Entry) : Prop where
  own : n ≤ e.specialized.index
  named : ∀ m c, e.method? m = some c → m.owner.index < p.types.size ∧ (p.methodAt c).name = (p.methodAt m).name

theorem Entry.Traced.mono {e : Entry} (kept : Keeps TypeDecl.signature p q) (stands : e.Stands p) (traced : e.Traced n p) :
    e.Traced n q where
  own := traced.own
  named m c recorded := by
    obtain ⟨inside,name⟩ := traced.named m c recorded
    have owner := (mem_methodsOf.mp (stands.methods m c recorded)).1
    have declared : c.owner.index < p.types.size := owner ▸ stands.declared
    refine ⟨Nat.lt_of_lt_of_le inside kept.size_le,?_⟩
    rw [kept.method_eq declared MethodDecl.name fun _ => rfl,kept.method_eq inside MethodDecl.name fun _ => rfl]
    exact name

theorem Cloning.Specialized.entry_traced {style : CloneStyle} {home : ModuleId} {source : TypeId} {argument : TypeRef}
    {entry e : Entry} {shells : List Shell} (specialized : Specialized style home source argument p q entry shells)
    (low : n ≤ p.types.size) (member : e ∈ entry.flatten) : e.Traced n q := by
  obtain ⟨s,among,record⟩ := right_of_forall₂ specialized.records member
  have clone := specialized.each s among
  constructor
  · rw [record.specialized]
    exact Nat.le_trans low clone.new.1
  · intro m c recorded
    obtain ⟨method,rfl⟩ := record.method?_eq_some.mp recorded
    obtain ⟨owner,-⟩ := mem_methodsOf.mp method
    have old : m.owner.index < p.types.size := owner ▸ clone.old
    refine ⟨Nat.lt_of_lt_of_le old specialized.grown.types.size_le,?_⟩
    rw [(clone.signatures m method).name,specialized.grown.methodAt_eq old]

namespace SealedRegistry

variable {s : SealedRegistry} {t t' : TypeRef}

theorem TypeInjected.known (clones : ∀ e ∈ s.flat, K e.specialized) (injected : TypeInjected s p t (some c)) : K c := by
  cases injected with
  | replaced shape answer => exact clones _ (lookup_eq_some answer).1

theorem TypeRewired.mentions (clones : ∀ e ∈ s.flat, K e.specialized) (mentions : t.Mentions K)
    (rewired : TypeRewired s p t t') : t'.Mentions K := by
  obtain ⟨r,injected,rfl⟩ := rewired
  cases r with
  | none => exact mentions
  | some c => exact mentions_decl (injected.known clones)

theorem Carries.mentions {trailing : List TypeRef} (known : K c) (each : ∀ a ∈ trailing, a.Mentions K)
    (carries : Carries p c trailing t) : t.Mentions K := by
  cases carries with
  | plain => exact mentions_decl known
  | applied => exact mentions_applied known each

section Operands

variable (own : ∀ d : TypeId, n ≤ d.index → K d) (traced : p.Traced n K) (fits : s.Fits p) (entries : ∀ e ∈ s.flat, e.Traced n p)
include own traced fits entries

theorem MethodInjected.ref_traced (mentions : r.declaring.Mentions K) (named : r.name ≠ "")
    (injected : MethodInjected s p r (some r')) :
    (∀ u ∈ r'.declaring :: r'.returns :: r'.params, u.Mentions K) ∧ r'.name ≠ "" ∧ Text.isWord r'.name = true := by
  cases injected with
  | @replaced d first trailing m c e t declaring found answer carries =>
    obtain ⟨flat,-,recorded⟩ := lookupMethod_eq_some answer
    have entry := entries e flat
    have owner := (mem_methodsOf.mp ((fits e flat).methods m c recorded)).1
    have method : (p.methodAt c).Traced K := traced.method (owner ▸ entry.own)
    have through : t.Mentions K := by
      refine carries.mentions (own _ entry.own) fun a among => ?_
      rw [declaring] at mentions
      exact mentions.argument (.tail _ among)
    refine ⟨method.refOn through _,?_,method.worded⟩
    show (p.methodAt c).name ≠ ""
    rw [(entry.named m c recorded).2,(findMethod?_eq_some found).2.1]
    exact named

theorem OperandRewired.operand_traced (mentions : ∀ u ∈ o.refs, u.Mentions K) (worded : o.Worded)
    (rewired : OperandRewired s p o o') : (∀ u ∈ o'.refs, u.Mentions K) ∧ o'.Worded := by
  have clones : ∀ e ∈ s.flat, K e.specialized := fun e flat => own _ (entries e flat).own
  cases o with
  | type t =>
    obtain ⟨t',rfl,rewired⟩ := rewired
    exact ⟨forall_mem_singleton.mpr (rewired.mentions clones (mentions t (.head _))),trivial⟩
  | method m =>
    obtain ⟨m',rfl,rewired⟩ := rewired
    cases rewired with
    | kept => exact ⟨mentions,worded⟩
    | plain injected => exact injected.ref_traced own traced fits entries (mentions _ (.head _)) worded.1
    | @applied r r' args args' injected each count =>
      obtain ⟨named,-,filled⟩ := worded
      obtain ⟨front,named',word'⟩ := injected.ref_traced own traced fits entries (mentions _ (.head _)) named
      have after : ∀ u ∈ (r'.declaring :: r'.returns :: r'.params) ++ args', u.Mentions K := by
        refine forall_mem_append.mpr ⟨front,fun u arg => ?_⟩
        obtain ⟨a,from_,rewired⟩ := left_of_forall₂ each arg
        exact rewired.mentions clones (mentions a (mem_append_right (r.declaring :: r.returns :: r.params) from_))
      refine ⟨after,named',word',?_⟩
      rintro rfl
      cases each
      exact filled rfl
  | field f =>
    obtain ⟨f',rfl,rewired⟩ := rewired
    cases rewired with
    | kept => exact ⟨mentions,worded⟩
    | @replaced c d injected found =>
      have known : n ≤ c.index := by
        cases injected with
        | replaced shape answer => exact (entries _ (lookup_eq_some answer).1).own
      have field := (traced.types c known).fields d (mem_of_find?_eq_some found)
      refine ⟨?_,worded⟩
      simp only [Operand.refs,forall_mem_cons]
      exact ⟨mentions_decl (own c known),field.type,forall_mem_nil _⟩
  | _ =>
    obtain rfl := rewired
    exact ⟨mentions,worded⟩

end Operands
end SealedRegistry

theorem Injection.Injected.traced {s : SealedRegistry} {ms : List MethodId} (injected : Injected s ms p q)
    (own : ∀ d : TypeId, n ≤ d.index → K d) (fits : s.Fits p) (entries : ∀ e ∈ s.flat, e.Traced n p) (traced : p.Traced n K) :
    q.Traced n K where
  types t new := (traced.types t new).of_signature (injected.agree.view_eq t)
  bodies m b' new body := by
    cases before : (p.methodAt m).body with
    | none =>
      rw [injected.bodiless m before] at body
      cases body
    | some b =>
      obtain ⟨locals,code⟩ := traced.bodies m b new before
      have instruction (i : InstructionId) (among : i ∈ b.code) : (q.instructionAt i).Traced K := by
        obtain ⟨known,mentions,worded⟩ := code i among
        by_cases within : Within p ms i
        · obtain ⟨mentions',worded'⟩ := SealedRegistry.OperandRewired.operand_traced own traced fits entries mentions worded
            (injected.rewired i within)
          exact ⟨by rw [injected.opcode_eq]; exact known,mentions',worded'⟩
        · rw [injected.untouched i within]
          exact code i among
      by_cases member : m ∈ ms
      · obtain ⟨locals',after,each⟩ := injected.body m member b before
        obtain rfl := Option.some.inj (body.symm.trans after)
        refine ⟨fun u among => ?_,instruction⟩
        obtain ⟨a,from_,rewired⟩ := left_of_forall₂ each among
        exact rewired.mentions (fun e flat => own _ (entries e flat).own) (locals a from_)
      · rw [injected.others m member,before] at body
        obtain rfl := Option.some.inj body
        exact ⟨locals,instruction⟩

theorem Instruction.Traced.divert (traced : ins.Traced K) (run : List InstructionId)
    (start : InstructionId) : (ins.divert run start).Traced K := by
  rw [divert.eq_def]
  split
  · split
    · exact ⟨traced.known,forall_mem_nil _,trivial⟩
    · exact traced
  · exact traced

namespace Resolver

variable {m : MethodId} {b : Body} {pre post : List InstructionId} {i : InstructionId} {t : TypeId} {id : RefId}

theorem Supplies.traced (own : ∀ d : TypeId, n ≤ d.index → K d) (traced : p.Traced n K)
    (new : n ≤ t.index) (supplies : Supplies p t id ins) : ins.Traced K := by
  have type : ∀ u ∈ [TypeRef.decl t], u.Mentions K := forall_mem_singleton.mpr (TypeRef.mentions_decl (own t new))
  cases supplies with
  | @construct params c found =>
    have listed := (mem_filter.mp (mem_of_find?_eq_some found))
    have owner := (mem_methodsOf.mp listed.1).1
    have method : (p.methodAt c).Traced K := traced.method (owner ▸ new)
    refine ⟨(by decide : Opcode.newObject ∈ Opcode.all),method.refOn (TypeRef.mentions_decl (own t new)) id,?_,
      method.worded⟩
    show (p.methodAt c).name ≠ ""
    rw [eq_of_beq listed.2]
    decide
  | clear => exact ⟨(by decide : Opcode.initObject ∈ Opcode.all),type,trivial⟩
  | box => exact ⟨(by decide : Opcode.box ∈ Opcode.all),type,trivial⟩
  | address => exact ⟨(by decide : Opcode.loadLocalAddress ∈ Opcode.all),forall_mem_nil _,trivial⟩
  | load => exact ⟨(by decide : Opcode.loadLocal ∈ Opcode.all),forall_mem_nil _,trivial⟩

theorem Supplied.traced {argument : TypeRef} {form : Bool} (supplied : Supplied m b pre i post t argument form id p q)
    (formed : p.WellFormed) (body : (p.methodAt m).body = some b) (code : b.code = pre ++ i :: post)
    (own : ∀ d : TypeId, n ≤ d.index → K d) (new : n ≤ t.index) (traced : p.Traced n K) : q.Traced n K := by
  obtain @⟨b',x,early,dropped,added,block,rebodied,same,locals,-,cut,spliced,sequence⟩ := supplied
  have agree := rebodied.agree.trans spliced.agree
  have before (j : InstructionId) : x.instructionAt j = p.instructionAt j := by
    rw [Program.instructionAt,Program.instructionAt,rebodied.code_eq]
  refine ⟨fun t new => (traced.types t new).of_signature (agree.view_eq t),fun m' c new body' => ?_⟩
  by_cases here : m' = m
  · subst here
    obtain rfl := Option.some.inj (body'.symm.trans spliced.body)
    obtain ⟨oldLocals,oldCode⟩ := traced.bodies m' b new body
    refine ⟨fun u member => ?_,fun j member => ?_⟩
    · have member : u ∈ b'.locals := member
      rw [locals] at member
      rcases mem_append.mp member with old | new
      · exact oldLocals u old
      · rw [sequence.new_eq u new]
        exact TypeRef.mentions_decl (own t ‹_›)
    · by_cases kept : j ∈ early ++ post
      · rw [spliced.kept j kept,before]
        refine (oldCode j ?_).divert _ _
        rw [code,cut]
        rcases mem_append.mp kept with front | back
        · simp [front]
        · simp [back]
      · have inside : j ∈ Program.block x.code.size block.length := by
          have member : j ∈ early ++ Program.block x.code.size block.length ++ post := member
          simp only [mem_append] at member kept
          tauto
        exact (sequence.supplies _ (spliced.mem_of_block inside)).traced own traced ‹_›
  · rw [spliced.others m' here,rebodied.others m' here] at body'
    obtain ⟨oldLocals,oldCode⟩ := traced.bodies m' c new body'
    refine ⟨oldLocals,fun j member => ?_⟩
    have whole := formed.body body'
    rw [spliced.untouched j ?_ ?_,before]
    · exact oldCode j member
    · rw [rebodied.code_eq]
      exact whole.inside j member
    · intro among
      refine here (formed.separate m' m c b body' body j member ?_)
      rw [code,cut]
      simpa [or_assoc] using among

end Resolver

end Loom
