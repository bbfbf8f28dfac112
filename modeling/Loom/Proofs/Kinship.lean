import Loom.Proofs.Refilling

/-!
Reading in two programs. Where every name finds types with the same parameters, a text that can be read in one program
can be read in the other and is written alike; where those types have the same members, so can methods, fields and
instructions.
-/
namespace Loom

open List Program TypeRef TypeDecl
open Text (trim)
open Text.Brackets (split cut applications)
open Loom.Except (bind_eq_ok mapError_eq_ok mapM_eq_ok map_eq_ok)
open AttributeArg (written written_of_names)
open Document (spelling_of_declares)

variable {α β γ : Type} {args others : List TypeRef} {p' q' : Program} {t : TypeRef} {name : String} {text : List Char}

/-- References of two programs that are written alike. A parameter goes by the same name. -/
structure TypeRef.Alike (p q : Program) (t u : TypeRef) : Prop where
  spelled : u.spelling q = t.spelling p
  named : ∀ g h, t = .param g → u = .param h → h.name = g.name

/-- What a parameter is apart from its owner. -/
def GenericParam.form (g : GenericParam) : Bool × Nat × String := (g.isMethod,g.position,g.name)

structure ParamScope.Alike (scope other : ParamScope) : Prop where
  typeParams : other.typeParams.map GenericParam.form = scope.typeParams.map GenericParam.form
  methodParams : other.methodParams.map GenericParam.form = scope.methodParams.map GenericParam.form

theorem GenericParam.map_form_declare {a b : Owner} (kind : a.isMethod = b.isMethod) (names : List String) :
    (declare a names).map form = (declare b names).map form := by
  rw [declare,declare,map_map,map_map]
  refine map_congr_left fun x _ => ?_
  simp [form,isMethod,kind]

namespace Program

variable {p q : Program} {home : ModuleId} {scope other : ParamScope}
variable {d e : MethodDecl} {r s : MethodRef}

/-- Every name finds a type in both programs, with parameters of the same names, or in neither. -/
structure Kin (home : ModuleId) (p q : Program) : Prop where
  found : ∀ name d, p.findType? home name = some d →
    ∃ e, q.findType? home name = some e ∧ (q.typeAt e).generics = (p.typeAt d).generics
  missing : ∀ name, p.findType? home name = none → q.findType? home name = none

theorem alike_decl {d e : TypeId} (names : q.fullName e = p.fullName d) : Alike p q (.decl d) (.decl e) :=
  ⟨by rw [spelling,spelling,names],by rintro _ _ ⟨⟩⟩

theorem paramAt?_alike {params others : List GenericParam} {digits : List Char}
    (same : others.map GenericParam.form = params.map GenericParam.form) (found : paramAt? params digits = some t) :
    ∃ u, paramAt? others digits = some u ∧ t.Alike p q u := by
  rw [paramAt?] at found
  split at found
  · next n parsed =>
    split at found
    · cases found
    · next positive =>
      obtain ⟨g,at_,rfl⟩ := Option.map_eq_some_iff.mp found
      have place : (others.map GenericParam.form)[n.toNat]? = some g.form := by rw [same,getElem?_map,at_]; rfl
      rw [getElem?_map] at place
      obtain ⟨h,there,form⟩ := Option.map_eq_some_iff.mp place
      rw [GenericParam.form,GenericParam.form,Prod.mk.injEq,Prod.mk.injEq] at form
      obtain ⟨method,position,name⟩ := form
      refine ⟨.param h,?_,?_,?_⟩
      · rw [paramAt?,parsed]
        simp only
        rw [if_neg positive,there]
        rfl
      · rw [spelling,spelling,method,position]
      · rintro _ _ ⟨⟩ ⟨⟩
        exact name
  · cases found

theorem alike_applied {d e : TypeId} (names : q.fullName e = p.fullName d)
    (each : Forall₂ (Alike p q) args others) : Alike p q (.applied d args) (.applied e others) := by
  refine ⟨?_,by rintro _ _ ⟨⟩⟩
  rw [spelling,spelling,spellings_eq,spellings_eq,names,
    map_eq_of_forall₂ (each.imp fun _ _ alike => alike.spelled)]

theorem fullName_eq_of_findType? {d e : TypeId} (first : p.findType? home name = some d)
    (second : q.findType? home name = some e) : q.fullName e = p.fullName d := by
  rw [fullName_of_findType? first,fullName_of_findType? second]

theorem exists_reads {F : α → β → Prop} {G : α → γ → Prop} {R : β → γ → Prop} {xs : List α}
    {ys : List β} (read : Forall₂ F xs ys) (each : ∀ x y, F x y → ∃ z, G x z ∧ R y z) :
    ∃ zs, Forall₂ G xs zs ∧ Forall₂ R ys zs := by
  induction read with
  | nil => exact ⟨[],.nil,.nil⟩
  | cons first _ ih =>
    obtain ⟨z,there,alike⟩ := each _ _ first
    obtain ⟨zs,others,rest⟩ := ih
    exact ⟨z :: zs,.cons there others,.cons alike rest⟩

namespace Kin

variable (kin : Kin home p q)
include kin

theorem generics {d e : TypeId} (first : p.findType? home name = some d)
    (second : q.findType? home name = some e) : (q.typeAt e).generics = (p.typeAt d).generics := by
  obtain ⟨other,there,same⟩ := kin.found name d first
  rw [second] at there
  cases there
  exact same

omit kin in
theorem of_agree (kin : Kin home p q) (agree : Agree header p p') (modules : p'.modules = p.modules)
    (agree' : Agree header q q') (modules' : q'.modules = q.modules) : Kin home p' q' := by
  refine ⟨fun name d found => ?_,fun name missing => ?_⟩
  · rw [agree.findType?_eq modules] at found
    rw [agree'.findType?_eq modules',agree.generics_eq]
    obtain ⟨e,there,same⟩ := kin.found name d found
    exact ⟨e,there,by rw [agree'.generics_eq,same]⟩
  · rw [agree.findType?_eq modules] at missing
    rw [agree'.findType?_eq modules']
    exact kin.missing name missing

theorem application (candidates : List (List Char × List Char)) :
    (candidates.findSome? (fun c => (p.findType? home (String.ofList c.1)).map (·,c.2)) = none ∧
      candidates.findSome? (fun c => (q.findType? home (String.ofList c.1)).map (·,c.2)) = none) ∨
    ∃ name d e inner, p.findType? home name = some d ∧ q.findType? home name = some e ∧
      candidates.findSome? (fun c => (p.findType? home (String.ofList c.1)).map (·,c.2)) = some (d,inner) ∧
      candidates.findSome? (fun c => (q.findType? home (String.ofList c.1)).map (·,c.2)) = some (e,inner) := by
  induction candidates with
  | nil => exact .inl ⟨rfl,rfl⟩
  | cons c rest ih =>
    simp only [findSome?_cons]
    cases found : p.findType? home (String.ofList c.1) with
    | none =>
      rw [kin.missing _ found]
      exact ih
    | some d =>
      obtain ⟨e,there,-⟩ := kin.found _ d found
      rw [there]
      exact .inr ⟨_,d,e,c.2,found,there,rfl,rfl⟩

theorem readTypeName {d : TypeId} (read : p.readTypeName home text = .ok d) :
    ∃ e, q.readTypeName home text = .ok e ∧ q.fullName e = p.fullName d := by
  rw [Program.readTypeName] at read ⊢
  split at read
  · next found =>
    cases read
    obtain ⟨e,there,-⟩ := kin.found _ d found
    rw [there]
    exact ⟨e,rfl,fullName_eq_of_findType? found there⟩
  · cases read

theorem readTypeWithin (alike : scope.Alike other) {n : Nat} (read : p.readTypeWithin home scope n text = .ok t) :
    ∃ u, q.readTypeWithin home other n text = .ok u ∧ t.Alike p q u := by
  induction n generalizing text t with
  | zero => cases read
  | succ n ih =>
    rw [readTypeWithin] at read ⊢
    split at read
    · cases read
    · split at read
      · next found =>
        cases read
        obtain ⟨u,there,alike⟩ := paramAt?_alike (p := p) (q := q) alike.methodParams found
        rw [there]
        exact ⟨u,rfl,alike⟩
      · cases read
    · split at read
      · next found =>
        cases read
        obtain ⟨u,there,alike⟩ := paramAt?_alike (p := p) (q := q) alike.typeParams found
        rw [there]
        exact ⟨u,rfl,alike⟩
      · cases read
    · split at read
      · next found =>
        cases read
        obtain ⟨e,there,-⟩ := kin.found _ _ found
        rw [there]
        exact ⟨_,rfl,alike_decl (fullName_eq_of_findType? found there)⟩
      · next absent =>
        rw [kin.missing _ absent]
        simp only at read ⊢
        rcases kin.application (applications (trim text)) with
          ⟨here,there⟩ | ⟨name,d,e,inner,first,second,here,there⟩
        · rw [here] at read
          rw [there]
          obtain ⟨d,named,rfl⟩ := map_eq_ok.mp read
          obtain ⟨e,again,names⟩ := kin.readTypeName named
          exact ⟨.decl e,map_eq_ok.mpr ⟨e,again,rfl⟩,alike_decl names⟩
        · rw [here] at read
          rw [there]
          simp only at read ⊢
          split at read
          · cases read
          · obtain ⟨args,each,read⟩ := bind_eq_ok.mp read
            obtain ⟨count,rfl⟩ := applyType_eq_ok.mp (mapError_eq_ok.mp read)
            obtain ⟨others,again,both⟩ := exists_reads (mapM_eq_ok.mp each) fun part a read => ih read
            refine ⟨.applied e others,bind_eq_ok.mpr ⟨others,mapM_eq_ok.mpr again,?_⟩,
              alike_applied (fullName_eq_of_findType? first second) both⟩
            refine mapError_eq_ok.mpr (applyType_eq_ok.mpr ⟨?_,rfl⟩)
            rw [kin.generics first second,← both.length_eq]
            exact count

theorem readType (alike : scope.Alike other) (read : p.readType home scope text = .ok t) :
    ∃ u, q.readType home other text = .ok u ∧ t.Alike p q u :=
  kin.readTypeWithin alike read

theorem typeParams {d e : TypeId} (first : p.findType? home name = some d) (second : q.findType? home name = some e) :
    (q.typeParams e).map GenericParam.form = (p.typeParams d).map GenericParam.form := by
  rw [Program.typeParams,Program.typeParams,kin.generics first second]
  exact GenericParam.map_form_declare (a := .type e) (b := .type d) rfl _

theorem readAttributeArg {s : String} {a : AttributeArg} (read : p.readAttributeArg home s = .ok a) :
    ∃ b, q.readAttributeArg home s = .ok b ∧ b.written q = a.written p := by
  have literal : ∀ {text : List Char}, readLiteral text = .ok a → ∃ b, readLiteral text = .ok b ∧ b.written q = a.written p := by
    intro text read
    refine ⟨a,read,?_⟩
    cases a with
    | type t => exact absurd read (readLiteral_ne_type text t)
    | _ => rfl
  rw [Program.readAttributeArg] at read ⊢
  split at read
  · split at read
    · obtain ⟨t,typeRead,rfl⟩ := map_eq_ok.mp read
      have scopes : ParamScope.Alike {} {} := ⟨rfl,rfl⟩
      obtain ⟨u,there,alike⟩ := kin.readType scopes typeRead
      next close =>
      rw [if_pos close]
      exact ⟨.type u,map_eq_ok.mpr ⟨u,there,rfl⟩,by
        rw [written,written,text_congr alike.spelled]⟩
    · next open_ =>
      rw [if_neg open_]
      exact literal read
  · exact literal read

end Kin

/-- Methods of two programs whose signatures are written alike. -/
structure TwinMethods (p q : Program) (d e : MethodDecl) : Prop where
  name : e.name = d.name
  flags : e.flags = d.flags
  generics : e.generics = d.generics
  native : e.native = d.native
  returns : e.returns.spelling q = d.returns.spelling p
  params : (e.params.map fun x => (x.name,x.type.spelling q)) = d.params.map fun x => (x.name,x.type.spelling p)

/-- Types of two programs whose members are written alike, apart from bodies. -/
structure TwinTypes (p q : Program) (d e : TypeDecl) : Prop where
  flags : e.flags = d.flags
  generics : e.generics = d.generics
  base : e.base.spelling q = d.base.spelling p
  interfaces : e.interfaces.map (·.spelling q) = d.interfaces.map (·.spelling p)
  attributes : (e.attributes.map fun a => (q.fullName a.type,a.args.map (·.written q))) =
    d.attributes.map fun a => (p.fullName a.type,a.args.map (·.written p))
  fields : (e.fields.map fun f => (f.name,f.type.spelling q,f.isStatic)) =
    d.fields.map fun f => (f.name,f.type.spelling p,f.isStatic)
  methods : List.Forall₂ (TwinMethods p q) d.methods e.methods

theorem TwinMethods.of_signature (names : q.fullName = p.fullName) (same : e.signature = d.signature) :
    TwinMethods p q d e := by
  have part {α : Type} (view : MethodDecl → α) (blind : ∀ m : MethodDecl, view m.signature = view m) : view e = view d := by
    rw [← blind e,same,blind]
  refine ⟨part _ fun _ => rfl,part _ fun _ => rfl,part _ fun _ => rfl,part _ fun _ => rfl,?_,?_⟩
  · rw [part MethodDecl.returns fun _ => rfl,spelling_of_names names]
  · simp only [part MethodDecl.params fun _ => rfl,spelling_of_names names]

theorem TwinMethods.symm (twins : TwinMethods p q d e) : TwinMethods q p e d :=
  ⟨twins.name.symm,twins.flags.symm,twins.generics.symm,twins.native.symm,twins.returns.symm,twins.params.symm⟩

theorem TwinMethods.trans {r : Program} {f : MethodDecl} (first : TwinMethods p q d e) (second : TwinMethods q r e f) :
    TwinMethods p r d f :=
  ⟨second.name.trans first.name,second.flags.trans first.flags,second.generics.trans first.generics,
    second.native.trans first.native,second.returns.trans first.returns,second.params.trans first.params⟩

theorem TwinTypes.of_agree (agree : Agree TypeDecl.signature p q) (t : TypeId) : TwinTypes p q (p.typeAt t) (q.typeAt t) := by
  have names := agree.header.fullName_eq
  have base : (q.typeAt t).base = (p.typeAt t).base := (agree.map TypeDecl.base).view_eq t
  have interfaces : (q.typeAt t).interfaces = (p.typeAt t).interfaces := (agree.map TypeDecl.interfaces).view_eq t
  have attributes : (q.typeAt t).attributes = (p.typeAt t).attributes := (agree.map TypeDecl.attributes).view_eq t
  have fields : (q.typeAt t).fields = (p.typeAt t).fields := (agree.map TypeDecl.fields).view_eq t
  have methods := congrArg TypeDecl.methods (agree.view_eq t)
  exact ⟨(agree.map TypeDecl.flags).view_eq t,agree.header.generics_eq t,by rw [spelling_of_names names,base],
    by rw [funext (spelling_of_names names),interfaces],
    by rw [names,funext (written_of_names names),attributes],
    by rw [funext (spelling_of_names names),fields],
    (forall₂_of_map_eq methods).imp fun _ _ same => .of_signature names same⟩

theorem TwinTypes.symm {d e : TypeDecl} (twins : TwinTypes p q d e) : TwinTypes q p e d :=
  ⟨twins.flags.symm,twins.generics.symm,twins.base.symm,twins.interfaces.symm,twins.attributes.symm,twins.fields.symm,
    (twins.methods.imp fun _ _ both => both.symm).flip⟩

theorem TwinTypes.trans {r : Program} {d e f : TypeDecl} (first : TwinTypes p q d e) (second : TwinTypes q r e f) :
    TwinTypes p r d f := by
  refine ⟨second.flags.trans first.flags,second.generics.trans first.generics,second.base.trans first.base,
    second.interfaces.trans first.interfaces,second.attributes.trans first.attributes,second.fields.trans first.fields,?_⟩
  refine forall₂_iff_get.mpr ⟨first.methods.length_eq.trans second.methods.length_eq,fun k here there => ?_⟩
  have between : k < e.methods.length := by rw [← first.methods.length_eq]; exact here
  exact (first.methods.get here between).trans (second.methods.get between there)

theorem TwinTypes.of_names {d e : TypeDecl} (twins : TwinTypes p q d e) (names : p'.fullName = p.fullName)
    (names' : q'.fullName = q.fullName) : TwinTypes p' q' d e := by
  have spelled := funext (spelling_of_names names)
  have spelled' := funext (spelling_of_names names')
  have written := funext (written_of_names names)
  have written' := funext (written_of_names names')
  refine ⟨twins.flags,twins.generics,?_,?_,?_,?_,twins.methods.imp fun _ _ both => ?_⟩
  · rw [spelled,spelled']; exact twins.base
  · rw [spelled,spelled']; exact twins.interfaces
  · rw [names,names',written,written']; exact twins.attributes
  · rw [spelled,spelled']; exact twins.fields
  · exact ⟨both.name,both.flags,both.generics,both.native,by rw [spelled,spelled']; exact both.returns,
      by rw [spelled,spelled']; exact both.params⟩

theorem TwinTypes.of_formed {t : TypeId} (formed : p.MembersFormed t)
    (names : ∀ u : TypeId, u.index < p.types.size → q.fullName u = p.fullName u) :
    TwinTypes p q (p.typeAt t) (p.typeAt t) := by
  have written {a : Attribute} (among : a ∈ (p.typeAt t).attributes) {x : AttributeArg} (arg : x ∈ a.args) :
      x.written q = x.written p := by
    cases x with
    | type u =>
      rw [written,written,text_congr (spelling_of_declares names (((formed.attributes a among).2 u arg).declares))]
    | _ => rfl
  refine ⟨rfl,rfl,spelling_of_declares names formed.base.declares,?_,?_,?_,?_⟩
  · exact map_congr_left fun i among => spelling_of_declares names (formed.interfaces i among).declares
  · refine map_congr_left fun a among => ?_
    rw [names _ (formed.attributes a among).1,map_congr_left fun x arg => written among arg]
  · exact map_congr_left fun f among => by rw [spelling_of_declares names (formed.fields f among).declares]
  · refine forall₂_same.mpr fun m among => ?_
    obtain ⟨k,inside,rfl⟩ := getElem_of_mem among
    have signature := formed.methods ⟨t,k⟩ rfl
    have here : p.methodAt ⟨t,k⟩ = (p.typeAt t).methods[k] := methodAt_eq_of_getElem? (getElem?_eq_getElem inside)
    refine ⟨rfl,rfl,rfl,rfl,?_,map_congr_left fun x param => ?_⟩
    · rw [← here]
      exact spelling_of_declares names signature.returns.declares
    · rw [spelling_of_declares names (signature.params x.type (by
        rw [here]
        exact mem_map_of_mem param)).declares]

theorem TwinMethods.paramTypes (twins : TwinMethods p q d e) :
    e.paramTypes.map (·.spelling q) = d.paramTypes.map (·.spelling p) := by
  have types := congrArg (map Prod.snd) twins.params
  simpa [MethodDecl.paramTypes,Function.comp_def] using types

theorem TwinTypes.method {t u : TypeId} (twins : TwinTypes p q (p.typeAt t) (q.typeAt u)) {k : Nat}
    (inside : k < (p.typeAt t).methods.length) : TwinMethods p q (p.methodAt ⟨t,k⟩) (q.methodAt ⟨u,k⟩) := by
  have there : k < (q.typeAt u).methods.length := by rw [← twins.methods.length_eq]; exact inside
  rw [methodAt_eq_of_getElem? (getElem?_eq_getElem inside),methodAt_eq_of_getElem? (getElem?_eq_getElem there)]
  exact twins.methods.get inside there

theorem TwinTypes.fieldNames {d e : TypeDecl} (twins : TwinTypes p q d e) :
    e.fields.map FieldDecl.name = d.fields.map FieldDecl.name := by
  have names := congrArg (map Prod.fst) twins.fields
  simpa [Function.comp_def] using names

/-- What a name finds has members that are written alike. -/
structure Kindred (home : ModuleId) (p q : Program) : Prop extends Kin home p q where
  twins : ∀ name d e, p.findType? home name = some d → q.findType? home name = some e →
    TwinTypes p q (p.typeAt d) (q.typeAt e)

structure RefAlike (p q : Program) (r s : MethodRef) : Prop where
  name : s.name = r.name
  declaring : s.declaring.spelling q = r.declaring.spelling p
  returns : s.returns.spelling q = r.returns.spelling p
  params : s.params.map (·.spelling q) = r.params.map (·.spelling p)
  generics : s.generics = r.generics

theorem texts_congr {ts us : List TypeRef} (same : us.map (·.spelling q) = ts.map (·.spelling p)) :
    texts q us = texts p ts := by
  have texts (x : Program) (vs : List TypeRef) : texts x vs = (vs.map (·.spelling x)).map Spelling.text := by
    rw [texts_eq,map_map]
    exact map_congr_left fun v _ => text_eq_spelling x v
  rw [texts,texts,same]

theorem RefAlike.operandText (alike : RefAlike p q r s) :
    q.operandText (.method (.plain s)) = p.operandText (.method (.plain r)) := by
  rw [Program.operandText,Program.operandText,MethodOperand.text,MethodOperand.text,MethodRef.text,MethodRef.text]
  simp only [alike.name,alike.generics,TypeRef.signatureText_congr alike.returns,
    TypeRef.signatureText_congr alike.declaring,texts_congr alike.params]

theorem RefAlike.operandText_applied (alike : RefAlike p q r s)
    (same : others.map (·.spelling q) = args.map (·.spelling p)) :
    q.operandText (.method (.applied s others)) = p.operandText (.method (.applied r args)) := by
  rw [Program.operandText,Program.operandText,MethodOperand.text,MethodOperand.text]
  simp only [alike.name,signatureText_congr alike.returns,signatureText_congr alike.declaring,
    texts_congr alike.params,texts_congr same]

theorem findMethod?_alike {d e : TypeId}
    (methods : Forall₂ (TwinMethods p q) (p.typeAt d).methods (q.typeAt e).methods) (name : s.name = r.name)
    (generics : s.generics = r.generics) (params : s.params.map (·.spelling q) = r.params.map (·.spelling p)) :
    q.findMethod? e s = (p.findMethod? d r).map fun m => ⟨e,m.position⟩ := by
  rw [findMethod?,findMethod?,methodsOf,methodsOf,find?_map,find?_map,Option.map_map,← methods.length_eq]
  congr 1
  refine find?_congr fun i among => ?_
  have here : i < (p.typeAt d).methods.length := mem_range.mp among
  have there : i < (q.typeAt e).methods.length := by rw [← methods.length_eq]; exact here
  have alike := Forall₂.get methods here there
  have first : p.methodAt ⟨d,i⟩ = (p.typeAt d).methods.get ⟨i,here⟩ :=
    methodAt_eq_of_getElem? (getElem?_eq_getElem here)
  have second : q.methodAt ⟨e,i⟩ = (q.typeAt e).methods.get ⟨i,there⟩ :=
    methodAt_eq_of_getElem? (getElem?_eq_getElem there)
  simp only [Function.comp_apply,first,second,alike.name,alike.generics,name,generics]
  congr 1
  rw [Bool.eq_iff_iff,sameSignatureList_iff_spellings,sameSignatureList_iff_spellings,alike.paramTypes,params]

namespace Kindred

variable {id id' : RefId} (kin : Kindred home p q)
include kin

theorem readMethodRef {s : String} {declaring declared : TypeRef} (alike : declaring.Alike p q declared)
    (here : p.Found home declaring) (there : q.Found home declared) {returnText : List Char} {member : MemberText}
    {r : MethodRef} (read : p.readMethodRef home s declaring returnText member id = .ok r) :
    ∃ r', q.readMethodRef home s declared returnText member id' = .ok r' ∧ RefAlike p q r r' := by
  obtain ⟨d,returns,texts,params,found,element,returnsRead,cut,paramsRead,lookup,rfl⟩ := readMethodRef_eq_ok.mp read
  obtain ⟨e,elementThere,names⟩ := element?_congr alike.spelled.symm element
  have first := here.element element
  have second := there.element elementThere
  rw [names] at second
  have scopes : ParamScope.Alike (p.signatureScope d member.arity.arity.toNat id)
      (q.signatureScope e member.arity.arity.toNat id') :=
    ⟨kin.typeParams first second,GenericParam.map_form_declare (a := .reference id') (b := .reference id) rfl _⟩
  obtain ⟨returns',returnsThere,returnsAlike⟩ := kin.readType scopes returnsRead
  obtain ⟨params',paramsThere,paramsAlike⟩ := exists_reads paramsRead fun text t read => kin.readType scopes read
  have spelled := map_eq_of_forall₂ (paramsAlike.imp fun _ _ alike => alike.spelled)
  have again := findMethod?_alike (r := sought member declaring returns params id)
    (s := sought member declared returns' params' id') (kin.twins _ d e first second).methods rfl rfl spelled
  rw [lookup] at again
  exact ⟨_,readMethodRef_eq_ok.mpr ⟨e,returns',texts,params',_,elementThere,returnsThere,cut,paramsThere,again,rfl⟩,
    rfl,alike.spelled,returnsAlike.spelled,spelled,rfl⟩

theorem readMethod (alike : scope.Alike other) {s : String} {o : MethodOperand} (read : p.readMethod home scope s id = .ok o) :
    ∃ o', q.readMethod home other s id' = .ok o' ∧ q.operandText (.method o') = p.operandText (.method o) := by
  obtain ⟨_,_,divided,_,_,cut,declaring,here,member,memberRead,r,refRead,read⟩ := readMethod_eq_ok.mp read
  obtain ⟨declared,there,declaringAlike⟩ := kin.readType alike here
  obtain ⟨r',refThere,refAlike⟩ := kin.readMethodRef declaringAlike (readType_found here) (readType_found there) refRead
  have again o last : q.readMethod home other s id' = .ok o :=
    readMethod_eq_ok.mpr ⟨_,_,divided,_,_,cut,declared,there,member,memberRead,r',refThere,last⟩
  split at read
  · next none => exact ⟨.plain r',again _ ((if_pos none).mpr rfl),read ▸ refAlike.operandText⟩
  · next some =>
    obtain ⟨args,argsRead,rfl⟩ := read
    obtain ⟨others,argsThere,both⟩ := exists_reads argsRead fun text t read => kin.readType alike read
    exact ⟨.applied r' others,again _ ((if_neg some).mpr ⟨others,argsThere,rfl⟩),
      refAlike.operandText_applied (map_eq_of_forall₂ (both.imp fun _ _ alike => alike.spelled))⟩

omit kin in
theorem isSome_field? (d : TypeDecl) (name : String) : (d.field? name).isSome = (d.fields.map FieldDecl.name).contains name := by
  rw [field?,Bool.eq_iff_iff,find?_isSome]
  simp

theorem readField (alike : scope.Alike other) {s : String} {f : FieldRef} (read : p.readField home scope s = .ok f) :
    ∃ f', q.readField home other s = .ok f' ∧ q.operandText (.field f') = p.operandText (.field f) := by
  obtain ⟨_,_,divided,_,name,cut,named,declaring,declaringRead,d,element,present,t,typeRead,rfl⟩ :=
    readField_eq_ok.mp read
  obtain ⟨declared,there,declaringAlike⟩ := kin.readType alike declaringRead
  obtain ⟨e,elementThere,names⟩ := element?_congr declaringAlike.spelled.symm element
  have first := (readType_found declaringRead).element element
  have second := (readType_found there).element elementThere
  rw [names] at second
  have scopes : ParamScope.Alike ⟨p.typeParams d,[]⟩ ⟨q.typeParams e,[]⟩ := ⟨kin.typeParams first second,rfl⟩
  obtain ⟨u,typeThere,typeAlike⟩ := kin.readType scopes typeRead
  rw [isSome_field?,← (kin.twins _ d e first second).fieldNames,← isSome_field?] at present
  refine ⟨_,readField_eq_ok.mpr ⟨_,_,divided,_,name,cut,named,declared,there,e,elementThere,present,u,typeThere,
    rfl⟩,?_⟩
  rw [operandText,operandText,FieldRef.text,FieldRef.text,
    signatureText_congr typeAlike.spelled,signatureText_congr declaringAlike.spelled]

theorem readInstruction (alike : scope.Alike other) {line : List Char} {i : Instruction} {label : Option String}
    (read : p.readInstruction home scope line id = .ok (i,label)) :
    ∃ j, q.readInstruction home other line id' = .ok (j,label) ∧ j.opcode = i.opcode ∧
      q.operandText j.operand = p.operandText i.operand := by
  obtain ⟨named,operand⟩ := readInstruction_eq_ok.mp read
  suffices there : ∃ o, OperandRead q home other _ id' i.opcode.operandKind o label ∧
      q.operandText o = p.operandText i.operand by
    obtain ⟨o,there,text⟩ := there
    exact ⟨⟨i.opcode,o⟩,readInstruction_eq_ok.mpr ⟨named,there⟩,rfl,text⟩
  generalize i.opcode.operandKind = kind, i.operand = o at operand
  cases operand with
  | none empty => exact ⟨_,.none empty,rfl⟩
  | int parsed => exact ⟨_,.int parsed,rfl⟩
  | text decoded => exact ⟨_,.text decoded,rfl⟩
  | branch filled => exact ⟨_,.branch filled,rfl⟩
  | type inner =>
    obtain ⟨u,there,alike⟩ := kin.readType alike inner
    exact ⟨_,.type there,by rw [operandText,operandText,text_congr alike.spelled]⟩
  | method inner =>
    obtain ⟨o',there,text⟩ := kin.readMethod alike inner
    exact ⟨_,.method there,text⟩
  | field inner =>
    obtain ⟨f',there,text⟩ := kin.readField alike inner
    exact ⟨_,.field there,text⟩

end Kindred
end Program
end Loom
