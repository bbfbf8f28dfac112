import Loom.Proofs.Kinship
import Loom.Proofs.Transcripts

/-!
Documents that are read in two programs. Two skeletons with the same names tell members that are written alike, and where
the members are written alike, so are the bodies.
-/
namespace Loom

open List Program TypeDecl
open GenericParam (form map_form_declare)
open Loom.Except (bind_eq_ok mapError_eq_ok)

namespace Document

variable {p q : Program} {home : ModuleId} {t : TypeId}

structure HeadersAlike (p q : Program) (t u : TypeId) : Prop where
  name : q.fullName u = p.fullName t
  flags : (q.typeAt u).flags = (p.typeAt t).flags
  generics : (q.typeAt u).generics = (p.typeAt t).generics

theorem HeadersAlike.typeParams {u : TypeId} (alike : HeadersAlike p q t u) :
    (q.typeParams u).map form = (p.typeParams t).map form := by
  rw [Program.typeParams,Program.typeParams,alike.generics]
  exact map_form_declare (a := .type u) (b := .type t) rfl _

theorem HeadersAlike.of_agree {p' q' : Program} {u : TypeId} (alike : HeadersAlike p q t u) (agree : Agree TypeDecl.header p p')
    (agree' : Agree TypeDecl.header q q') : HeadersAlike p' q' t u where
  name := by rw [agree.fullName_eq,agree'.fullName_eq]; exact alike.name
  flags := by
    have flags : (p'.typeAt t).flags = (p.typeAt t).flags := (agree.map TypeDecl.flags).view_eq t
    have flags' : (q'.typeAt u).flags = (q.typeAt u).flags := (agree'.map TypeDecl.flags).view_eq u
    rw [flags,flags']
    exact alike.flags
  generics := by rw [agree.generics_eq,agree'.generics_eq]; exact alike.generics

section

variable (kin : Kin home p q)
include kin

theorem readAttribute_alike {site : String} (other : String) {doc : AttributeDoc} {a : Attribute}
    (read : readAttribute p home site doc = .ok a) :
    ∃ b, readAttribute q home other doc = .ok b ∧
      (q.fullName b.type,b.args.map (·.written q)) = (p.fullName a.type,a.args.map (·.written p)) := by
  rw [readAttribute] at read ⊢
  obtain ⟨type,typeRead,read⟩ := bind_eq_ok.mp read
  obtain ⟨args,argsRead,⟨⟩⟩ := bind_eq_ok.mp read
  obtain ⟨type',typeThere,names⟩ := kin.readTypeName (mapError_eq_ok.mp typeRead)
  obtain ⟨args',argsThere,written⟩ := exists_reads (Except.mapM_eq_ok.mp argsRead) fun text x read =>
    kin.readAttributeArg (mapError_eq_ok.mp read)
  refine ⟨⟨type',args'⟩,bind_eq_ok.mpr ⟨type',mapError_eq_ok.mpr typeThere,bind_eq_ok.mpr ⟨args',
    Except.mapM_eq_ok.mpr (argsThere.imp fun _ _ read => mapError_eq_ok.mpr read),rfl⟩⟩,?_⟩
  rw [names,map_eq_of_forall₂ written]

theorem readBase_alike {u : TypeId} (alike : HeadersAlike p q t u) {text : String} {base : TypeRef}
    (read : readBase p home t text = .ok base) :
    ∃ base', readBase q home u text = .ok base' ∧ base'.spelling q = base.spelling p := by
  rw [readBase] at read ⊢
  split at read
  · next blank =>
    cases read
    rw [if_pos blank]
    refine ⟨_,rfl,?_⟩
    rw [defaultBase,defaultBase,isInterface,isInterface,isValueType,
      isValueType,alike.flags,alike.name]
    split
    · rfl
    · cases found : p.findType? home (if (p.typeAt t).flags.has .isValueType then "System.ValueType" else "System.Object") with
      | none => simp only [kin.missing _ found]; rfl
      | some d =>
        obtain ⟨e,there,-⟩ := kin.found _ d found
        simp only [there]
        rw [TypeRef.spelling,TypeRef.spelling,fullName_eq_of_findType? found there]
  · next filled =>
    rw [if_neg filled]
    have scopes : ParamScope.Alike ⟨p.typeParams t,[]⟩ ⟨q.typeParams u,[]⟩ := ⟨alike.typeParams,rfl⟩
    obtain ⟨v,there,alike⟩ := kin.readType scopes (mapError_eq_ok.mp read)
    exact ⟨v,mapError_eq_ok.mpr there,alike.spelled⟩

theorem signs_alike {id : MethodId} (other : MethodId) (alike : HeadersAlike p q id.owner other.owner) {doc : MethodDoc}
    {d : MethodDecl}
    (signs : Signs p home id doc d) : ∃ e, Signs q home other doc e ∧ TwinMethods p q d e := by
  have scopes : (methodScope p id doc.generics).Alike (methodScope q other doc.generics) :=
    ⟨alike.typeParams,map_form_declare (a := .method other) (b := .method id) rfl _⟩
  have returns : ∃ returns, Returns q home (methodScope q other doc.generics) doc.returns returns ∧
      returns.spelling q = d.returns.spelling p := by
    rcases signs.returns with ⟨empty,absent⟩ | ⟨filled,u,read,same⟩
    · exact ⟨.absent,.inl ⟨empty,rfl⟩,by rw [absent]; rfl⟩
    · obtain ⟨v,there,both⟩ := kin.readType scopes read
      refine ⟨_,.inr ⟨filled,v,there,rfl⟩,?_⟩
      rw [same,isVoid_congr both.spelled both.named]
      split
      · rfl
      · exact both.spelled
  obtain ⟨returns,returnsThere,returnsSame⟩ := returns
  obtain ⟨params,paramsThere,paramsSame⟩ := exists_reads (G := fun (x : ParamDoc) (y : Param) => y.name = x.name ∧
      q.readType home (methodScope q other doc.generics) x.type.toList = .ok y.type)
    (R := fun (x y : Param) => (y.name,y.type.spelling q) = (x.name,x.type.spelling p))
    signs.params fun x y read => by
      obtain ⟨v,there,both⟩ := kin.readType scopes read.2
      exact ⟨⟨x.name,v⟩,⟨rfl,there⟩,by rw [read.1,both.spelled]⟩
  obtain ⟨flags,flagsRead,flagsSame⟩ := signs.flags
  refine ⟨{ d with returns, params },⟨signs.name,⟨flags,flagsRead,flagsSame⟩,signs.native,signs.generics,returnsThere,
    paramsThere,signs.body⟩,rfl,rfl,rfl,rfl,returnsSame,map_eq_of_forall₂ paramsSame⟩

theorem tells_alike {pending other : PendingType} (doc : other.doc = pending.doc)
    (alike : HeadersAlike p q pending.id other.id) {d : TypeDecl} (tells : Tells p home pending d) :
    ∃ e, Tells q home other e ∧ Program.TwinTypes p q d e := by
  obtain ⟨⟨members,read,whole⟩,methods⟩ := tells
  obtain ⟨baseRead,interfacesRead,attributesRead,fieldsRead⟩ := readMembers_eq_ok.mp read
  have scopes : ParamScope.Alike ⟨p.typeParams pending.id,[]⟩ ⟨q.typeParams other.id,[]⟩ := ⟨alike.typeParams,rfl⟩
  obtain ⟨base,baseThere,baseSame⟩ := readBase_alike kin alike baseRead
  obtain ⟨interfaces,interfacesThere,interfacesSame⟩ := exists_reads interfacesRead fun text u read =>
    kin.readType scopes read
  obtain ⟨attributes,attributesThere,attributesSame⟩ := exists_reads attributesRead fun x a read =>
    readAttribute_alike kin (q.fullName other.id) read
  obtain ⟨fields,fieldsThere,fieldsSame⟩ := exists_reads (G := fun (x : FieldDoc) (f : FieldDecl) => f.name = x.name ∧
      q.readType home ⟨q.typeParams other.id,[]⟩ x.type.toList = .ok f.type ∧ f.isStatic = x.isStatic)
    (R := fun (f g : FieldDecl) => (g.name,g.type.spelling q,g.isStatic) = (f.name,f.type.spelling p,f.isStatic))
    fieldsRead fun x f read => by
      obtain ⟨v,there,both⟩ := kin.readType scopes read.2.1
      exact ⟨⟨x.name,v,x.isStatic⟩,⟨rfl,there,rfl⟩,by rw [read.1,read.2.2,both.spelled]⟩
  obtain ⟨ms,methodsThere,methodsSame⟩ := exists_reads methods fun x m signs =>
    signs_alike kin ⟨other.id,x.2⟩ alike signs
  let there : TypeMembers := ⟨base,interfaces,attributes,fields⟩
  refine ⟨{ there.onto (q.typeAt other.id) with methods := ms },⟨⟨there,?_,rfl⟩,?_⟩,?_⟩
  · rw [doc]
    exact readMembers_eq_ok.mpr ⟨baseThere,interfacesThere,attributesThere,fieldsThere⟩
  · rw [doc]
    exact methodsThere
  · have part {α : Type} (view : TypeDecl → α) : view d = view { members.onto (p.typeAt pending.id) with methods := d.methods } :=
      congrArg view whole
    refine ⟨?_,?_,?_,?_,?_,?_,methodsSame⟩
    · rw [part TypeDecl.flags]; exact alike.flags
    · rw [part TypeDecl.generics]; exact alike.generics
    · rw [part TypeDecl.base]; exact baseSame
    · rw [part TypeDecl.interfaces]; exact map_eq_of_forall₂ (interfacesSame.imp fun _ _ both => both.spelled)
    · rw [part TypeDecl.attributes]; exact map_eq_of_forall₂ attributesSame
    · rw [part TypeDecl.fields]; exact map_eq_of_forall₂ fieldsSame

end

/-- Transcripts whose instructions are written alike. -/
structure Transcript.Alike (p q : Program) (t u : Transcript) : Prop where
  labels : u.labels = t.labels
  items : List.Forall₂ (fun x y => y.2 = x.2 ∧ y.1.opcode = x.1.opcode ∧
    q.operandText y.1.operand = p.operandText x.1.operand) t.items u.items

section

variable {m n : MethodId} {scope other : ParamScope} {t u : Transcript}

theorem Transcript.read_alike (kin : Kindred home p q) (scopes : scope.Alike other) (alike : t.Alike p q u) {line : String}
    {t' : Transcript} (read : t.read p home m scope line = some t') :
    ∃ u', u.read q home n other line = some u' ∧ t'.Alike p q u' := by
  rw [Transcript.read] at read ⊢
  simp only at read ⊢
  split at read
  · split at read
    · cases read
    · next new =>
      cases read
      rw [alike.labels,if_neg new]
      exact ⟨_,rfl,by rw [alike.items.length_eq],alike.items⟩
  · split at read
    · next result parsed =>
      cases read
      obtain ⟨i,label⟩ := result
      obtain ⟨j,there,opcode,operand⟩ := kin.readInstruction scopes parsed
      rw [there]
      exact ⟨_,rfl,alike.labels,rel_append alike.items (.cons ⟨rfl,opcode,operand⟩ .nil)⟩
    · cases read

theorem Transcript.reads_alike (kin : Kindred home p q) (scopes : scope.Alike other) {lines : List String} (alike : t.Alike p q u)
    {t' : Transcript} (read : lines.foldlM (Transcript.read p home m scope) t = some t') :
    ∃ u', lines.foldlM (Transcript.read q home n other) u = some u' ∧ t'.Alike p q u' := by
  induction lines generalizing t u with
  | nil =>
    cases read
    exact ⟨u,rfl,alike⟩
  | cons line rest ih =>
    rw [foldlM_cons (m := Option)] at read ⊢
    obtain ⟨next,first,later⟩ := Option.bind_eq_some_iff.mp read
    obtain ⟨next',there,nextAlike⟩ := Transcript.read_alike kin scopes alike first
    obtain ⟨u',rest,whole⟩ := ih nextAlike later
    exact ⟨u',Option.bind_eq_some_iff.mpr ⟨next',there,rest⟩,whole⟩

theorem Transcript.Alike.closed (alike : t.Alike p q u) (closed : t.Closed) : u.Closed := by
  intro y among label waits
  rw [alike.labels,← alike.items.length_eq]
  obtain ⟨k,inside,rfl⟩ := getElem_of_mem among
  have before : k < t.items.length := by rw [alike.items.length_eq]; exact inside
  have same := Forall₂.get alike.items before inside
  exact closed _ (get_mem t.items ⟨k,before⟩) label (by rw [← same.1]; exact waits)

variable {pending : PendingMethod} {locals locals' : List TypeRef}

theorem recites_alike (kin : Kindred home p q) (recites : Recites p home pending locals t) (pending' : PendingMethod)
    (doc : pending'.doc = pending.doc) (owners : HeadersAlike p q pending.id.owner pending'.id.owner)
    (twins : TwinMethods p q (p.methodAt pending.id) (q.methodAt pending'.id)) :
    ∃ locals' u, Recites q home pending' locals' u ∧ locals'.map (·.spelling q) = locals.map (·.spelling p) ∧
      t.Alike p q u := by
  have scopes : (methodScope p pending.id (p.methodAt pending.id).generics).Alike
      (methodScope q pending'.id (q.methodAt pending'.id).generics) := by
    rw [twins.generics]
    exact ⟨owners.typeParams,map_form_declare (a := .method pending'.id) (b := .method pending.id) rfl _⟩
  obtain ⟨locals',localsThere,spelled⟩ := exists_reads recites.locals fun _ _ read => kin.readType scopes read
  obtain ⟨u,lines,alike⟩ := Transcript.reads_alike kin scopes (t := {}) (u := {}) ⟨rfl,.nil⟩ recites.lines
  refine ⟨locals',u,⟨?_,?_,?_,?_,alike.closed recites.closed⟩,map_eq_of_forall₂ (spelled.imp fun _ _ both => both.spelled),
    alike⟩
  · rw [MethodDecl.isAbstract,twins.flags]
    exact recites.concrete
  · rw [twins.native]
    exact recites.managed
  · rw [doc]
    exact localsThere
  · rw [doc]
    exact lines

end

end Document
end Loom
