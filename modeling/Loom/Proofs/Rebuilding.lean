import Loom.Proofs.Quotation
import Loom.Proofs.Refilling

/-!
Written again. A module that was read from the document of a legible one has the same document: types, members and bodies
are written alike, however far apart the two modules stand in the program.
-/
namespace Loom

open List Program
open TypeRef (isAbsent text_eq_spelling)

namespace Program

variable {p q : Program} {home target : ModuleId} {t : TypeId}

theorem buildType_stable {n k : Nat} (shallow : ¬p.Deep n t) (deeper : n ≤ k) :
    p.buildType home k t = p.buildType home n t := by
  induction n generalizing t k with
  | zero => exact absurd trivial shallow
  | succ n ih =>
    obtain ⟨k,rfl⟩ : ∃ j, k = j + 1 := ⟨k - 1,by omega⟩
    rw [buildType,buildType]
    have nested : ((p.typeAt t).nested.map fun u => some (p.buildType home k u)) =
        (p.typeAt t).nested.map fun u => some (p.buildType home n u) :=
      map_congr_left fun u member => by rw [ih (fun deep => shallow ⟨u,member,deep⟩) (by omega)]
    simp only [nested]

theorem buildMethod_eq {d d' : MethodDecl} (alike : MethodAlike p q d d') (bodies : Document.BodiesAlike p q d.body d'.body) :
    q.buildMethod d' = p.buildMethod d := by
  have flags := MethodFlags.names_congr alike.flags
  have returns : (if d'.returns.isVoid q then "" else d'.returns.text q) =
    if d.returns.isVoid p then "" else d.returns.text p := by
    rw [alike.void]
    split
    · rfl
    · next filled => exact TypeRef.text_congr (alike.returns (by simpa using filled))
  have params : (d'.params.map fun x => (⟨x.name,x.type.text q⟩ : ParamDoc)) = d.params.map fun x => ⟨x.name,x.type.text p⟩ := by
    have same := congrArg (map fun x : String × Spelling => (⟨x.1,x.2.text⟩ : ParamDoc)) alike.params
    simpa [text_eq_spelling,Function.comp_def] using same
  have common : (⟨d'.name,d'.flags.names,d'.generics,if d'.returns.isVoid q then "" else d'.returns.text q,
      d'.params.map fun x => ⟨x.name,x.type.text q⟩,d'.native,false,[],[]⟩ : MethodDoc) =
      ⟨d.name,d.flags.names,d.generics,if d.returns.isVoid p then "" else d.returns.text p,
        d.params.map fun x => ⟨x.name,x.type.text p⟩,d.native,false,[],[]⟩ := by
    rw [alike.name,flags,alike.generics,returns,params,alike.native]
  rw [buildMethod,buildMethod]
  cases body : d.body with
  | none =>
    have none' : d'.body = none := by
      rw [body] at bodies
      exact bodies
    rw [none']
    exact common
  | some b =>
    rw [body] at bodies
    obtain ⟨c,body',same⟩ := bodies
    have locals : c.locals.map (·.text q) = b.locals.map (·.text p) := by
      have same := congrArg (map Spelling.text) same.locals
      simpa [text_eq_spelling,Function.comp_def] using same
    rw [body']
    exact congrArg₂ (fun (doc : MethodDoc) (rest : Bool × List String × List String) =>
      { doc with initLocals := rest.1, locals := rest.2.1, body := rest.2.2 }) common
      (by rw [same.initLocals,locals,same.lines] : (c.initLocals,c.locals.map (·.text q),q.bodyLines c) = _)

theorem any_isAbsent_congr {ts us : List TypeRef} (same : us.map (·.spelling q) = ts.map (·.spelling p)) :
    us.any isAbsent = ts.any isAbsent := by
  have shown : ∀ (r : Program) (v : TypeRef), v.isAbsent = match v.spelling r with
      | .absent => true
      | _ => false := fun r v => by cases v <;> rfl
  have whole : ∀ (r : Program) (vs : List TypeRef), vs.any isAbsent = (vs.map (·.spelling r)).any fun
      | .absent => true
      | _ => false := fun r vs => by rw [any_map]; exact congrArg vs.any (funext fun v => shown r v)
  rw [whole q us,whole p ts,same]

end Program

namespace Document

theorem BodiesAlike.locals {p q : Program} {o o' : Option Body} (alike : BodiesAlike p q o o') :
    ((o'.map Body.locals).getD []).map
      (·.spelling q) = ((o.map Body.locals).getD []).map (·.spelling p) := by
  cases o with
  | none => rw [alike]; rfl
  | some b =>
    obtain ⟨c,rfl,alike⟩ := alike
    exact alike.locals

variable {p q r : Program} {home target : ModuleId} {t : TypeId}

section

variable (legible : Legible p home) (filled : Refilled p home target q)
include filled

theorem Refilled.methods (member : t ∈ p.allTypes home) :
    Forall₂ (fun d d' => MethodAlike p q d d' ∧ BodiesAlike p q d.body d'.body) (p.typeAt t).methods
      (q.typeAt (p.copy home t)).methods := by
  have signatures := (filled.revived.restored t member).methods
  rw [forall₂_iff_get] at signatures ⊢
  obtain ⟨length,each⟩ := signatures
  refine ⟨length,fun i first second => ⟨each i first second,?_⟩⟩
  have here : p.methodAt ⟨t,i⟩ = (p.typeAt t).methods.get ⟨i,first⟩ :=
    methodAt_eq_of_getElem? (getElem?_eq_getElem first)
  have there : q.methodAt ⟨p.copy home t,i⟩ = (q.typeAt (p.copy home t)).methods.get ⟨i,second⟩ :=
    methodAt_eq_of_getElem? (getElem?_eq_getElem second)
  rw [← here,← there]
  exact filled.bodies t member ⟨t,i⟩ (mem_methodsOf.mpr ⟨rfl,first⟩)

/-- The copy of a type has its document if the copies of the types nested in it have theirs. -/
theorem Refilled.buildType_step (member : t ∈ p.allTypes home) {k : Nat}
    (inner : ∀ u ∈ (p.typeAt t).nested, q.buildType target k (p.copy home u) = p.buildType home k u) :
    q.buildType target (k + 1) (p.copy home t) = { p.buildType home (k + 1) t with space := p.spaceText home t } := by
  have mirrors := filled.revived.mirrors
  have restored := filled.revived.restored t member
  have nested : ((q.typeAt (p.copy home t)).nested.map fun u => some (q.buildType target k u)) =
      (p.typeAt t).nested.map fun u => some (p.buildType home k u) := by
    rw [mirrors.nested t member,map_map]
    exact map_congr_left fun u among => congrArg some (inner u among)
  have interfaces : (q.typeAt (p.copy home t)).interfaces.map (·.text q) = (p.typeAt t).interfaces.map (·.text p) := by
    have same := congrArg (map Spelling.text) restored.interfaces
    simpa [text_eq_spelling,Function.comp_def] using same
  have fields : ((q.typeAt (p.copy home t)).fields.map fun f => (⟨f.name,f.type.text q,f.isStatic⟩ : FieldDoc)) =
      (p.typeAt t).fields.map fun f => ⟨f.name,f.type.text p,f.isStatic⟩ := by
    have same := congrArg (map fun x : String × Spelling × Bool => (⟨x.1,x.2.1.text,x.2.2⟩ : FieldDoc)) restored.fields
    simpa [text_eq_spelling,Function.comp_def] using same
  have methods : (q.typeAt (p.copy home t)).methods.map q.buildMethod = (p.typeAt t).methods.map p.buildMethod :=
    map_eq_of_forall₂ ((filled.methods member).imp fun _ _ both => buildMethod_eq both.1 both.2)
  have base := restored.base
  rw [baseText,baseText] at base
  rw [buildType,buildType]
  simp only
  rw [mirrors.space t member,mirrors.name t member,TypeFlags.names_congr (mirrors.flags t member),mirrors.generics t member,
    base,interfaces,restored.attributes,fields,methods,nested]

include legible

theorem Refilled.buildType_inner (member : t ∈ p.allTypes home) (inner : t ∉ (p.moduleAt home).types) (k : Nat) :
    q.buildType target k (p.copy home t) = p.buildType home k t := by
  have formed := legible.orderly.formed
  induction k generalizing t with
  | zero => rfl
  | succ k ih =>
    rw [filled.buildType_step member fun u nested => ih
        (mem_allTypes_of_nested formed.grounded formed.nests formed.listed member nested)
        (legible.orderly.nested_not_top (legible.orderly.inside member) nested),
      spaceText,if_neg fun both => inner both.1]
    rfl

theorem Refilled.buildTopLevel_eq (top : t ∈ (p.moduleAt home).types) :
    q.buildTopLevel target (p.copy home t) = p.buildTopLevel home t := by
  have formed := legible.orderly.formed
  have mirrors := filled.revived.mirrors
  have member := mem_allTypes_of_top formed.listed top
  have whole : q.buildType target (q.types.size + 1) (p.copy home t) =
      { p.buildType home (p.types.size + 1) t with space := p.spaceText home t } := by
    have shallow := not_deep formed.grounded formed.nests (legible.orderly.inside member)
    rw [filled.buildType_step member fun u nested => filled.buildType_inner legible
        (mem_allTypes_of_nested formed.grounded formed.nests formed.listed member nested)
        (legible.orderly.nested_not_top (legible.orderly.inside member) nested) _,
      buildType_stable (fun deep => shallow deep.pred) (Nat.succ_le_succ mirrors.size_le)]
  rw [buildTopLevel,buildTopLevel,whole,mirrors.declaring t member]
  cases declaring : (p.typeAt t).declaring with
  | none =>
    rw [Option.map_none,spaceText,if_neg (by simp [declaring])]
    rfl
  | some outer =>
    rw [Option.map_some]
    simp only
    rw [mirrors.names outer (legible.orderly.declaring_mem member declaring)]

omit legible in
theorem Refilled.hasMissingType_eq (member : t ∈ p.allTypes home) :
    q.hasMissingType (p.copy home t) = p.hasMissingType t := by
  have restored := filled.revived.restored t member
  have methods : ((q.typeAt (p.copy home t)).methods.flatMap fun m => m.paramTypes ++ (m.body.map Body.locals).getD []).map
      (·.spelling q) =
      ((p.typeAt t).methods.flatMap fun m => m.paramTypes ++ (m.body.map Body.locals).getD []).map (·.spelling p) := by
    rw [map_flatMap,map_flatMap,flatMap_def,flatMap_def]
    refine congrArg flatten (map_eq_of_forall₂ ((filled.methods member).imp fun d d' both => ?_))
    rw [map_append,map_append,both.1.paramTypes,both.2.locals]
  have fields : ((q.typeAt (p.copy home t)).fields.map FieldDecl.type).map (·.spelling q) =
      ((p.typeAt t).fields.map FieldDecl.type).map (·.spelling p) := by
    have same := congrArg (map fun x : String × Spelling × Bool => x.2.1) restored.fields
    simpa [Function.comp_def] using same
  rw [hasMissingType,hasMissingType]
  refine any_isAbsent_congr (p := p) (q := q) ?_
  rw [map_append,map_append,map_append,map_append,restored.interfaces,fields,methods]

theorem Refilled.build?_eq
    (same : q.moduleAt target = { p.moduleAt home with types := (p.moduleAt home).types.map (p.copy home) }) :
    q.build? target = p.build? home := by
  have missing : (q.allTypes target).any q.hasMissingType = (p.allTypes home).any p.hasMissingType := by
    rw [filled.revived.mirrors.walk,any_map]
    exact Bool.eq_iff_iff.mpr (by
      simp only [any_eq_true,Function.comp_apply]
      exact exists_congr fun t => and_congr_right fun member => by rw [filled.hasMissingType_eq member])
  have tops : (((p.moduleAt home).types.map (p.copy home)).map fun t => some (q.buildTopLevel target t)) =
      (p.moduleAt home).types.map fun t => some (p.buildTopLevel home t) := by
    rw [map_map]
    exact map_congr_left fun t top => congrArg some (filled.buildTopLevel_eq legible top)
  rw [build?,build?,missing,same]
  simp only [tops]

end

theorem hasMissingType_eq_false (formed : p.WellFormed) (inside : t.index < p.types.size) : p.hasMissingType t = false := by
  have members := (formed.types t inside).members
  have present : ∀ {scope u}, p.Formed scope u → u.isAbsent = false := by
    intro scope u formed
    cases u with
    | absent => exact (formed _ (TypeRef.mem_parts_self _)).elim
    | _ => rfl
  rw [hasMissingType,any_eq_false]
  simp only [mem_append,mem_map,mem_flatMap,Bool.not_eq_true]
  rintro u ((among | ⟨f,field,rfl⟩) | ⟨d,method,among⟩)
  · exact present (members.interfaces u among)
  · exact present (members.fields f field)
  · rw [← methods_eq] at method
    obtain ⟨m,owned,rfl⟩ := mem_map.mp method
    rcases among with among | among
    · exact present ((members.methods m (mem_methodsOf.mp owned).1).params u among)
    · cases body : (p.methodAt m).body with
      | none => simp [body] at among
      | some b =>
        rw [body] at among
        exact present ((formed.body body).locals u among)

theorem readVersion_written {name : String} {docs : List (Option TypeDoc)} {o : Option Version}
    (sized : ∀ v, o = some v → v.octets.length = 16) :
    readVersion ⟨name,(o.map Version.text).getD "",docs⟩ = .ok o := by
  rw [readVersion]
  cases o with
  | none => rfl
  | some v =>
    have read := Version.parse_text (sized v rfl)
    have filled : v.text ≠ "" := by
      intro empty
      rw [empty] at read
      cases read
    simp [filled,read]

/-- A legible module has a document. Linked against the modules that it refers to, the document gives a module again, and
    that has the same document. -/
theorem relinks (legible : Legible p home) :
    ∃ d, p.build? home = some d ∧ ∃ target q, d.link p (p.moduleAt home).references = .ok (target,q) ∧
      q.build? target = some d := by
  let m : ModuleDecl :=
    { name := (p.moduleAt home).name
      version := (p.moduleAt home).version
      references := (p.moduleAt home).references }
  obtain ⟨pending,declared,r,declares,binds,checked,mirrors,each,here⟩ :=
    types_read (m := m) legible.orderly legible.references rfl rfl
  have sketched := sketched_of_run (m := m) legible.orderly.formed rfl declares binds checked
  obtain ⟨s,membersRead,populated,revived⟩ := members_read legible mirrors sketched each
  obtain ⟨q,bodiesRead,modules,filled⟩ := bodies_read each legible sketched populated revived
  have same : q.moduleAt (p.addModule m).1 = { p.moduleAt home with types := (p.moduleAt home).types.map (p.copy home) } := by
    rw [moduleAt,modules,populated.modules_eq]
    exact here
  have built : p.build? home = some
      ⟨(p.moduleAt home).name,((p.moduleAt home).version.map Version.text).getD "",
        (p.moduleAt home).types.map fun t => some (p.buildTopLevel home t)⟩ := by
    rw [build?,if_neg]
    simp only [any_eq_true,not_exists,not_and,Bool.not_eq_true]
    exact fun t member => hasMissingType_eq_false legible.orderly.formed (legible.orderly.inside member)
  exact ⟨_,built,(p.addModule m).1,q,link_of_phases legible.named (readVersion_written legible.version) declares binds checked
    membersRead bodiesRead,(filled.build?_eq legible same).trans built⟩

end Document
end Loom
